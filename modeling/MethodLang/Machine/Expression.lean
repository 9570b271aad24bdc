import MethodLang.Builtin
import MethodLang.Machine.Action
import MethodLang.Machine.Frame
import MethodLang.Machine.Operator
import MethodLang.Operation.Basic
import MethodLang.Text.Integer

/-!
Code of operations. An operation with a value leaves one word on the stack; its operands are
computed from left to right. What was written before a fault is kept.
-/
namespace MethodLang

/-- What an operation's code depends on: where variables are, and which functions have results.
An empty table of results stands for the builtins. -/
structure CodeContext where
  frame : Frame
  results : TypeTable
  deriving Repr, Inhabited

def CodeContext.hasResult (c : CodeContext) (function : String) : Bool :=
  if c.results.isEmpty then Builtin.returnsValue function
  else (c.results.lookup function).join.isSome

namespace Literal

def pushed (n : Int) (kind text : String) : Line :=
  .noted (.push (.decimal n)) 1 (kind ++ " = " ++ text)

/-- Pushes a number that was read from the text. -/
def number (kind text : String) (value : Option Int) : Code :=
  match value with
  | some n =>
    if (Text.writeInteger? n).isSome then .write [pushed n kind text] else .stop .unreadableNumber
  | none => .stop .unreadableNumber

/-- Stores a character of a string whose array is on top of the stack. -/
def storeChar (c : Char) (i : Nat) : List Line :=
  [.code .dup, .code (.push (.decimal i)), .code (.binary .add),
    pushed c.toNat "char" (String.singleton c), .code (.store (some .byte))]

/-- Makes an array of bytes and fills it. -/
def string (cs : List Char) : List Line :=
  pushed cs.length "string" (String.ofList cs) :: .code (.call "byte") ::
    cs.zipIdx.flatMap fun (c, i) => storeChar c i

/-- The code of a literal. Of an unknown kind nothing is written; `_` is no kind at all. -/
def code (kind text : String) : Code :=
  match kind with
  | "bool" =>
    let text := Text.lower text
    .write [pushed (if text = "false" then 0 else 1) kind text]
  | "char" =>
    match text.toList[1]? with
    | some c => .write [pushed c.toNat kind text]
    | none => .stop .shortLiteral
  | "hex" => number kind text (Text.readInteger 16 (text.toList.drop 2))
  | "bits" => number kind text (Text.readInteger 2 (text.toList.drop 2))
  | "dec" => number kind text (Text.readInteger 10 text.toList)
  | "str" => .write (string (text.toList.drop 1).dropLast)
  | "_" => .stop (.unknownLiteral kind)
  | _ => .nothing

end Literal

namespace Code

/-- Writes with the slot of a variable. -/
def withSlot (c : CodeContext) (name : String) (write : Slot → Code) : Code :=
  match c.frame.slot? name with
  | some slot => write slot
  | none => stop (.unknownVariable name)

def narrow (type : Option TypeName) : Code :=
  match type with
  | some type => write (Line.narrow type)
  | none => nothing

/-- A binary operator: `leftType` decides between signed and unsigned comparison, `type` is the
type of the result. -/
def binary (op : String) (leftType type : Option TypeName) (left right : Code) : Code :=
  left ++ right ++
    match BinaryInstr.ofOperator? (leftType.any TypeName.isUnsigned) op with
    | some i => instr (.binary i) ++ (if i.isArithmetic then narrow type else nothing)
    | none => stop (.unknownBinary op)

def unary (op : String) (type : Option TypeName) (operand : Code) : Code :=
  operand ++
    match UnaryInstr.ofOperator? op with
    | some .complement => instr (.unary .complement) ++ narrow type
    | some i => instr (.unary i)
    | none => stop (.unknownUnary op)

/-- Reads the element at an index. -/
def index (type : Option TypeName) (array position : Code) : Code :=
  let width := type >>= Width.ofType?
  array ++ position ++ write (Line.scale width) ++ instr (.binary .add) ++ instr (.load width) ++
    write (if type = some "int" then Line.extendSign else [])

/-- The type of the elements of an array: the last word of the array's type. -/
def elementOf (type : TypeName) : TypeName :=
  String.ofList (type.toList.reverse.takeWhile (· != ' ')).reverse

/-- Writes the element at an index. The variable's type gives the distance between elements, the
operation's type the width that is stored. -/
def storeAt (c : CodeContext) (name : String) (type : Option TypeName) (position value : Code) : Code :=
  withSlot c name fun slot =>
    instr (.loadFrame slot.offset) ++ position ++
      match slot.type with
      | none => stop .untypedVariable
      | some array =>
        write (Line.scale (Width.ofType? (elementOf array))) ++ instr (.binary .add) ++ value ++
          instr (.store (type >>= Width.ofType?))

/-- Calls a function. Its result takes the place of the last argument, or of a placeholder; the
other arguments are dropped from below it. -/
def call (c : CodeContext) (function : String) (arguments : List Code) : Code :=
  let result := c.hasResult function
  join arguments ++
    write (if arguments.isEmpty && result then
      [Line.noted (.push (.decimal 0)) 2 "for return value"] else []) ++
    instr (.call function) ++
    write (if result then
      (List.replicate (arguments.length - 1) [Line.code .swap, Line.code .drop]).flatten
      else List.replicate arguments.length (Line.code .drop))

/-- The code of a node, given its operands beside their code. -/
def ofNode (c : CodeContext) (label : String) (type : Option TypeName)
    (operands : List (Operation × Code)) : Code :=
  match Action.ofLabel? label, operands with
  | some (.store name), [(_, value)] =>
    value ++ withSlot c name fun slot => instr (.storeFrame slot.offset)
  | some (.binary op), [(left, leftCode), (_, rightCode)] =>
    binary op left.note type leftCode rightCode
  | some (.unary op), [(_, operand)] => unary op type operand
  | some .index, [(_, array), (_, position)] => index type array position
  | some (.load name), [] => withSlot c name fun slot => instr (.loadFrame slot.offset)
  | some (.storeAt name), [(_, position), (_, value)] => storeAt c name type position value
  | some (.call function), arguments => call c function (arguments.map (·.2))
  | some (.literal kind text), [] => Literal.code kind text
  | some _, _ => stop .wrongArity
  | none, _ => stop (.unknownOperation label)

end Code

namespace Operation

def code (c : CodeContext) (op : Operation) : Code := op.compute (Code.ofNode c)

/-- The code of an operation read as a binary operator, whatever its label. -/
def codeAsBinary (c : CodeContext) (operator : String) (op : Operation) : Code :=
  match op.children with
  | [left, right] => Code.binary operator left.note op.note (code c left) (code c right)
  | _ => .stop .wrongArity

/-- The code of an operation read as a unary operator, whatever its label. -/
def codeAsUnary (c : CodeContext) (operator : String) (op : Operation) : Code :=
  match op.children with
  | [operand] => Code.unary operator op.note (code c operand)
  | _ => .stop .wrongArity

/-- An operand that is left out: no type and no code. -/
def missing : Operation := leaf "const(none())"

end Operation

end MethodLang
