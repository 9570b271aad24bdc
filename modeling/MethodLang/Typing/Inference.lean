import MethodLang.Typing.Mark
import MethodLang.Typing.Role
import MethodLang.Typing.TypeError

/-!
The types of operations. Operators take operands of one type only; an untyped number takes the
type of the other operand, of the variable it is assigned to, or of the parameter it is given for.

The checker of a node is put together from the checkers of its children. Each takes the node as
it stands and gives it back with the types that were settled on the way.
-/
namespace MethodLang

/-- A type that may be missing, the errors found, and the node as it stands now. -/
structure Inference where
  type : Option TypeName
  errors : List TypeError
  node : Marked
  deriving Inhabited

/-- What can be asked of a node. -/
structure Checker where
  /-- Its type, with the errors below it. -/
  infer : Marked → Inference
  /-- To settle it and all below it, given the type its surroundings ask for. -/
  settle : Option TypeName → Marked → Marked
  /-- To settle its children, given its own type. -/
  spread : Option TypeName → Marked → Marked
  /-- To give it a type, and those below it that have none. -/
  fill : Marked → Marked
  deriving Inhabited

namespace Checker

/-- Infers the child of the given index; its errors are seen from the node. -/
def inferChild (kids : List Checker) (i : Nat) (t : Marked) : Inference :=
  match kids[i]?, t.children[i]? with
  | some kid, some c =>
    let r := kid.infer c
    ⟨r.type, r.errors.map (TypeError.under i), t.setChildren (t.children.set i r.node)⟩
  | _, _ => ⟨none, [], t⟩

/-- Changes the child of the given index. -/
def onChild (kids : List Checker) (i : Nat) (f : Checker → Marked → Marked) (t : Marked) : Marked :=
  match kids[i]?, t.children[i]? with
  | some kid, some c => t.setChildren (t.children.set i (f kid c))
  | _, _ => t

def settleChild (kids : List Checker) (type : Option TypeName) (i : Nat) (t : Marked) : Marked :=
  onChild kids i (fun kid => kid.settle type) t

def markChild (type : Option TypeName) (i : Nat) (t : Marked) : Marked :=
  t.setChildren (t.children.modify i (Marked.settleAs type))

def childSettled (i : Nat) (t : Marked) : Option TypeName :=
  t.children[i]? >>= Marked.settledType

/-- An error at the node itself. -/
def here (cause : TypeCause) : TypeError := ⟨cause, []⟩

/-- An error at a child. -/
def atChild (i : Nat) (cause : TypeCause) : TypeError := ⟨cause, [i]⟩

/-- An error if the child gives no value. -/
def voidError (type : Option TypeName) (i : Nat) (use : ValueUse) : List TypeError :=
  if type.isNone then [atChild i (.noValue use)] else []

def inferConst (label : String) (literal : Option (String × String)) (t : Marked) : Inference :=
  match literal with
  | some (kind, _) => ⟨some (TypeName.ofLiteral kind), [], t⟩
  | none => ⟨none, [here (.unreadableConst label)], t⟩

def inferLoad (s : Scope) (label : String) (name : Option String) (t : Marked) : Inference :=
  match name with
  | some name =>
    match s.variableType name with
    | some type => ⟨some type, [], t⟩
    | none => ⟨none, [here (.unknownVariable name)], t⟩
  | none => ⟨none, [here (.unreadableLoad label)], t⟩

/-- Infers children one after the other, for their errors. -/
def inferEach (kids : List Checker) : List Nat → Marked → List TypeError × Marked
  | [], t => ([], t)
  | i :: rest, t =>
    let r := inferChild kids i t
    let (errors, t) := inferEach kids rest r.node
    (r.errors ++ errors, t)

/-- Checks the argument of the given index against its parameter. -/
def checkArgument (kids : List Checker) (function : String) (i : Nat)
    (parameter : String × Option TypeName) (t : Marked) : List TypeError × Marked :=
  let r := inferChild kids i t
  let missing := voidError r.type i (.argument parameter.1 function)
  match r.type, parameter.2.map TypeName.normalize with
  | some given, some expected =>
    if TypeName.isUntyped given && TypeName.isNumeric expected then
      (r.errors ++ missing, markChild (some expected) i r.node)
    else if given ≠ expected then
      (r.errors ++ missing ++
        [atChild i (.argumentType parameter.1 function expected (TypeName.resolve given))], r.node)
    else (r.errors ++ missing, r.node)
  | _, _ => (r.errors ++ missing, r.node)

/-- Checks arguments from the given index on, as far as there are both. -/
def checkArguments (kids : List Checker) (function : String) :
    Nat → TypeTable → Marked → List TypeError × Marked
  | _, [], t => ([], t)
  | i, parameter :: rest, t =>
    if i < t.children.length then
      let (errors, t) := checkArgument kids function i parameter t
      let (more, t) := checkArguments kids function (i + 1) rest t
      (errors ++ more, t)
    else ([], t)

def checkCall (s : Scope) (kids : List Checker) (function : String) (t : Marked) :
    List TypeError × Marked :=
  if !s.results.has function then
    let (errors, t) := inferEach kids (List.range t.children.length) t
    (here (.unknownFunction function) :: errors, t)
  else
    let parameters := s.parameters function
    let count :=
      if t.children.length = parameters.length then []
      else [here (.argumentCount function parameters.length t.children.length)]
    let (errors, t) := checkArguments kids function 0 parameters t
    (count ++ errors, t)

def inferCall (s : Scope) (kids : List Checker) (label : String) (name : Option String)
    (t : Marked) : Inference :=
  match name with
  | some function =>
    let (errors, t) := checkCall s kids function t
    ⟨s.resultType function, errors, t⟩
  | none => ⟨none, [here (.unreadableCall label)], t⟩

/-- The right side is settled first if the variable is numeric, so that numbers in it take the
variable's type. -/
def inferStore (s : Scope) (kids : List Checker) (name : Option String) (t : Marked) : Inference :=
  match name with
  | none => ⟨none, [], t⟩
  | some name =>
    if t.children.isEmpty then ⟨none, [], t⟩
    else match s.variableType name with
      | none => ⟨none, [here (.unknownTarget name)], t⟩
      | some expected =>
        let t := if TypeName.isNumeric expected then settleChild kids (some expected) 0 t else t
        let r := inferChild kids 0 t
        match r.type with
        | none => ⟨none, r.errors ++ voidError none 0 (.assigned name), r.node⟩
        | some given =>
          let mismatch :=
            match childSettled 0 r.node with
            | some settled =>
              if settled ≠ expected then [here (.assignment name expected settled)] else []
            | none =>
              if expected ≠ given then
                [here (.assignment name expected (TypeName.resolve given))]
              else []
          ⟨some expected, r.errors ++ mismatch, r.node⟩

/-- An index must be an `int` or an untyped number. -/
def indexError (type : Option TypeName) (i : Nat) (use : ValueUse) : List TypeError :=
  match type with
  | none => voidError none i use
  | some given =>
    if given ≠ "int" && !TypeName.isUntyped given then
      [atChild i (.badIndex (TypeName.resolve given))]
    else []

def inferIndices (kids : List Checker) (use : ValueUse) :
    List Nat → Marked → List TypeError × Marked
  | [], t => ([], t)
  | i :: rest, t =>
    let r := inferChild kids i t
    let (errors, t) := inferIndices kids use rest r.node
    (r.errors ++ indexError r.type i use ++ errors, t)

/-- The value is the last child, the indices are those before it. -/
def inferElements (kids : List Checker) (array : String) (element : Option TypeName) (t : Marked) :
    Inference :=
  let last := t.children.length - 1
  let (errors, t) := inferIndices kids (.storedIndex array) (List.range last) t
  let r := inferChild kids last t
  let errors := errors ++ r.errors ++ voidError r.type last (.storedValue array)
  match r.type, element with
  | some given, some expected =>
    if TypeName.isUntyped given && TypeName.isNumeric expected then
      ⟨element, errors, markChild (some expected) last r.node⟩
    else if given ≠ expected then
      ⟨element, errors ++ [here (.element array expected (TypeName.resolve given))], r.node⟩
    else ⟨element, errors, r.node⟩
  | _, _ => ⟨element, errors, r.node⟩

def inferStoreAt (s : Scope) (kids : List Checker) (name : Option String) (t : Marked) :
    Inference :=
  match name with
  | none => ⟨none, [], t⟩
  | some array =>
    if t.children.isEmpty then ⟨none, [], t⟩
    else match s.variableType array with
      | none => ⟨none, [here (.unknownArray array)], t⟩
      | some type =>
        if !TypeName.isArray type then ⟨none, [here (.notArray array type)], t⟩
        else if t.children.length < 2 then ⟨none, [here .storeOperands], t⟩
        else inferElements kids array ((TypeName.element? type).map TypeName.normalize) t

def inferIndex (kids : List Checker) (t : Marked) : Inference :=
  if t.children.length ≠ 2 then ⟨none, [here .indexOperands], t⟩
  else
    let base := inferChild kids 0 t
    let index := inferChild kids 1 base.node
    let errors := base.errors ++ index.errors ++ indexError index.type 1 .index
    match base.type with
    | none => ⟨none, errors, index.node⟩
    | some type =>
      if !TypeName.isArray type then
        ⟨none, errors ++ [atChild 0 (.notIndexable type)], index.node⟩
      else ⟨(TypeName.element? type).map TypeName.normalize, errors, index.node⟩

/-- Whether an operand's type is one that the operator takes. -/
def allowed (operands : Operands) (type : Option TypeName) : Bool := type.any operands.takes

def operandError (op : String) (operands : Operands) (i : Nat) (type : Option TypeName) :
    List TypeError :=
  if allowed operands type then []
  else [atChild i (.operandType op (type.map TypeName.resolve) operands)]

/-- Both operand types behind the check: the common one if there is one. -/
structure BinaryCheck where
  left : Option TypeName
  right : Option TypeName
  errors : List TypeError
  node : Marked

/-- Untyped numbers among the operands are settled in the common type. -/
def checkBinary (kids : List Checker) (op : String) (operands : Operands) (t : Marked) :
    BinaryCheck :=
  if t.children.length ≠ 2 then ⟨none, none, [here (.operandCount op)], t⟩
  else
    let left := inferChild kids 0 t
    let right := inferChild kids 1 left.node
    let errors := left.errors ++ right.errors ++
      voidError left.type 0 (.leftOperand op) ++ voidError right.type 1 (.rightOperand op) ++
      operandError op operands 0 left.type ++ operandError op operands 1 right.type
    if !allowed operands left.type || !allowed operands right.type then
      ⟨none, none, errors, right.node⟩
    else match left.type, right.type with
      | some l, some r =>
        match TypeName.unify (some l) (some r) with
        | none =>
          ⟨some l, some r,
            errors ++ [here (.operandMismatch op (TypeName.resolve l) (TypeName.resolve r))],
            right.node⟩
        | some common =>
          let t := if TypeName.isUntyped l then markChild (some common) 0 right.node else right.node
          let t := if TypeName.isUntyped r then markChild (some common) 1 t else t
          ⟨some common, some common, errors, t⟩
      | l, r => ⟨l, r, errors, right.node⟩

/-- The operands are inferred on their own first: if both are untyped, so is the result. -/
def inferArithmetic (kids : List Checker) (op : String) (t : Marked) : Inference :=
  if t.children.length ≠ 2 then ⟨none, [here (.operandCount op)], t⟩
  else
    let left := inferChild kids 0 t
    let right := inferChild kids 1 left.node
    let check := checkBinary kids op .numbers right.node
    let errors := left.errors ++ right.errors ++ check.errors
    match TypeName.firstOf check.left check.right with
    | none => ⟨none, errors, check.node⟩
    | some type =>
      if left.type.any TypeName.isUntyped && right.type.any TypeName.isUntyped && type == "int" then
        ⟨some TypeName.untyped, errors, check.node⟩
      else ⟨some (TypeName.resolve type), errors, check.node⟩

def inferBitwise (kids : List Checker) (op : String) (t : Marked) : Inference :=
  let check := checkBinary kids op .integers t
  ⟨(TypeName.firstOf check.left check.right).map TypeName.resolve, check.errors, check.node⟩

/-- Logical and comparing operators give a truth value whatever their operands are. -/
def inferTruth (kids : List Checker) (op : String) (operands : Operands) (t : Marked) : Inference :=
  let check := checkBinary kids op operands t
  ⟨some "bool", check.errors, check.node⟩

def inferNegation (kids : List Checker) (op : String) (t : Marked) : Inference :=
  if t.children.length ≠ 1 then ⟨none, [here (.unaryCount op)], t⟩
  else
    let r := inferChild kids 0 t
    let errors :=
      match r.type with
      | none => voidError none 0 (.operand op)
      | some given => if given ≠ "bool" then [atChild 0 (.notTruthValue op given)] else []
    ⟨some "bool", r.errors ++ errors, r.node⟩

def inferInversion (kids : List Checker) (op : String) (t : Marked) : Inference :=
  if t.children.length ≠ 1 then ⟨none, [here (.unaryCount op)], t⟩
  else
    let r := inferChild kids 0 t
    let errors :=
      match r.type with
      | none => voidError none 0 (.operand op)
      | some given =>
        if Operands.integers.takes given then [] else [atChild 0 (.notInteger op given)]
    ⟨r.type, r.errors ++ errors, r.node⟩

def inferRole (s : Scope) (kids : List Checker) (label : String) (t : Marked) : Inference :=
  match Role.ofLabel label with
  | .const literal => inferConst label literal t
  | .load name => inferLoad s label name t
  | .call name => inferCall s kids label name t
  | .store name => inferStore s kids name t
  | .storeAt name => inferStoreAt s kids name t
  | .index => inferIndex kids t
  | .arithmetic => inferArithmetic kids label t
  | .bitwise => inferBitwise kids label t
  | .logical => inferTruth kids label .truthValues t
  | .comparison => inferTruth kids label .comparable t
  | .negation => inferNegation kids label t
  | .inversion => inferInversion kids label t
  | .unknown => ⟨none, [here (.unknownNode label)], t⟩

/-- A settled node answers at once. -/
def inferNode (s : Scope) (kids : List Checker) (label : String) (t : Marked) : Inference :=
  match t.settledType with
  | some type => ⟨some type, [], t⟩
  | none => inferRole s kids label t

end Checker

end MethodLang
