import MethodLang.Machine.Line
import MethodLang.Text.Blank
import MethodLang.Text.Lower
import MethodLang.Typing.TypeName

/-!
Operators and the types they work on, in terms of the machine. A word holds a value of a narrow
type in its canonical form: the high bits are zero, except that an `int` is extended by its sign.
-/
namespace MethodLang

/-- The width of an element of the given type, if the machine knows the type. -/
def Width.ofType? (type : TypeName) : Option Width :=
  if type = "bool" ∨ type = "byte" then some .byte
  else if type = "int" ∨ type = "uint" then some .half
  else if type = "long" ∨ type = "ulong" then some .word
  else none

namespace TypeName

/-- A type's name without blanks around it and without capitals. -/
def plain (type : TypeName) : TypeName := Text.lower (Text.trim type)

/-- Whether values of the type are compared as unsigned words. -/
def isUnsigned (type : TypeName) : Bool := ["uint", "ulong", "byte"].contains type.plain

/-- The bits of a word that a value of the type may use, where these are not all. -/
def mask? (type : TypeName) : Option Nat :=
  if type.plain = "bool" ∨ type.plain = "byte" then some 0xFF
  else if type.plain = "int" ∨ type.plain = "uint" then some 0xFFFF
  else none

end TypeName

namespace BinaryInstr

/-- The instruction of a binary operator. Only the order comparisons heed the sign. -/
def ofOperator? (unsigned : Bool) (op : String) : Option BinaryInstr :=
  match op with
  | "+" => some .add
  | "-" => some .sub
  | "*" => some .mul
  | "/" => some .div
  | "%" => some .mod
  | "<<" => some .shl
  | ">>" => some .shr
  | "|" => some .bor
  | "&" => some .band
  | "^" => some .bxor
  | "||" => some .lor
  | "&&" => some .land
  | "=" => some .eq
  | "!=" => some .ne
  | ">" => some (if unsigned then .gtUnsigned else .gt)
  | "<" => some (if unsigned then .ltUnsigned else .lt)
  | ">=" => some (if unsigned then .geUnsigned else .ge)
  | "<=" => some (if unsigned then .leUnsigned else .le)
  | _ => none

/-- Whether the result has the type of the operands and may outgrow it. -/
def isArithmetic : BinaryInstr → Bool
  | .add | .sub | .mul | .div | .mod | .shl | .shr | .bor | .band | .bxor => true
  | _ => false

end BinaryInstr

def UnaryInstr.ofOperator? : String → Option UnaryInstr
  | "!" => some .not
  | "~" => some .complement
  | _ => none

namespace Line

/-- Extends the sign of the low 16 bits: flipping the sign bit and subtracting it again. -/
def extendSign : List Line := [
  noted (.push (.hex 4 0x8000)) 2 "sign bit mask for int",
  noted (.binary .bxor) 9 "flip sign bit",
  noted (.push (.hex 4 0x8000)) 2 "prepare for subtraction",
  noted (.binary .sub) 11 "sign extend 16->32"]

/-- Brings the word on top into the canonical form of a type. -/
def narrow (type : TypeName) : List Line :=
  match type.mask? with
  | none => []
  | some mask =>
    [noted (.push (.decimal mask)) 2 ("mask for " ++ type),
      noted (.binary .band) 8 "apply type mask"] ++
      (if type.plain = "int" then extendSign else [])

/-- Turns the index on top into a distance in bytes. -/
def scale : Option Width → List Line
  | some .byte => []
  | some width => [code (.push (.decimal width.shift)), code (.binary .shl)]
  | none => [code (.push .unknown), code (.binary .shl)]

end Line

end MethodLang
