import MethodLang.Text.Blank
import MethodLang.Text.Digit

/-!
Reading and writing whole numbers. A number may stand between blanks and carry a sign; single
underscores may divide its digits. In base 2 and 16 a marker such as `0x` may stand before the
digits. Digits may come from any script, the zero of a marker too. Decimal conversion in either
direction stops at 4300 digits.
-/
namespace MethodLang.Text

/-- The most digits that decimal conversion takes. -/
def digitLimit : Nat := 4300

/-- The ASCII form of a character of a number: a digit of any script is its ASCII digit, and a blank
above ASCII is a space. No other character above ASCII has a form, nor a place in a number. -/
def numeral (c : Char) : Char :=
  if c.toNat < 128 then c
  else if isBlank c then ' '
  else match decimalDigit? c with
    | some d => d.digitChar
    | none => c

theorem numeral_of_ascii (c : Char) (ascii : c.toNat < 128) : numeral c = c := by
  simp [numeral, ascii]

/-- Blanks allowed around a number: the separators 28 to 31 are not among them. -/
def isNumberBlank (c : Char) : Bool := c == ' ' || (9 ≤ c.toNat && c.toNat ≤ 13)

/-- The value of an ASCII digit or letter as a digit. -/
def digitValue? (base : Nat) (c : Char) : Option Nat :=
  let value? :=
    if c.isDigit then some (c.toNat - 48)
    else if 'a' ≤ c && c ≤ 'z' then some (c.toNat - 87)
    else if 'A' ≤ c && c ≤ 'Z' then some (c.toNat - 55)
    else none
  value?.filter (· < base)

/-- Value and number of the digits; `afterDigit` tells whether an underscore or the end may come. -/
def readDigits (base : Nat) : (value count : Nat) → (afterDigit : Bool) → List Char → Option (Nat × Nat)
  | value, count, afterDigit, [] => if afterDigit then some (value, count) else none
  | value, count, afterDigit, c :: cs =>
    if c == '_' then if afterDigit then readDigits base value count false cs else none
    else match digitValue? base c with
      | some d => readDigits base (value * base + d) (count + 1) true cs
      | none => none

/-- Skips the marker of the base, and one underscore after it. -/
def skipMarker (base : Nat) : List Char → List Char
  | '0' :: m :: cs =>
    if (base == 16 && (m == 'x' || m == 'X')) || (base == 2 && (m == 'b' || m == 'B')) then
      match cs with
      | '_' :: rest => rest
      | rest => rest
    else '0' :: m :: cs
  | cs => cs

def readNatural (base : Nat) (cs : List Char) : Option Nat :=
  match readDigits base 0 0 false (skipMarker base cs) with
  | some (value, count) => if base == 10 && digitLimit < count then none else some value
  | none => none

def readInteger (base : Nat) (cs : List Char) : Option Int :=
  match trimBy isNumberBlank (cs.map numeral) with
  | '-' :: rest => (readNatural base rest).map fun n => -(n : Int)
  | '+' :: rest => (readNatural base rest).map Int.ofNat
  | rest => (readNatural base rest).map Int.ofNat

/-- The decimal text of a number, if it is short enough to be written. -/
def writeInteger? (n : Int) : Option String :=
  if n.natAbs < Nat.pow 10 digitLimit then some (toString n) else none

example : readInteger 10 " +1_0 ".toList = some 10 := by cbv
example : readInteger 10 "1__0".toList = none := by cbv
example : readInteger 16 "0x_fF".toList = some 255 := by cbv
example : "०x1f".toList.map numeral = "0x1f".toList := by decide +kernel

end MethodLang.Text
