import MethodLang.Text.Blank
import MethodLang.Text.Cut

/-!
Names of types. A `char` is a `byte` and a `string` an array of bytes; `normalize` puts a name
into that canonical form, also below any number of `array[] of`. A number in the source has the
type `untyped` until its surroundings give it a numeric one.
-/
namespace MethodLang

abbrev TypeName := String

namespace TypeName

def untyped : TypeName := "_untyped_int"

def numeric : List TypeName := ["byte", "char", "int", "uint", "long", "ulong"]

def isNumeric (t : TypeName) : Bool := numeric.contains t

def isUntyped (t : TypeName) : Bool := t == untyped

def isArray (t : TypeName) : Bool := Text.startsWith "array[]" t

/-- The first line behind the blanks; of nothing but blanks, the last that is neither the first
nor a line feed. -/
def afterBlanks? (cs : List Char) : Option (List Char) :=
  let blanks := cs.takeWhile Text.isBlank
  let rest := cs.dropWhile Text.isBlank
  if blanks.isEmpty then none
  else if rest.isEmpty then ((blanks.drop 1).reverse.find? (· != '\n')).map fun c => [c]
  else some (Text.firstLine rest)

/-- The element type in the name of an array type. -/
def element? (t : TypeName) : Option TypeName := do
  let rest ← Text.after? "array[]" t
  if (rest.takeWhile Text.isBlank).isEmpty then none
  let rest ← ['o', 'f'].isPrefixOf? (rest.dropWhile Text.isBlank)
  (afterBlanks? rest).map String.ofList

def normalizeWithin : Nat → TypeName → TypeName
  | 0, t => t
  | depth + 1, t =>
    if t = "char" then "byte"
    else if t = "string" then "array[] of byte"
    else if isArray t then
      match element? t with
      | some e => "array[] of " ++ normalizeWithin depth e
      | none => t
    else t

/-- The canonical form of a name. An element's name is shorter than the array's, so the length
bounds the depth. -/
def normalize (t : TypeName) : TypeName := normalizeWithin t.length t

/-- An untyped number counts as `int` where nothing else decides. -/
def resolve (t : TypeName) : TypeName :=
  let t := normalize t
  if t = untyped then "int" else t

/-- The first of two types that is there and not empty, else the second. -/
def firstOf : Option TypeName → Option TypeName → Option TypeName
  | some t, u => if t.isEmpty then u else some t
  | none, u => u

/-- The one type that two operands share: an untyped number takes the other's numeric type. -/
def unify (left right : Option TypeName) : Option TypeName :=
  match left.map normalize, right.map normalize with
  | some l, some r =>
    if isUntyped l && isUntyped r then some "int"
    else if isUntyped l && isNumeric r then some r
    else if isUntyped r && isNumeric l then some l
    else if l = r then some l
    else none
  | l, r => firstOf l r

/-- The type of a literal of the given kind. -/
def ofLiteral (kind : String) : TypeName :=
  if kind = "dec" ∨ kind = "hex" ∨ kind = "bits" then untyped
  else if kind = "bool" then "bool"
  else if kind = "str" then "array[] of byte"
  else if kind = "char" then "byte"
  else "unknown"

/-- A type that may be missing, as messages show it. -/
def shown (t : Option TypeName) : String := t.getD "None"

end TypeName

end MethodLang
