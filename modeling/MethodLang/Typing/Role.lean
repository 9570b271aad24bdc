import MethodLang.Text.Cut
import MethodLang.Text.Word

/-!
What the type checker sees in the label of an operation. The text between the parentheses of a
label goes up to the last closing parenthesis of its first line.
-/
namespace MethodLang

namespace Label

/-- The non-empty text between an opening and the last closing parenthesis of the first line. -/
def name? (opening label : String) : Option String := do
  let rest ← Text.after? opening label
  (Text.beforeLast? [')'] (Text.firstLine rest)).map String.ofList

/-- Kind and text of a literal. -/
def literal? (label : String) : Option (String × String) := do
  let rest ← Text.after? "const(" label
  let kind := rest.takeWhile Text.isWord
  if kind.isEmpty then none
  let rest ← ['('].isPrefixOf? (rest.dropWhile Text.isWord)
  let text ← Text.beforeLast? [')', ')'] (Text.firstLine rest)
  some (String.ofList kind, String.ofList text)

def loadName? (label : String) : Option String := name? "load(" label

def storeName? (label : String) : Option String := name? "store(" label

def storeAtName? (label : String) : Option String := name? "store_at(" label

def callName? (label : String) : Option String := name? "call(" label

end Label

/-- The role of a label; a name that cannot be read is missing. -/
inductive Role where
  | const (literal : Option (String × String))
  | load (name : Option String)
  | call (name : Option String)
  | store (name : Option String)
  | storeAt (name : Option String)
  | index
  | arithmetic
  | bitwise
  | logical
  | comparison
  | negation
  | inversion
  | unknown
  deriving DecidableEq, Repr

namespace Role

def arithmeticOps : List String := ["+", "-", "*", "/", "%"]

def bitwiseOps : List String := ["|", "&", "^", "<<", ">>"]

def logicalOps : List String := ["||", "&&"]

def comparisonOps : List String := ["=", "!=", ">", ">=", "<", "<="]

def ofLabel (label : String) : Role :=
  if Text.startsWith "const(" label then .const (Label.literal? label)
  else if Text.startsWith "load(" label then .load (Label.loadName? label)
  else if Text.startsWith "call(" label then .call (Label.callName? label)
  else if Text.startsWith "store(" label then .store (Label.storeName? label)
  else if Text.startsWith "store_at(" label then .storeAt (Label.storeAtName? label)
  else if label = "index" then .index
  else if label ∈ arithmeticOps then .arithmetic
  else if label ∈ bitwiseOps then .bitwise
  else if label ∈ logicalOps then .logical
  else if label ∈ comparisonOps then .comparison
  else if label = "!" then .negation
  else if label = "~" then .inversion
  else .unknown

end Role

end MethodLang
