import MethodLang.Text.Cut
import MethodLang.Text.Identifier

/-!
What the code generator sees in the label of an operation. The label must have the exact form of
its kind, with names of ASCII letters, digits and underscores; a line feed may end it.
-/
namespace MethodLang

inductive Action where
  | store (name : String)
  | binary (op : String)
  | unary (op : String)
  | index
  | load (name : String)
  | storeAt (name : String)
  | call (name : String)
  | literal (kind text : String)
  deriving DecidableEq, Repr

namespace Action

def binaryOps : List String :=
  ["<<", ">>", "<=", ">=", "=", "!=", "+", "-", "*", "/", "%", "&", "|", "^", "<", ">", "||", "&&"]

def unaryOps : List String := ["~", "!"]

/-- A label without the line feed at its end. -/
def withoutFeed (label : String) : String :=
  match label.toList.reverse with
  | '\n' :: rest => String.ofList rest.reverse
  | _ => label

/-- The text between an opening and an ending. -/
def between? (opening ending label : String) : Option (List Char) := do
  let rest ← Text.after? opening label
  let inner ← ending.toList.reverse.isPrefixOf? rest.reverse
  some inner.reverse

def name? (opening ending label : String) : Option String := do
  let inner ← between? opening ending label
  if Text.isIdentifier inner then some (String.ofList inner) else none

/-- Kind and text of a literal: the last opening parenthesis divides them. -/
def literal? (label : String) : Option (String × String) := do
  let inner ← between? "const(" "))" label
  if inner.contains '\n' then none
  let text := inner.reverse.takeWhile (· != '(')
  match inner.reverse.drop text.length with
  | [] => none
  | _ :: kind => some (String.ofList kind.reverse, String.ofList text.reverse)

/-- The action of a label without a line feed at its end. -/
def ofPlainLabel? (label : String) : Option Action :=
  if label ∈ binaryOps then some (.binary label)
  else if label ∈ unaryOps then some (.unary label)
  else if label = "index" then some .index
  else ((name? "store(" ")" label).map .store)
    <|> ((name? "load(" ")" label).map .load)
    <|> ((name? "load(" "[])" label).map .load)
    <|> ((name? "store_at(" ")" label).map .storeAt)
    <|> ((name? "call(" ")" label).map .call)
    <|> ((literal? label).map fun (kind, text) => .literal kind text)

def ofLabel? (label : String) : Option Action := ofPlainLabel? (withoutFeed label)

example : ofLabel? "load(a[])" = some (.load "a") := by decide +kernel
example : ofLabel? "const(char('('))" = some (.literal "char('" "'") := by decide +kernel
example : ofLabel? "store(x)\n" = some (.store "x") := by decide +kernel

end Action

end MethodLang
