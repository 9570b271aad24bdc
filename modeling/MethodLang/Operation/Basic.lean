import MethodLang.Text.Cut
import MethodLang.Tree.Basic
import MethodLang.Typing.TypeName

/-!
Operation trees: what an expression does, operator above operands. The note of a node is its type,
missing until the types are checked.
-/
namespace MethodLang

abbrev Operation := Tree (Option TypeName)

namespace Operation

def make (label : String) (operands : List Operation) : Operation := .node label none operands

def leaf (label : String) : Operation := make label []

def isStore (label : String) : Bool :=
  Text.startsWith "store(" label || Text.startsWith "store_at(" label

variable {α : Type}

mutual
/-- Whether an assignment stands anywhere in the tree. -/
def hasStore : Tree α → Bool
  | .node label _ children => isStore label || hasStoreAll children

def hasStoreAll : List (Tree α) → Bool
  | [] => false
  | t :: ts => hasStore t || hasStoreAll ts
end

/-- The name between the parentheses of a call's label. -/
def calledName? (label : String) : Option String := do
  let rest ← Text.after? "call(" label
  match rest.reverse with
  | ')' :: name => some (String.ofList name.reverse)
  | _ => none

mutual
/-- The names of all calls, from the root down. -/
def calledNames : Tree α → List String
  | .node label _ children => (calledName? label).toList ++ calledNamesAll children

def calledNamesAll : List (Tree α) → List String
  | [] => []
  | t :: ts => calledNames t ++ calledNamesAll ts
end

end Operation

end MethodLang
