import MethodLang.Operation.Basic
import MethodLang.Typing.Declaration

/-!
Operations under check. A type that was decided for a node is settled: it stays with the node and
answers every later question about it. The scope of a method says which names have types.
-/
namespace MethodLang

/-- A node's type, and whether it is settled. -/
structure Mark where
  type : Option TypeName
  settled : Bool
  deriving DecidableEq, Repr, Inhabited

abbrev Marked := Tree Mark

/-- What a method can name: its variables, its arguments, and all functions. -/
structure Scope where
  vars : TypeTable
  args : TypeTable
  functions : List (String × TypeTable)
  results : TypeTable
  deriving Repr, Inhabited

namespace Scope

/-- A variable hides an argument of its name, even if it has no type. A name that ends in empty
brackets stands for the array before them. -/
def variableType (s : Scope) (name : String) : Option TypeName :=
  let name :=
    match name.toList.reverse with
    | ']' :: '[' :: base => String.ofList base.reverse
    | _ => name
  let declared := (s.vars.lookup name).orElse fun _ => s.args.lookup name
  declared.join.map TypeName.normalize

def resultType (s : Scope) (name : String) : Option TypeName :=
  (s.results.lookup name).join.map TypeName.normalize

def parameters (s : Scope) (name : String) : TypeTable := (s.functions.lookup name).getD []

end Scope

namespace Marked

def unmarked (t : Operation) : Marked := t.map fun type => ⟨type, false⟩

def operation (t : Marked) : Operation := t.map Mark.type

/-- The same types with nothing settled. -/
def unsettle (t : Marked) : Marked := t.map fun m => { m with settled := false }

def settledType (t : Marked) : Option TypeName := if t.note.settled then t.note.type else none

def setType (type : Option TypeName) (t : Marked) : Marked :=
  t.setNote { t.note with type := type }

/-- Settles a node's type; a missing type settles nothing. -/
def settleAs (type : Option TypeName) (t : Marked) : Marked :=
  match type with
  | some type => t.setNote ⟨some (TypeName.normalize type), true⟩
  | none => t

end Marked

end MethodLang
