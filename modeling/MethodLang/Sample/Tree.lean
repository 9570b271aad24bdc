import MethodLang.Sample.Program

/-!
Trees of the sample programs. They differ from trees of read texts in two fields: the sign that
ends an expression fills none, and the element type of an array fills one.
-/
namespace MethodLang.Sample

mutual
/-- A node with the fields that sample trees give its children. -/
def withFields : Node → Node
  | .mk kind field text missing error stop children =>
    .mk kind field text missing error stop (childrenWithFields kind children)

def childrenWithFields (kind : String) : List Node → List Node
  | [] => []
  | .mk k field text missing error stop children :: rest =>
    let field :=
      if kind = "expression_content" ∧ k = ";" then none
      else if kind = "array" ∧ k = "typeRef" then some "typeRef"
      else field
    .mk k field text missing error stop (childrenWithFields k children) ::
      childrenWithFields kind rest
end

def treeOf (source : Source) : Node := withFields (Source.node source)

def fullTree (n : Nat) : Node := treeOf (full n)

def typeErrorsTree (n : Nat) : Node := treeOf (typeErrors n)

def structuralErrorsTree : Node := treeOf structuralErrors

/-- The broken program, with an unreadable node and a missing one at its end. -/
def syntaxErrorsTree : Node :=
  let tree := treeOf brokenMethods
  .mk tree.kind tree.field tree.text tree.missing tree.error tree.stop (tree.children ++ [
    .mk "bogus" none (some "bogus") false true .start [],
    .mk "identifier" none (some "") true false .start []])

end MethodLang.Sample
