import MethodLang.Tree.Basic

/-!
Trees drawn as text: a line for each node, the root first, with branches that show its place.
-/
namespace MethodLang

/-- The pieces of a branch, each four characters wide. -/
structure Branches where
  bar : String
  gap : String
  tee : String
  elbow : String
  deriving DecidableEq, Repr

namespace Branches

def box : Branches := ⟨"│   ", "    ", "├── ", "└── "⟩

def ascii : Branches := ⟨"|   ", "    ", "|-- ", "`-- "⟩

end Branches

namespace Tree

variable {α : Type}

mutual
/-- The lines of a tree: `first` stands before its label, `rest` before the branches of its
children. -/
def lines (b : Branches) (text : String → α → String) (first rest : String) : Tree α → List String
  | .node label note children => (first ++ text label note) :: linesAll b text rest children

def linesAll (b : Branches) (text : String → α → String) (rest : String) :
    List (Tree α) → List String
  | [] => []
  | t :: ts =>
    if ts.isEmpty then t.lines b text (rest ++ b.elbow) (rest ++ b.gap)
    else t.lines b text (rest ++ b.tee) (rest ++ b.bar) ++ linesAll b text rest ts
end

/-- The drawn tree, each line ended by a line feed. -/
def draw (b : Branches) (t : Tree α) : String :=
  String.join ((t.lines b (fun label _ => label) "" b.gap).map (· ++ "\n"))

end Tree

end MethodLang
