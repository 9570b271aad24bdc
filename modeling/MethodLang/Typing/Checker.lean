import MethodLang.Typing.Settling

/-!
The type checker: the rules of inference and of settling, tied together over a whole tree.
-/
namespace MethodLang

namespace Checker

def node (s : Scope) (label : String) (kids : List Checker) : Checker where
  infer := inferNode s kids label
  settle := settleNode s kids label
  spread := spreadNode s kids label
  fill := fillNode s kids label

end Checker

namespace Marked

/-- The checker of a node; only its labels and their places matter. -/
def checker (s : Scope) (t : Marked) : Checker :=
  t.compute fun label _ kids => Checker.node s label (kids.map (·.2))

def checkers (s : Scope) (t : Marked) : List Checker := t.children.map (checker s)

def infer (s : Scope) (t : Marked) : Inference := (t.checker s).infer t

def settle (s : Scope) (type : Option TypeName) (t : Marked) : Marked := (t.checker s).settle type t

def fill (s : Scope) (t : Marked) : Marked := (t.checker s).fill t

/-- Infers a node and settles it and its children, given the type its surroundings ask for. -/
def inferAndSettle (s : Scope) (wanted : Option TypeName) (t : Marked) : Inference :=
  let r := t.infer s
  let type := Checker.settledAs (wanted.map TypeName.normalize) r.type
  ⟨type, r.errors, (t.checker s).spread type (r.node.settleAs type)⟩

/-- Gives a whole tree its types. -/
def assign (s : Scope) (t : Marked) : Inference :=
  let r := t.infer s
  let type := Checker.shownType r
  let spread := (t.checker s).spread type (r.node.setType type)
  let filled :=
    Checker.fillChildren (t.checkers s) (List.range spread.children.length) spread
  ⟨filled.note.type, r.errors, filled⟩

/-- An error if the node gives no value. -/
def voidError? (s : Scope) (use : String) (t : Marked) : Option TypeError × Marked :=
  let r := t.infer s
  (if r.type.isNone then some ⟨.noValue (.other use), []⟩ else none, r.node)

end Marked

end MethodLang
