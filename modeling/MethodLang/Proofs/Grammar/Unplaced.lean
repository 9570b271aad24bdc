import MethodLang.Grammar.Node

/-!
Methods without the places of their breaks. A break remembers where it stands, which is all of a
method that depends on where it is written. The same for nodes, which have positions.
-/
namespace MethodLang

mutual
/-- The statement with all breaks at the start. -/
def Stmt.unplaced : Stmt → Stmt
  | .ifThen c body => .ifThen c body.unplaced
  | .ifElse c body other => .ifElse c body.unplaced other.unplaced
  | .block body => .block (Stmt.unplacedAll body)
  | .whileDo c body => .whileDo c body.unplaced
  | .repeatWhile body c => .repeatWhile body.unplaced c
  | .repeatUntil body c => .repeatUntil body.unplaced c
  | .leave _ => .leave .start
  | .expr e => .expr e

def Stmt.unplacedAll : List Stmt → List Stmt
  | [] => []
  | s :: ss => s.unplaced :: Stmt.unplacedAll ss
end

theorem Stmt.unplacedAll_eq_map (body : List Stmt) :
    Stmt.unplacedAll body = body.map Stmt.unplaced := by
  induction body with
  | nil => rfl
  | cons s ss ih => rw [unplacedAll, ih, List.map_cons]

def Body.unplaced (body : Body) : Body := { body with block := body.block.map Stmt.unplaced }

def Method.unplaced (m : Method) : Method := { m with body := m.body.map Body.unplaced }

namespace Node

mutual
/-- The tree with all positions at the start. -/
def unplaced : Node → Node
  | .mk kind field text missing error _ children =>
    .mk kind field text missing error .start (unplacedAll children)

def unplacedAll : List Node → List Node
  | [] => []
  | n :: ns => n.unplaced :: unplacedAll ns
end

theorem unplacedAll_eq_map (ns : List Node) : unplacedAll ns = ns.map unplaced := by
  induction ns with
  | nil => rfl
  | cons n ns ih => rw [unplacedAll, ih, List.map_cons]

theorem unplaced_eq (n : Node) : n.unplaced =
    .mk n.kind n.field n.text n.missing n.error .start (n.children.map unplaced) := by
  cases n
  rw [unplaced, unplacedAll_eq_map]
  rfl

end Node

end MethodLang
