import MethodLang.Flow.Build
import MethodLang.Proofs.Shape

/-!
How a statement is laid, read off its syntax. Each equation says which steps one construct takes;
none of them mentions a view but those of the parts that are laid in turn.
-/
namespace MethodLang

namespace Build

variable {α β : Type}

/-- A sequence of two steps succeeds if both do, the second from where the first ended. -/
theorem bind_ok {x : Build α} {f : α → Build β} {g g' : Graph} {b : β} :
    (x >>= f).run g = (.ok b, g') ↔ ∃ a h, x.run g = (.ok a, h) ∧ (f a).run h = (.ok b, g') := by
  rw [ExceptT.run_bind]
  change StateT.bind x.run _ g = _ ↔ _
  simp only [StateT.bind]
  rcases x.run g with ⟨fault | a, h⟩
  · constructor
    · intro run
      cases run
    · rintro ⟨_, _, first, _⟩
      cases first
  · constructor
    · intro run
      exact ⟨a, h, rfl, run⟩
    · rintro ⟨_, _, first, second⟩
      cases first
      exact second

theorem pure_ok {a b : α} {g g' : Graph} :
    (pure a : Build α).run g = (.ok b, g') ↔ a = b ∧ g = g' := by
  change ((.ok a, g) : Except Fault α × Graph) = (.ok b, g') ↔ _
  simp

theorem newBlock_ok {label : String} {tree : Option Operation} {id : BlockId} {g g' : Graph} :
    (newBlock label tree).run g = (.ok id, g') ↔ g.nextId = id ∧ g.addBlock label tree = g' := by
  change ((.ok g.nextId, g.addBlock label tree) : Except Fault BlockId × Graph) = (.ok id, g') ↔ _
  simp

theorem edge_ok {src dst : Option BlockId} {label : Option String} {u : Unit} {g g' : Graph} :
    (edge src dst label).run g = (.ok u, g') ↔ g.addEdge src dst label = g' := by
  change ((.ok (), g.addEdge src dst label) : Except Fault Unit × Graph) = (.ok u, g') ↔ _
  simp

theorem throw_ok {fault : Fault} {a : α} {g g' : Graph} :
    (throw fault : Build α).run g ≠ (.ok a, g') := by
  intro run
  cases run

theorem modify_ok {f : Graph → Graph} {u : Unit} {g g' : Graph} :
    (modify f : Build Unit).run g = (.ok u, g') ↔ f g = g' := by
  change ((.ok (), f g) : Except Fault Unit × Graph) = (.ok u, g') ↔ _
  simp

variable (before : Option BlockId) (label : Option String) (exit : Option BlockId)

theorem statement_expr (e : Expr) :
    statement (Stmt.expr e).view before label exit =
      some <$> expression e.view before label := by
  have condition : expression e.view before label =
      expression (.node "expression" (some .start) [e.view, tokenView ";"]) before label := by
    simp only [expression, e.view_label, if_true]
    rfl
  rw [condition]
  rfl

theorem statement_ifThen (c : Expr) (body : Stmt) :
    statement (Stmt.ifThen c body).view before label exit = (do
      let condition ← expression c.view before label
      let reached ← statement body.view (some condition) (some "True") exit
      let last ← newBlock "end_if" none
      edge reached (some last) none
      edge (some condition) (some last) (some "False")
      pure (some last)) := rfl

theorem statement_ifElse (c : Expr) (body other : Stmt) :
    statement (Stmt.ifElse c body other).view before label exit = (do
      let condition ← expression c.view before label
      let reached ← statement body.view (some condition) (some "True") exit
      let last ← newBlock "end_if" none
      edge reached (some last) none
      let reached ← statement other.view (some condition) (some "False") exit
      edge reached (some last) none
      pure (some last)) := rfl

theorem statement_whileDo (c : Expr) (body : Stmt) :
    statement (Stmt.whileDo c body).view before label exit = (do
      let condition ← expression c.view before label
      let last ← newBlock "end_while" none
      let reached ← statement body.view (some condition) (some "True") (some last)
      edge reached (some condition) none
      edge (some condition) (some last) (some "false")
      pure (some last)) := rfl

/-- The two repetitions differ only in the outcome that leads back. -/
def repeatSteps (back leave : String) (body : Stmt) (c : Expr) : Build (Option BlockId) := do
  let first ← newBlock "start_repeat" none
  let last ← newBlock "end_repeat" none
  let reached ← statement body.view (some first) label (some last)
  let condition ← expression c.view reached none
  edge before (some first) none
  edge (some condition) (some first) (some back)
  edge (some condition) (some last) (some leave)
  pure (some last)

theorem statement_repeatWhile (body : Stmt) (c : Expr) :
    statement (Stmt.repeatWhile body c).view before label exit =
      repeatSteps before label "true" "false" body c := rfl

theorem statement_repeatUntil (body : Stmt) (c : Expr) :
    statement (Stmt.repeatUntil body c).view before label exit =
      repeatSteps before label "false" "true" body c := rfl

theorem statement_leave (stop : Position) :
    statement (Stmt.leave stop).view before label exit = (do
      let id ← newBlock "break" none
      edge (some id) exit none
      edge before (some id) label
      match exit with
      | some _ => pure none
      | none => throw (.misplacedBreak stop)) := by
  cases exit <;> rfl

/-- Statements of a block, one behind the other. -/
def statements (body : List Stmt) : (before exit : Option BlockId) → Build (Option BlockId) :=
  sequence (body.map fun s => layers s.view)

theorem layBlock_blockViews (body : List Stmt) :
    layBlock ((blockViews body).map fun t => (t, layers t)) before label exit = (do
      let first ← newBlock "begin" none
      let last ← newBlock "end" none
      edge before (some first) label
      let reached ← statements body (some first) exit
      edge reached (some last) none
      pure (some last)) := by
  have length : (blockViews body).length - 2 = (body.map Stmt.view).length + 1 := by
    simp [blockViews]
  have inner : ((blockViews body).take ((blockViews body).length - 2)).drop 1 =
      body.map Stmt.view := by
    rw [length, blockViews, List.cons_append, List.take_succ_cons, List.drop_one, List.tail_cons,
      List.take_left]
  simp only [layBlock, List.length_map, ← List.map_take, ← List.map_drop, inner, List.map_map]
  rfl

theorem statement_block (body : List Stmt) :
    statement (Stmt.block body).view before label exit =
      layBlock ((blockViews body).map fun t => (t, layers t)) before label exit := by
  have inner := Tree.compute_node layNode "block" (some Position.start) (blockViews body)
  rw [Stmt.view_block]
  change ((Tree.node "block" (some Position.start) (blockViews body)).compute layNode).construct
    before label exit = _
  rw [inner]
  rfl

end Build

end MethodLang
