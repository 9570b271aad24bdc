import Mathlib.Data.List.Forall2
import Mathlib.Logic.Equiv.Basic
import MethodLang.Proofs.Flow.Telling

/-!
The walks of a method's graph from entry to exit are the executions of its body, one for one. A
walk that comes to a statement follows one of its executions (`Stmt.runs_of_walk`), by induction
on the length of the walk; and a walk is told by what it evaluates and the outcomes it takes.
-/
namespace MethodLang

namespace Stmt

variable {g : Graph}

/-- A walk first follows an execution, then goes on from where that leads. -/
def Follows (g : Graph) (runs : List Event → Ending → Prop) (next : Int) (exit : Option BlockId)
    (p : List Graph.Step) (stop : Int) : Prop :=
  ∃ fin z q rest, runs (g.trace q) fin ∧ fin.target next exit = some z ∧ p = q ++ rest ∧
    g.Walk z rest stop

section Follows

variable {runs runs' : List Event → Ending → Prop} {a next last stop : Int}
  {exit : Option BlockId} {p : List Graph.Step} {e : Edge} {text : String} {succs : List Edge}

theorem Follows.pass (here : g.block? a = some ⟨text, none, succs⟩)
    (follows : Follows g runs next exit p stop) : Follows g runs next exit (⟨a, e⟩ :: p) stop := by
  obtain ⟨fin, z, q, rest, run, target, rfl, walk⟩ := follows
  exact ⟨fin, z, ⟨a, e⟩ :: q, rest, by rwa [Graph.trace_pass here], target, rfl, walk⟩

theorem Follows.evaluate {op : Operation} {o : Option Bool}
    (here : g.block? a = some ⟨text, some op, succs⟩) (outcome : outcomeOf succs e = o)
    (follows : Follows g runs next exit p stop)
    (extend : ∀ {es fin}, runs es fin → runs' (⟨op, o⟩ :: es) fin) :
    Follows g runs' next exit (⟨a, e⟩ :: p) stop := by
  obtain ⟨fin, z, q, rest, run, target, rfl, walk⟩ := follows
  refine ⟨fin, z, ⟨a, e⟩ :: q, rest, ?_, target, rfl, walk⟩
  rw [Graph.trace_evaluate here, outcome]
  exact extend run

theorem Follows.imp (follows : Follows g runs next exit p stop)
    (extend : ∀ {es fin}, runs es fin → runs' es fin) : Follows g runs' next exit p stop := by
  obtain ⟨fin, z, q, rest, run, target, split, walk⟩ := follows
  exact ⟨fin, z, q, rest, extend run, target, split, walk⟩

/-- A walk in front of the execution. -/
theorem Follows.after (q : List Graph.Step) (follows : Follows g runs next exit p stop)
    (extend : ∀ {es fin}, runs es fin → runs' (g.trace q ++ es) fin) :
    Follows g runs' next exit (q ++ p) stop := by
  obtain ⟨fin, z, q', rest, run, target, rfl, walk⟩ := follows
  refine ⟨fin, z, q ++ q', rest, ?_, target, by simp, walk⟩
  rw [Graph.trace, List.filterMap_append]
  exact extend run

/-- Nothing is evaluated any more. -/
def Idle (es : List Event) (fin : Ending) : Prop := es = [] ∧ fin = .ended

theorem Follows.idle (exit : Option BlockId) (walk : g.Walk next p stop) :
    Follows g Idle next exit p stop :=
  ⟨.ended, next, [], p, ⟨rfl, rfl⟩, rfl, rfl, walk⟩

/-- A walk that has not arrived takes an edge of the block it is at. -/
theorem walk_step {b : Block} (walk : g.Walk a p stop) (here : g.block? a = some b)
    (apart : a ≠ stop) : ∃ e ∈ b.succs, ∃ rest, p = ⟨a, e⟩ :: rest ∧ g.Walk e.1 rest stop := by
  cases walk with
  | nil => exact absurd rfl apart
  | cons found taken rest =>
    rw [here] at found
    cases found
    exact ⟨_, taken, _, rfl, rest⟩

/-- What ends at the last block of a construct goes on from there. -/
theorem Follows.through (follows : Follows g runs last exit p stop)
    (here : g.block? last = some ⟨text, none, [(next, none)]⟩) (apart : last ≠ stop) :
    Follows g runs next exit p stop := by
  obtain ⟨fin, z, q, rest, run, target, rfl, walk⟩ := follows
  cases fin with
  | broke => exact ⟨.broke, z, q, rest, run, target, rfl, walk⟩
  | ended =>
    cases target
    obtain ⟨e, he, rest, rfl, onward⟩ := walk_step walk here apart
    obtain rfl := List.mem_singleton.mp he
    refine ⟨.ended, next, q ++ [⟨last, (next, none)⟩], rest, ?_, rfl, by simp, onward⟩
    have same : g.trace (q ++ [⟨last, (next, none)⟩]) = g.trace q := by
      rw [Graph.trace, List.filterMap_append]
      exact (congrArg (g.trace q ++ ·) (Graph.trace_pass here)).trans (List.append_nil _)
    rwa [same]

end Follows

/-- Walks of at most this length that come to a statement follow its executions. -/
def Sound (g : Graph) (stop : Int) (n : Nat) : Prop :=
  ∀ (s : Stmt) label (start next : Int) exit p, g.Holds (s.blocks label start next exit) →
    (∀ e ∈ s.exprs, ∃ op, e.operation = .ok op) → stop < start → p.length ≤ n →
    g.Walk start p stop → Follows g s.Runs next exit p stop

theorem walks_all {n : Nat} {stop : Int} (ih : Sound g stop n) {body : List Stmt}
    {exit : Option BlockId} {next : Int} (lowers : ∀ e ∈ exprsAll body, ∃ op, e.operation = .ok op) :
    ∀ {start : Int} {p}, g.Holds (blocksAll start next exit body) → stop < start → p.length ≤ n →
      g.Walk (entryAll start next body) p stop → Follows g (RunsAll body) next exit p stop := by
  induction body with
  | nil =>
    intro start p holds later short walk
    refine (Follows.idle exit walk).imp ?_
    rintro _ _ ⟨rfl, rfl⟩
    exact .nil
  | cons s ss rest =>
    intro start p holds later short walk
    obtain ⟨here, after⟩ := Graph.holds_append.mp holds
    obtain ⟨first, others⟩ := List.forall_mem_append.mp lowers
    obtain ⟨fin, z, q, rest', run, target, rfl, onward⟩ :=
      ih s _ _ _ _ _ here first later short walk
    cases fin with
    | broke => exact ⟨.broke, z, q, rest', .broke run, target, rfl, onward⟩
    | ended =>
      cases target
      rw [List.length_append] at short
      exact (rest others after (by omega) (by omega) onward).after q (.cons run)

section Constructs

variable {n : Nat} {start next stop : Int} {label : Option String} {exit : Option BlockId}
  {c : Expr} {op : Operation} {s body other : Stmt} {p : List Graph.Step}

theorem follows_expr (lowers : c.operation = .ok op)
    (holds : g.Holds ((Stmt.expr c).blocks label start next exit)) (later : stop < start)
    (walk : g.Walk start p stop) : Follows g (Stmt.expr c).Runs next exit p stop := by
  simp only [blocks, Graph.holds_cons, Expr.block_of_ok _ lowers] at holds
  obtain ⟨e, he, rest, rfl, onward⟩ := walk_step walk holds.1 (by omega)
  obtain rfl := List.mem_singleton.mp he
  refine (Follows.idle exit onward).evaluate holds.1 rfl ?_
  rintro _ _ ⟨rfl, rfl⟩
  exact .expr lowers

theorem follows_leave {place : Position}
    (holds : g.Holds ((Stmt.leave place).blocks label start next exit)) (later : stop < start)
    (walk : g.Walk start p stop) : Follows g (Stmt.leave place).Runs next exit p stop := by
  have here := (Graph.holds_cons.mp holds).1
  obtain ⟨e, he, rest, rfl, onward⟩ := walk_step walk here (by omega)
  obtain ⟨z, hz, rfl⟩ := List.mem_map.mp he
  refine ⟨.broke, z, [⟨start, (z, none)⟩], rest, ?_, Option.mem_toList.mp hz, rfl, onward⟩
  rw [Graph.trace_pass here]
  exact .leave

theorem follows_block (ih : Sound g stop n) {body : List Stmt}
    (lowers : ∀ e ∈ exprsAll body, ∃ op, e.operation = .ok op)
    (holds : g.Holds ((Stmt.block body).blocks label start next exit)) (later : stop < start)
    (short : p.length ≤ n + 1) (walk : g.Walk start p stop) :
    Follows g (Stmt.block body).Runs next exit p stop := by
  simp only [blocks, Graph.holds_cons] at holds
  obtain ⟨first, last, inner⟩ := holds
  obtain ⟨e, he, rest, rfl, onward⟩ := walk_step walk first (by omega)
  obtain rfl := List.mem_singleton.mp he
  rw [List.length_cons] at short
  have follows := (walks_all ih lowers inner (by omega) (by omega) onward).through last (by omega)
  exact (follows.imp .block).pass first

theorem follows_ifThen (ih : Sound g stop n) (lowers : c.operation = .ok op)
    (inner : ∀ e ∈ body.exprs, ∃ op, e.operation = .ok op)
    (holds : g.Holds ((Stmt.ifThen c body).blocks label start next exit)) (later : stop < start)
    (short : p.length ≤ n + 1) (walk : g.Walk start p stop) :
    Follows g (Stmt.ifThen c body).Runs next exit p stop := by
  simp only [blocks, List.cons_append, Graph.holds_cons, Graph.holds_append,
    Expr.block_of_ok _ lowers] at holds
  obtain ⟨condition, blocks, last, _⟩ := holds
  obtain ⟨e, he, rest, rfl, onward⟩ := walk_step walk condition (by omega)
  rw [List.length_cons] at short
  simp only [List.mem_cons, List.not_mem_nil, or_false] at he
  rcases he with rfl | rfl
  · have follows := (ih body _ _ _ _ _ blocks inner (by omega) (by omega) onward).through last
      (by omega)
    exact follows.evaluate condition (outcomeOf_yes _ _ _) (.thenTaken lowers)
  · have follows := (Follows.idle exit onward).through last (by omega)
    refine follows.evaluate condition (outcomeOf_labelled (o := false) lower_outcomes.2.1) ?_
    rintro _ _ ⟨rfl, rfl⟩
    exact .thenPassed lowers

theorem follows_ifElse (ih : Sound g stop n) (lowers : c.operation = .ok op)
    (inner : ∀ e ∈ body.exprs, ∃ op, e.operation = .ok op)
    (inner' : ∀ e ∈ other.exprs, ∃ op, e.operation = .ok op)
    (holds : g.Holds ((Stmt.ifElse c body other).blocks label start next exit))
    (later : stop < start) (short : p.length ≤ n + 1) (walk : g.Walk start p stop) :
    Follows g (Stmt.ifElse c body other).Runs next exit p stop := by
  simp only [blocks, List.cons_append, Graph.holds_cons, Graph.holds_append,
    Expr.block_of_ok _ lowers] at holds
  obtain ⟨condition, blocks, last, blocks'⟩ := holds
  obtain ⟨e, he, rest, rfl, onward⟩ := walk_step walk condition (by omega)
  rw [List.length_cons] at short
  simp only [List.mem_cons, List.not_mem_nil, or_false] at he
  rcases he with rfl | rfl
  · have follows := (ih body _ _ _ _ _ blocks inner (by omega) (by omega) onward).through last
      (by omega)
    exact follows.evaluate condition (outcomeOf_yes _ _ _) (.thenBranch lowers)
  · have follows := (ih other _ _ _ _ _ blocks' inner' (by omega) (by omega) onward).through last
      (by omega)
    exact follows.evaluate condition (outcomeOf_no other (by omega)) (.elseBranch lowers)

/-- A loop that runs has ended: a break inside it leaves just the loop. -/
theorem Runs.whileDo_ended {es : List Event} {fin : Ending} (run : (Stmt.whileDo c body).Runs es fin) :
    fin = .ended := by
  cases run <;> rfl

theorem Runs.repetition_ended {back : Bool} {es : List Event} {fin : Ending}
    (loop : s.repetition? = some (body, c, back)) (run : s.Runs es fin) : fin = .ended := by
  cases run <;> first | rfl | cases loop

/-- What a walk through the body of a loop does: it comes to the end of the body, or a break takes
it to the end of the loop, and there control goes on. -/
theorem follows_body (ih : Sound g stop n) {label : Option String} {first last after : Int}
    {text : String} (inner : ∀ e ∈ body.exprs, ∃ op, e.operation = .ok op)
    (holds : g.Holds (body.blocks label first after (some last)))
    (here : g.block? last = some ⟨text, none, [(next, none)]⟩) (later : stop < first)
    (apart : last ≠ stop) (short : p.length ≤ n) (walk : g.Walk first p stop) :
    (∃ q rest, body.Runs (g.trace q) .ended ∧ p = q ++ rest ∧ g.Walk after rest stop) ∨
      Follows g (fun es fin => fin = .ended ∧ body.Runs es .broke) next exit p stop := by
  obtain ⟨fin, z, q, rest, run, target, rfl, onward⟩ :=
    ih body _ _ _ _ _ holds inner later short walk
  cases fin with
  | ended =>
    cases target
    exact .inl ⟨q, rest, run, rfl, onward⟩
  | broke =>
    cases target
    have left : Follows g (fun es fin => fin = .ended ∧ body.Runs es .broke) last exit
        (q ++ rest) stop := ⟨.ended, last, q, rest, ⟨rfl, run⟩, rfl, rfl, onward⟩
    exact .inr (left.through here apart)

theorem follows_whileDo (ih : Sound g stop n) (lowers : c.operation = .ok op)
    (inner : ∀ e ∈ body.exprs, ∃ op, e.operation = .ok op)
    (holds : g.Holds ((Stmt.whileDo c body).blocks label start next exit)) (later : stop < start)
    (short : p.length ≤ n + 1) (walk : g.Walk start p stop) :
    Follows g (Stmt.whileDo c body).Runs next exit p stop := by
  have whole := holds
  simp only [blocks, Graph.holds_cons, Expr.block_of_ok _ lowers] at holds
  obtain ⟨condition, last, blocks⟩ := holds
  obtain ⟨e, he, rest, rfl, onward⟩ := walk_step walk condition (by omega)
  rw [List.length_cons] at short
  simp only [List.mem_cons, List.not_mem_nil, or_false] at he
  rcases he with rfl | rfl
  · rcases follows_body ih inner blocks last (by omega) (by omega) (by omega) onward with
      ⟨q, rest, run, rfl, back⟩ | left
    · rw [List.length_append] at short
      have lowersAll : ∀ e ∈ (Stmt.whileDo c body).exprs, ∃ op, e.operation = .ok op :=
        List.forall_mem_cons.mpr ⟨⟨op, lowers⟩, inner⟩
      have again := ih (.whileDo c body) _ _ _ _ _ whole lowersAll later (by omega) back
      have follows : Follows g (fun es => (Stmt.whileDo c body).Runs (⟨op, some true⟩ :: es)) next
          exit (q ++ rest) stop := again.after q fun run' => by
        obtain rfl := run'.whileDo_ended
        exact .whileAgain lowers run run'
      exact follows.evaluate condition (outcomeOf_yes _ _ _) id
    · refine left.evaluate condition (outcomeOf_yes _ _ _) ?_
      rintro _ _ ⟨rfl, run⟩
      exact .whileLeft lowers run
  · have follows := (Follows.idle exit onward).through last (by omega)
    refine follows.evaluate condition (outcomeOf_labelled (o := false) lower_outcomes.2.2.2) ?_
    rintro _ _ ⟨rfl, rfl⟩
    exact .whileDone lowers

theorem follows_repeat {back : Bool} (ih : Sound g stop n)
    (loop : s.repetition? = some (body, c, back)) (lowers : c.operation = .ok op)
    (inner : ∀ e ∈ body.exprs, ∃ op, e.operation = .ok op)
    (all : ∀ e ∈ s.exprs, ∃ op, e.operation = .ok op)
    (holds : g.Holds (s.blocks label start next exit)) (later : stop < start)
    (short : p.length ≤ n + 1) (walk : g.Walk start p stop) :
    Follows g s.Runs next exit p stop := by
  have whole := holds
  simp only [blocks_repetition loop, repeatBlocks, List.cons_append, Graph.holds_cons,
    Graph.holds_append, Expr.block_of_ok _ lowers] at holds
  obtain ⟨first, last, blocks, condition, _⟩ := holds
  obtain ⟨e, he, rest, rfl, onward⟩ := walk_step walk first (by omega)
  obtain rfl := List.mem_singleton.mp he
  rw [List.length_cons] at short
  refine Follows.pass first ?_
  rcases follows_body ih inner blocks last (by omega) (by omega) (by omega) onward with
    ⟨q, rest, run, rfl, out⟩ | left
  · rw [List.length_append] at short
    suffices follows : Follows g (fun es => s.Runs (g.trace q ++ es)) next exit rest stop from
      follows.after q id
    obtain ⟨e, he, rest, rfl, away⟩ := walk_step out condition (by omega)
    rw [List.length_cons] at short
    simp only [List.mem_cons, List.not_mem_nil, or_false] at he
    rcases he with rfl | rfl
    · have again := ih s _ _ _ _ _ whole all later (by omega) away
      refine again.evaluate condition (outcomeOf_labelled (lower_outcomeWord back)) fun run' => ?_
      obtain rfl := run'.repetition_ended loop
      exact .repeatAgain loop run lowers run'
    · have follows := (Follows.idle exit away).through last (by omega)
      refine follows.evaluate condition (outcomeOf_labelled (lower_outcomeWord !back)) ?_
      rintro _ _ ⟨rfl, rfl⟩
      exact .repeatDone loop run lowers
  · refine left.imp ?_
    rintro _ _ ⟨rfl, run⟩
    exact .repeatLeft loop run

end Constructs

/-- Walks of every length that come to a statement follow its executions. -/
theorem sound (g : Graph) (stop : Int) (n : Nat) : Sound g stop n := by
  induction n with
  | zero =>
    intro s label start next exit p holds lowers later short walk
    cases walk with
    | nil => omega
    | cons => simp at short
  | succ n ih =>
    intro s label start next exit p holds lowers later short walk
    cases s with
    | expr e =>
      obtain ⟨op, lowered⟩ := lowers e List.mem_cons_self
      exact follows_expr lowered holds later walk
    | leave place => exact follows_leave holds later walk
    | block body => exact follows_block ih lowers holds later short walk
    | ifThen c body =>
      obtain ⟨⟨op, lowered⟩, inner⟩ := List.forall_mem_cons.mp lowers
      exact follows_ifThen ih lowered inner holds later short walk
    | ifElse c body other =>
      obtain ⟨⟨op, lowered⟩, inner⟩ := List.forall_mem_cons.mp lowers
      obtain ⟨inner, inner'⟩ := List.forall_mem_append.mp inner
      exact follows_ifElse ih lowered inner inner' holds later short walk
    | whileDo c body =>
      obtain ⟨⟨op, lowered⟩, inner⟩ := List.forall_mem_cons.mp lowers
      exact follows_whileDo ih lowered inner holds later short walk
    | repeatWhile body c | repeatUntil body c =>
      obtain ⟨inner, condition⟩ := List.forall_mem_append.mp lowers
      obtain ⟨op, lowered⟩ := condition c List.mem_cons_self
      exact follows_repeat ih rfl lowered inner lowers holds later short walk

theorem RunsAll.escapesAny {body : List Stmt} {es : List Event}
    (each : ∀ s ∈ body, ∀ es, s.Runs es .broke → s.escapes = true)
    (runs : RunsAll body es .broke) : escapesAny body = true := by
  induction body generalizing es with
  | nil => cases runs
  | cons s ss ih =>
    rw [Stmt.escapesAny, Bool.or_eq_true]
    cases runs with
    | broke first => exact .inl (each s List.mem_cons_self _ first)
    | cons _ rest => exact .inr (ih (fun t ht => each t (List.mem_cons_of_mem s ht)) rest)

/-- A statement that is broken off has a break that leads out of it. -/
theorem Runs.escapes (s : Stmt) : ∀ es, s.Runs es .broke → s.escapes = true := by
  induction s using Stmt.induction with
  | leave stop => exact fun _ _ => rfl
  | block body ih =>
    rintro es (_ | _ | inner)
    exact inner.escapesAny ih
  | ifThen c body ih =>
    intro es run
    cases run with
    | thenTaken _ inner => exact ih _ inner
  | ifElse c body other ihb iho =>
    intro es run
    rw [Stmt.escapes, Bool.or_eq_true]
    cases run with
    | thenBranch _ inner => exact .inl (ihb _ inner)
    | elseBranch _ inner => exact .inr (iho _ inner)
  | expr e => intro es run; cases run
  | whileDo c body ih => intro es run; cases run
  | repeatWhile body c ih => intro es run; cases run
  | repeatUntil body c ih => intro es run; cases run

variable {body : List Stmt}

/-- Every execution of a body has a walk from entry to exit. -/
theorem traces_of_runsAll {es : List Event} (built : g.blocks = bodyBlocks body)
    (runs : RunsAll body es .ended) : g.Traces 0 es 1 := by
  have holds := holds_bodyBlocks built
  simp only [bodyBlocks, Graph.holds_cons] at holds
  obtain ⟨first, _, inner⟩ := holds
  exact .pass first List.mem_cons_self (runs.traces inner rfl)

/-- Every walk from entry to exit follows an execution of the body. -/
theorem runsAll_of_walk {p : List Graph.Step} (built : g.blocks = bodyBlocks body)
    (lowers : ∀ e ∈ exprsAll body, ∃ op, e.operation = .ok op) (walk : g.Walk 0 p 1) :
    RunsAll body (g.trace p) .ended := by
  have holds := holds_bodyBlocks built
  simp only [bodyBlocks, Graph.holds_cons] at holds
  obtain ⟨first, last, inner⟩ := holds
  have zero_ne_one : (0 : Int) ≠ 1 := by decide
  obtain ⟨e, he, rest, rfl, onward⟩ := walk_step walk first zero_ne_one
  obtain rfl := List.mem_singleton.mp he
  obtain ⟨fin, z, q, rest', run, target, rfl, arrives⟩ :=
    walks_all (sound g 1 rest.length) lowers inner (by omega) (Nat.le_refl _) onward
  cases fin with
  | broke => cases target
  | ended =>
    cases target
    obtain rfl := Graph.walk_nil_of_final arrives last rfl
    rwa [Graph.trace_pass first, List.append_nil]

end Stmt

namespace Graph

/-- The tree of a block. -/
def treeAt (g : Graph) (id : BlockId) : Option Operation := (g.block? id).bind (·.tree)

/-- A walk and an execution go together: the blocks of the walk have the trees that the execution
evaluates, and a label on the way out of such a block names the outcome. -/
structure Matches (g : Graph) (p : List Step) (stop : BlockId) (es : List Event) : Prop where
  trees : (p.map (·.src) ++ [stop]).filterMap g.treeAt = es.map (·.tree)
  outcomes : List.Forall₂ (fun (s : Step) (e : Event) => ∀ label, s.edge.2 = some label →
      e.outcome.map outcomeWord = some (Text.lower label))
    (p.filter fun s => (g.treeAt s.src).isSome) es

variable {g : Graph} {a stop : BlockId} {p : List Step}

/-- The edge taken spells the outcome if it says anything. -/
theorem label_outcome {b : Block} {e : Edge} {label : String} (telling : b.Telling)
    (condition : b.tree.isSome) (taken : e ∈ b.succs) (spells : e.2 = some label) :
    (outcomeOf b.succs e).map outcomeWord = some (Text.lower label) := by
  cases telling with
  | plain _ unlabelled =>
    rw [unlabelled condition e taken] at spells
    cases spells
  | choice _ edges first second =>
    rw [edges] at taken ⊢
    simp only [List.mem_cons, List.not_mem_nil, or_false] at taken
    rcases taken with rfl | rfl
    · rw [first.1, first.2 label spells]
      rfl
    · rw [second.1, second.2 label spells]
      rfl

/-- In a graph that tells outcomes, a walk matches what is read off it. -/
theorem matches_trace {b : Block} (telling : Blocks.Telling g.blocks)
    (final : g.block? stop = some b) (absent : b.tree = none) (walk : g.Walk a p stop) :
    g.Matches p stop (g.trace p) := by
  induction walk with
  | nil stop =>
    have nothing : g.treeAt stop = .none := by rw [treeAt, final, Option.bind_some, absent]
    exact ⟨by simp [nothing, trace], .nil⟩
  | @cons a _ b e p here taken _ ih =>
    have rest := ih final
    have tells := telling _ (mem_of_block? here)
    have tree : g.treeAt a = b.tree := by rw [treeAt, here, Option.bind_some]
    obtain ⟨text, op, succs⟩ := b
    replace tree : g.treeAt a = op := tree
    cases op with
    | none =>
      rw [trace_pass here]
      exact ⟨by simpa [tree] using rest.trees, by simpa [tree] using rest.outcomes⟩
    | some op =>
      rw [trace_evaluate here]
      refine ⟨by simpa [tree] using rest.trees, ?_⟩
      rw [List.filter_cons_of_pos (by simp [tree])]
      exact .cons (fun label spells => label_outcome tells rfl taken spells) rest.outcomes

/-- All that a walk comes to is reached from where it starts. -/
theorem Walk.reached {entry z : BlockId} (closed : g.Closed) (walk : g.Walk a p z)
    (start : a ∈ g.reached entry) : (∀ s ∈ p, s.src ∈ g.reached entry) ∧ z ∈ g.reached entry := by
  induction walk with
  | nil => exact ⟨List.forall_mem_nil _, start⟩
  | cons here taken _ ih =>
    have there := closed _ (mem_of_block? here) _ taken
    obtain ⟨steps, last⟩ := ih ((g.reached_spec entry).2 _ start _ here _ taken there)
    exact ⟨List.forall_mem_cons.mpr ⟨start, steps⟩, last⟩

theorem Matches.prune {entry exit : BlockId} {es : List Event} (matching : g.Matches p stop es)
    (closed : g.Closed) (steps : ∀ s ∈ p, s.src ∈ g.reached entry)
    (last : stop ∈ g.reached entry) : (g.prune entry exit).Matches p stop es := by
  have same : ∀ id ∈ p.map (·.src) ++ [stop], (g.prune entry exit).treeAt id = g.treeAt id := by
    intro id hid
    have reached : id ∈ g.reached entry := by
      rcases List.mem_append.mp hid with step | final
      · obtain ⟨s, hs, rfl⟩ := List.mem_map.mp step
        exact steps s hs
      · exact List.mem_singleton.mp final ▸ last
    rw [treeAt, prune_block? closed reached, treeAt]
  obtain ⟨trees, outcomes⟩ := matching
  refine ⟨(List.filterMap_congr same).trans trees, ?_⟩
  have filters : (p.filter fun s => ((g.prune entry exit).treeAt s.src).isSome) =
      p.filter fun s => (g.treeAt s.src).isSome := by
    refine List.filter_congr fun s hs => ?_
    rw [same s.src (List.mem_append_left _ (List.mem_map_of_mem hs))]
  rwa [filters]

end Graph

/-- The executions of a method's body are the walks from entry to exit of its pruned graph, one
for one, and each walk evaluates what its execution does, with the outcomes its labels name. -/
theorem executions_equiv_walks {m : Method} {body : Body} {g : Graph} (has : m.body = some body)
    (lowers : ∀ e ∈ Stmt.exprsAll body.block, ∃ op, e.operation = .ok op)
    (built : Analysis.buildGraph m.view = .ok (some g)) :
    ∃ walkOf : {es // ∃ fin, Stmt.RunsAll body.block es fin} ≃ {p // (g.prune 0 1).Walk 0 p 1},
      ∀ run, (g.prune 0 1).Matches (walkOf run).1 1 run.1 := by
  obtain ⟨blocks, contained⟩ := buildGraph_blocks has built
  have closed := Stmt.closed_bodyBlocks blocks
  have telling := Stmt.telling_bodyBlocks blocks lowers
  have holds := Stmt.holds_bodyBlocks blocks
  simp only [Stmt.bodyBlocks, Graph.holds_cons] at holds
  obtain ⟨first, last, _⟩ := holds
  have entry : (0 : BlockId) ∈ g.reached 0 := (g.reached_spec 0).1 (by rw [first]; rfl)
  have prune : ∀ {p}, (g.prune 0 1).Walk 0 p 1 ↔ g.Walk 0 p 1 := Graph.prune_walk closed entry
  have ended : ∀ {es fin}, Stmt.RunsAll body.block es fin → Stmt.RunsAll body.block es .ended := by
    intro es fin runs
    cases fin with
    | ended => exact runs
    | broke =>
      rw [runs.escapesAny fun s _ => Stmt.Runs.escapes s] at contained
      cases contained
  let read (w : {p // (g.prune 0 1).Walk 0 p 1}) : {es // ∃ fin, Stmt.RunsAll body.block es fin} :=
    ⟨g.trace w.1, .ended, Stmt.runsAll_of_walk blocks lowers (prune.mp w.2)⟩
  have bijective : Function.Bijective read := by
    constructor
    · intro w w' same
      exact Subtype.ext (Graph.walk_unique telling last rfl (prune.mp w.2) (prune.mp w'.2)
        (congrArg Subtype.val same))
    · rintro ⟨es, fin, runs⟩
      obtain ⟨p, walk, rfl⟩ := Stmt.traces_of_runsAll blocks (ended runs)
      exact ⟨⟨p, prune.mpr walk⟩, rfl⟩
  refine ⟨(Equiv.ofBijective read bijective).symm, fun run => ?_⟩
  obtain ⟨w, rfl⟩ := bijective.2 run
  rw [Equiv.ofBijective_symm_apply_apply]
  have walk := prune.mp w.2
  obtain ⟨steps, final⟩ := walk.reached closed entry
  exact (Graph.matches_trace telling last rfl walk).prune closed steps final

/-- A loop that is left by a break in one branch, with a repetition behind it. -/
theorem broken_loop_equiv_walks :
    ∃ body : List Stmt, body =
      [.whileDo (.literal .bool "true") (.ifElse (.place "a") (.leave .start)
        (.expr (.binary (.place "b") .assign (.literal .dec "1")))),
      .repeatUntil (.block []) (.place "a")] ∧
    (∀ e ∈ Stmt.exprsAll body, ∃ op, e.operation = .ok op) ∧
    ∃ g, Analysis.buildGraph (Method.view ⟨⟨"main", [], none⟩, some ⟨none, body⟩⟩) = .ok (some g) ∧
    ∃ walkOf : {es // ∃ fin, Stmt.RunsAll body es fin} ≃ {p // (g.prune 0 1).Walk 0 p 1},
      ∀ run, (g.prune 0 1).Matches (walkOf run).1 1 run.1 := by
  refine ⟨_, rfl, (fun lowers => And.intro lowers ?_) ?_⟩
  · refine Exists.imp (fun g built => ⟨built, ?_⟩) ⟨_, rfl⟩
    exact executions_equiv_walks rfl lowers built
  · simp only [Stmt.exprsAll, Stmt.exprs, List.cons_append, List.nil_append, List.forall_mem_cons]
    exact ⟨⟨_, rfl⟩, ⟨_, rfl⟩, ⟨_, rfl⟩, ⟨_, rfl⟩, List.forall_mem_nil _⟩

end MethodLang
