import MethodLang.Proofs.Flow.Branch
import MethodLang.Proofs.Flow.Walk

/-!
Executions of statements. An execution is told by what it evaluates, in order, with the outcome of
each condition; outcomes are free. A walk of the graph is read the same way, and every execution
of a statement is read off a walk through the statement's blocks (`Stmt.Runs.traces`).
-/
namespace MethodLang

/-- An evaluation: the tree, and its outcome if it is a condition. -/
structure Event where
  tree : Operation
  outcome : Option Bool

/-- An execution comes to its end or is broken off by a break. -/
inductive Ending where
  | ended
  | broke

/-- Where control goes on after an ending. -/
def Ending.target (next : Int) (exit : Option BlockId) : Ending → Option BlockId
  | .ended => some next
  | .broke => exit

namespace Stmt

/-- The body and the condition of a repetition, and the outcome that repeats it. -/
def repetition? : Stmt → Option (Stmt × Expr × Bool)
  | .repeatWhile body c => some (body, c, true)
  | .repeatUntil body c => some (body, c, false)
  | _ => none

mutual
/-- The executions of a statement. A break leaves the innermost loop. -/
inductive Runs : Stmt → List Event → Ending → Prop where
  | expr {e op} (lowers : e.operation = .ok op) : Runs (.expr e) [⟨op, none⟩] .ended
  | leave {stop} : Runs (.leave stop) [] .broke
  | block {body es fin} (inner : RunsAll body es fin) : Runs (.block body) es fin
  | thenTaken {c op body es fin} (lowers : c.operation = .ok op) (inner : Runs body es fin) :
      Runs (.ifThen c body) (⟨op, some true⟩ :: es) fin
  | thenPassed {c op body} (lowers : c.operation = .ok op) :
      Runs (.ifThen c body) [⟨op, some false⟩] .ended
  | thenBranch {c op body other es fin} (lowers : c.operation = .ok op)
      (inner : Runs body es fin) : Runs (.ifElse c body other) (⟨op, some true⟩ :: es) fin
  | elseBranch {c op body other es fin} (lowers : c.operation = .ok op)
      (inner : Runs other es fin) : Runs (.ifElse c body other) (⟨op, some false⟩ :: es) fin
  | whileDone {c op body} (lowers : c.operation = .ok op) :
      Runs (.whileDo c body) [⟨op, some false⟩] .ended
  | whileAgain {c op body es more} (lowers : c.operation = .ok op) (inner : Runs body es .ended)
      (rest : Runs (.whileDo c body) more .ended) :
      Runs (.whileDo c body) (⟨op, some true⟩ :: es ++ more) .ended
  | whileLeft {c op body es} (lowers : c.operation = .ok op) (inner : Runs body es .broke) :
      Runs (.whileDo c body) (⟨op, some true⟩ :: es) .ended
  | repeatDone {s c op body back es} (loop : s.repetition? = some (body, c, back))
      (inner : Runs body es .ended) (lowers : c.operation = .ok op) :
      Runs s (es ++ [⟨op, some !back⟩]) .ended
  | repeatAgain {s c op body back es more} (loop : s.repetition? = some (body, c, back))
      (inner : Runs body es .ended) (lowers : c.operation = .ok op) (rest : Runs s more .ended) :
      Runs s (es ++ ⟨op, some back⟩ :: more) .ended
  | repeatLeft {s c body back es} (loop : s.repetition? = some (body, c, back))
      (inner : Runs body es .broke) : Runs s es .ended

/-- The executions of statements one behind the other. -/
inductive RunsAll : List Stmt → List Event → Ending → Prop where
  | nil : RunsAll [] [] .ended
  | cons {s ss es more fin} (first : Runs s es .ended) (rest : RunsAll ss more fin) :
      RunsAll (s :: ss) (es ++ more) fin
  | broke {s ss es} (first : Runs s es .broke) : RunsAll (s :: ss) es .broke
end

end Stmt

/-- The outcome that an edge stands for. Where no label says it, the first edge is the one for
true. A single edge stands for none. -/
def outcomeOf (succs : List Edge) (e : Edge) : Option Bool :=
  match succs with
  | first :: _ :: _ =>
    match e.2 with
    | some label => some (Text.lower label == "true")
    | none => some (first == e)
  | _ => none

namespace Graph

/-- What a step evaluates. -/
def event? (g : Graph) (s : Step) : Option Event := do
  let b ← g.block? s.src
  let op ← b.tree
  some ⟨op, outcomeOf b.succs s.edge⟩

/-- What a walk evaluates. -/
def trace (g : Graph) (p : List Step) : List Event := p.filterMap g.event?

/-- Some walk between two blocks evaluates just this. -/
def Traces (g : Graph) (a : BlockId) (es : List Event) (z : BlockId) : Prop :=
  ∃ p, g.Walk a p z ∧ g.trace p = es

variable {g : Graph} {a m z : BlockId} {es more : List Event}

theorem Traces.nil (a : BlockId) : g.Traces a [] a := ⟨[], .nil a, rfl⟩

theorem Traces.append (first : g.Traces a es m) (second : g.Traces m more z) :
    g.Traces a (es ++ more) z := by
  obtain ⟨p, walk, rfl⟩ := first
  obtain ⟨q, walk', rfl⟩ := second
  exact ⟨p ++ q, walk.append walk', List.filterMap_append⟩

theorem trace_pass {text : String} {succs : List Edge} {e : Edge} {p : List Step}
    (here : g.block? a = some ⟨text, none, succs⟩) : g.trace (⟨a, e⟩ :: p) = g.trace p := by
  have nothing : g.event? ⟨a, e⟩ = none := by simp [event?, here]
  rw [trace, List.filterMap_cons_none nothing, trace]

theorem trace_evaluate {text : String} {op : Operation} {succs : List Edge} {e : Edge}
    {p : List Step} (here : g.block? a = some ⟨text, some op, succs⟩) :
    g.trace (⟨a, e⟩ :: p) = ⟨op, outcomeOf succs e⟩ :: g.trace p := by
  have event : g.event? ⟨a, e⟩ = some ⟨op, outcomeOf succs e⟩ := by simp [event?, here]
  rw [trace, List.filterMap_cons_some event, trace]

theorem Traces.pass {text : String} {succs : List Edge} {e : Edge}
    (here : g.block? a = some ⟨text, none, succs⟩) (taken : e ∈ succs) (rest : g.Traces e.1 es z) :
    g.Traces a es z := by
  obtain ⟨p, walk, rfl⟩ := rest
  exact ⟨⟨a, e⟩ :: p, .cons here taken walk, trace_pass here⟩

theorem Traces.evaluate {text : String} {op : Operation} {succs : List Edge} {e : Edge}
    (here : g.block? a = some ⟨text, some op, succs⟩) (taken : e ∈ succs)
    (rest : g.Traces e.1 es z) : g.Traces a (⟨op, outcomeOf succs e⟩ :: es) z := by
  obtain ⟨p, walk, rfl⟩ := rest
  exact ⟨⟨a, e⟩ :: p, .cons here taken walk, trace_evaluate here⟩

/-- The graph has these blocks. -/
def Holds (g : Graph) (bs : Blocks) : Prop := ∀ p ∈ bs, g.block? p.1 = some p.2

theorem holds_cons {id : BlockId} {b : Block} {bs : Blocks} :
    g.Holds ((id, b) :: bs) ↔ g.block? id = some b ∧ g.Holds bs := List.forall_mem_cons

theorem holds_append {bs cs : Blocks} : g.Holds (bs ++ cs) ↔ g.Holds bs ∧ g.Holds cs :=
  List.forall_mem_append

end Graph

/-- The word for an outcome. -/
def outcomeWord (o : Bool) : String := if o then "true" else "false"

theorem outcomeOf_labelled {e f : Edge} {dst : BlockId} {label : String} {o : Bool}
    (spells : Text.lower label = outcomeWord o) :
    outcomeOf [e, f] (dst, some label) = some o := by
  cases o <;> simp [outcomeOf, spells, outcomeWord]

theorem outcomeOf_yes (s : Stmt) (dst : BlockId) (f : Edge) :
    outcomeOf [(dst, s.entryLabel (some "True")), f] (dst, s.entryLabel (some "True")) =
      some true := by
  rw [s.entryLabel_some]
  cases s.isRepeat with
  | true => simp [outcomeOf]
  | false => exact outcomeOf_labelled lower_outcomes.1

theorem outcomeOf_no (s : Stmt) {first dst : Int} {label : Option String} (other : first ≠ dst) :
    outcomeOf [(first, label), (dst, s.entryLabel (some "False"))]
      (dst, s.entryLabel (some "False")) = some false := by
  rw [s.entryLabel_some]
  cases s.isRepeat with
  | true =>
    simp [outcomeOf, other]
  | false => exact outcomeOf_labelled lower_outcomes.2.1

namespace Stmt

variable {g : Graph}

theorem blocks_repetition {s body : Stmt} {c : Expr} {back : Bool}
    (loop : s.repetition? = some (body, c, back)) (label : Option String) (start next : Int)
    (exit : Option BlockId) :
    s.blocks label start next exit =
      repeatBlocks label start next (outcomeWord back) (outcomeWord !back) body c
        (body.blocks label (start + 2) (start + 2 + body.size) (some (start + 1 : Int))) := by
  cases s <;> cases loop <;> rfl

theorem lower_outcomeWord (o : Bool) : Text.lower (outcomeWord o) = outcomeWord o := by
  cases o
  · exact lower_outcomes.2.2.2
  · exact lower_outcomes.2.2.1

/-- What ends at the last block of a construct goes on from there; a break does not come there. -/
theorem traces_through {fin : Ending} {a z : BlockId} {last next : Int} {exit : Option BlockId}
    {es : List Event} (inner : ∀ {y}, fin.target last exit = some y → g.Traces a es y)
    (onward : g.Traces last [] next) (target : fin.target next exit = some z) :
    g.Traces a es z := by
  cases fin with
  | ended =>
    cases target
    have joined := (inner rfl).append onward
    rwa [List.append_nil] at joined
  | broke => exact inner target

mutual
/-- Every execution of a statement has a walk that leads where the execution goes. -/
theorem Runs.traces : ∀ {s : Stmt} {es : List Event} {fin : Ending}, s.Runs es fin →
    ∀ {label start next exit z}, g.Holds (s.blocks label start next exit) →
      fin.target next exit = some z → g.Traces start es z
  | _, _, _, .expr lowers, _, _, _, _, _, holds, target => by
    cases target
    simp only [blocks, Graph.holds_cons, Expr.block_of_ok _ lowers] at holds
    exact .evaluate holds.1 List.mem_cons_self (.nil _)
  | _, _, _, .leave, _, _, _, _, _, holds, target => by
    simp only [Ending.target] at target
    subst target
    exact .pass (Graph.holds_cons.mp holds).1 List.mem_cons_self (.nil _)
  | _, _, _, .block inner, _, _, _, _, _, holds, target => by
    simp only [blocks, Graph.holds_cons] at holds
    obtain ⟨first, last, holds⟩ := holds
    refine traces_through (fun leads => ?_) (.pass last List.mem_cons_self (.nil _)) target
    exact .pass first List.mem_cons_self (inner.traces holds leads)
  | _, _, _, .thenTaken lowers inner, _, _, _, _, _, holds, target => by
    simp only [blocks, List.cons_append, Graph.holds_cons, Graph.holds_append,
      Expr.block_of_ok _ lowers] at holds
    obtain ⟨condition, holds, last, _⟩ := holds
    refine traces_through (fun leads => ?_) (.pass last List.mem_cons_self (.nil _)) target
    rw [← outcomeOf_yes]
    exact .evaluate condition List.mem_cons_self (inner.traces holds leads)
  | _, _, _, .thenPassed lowers, _, _, _, _, _, holds, target => by
    cases target
    simp only [blocks, List.cons_append, Graph.holds_cons, Graph.holds_append,
      Expr.block_of_ok _ lowers] at holds
    obtain ⟨condition, _, last, _⟩ := holds
    rw [← outcomeOf_labelled (o := false) lower_outcomes.2.1]
    exact .evaluate condition (List.mem_cons_of_mem _ List.mem_cons_self)
      (.pass last List.mem_cons_self (.nil _))
  | _, _, _, .thenBranch lowers inner, _, _, _, _, _, holds, target => by
    simp only [blocks, List.cons_append, Graph.holds_cons, Graph.holds_append,
      Expr.block_of_ok _ lowers] at holds
    obtain ⟨condition, holds, last, _⟩ := holds
    refine traces_through (fun leads => ?_) (.pass last List.mem_cons_self (.nil _)) target
    rw [← outcomeOf_yes]
    exact .evaluate condition List.mem_cons_self (inner.traces holds leads)
  | .ifElse _ body other, _, _, .elseBranch lowers inner, _, start, _, _, _, holds, target => by
    simp only [blocks, List.cons_append, Graph.holds_cons, Graph.holds_append,
      Expr.block_of_ok _ lowers] at holds
    obtain ⟨condition, _, last, holds⟩ := holds
    have apart : (start + 1 : Int) ≠ start + 2 + body.size := by omega
    refine traces_through (fun leads => ?_) (.pass last List.mem_cons_self (.nil _)) target
    rw [← outcomeOf_no other apart]
    exact .evaluate condition (List.mem_cons_of_mem _ List.mem_cons_self) (inner.traces holds leads)
  | _, _, _, .whileDone lowers, _, _, _, _, _, holds, target => by
    cases target
    simp only [blocks, Graph.holds_cons, Expr.block_of_ok _ lowers] at holds
    obtain ⟨condition, last, _⟩ := holds
    rw [← outcomeOf_labelled (o := false) lower_outcomes.2.2.2]
    exact .evaluate condition (List.mem_cons_of_mem _ List.mem_cons_self)
      (.pass last List.mem_cons_self (.nil _))
  | _, _, _, .whileAgain lowers inner rest, _, _, _, _, _, holds, target => by
    have onward := rest.traces holds target
    simp only [blocks, Graph.holds_cons, Expr.block_of_ok _ lowers] at holds
    obtain ⟨condition, _, holds⟩ := holds
    rw [← outcomeOf_yes]
    exact .evaluate condition List.mem_cons_self ((inner.traces holds rfl).append onward)
  | _, _, _, .whileLeft lowers inner, _, _, _, _, _, holds, target => by
    cases target
    simp only [blocks, Graph.holds_cons, Expr.block_of_ok _ lowers] at holds
    obtain ⟨condition, last, holds⟩ := holds
    have joined := (inner.traces holds rfl).append (.pass last List.mem_cons_self (.nil _))
    rw [List.append_nil] at joined
    rw [← outcomeOf_yes]
    exact .evaluate condition List.mem_cons_self joined
  | _, _, _, .repeatDone loop inner lowers, _, _, _, _, _, holds, target => by
    cases target
    simp only [blocks_repetition loop, repeatBlocks, List.cons_append, Graph.holds_cons,
      Graph.holds_append, Expr.block_of_ok _ lowers] at holds
    obtain ⟨first, last, holds, condition, _⟩ := holds
    rw [← outcomeOf_labelled (lower_outcomeWord _)]
    exact .pass first List.mem_cons_self ((inner.traces holds rfl).append
      (.evaluate condition (List.mem_cons_of_mem _ List.mem_cons_self)
        (.pass last List.mem_cons_self (.nil _))))
  | _, _, _, .repeatAgain loop inner lowers rest, _, _, _, _, _, holds, target => by
    have onward := rest.traces holds target
    simp only [blocks_repetition loop, repeatBlocks, List.cons_append, Graph.holds_cons,
      Graph.holds_append, Expr.block_of_ok _ lowers] at holds
    obtain ⟨first, last, holds, condition, _⟩ := holds
    rw [← outcomeOf_labelled (lower_outcomeWord _)]
    exact .pass first List.mem_cons_self ((inner.traces holds rfl).append
      (.evaluate condition List.mem_cons_self onward))
  | _, _, _, .repeatLeft loop inner, _, _, _, _, _, holds, target => by
    cases target
    simp only [blocks_repetition loop, repeatBlocks, List.cons_append, Graph.holds_cons,
      Graph.holds_append] at holds
    obtain ⟨first, last, holds, _⟩ := holds
    have joined := (inner.traces holds rfl).append (.pass last List.mem_cons_self (.nil _))
    rw [List.append_nil] at joined
    exact .pass first List.mem_cons_self joined

theorem RunsAll.traces : ∀ {body : List Stmt} {es : List Event} {fin : Ending},
    RunsAll body es fin → ∀ {start next exit z}, g.Holds (blocksAll start next exit body) →
      fin.target next exit = some z → g.Traces (entryAll start next body) es z
  | _, _, _, .nil, _, _, _, _, _, target => by
    cases target
    exact .nil _
  | _, _, _, .cons first rest, _, _, _, _, holds, target => by
    obtain ⟨here, after⟩ := Graph.holds_append.mp holds
    exact (first.traces here rfl).append (rest.traces after target)
  | _, _, _, .broke first, _, _, _, _, holds, target =>
    first.traces (Graph.holds_append.mp holds).1 target
end

end Stmt

end MethodLang
