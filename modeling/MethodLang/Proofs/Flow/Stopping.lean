import MethodLang.Proofs.Flow.Growth
import MethodLang.Proofs.Grammar.Heading

/-!
What can stop the building of a graph. A spelled expression is lowered or refused, and a refused one
gets a block of its own and an error; so nothing stops a written body but a break outside every
loop (`buildGraph_stops`).
-/
namespace MethodLang

open Operation

variable {α β : Type}

/-! ### Expressions -/

/-- The only faults are refusals. -/
def OnlyRefuses (x : Except Fault α) : Prop := ∀ fault, x = .error fault → ∃ r, fault = .refused r

namespace OnlyRefuses

theorem ok (a : α) : OnlyRefuses (.ok a : Except Fault α) := fun _ is => nomatch is

theorem refused (r : Refusal) : OnlyRefuses (.error (.refused r) : Except Fault α) := by
  rintro _ ⟨⟩
  exact ⟨r, rfl⟩

theorem bind {x : Except Fault α} {f : α → Except Fault β} (first : OnlyRefuses x)
    (later : ∀ a, OnlyRefuses (f a)) : OnlyRefuses (x >>= f) := by
  intro fault is
  cases x with
  | error e =>
    cases is
    exact first _ rfl
  | ok a => exact later a fault is

theorem mapM {f : α → Except Fault β} {xs : List α} (each : ∀ x ∈ xs, OnlyRefuses (f x)) :
    OnlyRefuses (xs.mapM f) := by
  induction xs with
  | nil => exact ok []
  | cons x xs ih =>
    obtain ⟨first, rest⟩ := List.forall_mem_cons.mp each
    rw [List.mapM_cons]
    exact first.bind fun _ => (ih rest).bind fun _ => ok _

theorem withoutStore (op : Operation) : OnlyRefuses (Operation.withoutStore op) := by
  unfold Operation.withoutStore
  split
  · exact refused _
  · exact ok _

theorem allWithoutStore (ops : List Operation) : OnlyRefuses (Operation.allWithoutStore ops) := by
  unfold Operation.allWithoutStore
  split
  · exact refused _
  · exact ok _

theorem variableOf (role : String) (t : Tree α) : OnlyRefuses (Operation.variableOf role t) := by
  unfold Operation.variableOf
  split
  · exact refused _
  split
  · exact refused _
  split
  · exact refused _
  split
  · exact refused _
  · exact ok _

end OnlyRefuses

/-- An element is assigned to through the name of its array and the operations of its indices. -/
theorem Expr.target_indexer (base : Expr) (indices : List Expr) (value : Operation) :
    (reading (Expr.indexer base indices).view).target value = (do
      let name ← variableOf "База индексатора в присваивании" base.view
      let ops ← indices.mapM Expr.operation
      if ops.isEmpty then .error (.refused .noIndices)
      else do
        let ops ← allWithoutStore ops
        .ok (make ("store_at(" ++ name ++ ")") (ops ++ [value]))) := by
  rw [Expr.view_indexer, ← items_listView]
  simp only [reading_node, List.map_cons, List.map_nil]
  rfl

/-- What stands left of an assignment can be assigned to or is refused. -/
theorem Expr.target_onlyRefuses {l : Expr}
    (indices : ∀ base is, l = .indexer base is → ∀ e ∈ is, OnlyRefuses e.operation)
    (value : Operation) : OnlyRefuses ((reading l.view).target value) := by
  cases l with
  | place name =>
    rw [Expr.view_place]
    exact .ok _
  | indexer base is =>
    rw [Expr.target_indexer]
    refine (OnlyRefuses.variableOf _ _).bind fun name =>
      (OnlyRefuses.mapM (indices base is rfl)).bind fun ops => ?_
    split
    · exact .refused _
    · exact (OnlyRefuses.allWithoutStore ops).bind fun _ => .ok _
  | call callee args =>
    rw [Expr.view_call]
    exact .refused _
  | literal kind text => cases kind <;> exact .refused _
  | unary | binary | braces => exact .refused _

/-- A spelled expression is lowered or refused. -/
theorem Expr.operation_onlyRefuses {e : Expr} (spelled : e.Spelled) :
    OnlyRefuses e.operation ∧
      ∀ base is, e = .indexer base is → ∀ i ∈ is, OnlyRefuses i.operation := by
  induction e using Expr.induction with
  | literal kind text =>
    rw [Expr.operation_literal spelled]
    exact ⟨.ok _, nofun⟩
  | place name =>
    rw [Expr.operation_place]
    exact ⟨.ok _, nofun⟩
  | braces inner ih =>
    rw [Expr.operation_braces]
    exact ⟨(ih spelled).1, nofun⟩
  | unary op operand ih =>
    rw [Expr.operation_unary]
    exact ⟨(ih spelled).1.bind fun o => (OnlyRefuses.withoutStore o).bind fun _ => .ok _, nofun⟩
  | binary left op right ihl ihr =>
    have first := ihl spelled.1
    have second := (ihr spelled.2).1
    refine ⟨?_, nofun⟩
    by_cases assigns : op = .assign
    · subst assigns
      rw [Expr.operation_assign]
      exact second.bind fun value => (OnlyRefuses.withoutStore value).bind fun _ =>
        Expr.target_onlyRefuses first.2 _
    · rw [Expr.operation_binary assigns]
      exact first.1.bind fun a => second.bind fun b => (OnlyRefuses.withoutStore a).bind fun _ =>
        (OnlyRefuses.withoutStore b).bind fun _ => .ok _
  | call callee args _ ih =>
    have below := fun e inside => (ih e inside (spelled.2.mem e inside)).1
    rw [Expr.operation_call]
    exact ⟨(OnlyRefuses.variableOf _ _).bind fun _ => (OnlyRefuses.mapM below).bind fun ops =>
      (OnlyRefuses.allWithoutStore ops).bind fun _ => .ok _, nofun⟩
  | indexer base indices _ ih =>
    have below := fun e inside => (ih e inside (spelled.2.mem e inside)).1
    rw [Expr.operation_indexer]
    refine ⟨(OnlyRefuses.variableOf _ _).bind fun _ => (OnlyRefuses.mapM below).bind fun ops =>
      (OnlyRefuses.allWithoutStore ops).bind fun _ => .ok _, ?_⟩
    rintro _ _ ⟨rfl, rfl⟩
    exact below

/-- Why the expression is refused, if it is. -/
def Expr.refusal? (e : Expr) : Option Refusal :=
  match e.operation with
  | .error (.refused reason) => some reason
  | _ => none

/-- The fault of an expression that is neither lowered nor refused. -/
def Expr.fault? (e : Expr) : Option Fault :=
  match e.operation with
  | .ok _ | .error (.refused _) => none
  | .error fault => some fault

theorem Expr.fault?_spelled {e : Expr} (spelled : e.Spelled) : e.fault? = none := by
  unfold Expr.fault?
  split
  · rfl
  · rfl
  · rename_i fault other is
    obtain ⟨r, rfl⟩ := (Expr.operation_onlyRefuses spelled).1 fault is
    exact absurd rfl (other r)

/-! ### Statements -/

theorem Graph.addEdge_errors (g : Graph) (src dst : Option BlockId) (label : Option String) :
    (g.addEdge src dst label).errors = g.errors := by
  cases src <;> cases dst <;> rfl

namespace Build

/-- A sequence of two steps fails if the first does, or the second from where the first ended. -/
theorem bind_error {x : Build α} {f : α → Build β} {g g' : Graph} {fault : Fault} :
    (x >>= f).run g = (.error fault, g') ↔ x.run g = (.error fault, g') ∨
      ∃ a h, x.run g = (.ok a, h) ∧ (f a).run h = (.error fault, g') := by
  rw [ExceptT.run_bind]
  change StateT.bind x.run _ g = _ ↔ _
  simp only [StateT.bind]
  rcases x.run g with ⟨e | a, h⟩
  · constructor
    · intro run
      cases run
      exact .inl rfl
    · rintro (run | ⟨_, _, first, _⟩)
      · cases run
        rfl
      · cases first
  · constructor
    · intro run
      exact .inr ⟨a, h, rfl, run⟩
    · rintro (run | ⟨_, _, first, second⟩)
      · cases run
      · cases first
        exact second

/-- What becomes of a step that lays these expressions, if the breaks that stop at `strays` have
nowhere to go: it ends only if nothing stops it, with one more error for every expression that is
refused. -/
structure Reports (strays : List Position) (es : List Expr) (step : Build α) : Prop where
  ends : ∀ {g g' a}, step.run g = (.ok a, g') → strays = [] ∧ (∀ e ∈ es, e.fault? = none) ∧
    g'.errors = g.errors ++ es.filterMap Expr.refusal?
  stops : ∀ {g g' fault}, step.run g = (.error fault, g') →
    (∃ stop ∈ strays, fault = .misplacedBreak stop) ∨ ∃ e ∈ es, e.fault? = some fault

namespace Reports

variable {strays strays' : List Position} {es es' : List Expr}

theorem cast {step : Build α} (reports : Reports strays es step) (sameStrays : strays = strays')
    (sameExprs : es = es') : Reports strays' es' step := sameStrays ▸ sameExprs ▸ reports

theorem bind {x : Build α} {f : α → Build β} (first : Reports strays es x)
    (later : ∀ a, Reports strays' es' (f a)) :
    Reports (strays ++ strays') (es ++ es') (x >>= f) := by
  constructor
  · intro g g' b run
    obtain ⟨a, h, runX, runF⟩ := bind_ok.mp run
    obtain ⟨strayless, sound, errors⟩ := first.ends runX
    obtain ⟨strayless', sound', errors'⟩ := (later a).ends runF
    refine ⟨?_, List.forall_mem_append.mpr ⟨sound, sound'⟩, ?_⟩
    · rw [strayless, strayless', List.nil_append]
    · rw [errors', errors, List.filterMap_append, List.append_assoc]
  · intro g g' fault run
    rcases bind_error.mp run with runX | ⟨a, h, _, runF⟩
    · exact (first.stops runX).imp
        (fun ⟨stop, inside, is⟩ => ⟨stop, List.mem_append_left _ inside, is⟩)
        (fun ⟨e, inside, is⟩ => ⟨e, List.mem_append_left _ inside, is⟩)
    · exact ((later a).stops runF).imp
        (fun ⟨stop, inside, is⟩ => ⟨stop, List.mem_append_right _ inside, is⟩)
        (fun ⟨e, inside, is⟩ => ⟨e, List.mem_append_right _ inside, is⟩)

/-- A step that always ends. -/
theorem of_runs {step : Build α} (sound : ∀ e ∈ es, e.fault? = none)
    (runs : ∀ g, ∃ a g', step.run g = (.ok a, g') ∧
      g'.errors = g.errors ++ es.filterMap Expr.refusal?) : Reports [] es step := by
  constructor
  · intro g g' a run
    obtain ⟨_, _, same, errors⟩ := runs g
    rw [same] at run
    cases run
    exact ⟨rfl, sound, errors⟩
  · intro g g' fault run
    obtain ⟨_, _, same, _⟩ := runs g
    rw [same] at run
    cases run

/-- A step that always ends and adds no error. -/
theorem of_errors {step : Build α}
    (runs : ∀ g, ∃ a g', step.run g = (.ok a, g') ∧ g'.errors = g.errors) : Reports [] [] step :=
  of_runs (List.forall_mem_nil _) fun g => by
    obtain ⟨a, g', run, errors⟩ := runs g
    exact ⟨a, g', run, by rw [errors, List.filterMap_nil, List.append_nil]⟩

theorem pure (a : α) : Reports [] [] (Pure.pure a : Build α) := of_errors fun g => ⟨a, g, rfl, rfl⟩

theorem newBlock (label : String) (tree : Option Operation) :
    Reports [] [] (Build.newBlock label tree) := of_errors fun _ => ⟨_, _, rfl, rfl⟩

theorem edge (src dst : Option BlockId) (label : Option String) :
    Reports [] [] (Build.edge src dst label) :=
  of_errors fun g => ⟨_, _, rfl, g.addEdge_errors src dst label⟩

theorem expression (e : Expr) (before : Option BlockId) (label : Option String) :
    Reports [] [e] (Build.expression e.view before label) := by
  -- lowered or refused, an expression gets a block
  have laid (f : Graph → Graph) (text : String) (tree : Option Operation) (g : Graph) :
      ∃ id g', (do
        modify f
        let id ← Build.newBlock text tree
        Build.edge before (some id) label
        Pure.pure id : Build BlockId).run g = (.ok id, g') ∧ g'.errors = (f g).errors :=
    ⟨_, _, rfl, Graph.addEdge_errors _ _ _ _⟩
  unfold Build.expression
  simp only [e.view_label, if_true]
  split
  · rename_i op lowered
    change e.operation = .ok op at lowered
    have unrefused : [e].filterMap Expr.refusal? = [] := by simp [Expr.refusal?, lowered]
    refine of_runs (List.forall_mem_singleton.mpr (by simp [Expr.fault?, lowered])) fun g => ?_
    rw [unrefused, List.append_nil]
    exact laid (fun g => g.addCalls (calledNames op)) _ _ g
  · rename_i reason refused
    change e.operation = .error (.refused reason) at refused
    have listed : [e].filterMap Expr.refusal? = [reason] := by simp [Expr.refusal?, refused]
    refine of_runs (List.forall_mem_singleton.mpr (by simp [Expr.fault?, refused])) fun g => ?_
    rw [listed]
    exact laid (fun g => g.addError reason) _ _ g
  · rename_i fault other is
    change e.operation = .error fault at is
    refine ⟨fun run => absurd run throw_ok, ?_⟩
    rintro g g' _ ⟨⟩
    refine .inr ⟨e, List.mem_singleton_self e, ?_⟩
    unfold Expr.fault?
    rw [is]
    cases fault <;> first | rfl | exact absurd rfl (other _)

/-- A break that has nowhere to go stops the step. -/
theorem leave (exit : Option BlockId) (stop : Position) :
    Reports (if exit.isSome then [] else [stop]) [] (match exit with
      | some _ => Pure.pure none
      | none => throw (.misplacedBreak stop) : Build (Option BlockId)) := by
  cases exit with
  | some exit => exact pure none
  | none =>
    refine ⟨fun run => absurd run throw_ok, ?_⟩
    rintro g g' fault ⟨⟩
    exact .inl ⟨stop, List.mem_singleton_self stop, rfl⟩

end Reports

end Build

namespace Stmt

open Build

mutual
/-- Where the breaks stop that stand in no loop of the statement. -/
def strays : Stmt → List Position
  | .leave stop => [stop]
  | .block body => straysAll body
  | .ifThen _ body => body.strays
  | .ifElse _ body other => body.strays ++ other.strays
  | .expr _ | .whileDo _ _ | .repeatWhile _ _ | .repeatUntil _ _ => []

def straysAll : List Stmt → List Position
  | [] => []
  | s :: ss => s.strays ++ straysAll ss
end

/-- Wherever the statement is laid, it reports its expressions, and its stray breaks if it stands in
no loop. -/
def ReportsAll (s : Stmt) : Prop := ∀ before label exit,
  Reports (if exit.isSome then [] else s.strays) s.exprs (statement s.view before label exit)

theorem statements_report {body : List Stmt} (each : ∀ s ∈ body, s.ReportsAll)
    (before exit : Option BlockId) :
    Reports (if exit.isSome then [] else straysAll body) (exprsAll body)
      (statements body before exit) := by
  induction body generalizing before with
  | nil => exact (Reports.pure before).cast (by simp [straysAll]) rfl
  | cons s rest ih =>
    obtain ⟨first, later⟩ := List.forall_mem_cons.mp each
    exact ((first before none exit).bind fun next => ih later next).cast
      (by cases exit <;> simp [straysAll]) rfl

theorem block_report {body : List Stmt} (each : ∀ s ∈ body, s.ReportsAll)
    (before : Option BlockId) (label : Option String) (exit : Option BlockId) :
    Reports (if exit.isSome then [] else straysAll body) (exprsAll body)
      (layBlock ((blockViews body).map fun t => (t, layers t)) before label exit) := by
  rw [layBlock_blockViews]
  exact ((Reports.newBlock _ _).bind fun _ => (Reports.newBlock _ _).bind fun _ =>
    (Reports.edge _ _ _).bind fun _ => (statements_report each _ _).bind fun _ =>
    (Reports.edge _ _ _).bind fun _ => .pure _).cast (by simp) (by simp)

/-- A loop takes the breaks of its body. -/
theorem repeat_report {body : Stmt} (c : Expr) (below : body.ReportsAll)
    (before : Option BlockId) (label : Option String) (back leave : String) :
    Reports [] (body.exprs ++ [c]) (repeatSteps before label back leave body c) :=
  ((Reports.newBlock _ _).bind fun first => (Reports.newBlock _ _).bind fun last =>
    (below (some first) label (some last)).bind fun reached =>
    (Reports.expression c reached none).bind fun _ => (Reports.edge _ _ _).bind fun _ =>
    (Reports.edge _ _ _).bind fun _ => (Reports.edge _ _ _).bind fun _ => .pure _).cast
    (by simp) (by simp)

theorem reportsAll (s : Stmt) : s.ReportsAll := by
  induction s using Stmt.induction with
  | expr e =>
    intro before label exit
    rw [statement_expr, map_eq_pure_bind]
    exact ((Reports.expression e before label).bind fun _ => .pure _).cast (by simp [strays]) rfl
  | leave stop =>
    intro before label exit
    rw [statement_leave]
    exact (Reports.newBlock _ _).bind fun _ => (Reports.edge _ _ _).bind fun _ =>
      (Reports.edge _ _ _).bind fun _ => .leave exit stop
  | block body ih =>
    intro before label exit
    rw [statement_block]
    exact block_report ih before label exit
  | ifThen c body ih =>
    intro before label exit
    rw [statement_ifThen]
    exact ((Reports.expression c before label).bind fun condition =>
      (ih (some condition) _ exit).bind fun _ => (Reports.newBlock _ _).bind fun _ =>
      (Reports.edge _ _ _).bind fun _ => (Reports.edge _ _ _).bind fun _ => .pure _).cast
      (by simp [strays]) (by simp [exprs])
  | ifElse c body other ihb iho =>
    intro before label exit
    rw [statement_ifElse]
    exact ((Reports.expression c before label).bind fun condition =>
      (ihb (some condition) _ exit).bind fun _ => (Reports.newBlock _ _).bind fun _ =>
      (Reports.edge _ _ _).bind fun _ => (iho (some condition) _ exit).bind fun _ =>
      (Reports.edge _ _ _).bind fun _ => .pure _).cast
      (by cases exit <;> simp [strays]) (by simp [exprs])
  | whileDo c body ih =>
    intro before label exit
    rw [statement_whileDo]
    exact ((Reports.expression c before label).bind fun condition =>
      (Reports.newBlock _ _).bind fun last =>
      (ih (some condition) _ (some last)).bind fun _ => (Reports.edge _ _ _).bind fun _ =>
      (Reports.edge _ _ _).bind fun _ => .pure _).cast (by simp [strays]) (by simp [exprs])
  | repeatWhile body c ih =>
    intro before label exit
    rw [statement_repeatWhile]
    exact (repeat_report c ih before label _ _).cast (by simp [strays]) rfl
  | repeatUntil body c ih =>
    intro before label exit
    rw [statement_repeatUntil]
    exact (repeat_report c ih before label _ _).cast (by simp [strays]) rfl

end Stmt

/-- Building the graph of a method, told by its body. -/
theorem buildGraph_eq (m : Method) : Analysis.buildGraph m.view =
    (match m.body with
    | none => .ok none
    | some body => do
      let g ← Graph.ofBlock (.node "statment.block" (some .start) (blockViews body.block))
      .ok (some g)) := by
  cases has : m.body with
  | none =>
    rw [Method.view_eq, has]
    rfl
  | some body =>
    rw [Method.view_eq, has]
    simp [Analysis.buildGraph, Analysis.child, Analysis.lastChild, Body.view, Bind.bind,
      Except.bind]

/-- The graph of a method with a body, or what stops its building. -/
theorem buildGraph_reports {m : Method} {body : Body} (has : m.body = some body) :
    (∀ fault, Analysis.buildGraph m.view = .error fault →
      (∃ stop ∈ Stmt.straysAll body.block, fault = .misplacedBreak stop) ∨
        ∃ e ∈ Stmt.exprsAll body.block, e.fault? = some fault) ∧
    ∀ graph, Analysis.buildGraph m.view = .ok graph → ∃ g, graph = some g ∧
      Stmt.straysAll body.block = [] ∧ (∀ e ∈ Stmt.exprsAll body.block, e.fault? = none) ∧
      g.errors = (Stmt.exprsAll body.block).filterMap Expr.refusal? := by
  have reports := @Stmt.block_report body.block (fun s _ => s.reportsAll) none none none
  simp only [buildGraph_eq, has]
  unfold Graph.ofBlock
  split
  · rename_i g run
    refine ⟨nofun, ?_⟩
    rintro _ ⟨⟩
    exact ⟨g, rfl, reports.ends run⟩
  · rename_i fault g run
    refine ⟨?_, nofun⟩
    rintro _ ⟨⟩
    exact reports.stops run

/-- A written method is a declaration or has a graph, unless a break stands outside every loop. -/
theorem buildGraph_stops {m : Method} (spelled : m.Spelled) {fault : Fault}
    (h : Analysis.buildGraph m.view = .error fault) :
    m.body.isSome ∧ ∃ stop, fault = .misplacedBreak stop := by
  cases has : m.body with
  | none =>
    rw [buildGraph_eq, has] at h
    cases h
  | some body =>
    refine ⟨rfl, ?_⟩
    rcases (buildGraph_reports has).1 fault h with ⟨stop, _, is⟩ | ⟨e, inside, is⟩
    · exact ⟨stop, is⟩
    · rw [Expr.fault?_spelled ((spelled.body body has).block e inside)] at is
      cases is

end MethodLang
