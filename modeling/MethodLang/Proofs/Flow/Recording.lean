import MethodLang.Program.Analysis
import MethodLang.Proofs.Operation.Lowering
import MethodLang.Proofs.Tree.Related

/-!
Calls on record. A graph lists the names that its trees call: every step of building keeps them
listed, whatever is built and whether or not it is built to the end (`buildGraph_recorded`).
-/
namespace MethodLang

namespace Graph

/-- The names that the trees of a graph call are among its calls. -/
def Recorded (g : Graph) : Prop :=
  ∀ p ∈ g.blocks, ∀ op, p.2.tree = some op → Operation.calledNames op ⊆ g.calls

variable {g : Graph}

theorem mem_addCalls {names : List String} {n : String} :
    n ∈ (g.addCalls names).calls ↔ n ∈ g.calls ∨ n ∈ names := by
  unfold addCalls
  simp only
  generalize g.calls = calls
  induction names generalizing calls with
  | nil => simp
  | cons m rest ih =>
    rw [List.foldl_cons, ih]
    split
    · rename_i known
      have known : m ∈ calls := by simpa using known
      simp only [List.mem_cons]
      constructor
      · rintro (old | later)
        · exact .inl old
        · exact .inr (.inr later)
      · rintro (old | rfl | later)
        · exact .inl old
        · exact .inl known
        · exact .inr later
    · simp [or_assoc]

theorem Recorded.addCalls (recorded : g.Recorded) (names : List String) :
    (g.addCalls names).Recorded := by
  intro p inside op tree n called
  exact mem_addCalls.mpr (.inl (recorded p inside op tree called))

theorem Recorded.addBlock (recorded : g.Recorded) (label : String) {tree : Option Operation}
    (called : ∀ op, tree = some op → Operation.calledNames op ⊆ g.calls) :
    (g.addBlock label tree).Recorded :=
  List.forall_mem_append.mpr ⟨recorded, List.forall_mem_singleton.mpr called⟩

theorem Recorded.addEdge (recorded : g.Recorded) (src dst : Option BlockId)
    (label : Option String) : (g.addEdge src dst label).Recorded := by
  unfold Graph.addEdge
  split
  · refine List.forall_mem_map.mpr fun p inside op tree => recorded p inside op ?_
    rw [← tree]
    simp only
    split <;> rfl
  · exact recorded

end Graph

namespace Build

variable {α β : Type}

/-- The step keeps all calls on record, even if it stops. -/
def Records (step : Build α) : Prop := ∀ g : Graph, g.Recorded → (step.run g).2.Recorded

namespace Records

theorem bind {x : Build α} {f : α → Build β} (first : Records x) (later : ∀ a, Records (f a)) :
    Records (x >>= f) := by
  intro g recorded
  have before := first g recorded
  change (ExceptT.bindCont f (x.run g).1 (x.run g).2).2.Recorded
  revert before
  rcases x.run g with ⟨_ | a, h⟩
  · exact id
  · exact later a h

theorem pure (a : α) : Records (Pure.pure a : Build α) := fun _ recorded => recorded

theorem throw (fault : Fault) : Records (throw fault : Build α) := fun _ recorded => recorded

theorem newBlock (label : String) : Records (newBlock label none) :=
  fun _ recorded => recorded.addBlock label (fun _ tree => nomatch tree)

theorem edge (src dst : Option BlockId) (label : Option String) : Records (edge src dst label) :=
  fun _ recorded => recorded.addEdge src dst label

/-- The names are put on record before the block of the expression is made. -/
theorem expression (t : Tree α) (before : Option BlockId) (label : Option String) :
    Records (expression t before label) := by
  have last (id : BlockId) : Records (do Build.edge before (some id) label; Pure.pure id) :=
    (edge _ _ _).bind fun _ => pure id
  unfold Build.expression
  simp only
  split
  · rename_i op _
    intro g recorded
    refine last _ _ ((recorded.addCalls (Operation.calledNames op)).addBlock _ ?_)
    rintro _ ⟨⟩ n called
    exact Graph.mem_addCalls.mpr (.inr called)
  · intro g recorded
    exact last _ _ (Graph.Recorded.addBlock recorded _ (fun _ tree => nomatch tree))
  · exact throw _

end Records

/-! ### Layers -/

/-- Both ways of laying a node keep the record. -/
structure Layers.Record (layers : Layers) : Prop where
  statement : ∀ before label exit, Records (layers.statement before label exit)
  construct : ∀ before label exit, Records (layers.construct before label exit)

section
variable {kids : Kids α} (each : ∀ kid ∈ kids, kid.2.Record)
include each

theorem Records.child {f : Tree α × Layers → Build β} (i : Nat)
    (later : ∀ kid : Tree α × Layers, kid.2.Record → Records (f kid)) :
    Records (child kids i >>= f) := by
  unfold Build.child
  split
  · rename_i kid found
    exact later kid (each kid (List.mem_of_getElem? found))
  · exact throw _

variable (before : Option BlockId) (label : Option String) (exit : Option BlockId)

omit each in
theorem Records.sequence {ls : List Layers} (each : ∀ l ∈ ls, l.Record) :
    Records (sequence ls before exit) := by
  induction ls generalizing before with
  | nil => exact pure before
  | cons l rest ih =>
    obtain ⟨first, later⟩ := List.forall_mem_cons.mp each
    exact (first.statement _ _ _).bind fun next => ih next later

theorem Records.layBlock : Records (layBlock kids before label exit) := by
  have statements : ∀ l ∈ ((kids.take (kids.length - 2)).drop 1).map (·.2), l.Record :=
    List.forall_mem_map.mpr fun kid inside =>
      each kid (List.mem_of_mem_take (List.mem_of_mem_drop inside))
  exact (newBlock _).bind fun _ => (newBlock _).bind fun _ => (edge _ _ _).bind fun _ =>
    (sequence _ _ statements).bind fun _ => (edge _ _ _).bind fun _ => pure _

theorem Records.layIf : Records (layIf kids before label exit) := by
  refine child each 1 fun _ _ => (expression _ _ _).bind fun c => child each 3 fun _ records =>
    (records.statement _ _ _).bind fun _ => (newBlock _).bind fun last =>
    (edge _ _ _).bind fun _ => ?_
  split
  · exact (edge _ _ _).bind fun _ => pure _
  · exact child each 5 fun _ records => (records.statement _ _ _).bind fun _ =>
      (edge _ _ _).bind fun _ => pure _

theorem Records.layWhile : Records (layWhile kids before label exit) :=
  child each 1 fun _ _ => (expression _ _ _).bind fun _ => (newBlock _).bind fun _ =>
    child each 3 fun _ records => (records.statement _ _ _).bind fun _ =>
    (edge _ _ _).bind fun _ => (edge _ _ _).bind fun _ => pure _

theorem Records.layRepeat : Records (layRepeat kids before label exit) :=
  (newBlock _).bind fun _ => (newBlock _).bind fun _ => child each 1 fun _ records =>
    (records.statement _ _ _).bind fun _ => child each 3 fun _ _ =>
    (expression _ _ _).bind fun _ => (edge _ _ _).bind fun _ => child each 2 fun _ _ =>
    (edge _ _ _).bind fun _ => (edge _ _ _).bind fun _ => pure _

end

theorem Records.layBreak (stop : Option Position) (before : Option BlockId) (label : Option String)
    (exit : Option BlockId) : Records (layBreak stop before label exit) := by
  refine (newBlock _).bind fun _ => (edge _ _ _).bind fun _ => (edge _ _ _).bind fun _ => ?_
  split
  · exact pure _
  · exact throw _
  · exact throw _

/-- Laying keeps the record, whatever the tree. -/
theorem layers_record (t : View) : (layers t).Record := by
  induction t using Tree.induction with
  | node label stop ts ih =>
    have each : ∀ kid ∈ ts.map (fun t => (t, layers t)), kid.2.Record := List.forall_mem_map.mpr ih
    rw [layers, Tree.compute_node]
    change (layNode label stop (ts.map fun t => (t, layers t))).Record
    refine ⟨fun before edgeLabel exit => Records.child each 0 fun _ records =>
      records.construct _ _ _, fun before edgeLabel exit => ?_⟩
    simp only [layNode]
    split
    · exact Records.layBlock each _ _ _
    split
    · exact (Records.expression _ _ _).bind fun _ => Records.pure _
    split
    · exact Records.layIf each _ _ _
    split
    · exact Records.layWhile each _ _ _
    split
    · exact Records.layRepeat each _ _ _
    split
    · exact Records.layBreak _ _ _ _
    · exact Records.throw _

end Build

/-- A graph that was built lists all names that its trees call. -/
theorem buildGraph_recorded {t : View} {g : Graph} (built : Analysis.buildGraph t = .ok (some g)) :
    g.Recorded := by
  obtain ⟨body, -, built⟩ := Except.bind_eq_ok.mp built
  split at built
  · cases built
  obtain ⟨block, -, built⟩ := Except.bind_eq_ok.mp built
  obtain ⟨_, laid, built⟩ := Except.bind_eq_ok.mp built
  cases built
  have each : ∀ kid ∈ Build.kidsOf block, kid.2.Record :=
    List.forall_mem_map.mpr fun t _ => Build.layers_record t
  have recorded := Build.Records.layBlock each none none none .empty (List.forall_mem_nil _)
  unfold Graph.ofBlock at laid
  split at laid
  · rename_i run
    cases laid
    change ((Build.block block none none none).run .empty).2.Recorded at recorded
    rwa [run] at recorded
  · cases laid

end MethodLang
