import MethodLang.Proofs.Flow.Pruning
import MethodLang.Proofs.Flow.Stopping
import MethodLang.Proofs.Flow.Telling

/-!
The form of a method's graph. From every block of a statement, whether or not control comes to it,
a walk leads to where the statement goes on or to where a break of it goes
(`Stmt.leadsOut_blocks`). So a pruned graph consists of walks from its entry to its exit
(`buildGraph_wellFormed`).
-/
namespace MethodLang

namespace Graph

variable {g : Graph} {next : Int} {exit : Option BlockId} {a m : BlockId}

/-- A walk leads from a block to where control goes on, or to where a break goes. -/
def LeadsOut (g : Graph) (next : Int) (exit : Option BlockId) (a : BlockId) : Prop :=
  g.Reaches a next ∨ ∃ z, exit = some z ∧ g.Reaches a z

theorem LeadsOut.on {text : String} {label : Option String}
    (here : g.block? a = some ⟨text, none, [(next, label)]⟩) : g.LeadsOut next exit a :=
  .inl (.edge here List.mem_cons_self)

theorem LeadsOut.after (first : g.Reaches a m) (out : g.LeadsOut next exit m) :
    g.LeadsOut next exit a :=
  out.imp first.trans fun ⟨z, leads, reaches⟩ => ⟨z, leads, first.trans reaches⟩

/-- What leads out of a part leads out of the whole if the ways out of the part do. -/
theorem LeadsOut.through {next' : Int} {exit' : Option BlockId} (inner : g.LeadsOut next' exit' a)
    (on : g.LeadsOut next exit next') (off : ∀ z, exit' = some z → g.LeadsOut next exit z) :
    g.LeadsOut next exit a := by
  rcases inner with reaches | ⟨z, leads, reaches⟩
  · exact on.after reaches
  · exact (off z leads).after reaches

/-- A break goes on to where it leads. -/
theorem LeadsOut.off (z : BlockId) (leads : exit = some z) : g.LeadsOut next exit z :=
  .inr ⟨z, leads, .refl z⟩

end Graph

namespace Stmt

variable {g : Graph}

theorem start_mem (s : Stmt) (label : Option String) (start next : Int) (exit : Option BlockId) :
    ∃ b, (start, b) ∈ s.blocks label start next exit := by
  have positive := s.size_pos
  have inside : start ∈ (s.blocks label start next exit).map (·.1) := by
    rw [blocks_ids, mem_countFrom]
    omega
  obtain ⟨p, inside, rfl⟩ := List.mem_map.mp inside
  exact ⟨p.2, inside⟩

/-- All blocks of the statement lead out of it, wherever the graph has them. -/
def LeadsOut (g : Graph) (s : Stmt) : Prop :=
  ∀ ⦃label start next exit⦄, g.Holds (s.blocks label start next exit) →
    (exit = none → s.escapes = false) →
    ∀ p ∈ s.blocks label start next exit, g.LeadsOut next exit p.1

theorem LeadsOut.start {s : Stmt} (out : s.LeadsOut g) {label : Option String} {start next : Int}
    {exit : Option BlockId} (holds : g.Holds (s.blocks label start next exit))
    (contained : exit = none → s.escapes = false) : g.LeadsOut next exit start := by
  obtain ⟨b, inside⟩ := s.start_mem label start next exit
  exact out holds contained _ inside

/-- The blocks of statements one behind the other lead out, and so does where control comes to
them. -/
theorem leadsOut_blocksAll {body : List Stmt} (each : ∀ s ∈ body, s.LeadsOut g) {start next : Int}
    {exit : Option BlockId} (holds : g.Holds (blocksAll start next exit body))
    (contained : exit = none → escapesAny body = false) :
    (∀ p ∈ blocksAll start next exit body, g.LeadsOut next exit p.1) ∧
      g.LeadsOut next exit (entryAll start next body) := by
  induction body generalizing start with
  | nil => exact ⟨List.forall_mem_nil _, .inl (.refl next)⟩
  | cons s ss ih =>
    obtain ⟨here, after⟩ := Graph.holds_append.mp holds
    obtain ⟨first, rest⟩ := List.forall_mem_cons.mp each
    have apart (absent : exit = none) := Bool.or_eq_false_iff.mp (contained absent)
    obtain ⟨later, onward⟩ := ih rest after fun absent => (apart absent).2
    have out := first here fun absent => (apart absent).1
    refine ⟨List.forall_mem_append.mpr
      ⟨fun p inside => (out p inside).through onward .off, later⟩, ?_⟩
    exact (first.start here fun absent => (apart absent).1).through onward .off

theorem leadsOut_block {body : List Stmt} (each : ∀ s ∈ body, s.LeadsOut g) :
    (Stmt.block body).LeadsOut g := by
  intro label start next exit holds contained
  simp only [blocks, Graph.holds_cons] at holds
  obtain ⟨first, last, inner⟩ := holds
  obtain ⟨below, entry⟩ := leadsOut_blocksAll each inner contained
  have onward : g.LeadsOut next exit (start + 1) := .on last
  refine List.forall_mem_cons.mpr ⟨?_, List.forall_mem_cons.mpr ⟨onward, fun p inside => ?_⟩⟩
  · exact .after (.edge first List.mem_cons_self) (entry.through onward .off)
  · exact (below p inside).through onward .off

theorem leadsOut_ifThen {c : Expr} {body : Stmt} (ih : body.LeadsOut g) :
    (Stmt.ifThen c body).LeadsOut g := by
  intro label start next exit holds contained
  simp only [blocks, List.cons_append, Graph.holds_cons, Graph.holds_append] at holds ⊢
  obtain ⟨condition, inner, last, _⟩ := holds
  have onward : g.LeadsOut next exit (start + 1 + body.size) := .on last
  have passed : g.Reaches start (start + 1 + body.size) :=
    .edge condition (by rw [Expr.block_succs]; exact List.mem_cons_of_mem _ List.mem_cons_self)
  refine List.forall_mem_cons.mpr ⟨.after passed onward, List.forall_mem_append.mpr
    ⟨fun p inside => ?_, List.forall_mem_singleton.mpr onward⟩⟩
  exact (ih inner contained p inside).through onward .off

theorem leadsOut_ifElse {c : Expr} {body other : Stmt} (ihb : body.LeadsOut g)
    (iho : other.LeadsOut g) : (Stmt.ifElse c body other).LeadsOut g := by
  intro label start next exit holds contained
  simp only [blocks, List.cons_append, Graph.holds_cons, Graph.holds_append] at holds ⊢
  obtain ⟨condition, inner, last, inner'⟩ := holds
  have apart (absent : exit = none) := Bool.or_eq_false_iff.mp (contained absent)
  have onward : g.LeadsOut next exit (start + 1 + body.size) := .on last
  have taken : g.Reaches start (start + 1) :=
    .edge condition (by rw [Expr.block_succs]; exact List.mem_cons_self)
  have entry := ihb.start inner fun absent => (apart absent).1
  refine List.forall_mem_cons.mpr ⟨.after taken (entry.through onward .off),
    List.forall_mem_append.mpr ⟨fun p inside => ?_, List.forall_mem_cons.mpr
      ⟨onward, fun p inside => ?_⟩⟩⟩
  · exact (ihb inner (fun absent => (apart absent).1) p inside).through onward .off
  · exact (iho inner' (fun absent => (apart absent).2) p inside).through onward .off

/-- A break in the body of a loop leads behind the loop, so none escapes it. -/
theorem leadsOut_whileDo {c : Expr} {body : Stmt} (ih : body.LeadsOut g) :
    (Stmt.whileDo c body).LeadsOut g := by
  intro label start next exit holds _
  simp only [blocks, Graph.holds_cons] at holds
  obtain ⟨condition, last, inner⟩ := holds
  have onward : g.LeadsOut next exit (start + 1) := .on last
  have passed : g.Reaches start (start + 1) :=
    .edge condition (by rw [Expr.block_succs]; exact List.mem_cons_of_mem _ List.mem_cons_self)
  refine List.forall_mem_cons.mpr ⟨.after passed onward, List.forall_mem_cons.mpr
    ⟨onward, fun p inside => ?_⟩⟩
  have out := ih inner (fun absent => absurd absent (Option.some_ne_none _)) p inside
  refine out.through (.after passed onward) ?_
  rintro _ ⟨⟩
  exact onward

theorem leadsOut_repetition {s body : Stmt} {c : Expr} {back : Bool}
    (loop : s.repetition? = some (body, c, back)) (ih : body.LeadsOut g) : s.LeadsOut g := by
  intro label start next exit holds _
  simp only [blocks_repetition loop, repeatBlocks, List.cons_append, Graph.holds_cons,
    Graph.holds_append] at holds ⊢
  obtain ⟨first, last, inner, condition, _⟩ := holds
  have onward : g.LeadsOut next exit (start + 1) := .on last
  have left : g.Reaches (start + 2 + body.size) (start + 1) :=
    .edge condition (by rw [Expr.block_succs]; exact List.mem_cons_of_mem _ List.mem_cons_self)
  have broke : ∀ z, some (start + 1 : BlockId) = some z → g.LeadsOut next exit z := by
    rintro _ ⟨⟩
    exact onward
  have contained : some (start + 1 : BlockId) = none → body.escapes = false :=
    fun absent => absurd absent (Option.some_ne_none _)
  have entry := (ih.start inner contained).through (.after left onward) broke
  refine List.forall_mem_cons.mpr ⟨.after (.edge first List.mem_cons_self) entry,
    List.forall_mem_cons.mpr ⟨onward, List.forall_mem_append.mpr
      ⟨fun p inside => ?_, List.forall_mem_singleton.mpr (.after left onward)⟩⟩⟩
  exact (ih inner contained p inside).through (.after left onward) broke

/-- Every block of a statement leads out of it. -/
theorem leadsOut_blocks (g : Graph) (s : Stmt) : s.LeadsOut g := by
  induction s using Stmt.induction with
  | expr e =>
    intro label start next exit holds _
    have here := (Graph.holds_cons.mp holds).1
    have on : g.Reaches start next :=
      .edge here (by rw [Expr.block_succs]; exact List.mem_cons_self)
    exact List.forall_mem_singleton.mpr (.inl on)
  | leave stop =>
    intro label start next exit holds contained
    cases exit with
    | none => cases contained rfl
    | some exit =>
      have here := (Graph.holds_cons.mp holds).1
      exact List.forall_mem_singleton.mpr
        (.after (.edge here List.mem_cons_self) (.off exit rfl))
  | block body ih => exact leadsOut_block ih
  | ifThen c body ih => exact leadsOut_ifThen ih
  | ifElse c body other ihb iho => exact leadsOut_ifElse ihb iho
  | whileDo c body ih => exact leadsOut_whileDo ih
  | repeatWhile body c ih => exact leadsOut_repetition rfl ih
  | repeatUntil body c ih => exact leadsOut_repetition rfl ih

/-- In the graph of a body that no break leaves, every block reaches the exit. -/
theorem bodyBlocks_reach {body : List Stmt} (built : g.blocks = bodyBlocks body)
    (contained : escapesAny body = false) : ∀ p ∈ g.blocks, g.Reaches p.1 1 := by
  have holds := holds_bodyBlocks built
  simp only [bodyBlocks, Graph.holds_cons] at holds
  obtain ⟨first, last, inner⟩ := holds
  obtain ⟨below, entry⟩ :=
    leadsOut_blocksAll (fun s _ => leadsOut_blocks g s) inner fun _ => contained
  have arrives : ∀ {a}, g.LeadsOut 1 none a → g.Reaches a 1 := by
    rintro a (reaches | ⟨_, ⟨⟩, _⟩)
    exact reaches
  rw [built, bodyBlocks]
  exact List.forall_mem_cons.mpr ⟨arrives (.after (.edge first List.mem_cons_self) entry),
    List.forall_mem_cons.mpr ⟨.refl 1, fun p inside => arrives (below p inside)⟩⟩

end Stmt

namespace Graph

variable {g : Graph} {entry exit : BlockId}

theorem Reaches.prune {a z : BlockId} (reaches : g.Reaches a z) (there : g.has z)
    (reached : g.Reaches entry a) : (g.prune entry exit).Reaches a z := by
  obtain ⟨p, walk⟩ := reaches
  exact ⟨p, walk.prune there reached⟩

theorem has_of_mem {p : BlockId × Block} (inside : p ∈ g.blocks) : g.has p.1 :=
  has_iff_mem.mpr (List.mem_map_of_mem inside)

/-- All blocks lie on walks from the entry to the exit, which alone ends them, and a block leaves
at most a choice of two. -/
structure WellFormed (g : Graph) : Prop where
  entered : ∀ p ∈ g.blocks, g.Reaches 0 p.1
  left : ∀ p ∈ g.blocks, g.Reaches p.1 1
  exit : g.has 1
  final : ∀ p ∈ g.blocks, p.2.succs = [] ↔ p.1 = 1
  narrow : ∀ p ∈ g.blocks, p.2.succs.length ≤ 2
  closed : g.Closed

/-- Where a walk leads on from a block there is an edge. -/
theorem Reaches.succs_ne_nil {a z : BlockId} {b : Block} (reaches : g.Reaches a z) (other : a ≠ z)
    (here : g.block? a = some b) : b.succs ≠ [] := by
  obtain ⟨p, walk⟩ := reaches
  cases walk with
  | nil => contradiction
  | cons found taken _ =>
    rw [here] at found
    cases found
    exact List.ne_nil_of_mem taken

/-- Pruning leaves a well-formed graph if every block reaches the exit, where all walks end. -/
theorem prune_wellFormed (nodup : (g.blocks.map (·.1)).Nodup) (first : g.has 0)
    (last : (1, ⟨"end", none, []⟩) ∈ g.blocks) (narrow : Blocks.Narrow g.blocks)
    (ends : ∀ p ∈ g.blocks, g.Reaches p.1 1) : (g.prune 0 1).WellFormed := by
  have there : g.has 1 := has_of_mem last
  have arrives : g.Reaches 0 1 := by
    obtain ⟨p, inside, start⟩ := List.mem_map.mp (has_iff_mem.mp first)
    exact start ▸ ends p inside
  have survivor : ∀ p ∈ (g.prune 0 1).blocks, g.has p.1 ∧ g.Reaches 0 p.1 := by
    intro p inside
    obtain ⟨old, reached | same⟩ := survives_iff.mp (has_prune.mp (has_of_mem inside))
    · exact ⟨old, reached⟩
    · exact ⟨old, same ▸ arrives⟩
  have onward : ∀ p ∈ (g.prune 0 1).blocks, (g.prune 0 1).Reaches p.1 1 := by
    intro p inside
    obtain ⟨old, reached⟩ := survivor p inside
    obtain ⟨q, was, same⟩ := List.mem_map.mp (has_iff_mem.mp old)
    exact .prune (same ▸ ends q was) there reached
  refine ⟨fun p inside => ?_, onward, has_prune.mpr (survives_iff.mpr ⟨there, .inr rfl⟩),
    fun p inside => ⟨fun empty => ?_, fun same => ?_⟩, fun p inside => ?_, g.prune_closed 0 1⟩
  · exact .prune (survivor p inside).2 (survivor p inside).1 (.refl 0)
  · refine Decidable.byContradiction fun other => ?_
    have found := lookup_of_nodup (prune_ids.nodup nodup) inside
    exact (onward p inside).succs_ne_nil other found empty
  · rw [prune_eq_restrict] at inside
    obtain ⟨q, kept, rfl⟩ := List.mem_map.mp inside
    have old := lookup_of_nodup nodup (List.mem_filter.mp kept).1
    rw [show q.1 = 1 from same, lookup_of_nodup nodup last] at old
    simp [← Option.some.inj old]
  · rw [prune_eq_restrict] at inside
    obtain ⟨q, kept, rfl⟩ := List.mem_map.mp inside
    exact Nat.le_trans (List.length_filter_le _ _) (narrow q (List.mem_filter.mp kept).1)

end Graph

/-- The graph of a method: its blocks are numbered from zero on, entry and exit first; the entry
reaches the exit; and what pruning leaves is well-formed. -/
theorem buildGraph_wellFormed {m : Method} {body : Body} {g : Graph} (has : m.body = some body)
    (built : Analysis.buildGraph m.view = .ok (some g)) :
    g.blocks.map (·.1) = countFrom 0 g.blocks.length ∧
    (∃ e, g.block? 0 = some ⟨"begin", none, [e]⟩) ∧ g.block? 1 = some ⟨"end", none, []⟩ ∧
    g.Reaches 0 1 ∧ (g.prune 0 1).WellFormed := by
  obtain ⟨blocks, contained⟩ := buildGraph_blocks has built
  have ids := Stmt.bodyBlocks_ids body.block
  have holds := Stmt.holds_bodyBlocks blocks
  have ends := Stmt.bodyBlocks_reach blocks contained
  rw [← blocks] at ids
  simp only [Stmt.bodyBlocks, Graph.holds_cons] at holds
  obtain ⟨first, last, _⟩ := holds
  have count : g.blocks.length = 2 + Stmt.sizeAll body.block := by
    rw [← List.length_map, ids, length_countFrom]
  refine ⟨by rw [count, ids], ⟨_, first⟩, last, ends _ (Graph.mem_of_block? first), ?_⟩
  refine Graph.prune_wellFormed ?_ ?_ (Graph.mem_of_block? last) (buildGraph_narrow has built) ends
  · rw [ids]
    exact nodup_countFrom 0 _
  · rw [Graph.has, first]
    rfl

/-- A loop in which every branch ends in a break, one of them behind a repetition that is left at
once; what stands behind the branches is not reached. -/
theorem broken_branches_wellFormed :
    let branches : Stmt := .ifElse (.place "b") (.leave .start)
      (.block [.repeatUntil (.leave .start) (.place "c"), .leave .start])
    let loop : Stmt := .whileDo (.place "a") (.block [branches, .expr (.place "d")])
    let m : Method := ⟨⟨"main", [], none⟩, some ⟨none, [loop]⟩⟩
    ∃ g, Analysis.buildGraph m.view = .ok (some g) ∧
      g.blocks.map (·.1) = countFrom 0 g.blocks.length ∧
      (∃ e, g.block? 0 = some ⟨"begin", none, [e]⟩) ∧ g.block? 1 = some ⟨"end", none, []⟩ ∧
      g.Reaches 0 1 ∧ (g.prune 0 1).WellFormed := by
  intro branches loop m
  obtain ⟨stops, ends⟩ := buildGraph_reports (m := m) rfl
  have spelled : ∀ e ∈ Stmt.exprsAll [loop], e.Spelled :=
    List.forall_mem_cons.mpr ⟨rfl, List.forall_mem_cons.mpr ⟨rfl,
      List.forall_mem_cons.mpr ⟨rfl, List.forall_mem_singleton.mpr rfl⟩⟩⟩
  cases built : Analysis.buildGraph m.view with
  | ok graph =>
    obtain ⟨g, rfl, _⟩ := ends graph built
    exact ⟨g, rfl, buildGraph_wellFormed rfl built⟩
  | error fault =>
    rcases stops fault built with ⟨_, stray, _⟩ | ⟨e, inside, is⟩
    · cases stray
    · rw [Expr.fault?_spelled (spelled e inside)] at is
      cases is

end MethodLang
