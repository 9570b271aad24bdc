import MethodLang.Flow.Graph
import MethodLang.Proofs.ListLemmas

/-!
Walks along the edges of a flow graph. Pruning takes away no walk from the entry, and changes no
block that such a walk comes to.
-/
namespace MethodLang

namespace Graph

/-- A step leaves a block along one of its edges. -/
structure Step where
  src : BlockId
  edge : Edge

inductive Walk (g : Graph) : BlockId → List Step → BlockId → Prop where
  | nil (a : BlockId) : g.Walk a [] a
  | cons {a z : BlockId} {b : Block} {e : Edge} {p : List Step} (here : g.block? a = some b)
      (taken : e ∈ b.succs) (rest : g.Walk e.1 p z) : g.Walk a (⟨a, e⟩ :: p) z

theorem Walk.append {g : Graph} {a m z : BlockId} {p q : List Step} (first : g.Walk a p m)
    (second : g.Walk m q z) : g.Walk a (p ++ q) z := by
  induction first with
  | nil => exact second
  | cons here taken _ ih => exact .cons here taken (ih second)

/-- Every edge leads to a block. -/
def Closed (g : Graph) : Prop := ∀ p ∈ g.blocks, ∀ e ∈ p.2.succs, (g.block? e.1).isSome

variable {g : Graph}

theorem mem_of_block? {id : BlockId} {b : Block} (found : g.block? id = some b) :
    (id, b) ∈ g.blocks := by
  obtain ⟨before, after, split, _⟩ := List.lookup_eq_some_iff.mp found
  rw [split]
  exact List.mem_append_right before List.mem_cons_self

/-- The number of edges of the blocks not seen yet. -/
def unseen (seen : List BlockId) (blocks : List (BlockId × Block)) : Nat :=
  (blocks.flatMap fun p => if p.1 ∈ seen then [] else p.2.succs).length

theorem unseen_cons_le (id : BlockId) (seen : List BlockId) (blocks : List (BlockId × Block)) :
    unseen (id :: seen) blocks ≤ unseen seen blocks := by
  induction blocks with
  | nil => exact Nat.le_refl 0
  | cons p ps ih =>
    simp only [unseen, List.flatMap_cons, List.length_append] at ih ⊢
    refine Nat.add_le_add ?_ ih
    by_cases old : p.1 ∈ seen
    · simp only [List.mem_cons_of_mem id old, if_true, List.length_nil, Nat.zero_le]
    · simp only [old, if_false]
      split
      · exact Nat.zero_le _
      · exact Nat.le_refl _

/-- Seeing a block settles its edges. -/
theorem unseen_cons {id : BlockId} {b : Block} {seen : List BlockId}
    {blocks : List (BlockId × Block)} (found : blocks.lookup id = some b) (fresh : id ∉ seen) :
    unseen (id :: seen) blocks + b.succs.length ≤ unseen seen blocks := by
  induction blocks with
  | nil => cases found
  | cons p ps ih =>
    obtain ⟨i, c⟩ := p
    rw [List.lookup_cons] at found
    by_cases same : id = i
    · subst same
      simp only [beq_self_eq_true, Option.some.injEq] at found
      subst found
      have rest := unseen_cons_le id seen ps
      simp only [unseen, List.flatMap_cons, List.length_append, List.mem_cons_self, if_true,
        if_neg fresh, List.length_nil] at rest ⊢
      omega
    · simp only [beq_false_of_ne same] at found
      have rest := ih found
      have other : i ∈ id :: seen ↔ i ∈ seen := by
        simp only [List.mem_cons, or_iff_right (Ne.symm same)]
      simp only [unseen, List.flatMap_cons, List.length_append, other] at rest ⊢
      omega

/-- A set of blocks that no edge leaves. -/
def Stays (g : Graph) (ids : List BlockId) : Prop :=
  ∀ id ∈ ids, ∀ b, g.block? id = some b → ∀ e ∈ b.succs, (g.block? e.1).isSome → e.1 ∈ ids

theorem visit_skip {fuel : Nat} {id : BlockId} {todo seen : List BlockId}
    (nothing : id ∈ seen ∨ g.block? id = none) :
    g.visit (fuel + 1) (id :: todo) seen = g.visit fuel todo seen := by
  rcases nothing with old | missing
  · simp only [visit, List.contains_iff_mem, old, if_true]
  · simp only [visit, missing, ite_self]

theorem visit_new {fuel : Nat} {id : BlockId} {b : Block} {todo seen : List BlockId}
    (fresh : id ∉ seen) (found : g.block? id = some b) :
    g.visit (fuel + 1) (id :: todo) seen =
      g.visit fuel (b.succs.map (·.1) ++ todo) (id :: seen) := by
  simp only [visit, List.contains_iff_mem, fresh, if_false, found]

/-- With a visit left for each edge not settled, visiting ends in a set that no edge leaves. -/
theorem visit_stays (fuel : Nat) (todo seen : List BlockId)
    (enough : todo.length + unseen seen g.blocks ≤ fuel)
    (known : ∀ id ∈ seen, ∀ b, g.block? id = some b → ∀ e ∈ b.succs, (g.block? e.1).isSome →
      e.1 ∈ seen ∨ e.1 ∈ todo) :
    (∀ id, id ∈ seen ∨ id ∈ todo ∧ (g.block? id).isSome → id ∈ g.visit fuel todo seen) ∧
      g.Stays (g.visit fuel todo seen) := by
  induction fuel generalizing todo seen with
  | zero =>
    obtain rfl : todo = [] := List.eq_nil_of_length_eq_zero (by omega)
    refine ⟨fun id met => ?_, fun id hid b hb e he there => ?_⟩
    · exact met.resolve_right fun todo => nomatch todo.1
    · exact (known id hid b hb e he there).resolve_right List.not_mem_nil
  | succ fuel ih =>
    cases todo with
    | nil =>
      refine ⟨fun id met => ?_, fun id hid b hb e he there => ?_⟩
      · exact met.resolve_right fun todo => nomatch todo.1
      · exact (known id hid b hb e he there).resolve_right List.not_mem_nil
    | cons id todo =>
      rw [List.length_cons] at enough
      by_cases nothing : id ∈ seen ∨ g.block? id = none
      · rw [visit_skip nothing]
        -- a block that is passed over is seen already or is none
        have passed : ∀ i ∈ id :: todo, (g.block? i).isSome → i ∈ seen ∨ i ∈ todo := by
          intro i hi there
          rcases List.mem_cons.mp hi with rfl | later
          · exact nothing.imp_right fun missing => by rw [missing] at there; cases there
          · exact .inr later
        obtain ⟨met, stays⟩ := ih todo seen (by omega) fun i hi b hb e he there =>
          (known i hi b hb e he there).elim .inl fun later => passed e.1 later there
        refine ⟨fun i hi => met i ?_, stays⟩
        exact hi.elim .inl fun ⟨later, there⟩ =>
          (passed i later there).imp_right fun later => ⟨later, there⟩
      · obtain ⟨fresh, found⟩ := not_or.mp nothing
        obtain ⟨b, found⟩ := Option.ne_none_iff_exists'.mp found
        rw [visit_new fresh found]
        have less := unseen_cons found fresh
        obtain ⟨met, stays⟩ := ih (b.succs.map (·.1) ++ todo) (id :: seen)
          (by rw [List.length_append, List.length_map]; omega) fun i hi c hc e he there => by
            rcases List.mem_cons.mp hi with rfl | old
            · rw [found] at hc
              cases hc
              exact .inr (List.mem_append_left _ (List.mem_map_of_mem he))
            · rcases known i old c hc e he there with seen | later
              · exact .inl (List.mem_cons_of_mem id seen)
              · rcases List.mem_cons.mp later with same | later
                · exact .inl (same ▸ List.mem_cons_self)
                · exact .inr (List.mem_append_right _ later)
        refine ⟨fun i hi => met i ?_, stays⟩
        rcases hi with old | ⟨later, there⟩
        · exact .inl (List.mem_cons_of_mem id old)
        · rcases List.mem_cons.mp later with same | later
          · exact .inl (same ▸ List.mem_cons_self)
          · exact .inr ⟨List.mem_append_right _ later, there⟩

/-- The blocks reached from the entry: the entry, and with a block all it leads to. -/
theorem reached_spec (g : Graph) (entry : BlockId) :
    ((g.block? entry).isSome → entry ∈ g.reached entry) ∧ g.Stays (g.reached entry) := by
  have all : unseen [] g.blocks = (g.blocks.flatMap fun p => p.2.succs).length := by
    simp [unseen]
  obtain ⟨met, stays⟩ := visit_stays ((g.blocks.flatMap fun p => p.2.succs).length + 1)
    [entry] [] (by rw [all, List.length_singleton]; omega) (List.forall_mem_nil _)
  exact ⟨fun there => met entry (.inr ⟨List.mem_cons_self, there⟩), stays⟩

theorem lookup_filter_map (keep : BlockId → Bool) (f : Block → Block) (id : BlockId)
    (blocks : List (BlockId × Block)) :
    ((blocks.filter fun p => keep p.1).map fun p => (p.1, f p.2)).lookup id =
      if keep id then (blocks.lookup id).map f else none := by
  induction blocks with
  | nil => simp
  | cons p ps ih =>
    rw [List.filter_cons, List.lookup_cons]
    by_cases same : id = p.1
    · subst same
      cases kept : keep p.1 with
      | true => simp
      | false =>
        rw [kept] at ih
        simpa using ih
    · have other : (id == p.1) = false := beq_false_of_ne same
      cases kept : keep p.1 <;> simp [List.lookup_cons, other, ih]

/-- Pruning leaves a block that the entry reaches as it is. -/
theorem prune_block? (closed : g.Closed) {entry exit id : BlockId}
    (reached : id ∈ g.reached entry) : (g.prune entry exit).block? id = g.block? id := by
  let keep (i : BlockId) : Bool := (g.reached entry).contains i || i == exit
  let ids := (g.blocks.filter fun p => keep p.1).map (·.1)
  let trim (b : Block) : Block := { b with succs := b.succs.filter fun e => ids.contains e.1 }
  have pruned : (g.prune entry exit).block? id = if keep id then (g.block? id).map trim else none :=
    lookup_filter_map keep trim id g.blocks
  have kept : keep id := by simp [keep, reached]
  rw [pruned, if_pos kept]
  cases found : g.block? id with
  | none => rfl
  | some b =>
    have stay : ∀ e ∈ b.succs, ids.contains e.1 := by
      intro e he
      have there := closed (id, b) (mem_of_block? found) e he
      obtain ⟨c, hc⟩ := Option.isSome_iff_exists.mp there
      have met := (g.reached_spec entry).2 id reached b found e he there
      rw [List.contains_iff_mem]
      exact List.mem_map_of_mem (List.mem_filter.mpr ⟨mem_of_block? hc, by simp [keep, met]⟩)
    have same : trim b = b := by
      simp only [trim, List.filter_eq_self.mpr stay]
    rw [Option.map_some, same]

/-- Pruning keeps the walks from the entry and adds none. -/
theorem prune_walk (closed : g.Closed) {entry exit a z : BlockId} {p : List Step}
    (reached : a ∈ g.reached entry) :
    (g.prune entry exit).Walk a p z ↔ g.Walk a p z := by
  constructor
  · intro walk
    induction walk with
    | nil a => exact .nil a
    | cons here taken _ ih =>
      rw [prune_block? closed reached] at here
      exact .cons here taken (ih ((g.reached_spec entry).2 _ reached _ here _ taken
        (closed _ (mem_of_block? here) _ taken)))
  · intro walk
    induction walk with
    | nil a => exact .nil a
    | cons here taken _ ih =>
      refine .cons ((prune_block? closed reached).trans here) taken
        (ih ((g.reached_spec entry).2 _ reached _ here _ taken
          (closed _ (mem_of_block? here) _ taken)))

end Graph

end MethodLang
