import Mathlib.Logic.Relation
import MethodLang.Proofs.Flow.Walk

/-!
Pruning of any graph, also one with edges that lead nowhere. The search from the entry comes to an
end whatever the graph, and has then seen the blocks to which a walk leads; with the exit these
are the survivors, and pruning once more changes nothing (`prune_exact`).
-/
namespace MethodLang

namespace Graph

variable {g : Graph} {entry exit : BlockId}

/-! ### The search -/

/-- How far a search has come. -/
structure Search where
  todo : List BlockId
  seen : List BlockId

/-- One visit of a search. An id that was seen before, or is that of no block, is passed over. -/
inductive Visits (g : Graph) : Search → Search → Prop where
  | pass {id : BlockId} {todo seen : List BlockId} (nothing : id ∈ seen ∨ g.block? id = none) :
      g.Visits ⟨id :: todo, seen⟩ ⟨todo, seen⟩
  | enter {id : BlockId} {todo seen : List BlockId} {b : Block} (fresh : id ∉ seen)
      (found : g.block? id = some b) :
      g.Visits ⟨id :: todo, seen⟩ ⟨b.succs.map (·.1) ++ todo, id :: seen⟩

/-- The most visits that a search can still make: those on its list, and one for each edge of a
block that it has not seen. -/
def Search.cost (g : Graph) (s : Search) : Nat := s.todo.length + unseen s.seen g.blocks

theorem Visits.cost_lt {s t : Search} (visit : g.Visits s t) : t.cost g < s.cost g := by
  cases visit with
  | pass nothing => simp only [Search.cost, List.length_cons]; omega
  | enter fresh found =>
    have settled := unseen_cons found fresh
    simp only [Search.cost, List.length_append, List.length_map, List.length_cons]
    omega

/-- No search goes on for ever. -/
theorem visits_wellFounded (g : Graph) : WellFounded fun t s => g.Visits s t :=
  Subrelation.wf Visits.cost_lt (measure (Search.cost g)).wf

/-- With as many visits allowed as it can make, a search is carried on until its list is empty. -/
theorem visit_run (fuel : Nat) (todo seen : List BlockId)
    (enough : Search.cost g ⟨todo, seen⟩ ≤ fuel) :
    Relation.ReflTransGen g.Visits ⟨todo, seen⟩ ⟨[], g.visit fuel todo seen⟩ := by
  induction fuel generalizing todo seen with
  | zero =>
    obtain rfl : todo = [] := List.eq_nil_of_length_eq_zero (by
      simp only [Search.cost] at enough; omega)
    exact .refl
  | succ fuel ih =>
    cases todo with
    | nil => exact .refl
    | cons id todo =>
      by_cases nothing : id ∈ seen ∨ g.block? id = none
      · have visit : g.Visits ⟨id :: todo, seen⟩ ⟨todo, seen⟩ := .pass nothing
        rw [visit_skip nothing]
        exact .head visit (ih todo seen (by have := visit.cost_lt; omega))
      · obtain ⟨fresh, found⟩ := not_or.mp nothing
        obtain ⟨b, found⟩ := Option.ne_none_iff_exists'.mp found
        have visit : g.Visits ⟨id :: todo, seen⟩ ⟨b.succs.map (·.1) ++ todo, id :: seen⟩ :=
          .enter fresh found
        rw [visit_new fresh found]
        exact .head visit (ih _ _ (by have := visit.cost_lt; omega))

theorem reached_run (g : Graph) (entry : BlockId) :
    Relation.ReflTransGen g.Visits ⟨[entry], []⟩ ⟨[], g.reached entry⟩ := by
  refine visit_run _ _ _ ?_
  simp only [Search.cost, unseen, List.not_mem_nil, if_false, List.length_singleton]
  omega

/-! ### What a search has seen -/

/-- Some walk leads from a block to another. -/
def Reaches (g : Graph) (a z : BlockId) : Prop := ∃ p, g.Walk a p z

theorem Reaches.refl (a : BlockId) : g.Reaches a a := ⟨[], .nil a⟩

theorem Reaches.trans {a m z : BlockId} (first : g.Reaches a m) (later : g.Reaches m z) :
    g.Reaches a z := by
  obtain ⟨p, walk⟩ := first
  obtain ⟨q, walk'⟩ := later
  exact ⟨p ++ q, walk.append walk'⟩

theorem Reaches.edge {a : BlockId} {b : Block} {e : Edge} (here : g.block? a = some b)
    (taken : e ∈ b.succs) : g.Reaches a e.1 := ⟨[⟨a, e⟩], .cons here taken (.nil _)⟩

/-- What is seen are blocks, and all that is seen or is to be visited can be reached. -/
structure Search.Sound (g : Graph) (entry : BlockId) (s : Search) : Prop where
  seen : ∀ id ∈ s.seen, g.has id ∧ g.Reaches entry id
  todo : ∀ id ∈ s.todo, g.Reaches entry id

theorem Visits.sound {s t : Search} (visit : g.Visits s t) (sound : s.Sound g entry) :
    t.Sound g entry := by
  obtain ⟨seen, todo⟩ := sound
  cases visit with
  | pass nothing => exact ⟨seen, (List.forall_mem_cons.mp todo).2⟩
  | enter fresh found =>
    obtain ⟨here, later⟩ := List.forall_mem_cons.mp todo
    refine ⟨List.forall_mem_cons.mpr ⟨⟨?_, here⟩, seen⟩, List.forall_mem_append.mpr ⟨?_, later⟩⟩
    · rw [has, found]
      rfl
    · exact List.forall_mem_map.mpr fun e taken => here.trans (.edge found taken)

theorem Search.Sound.run {s t : Search} (sound : s.Sound g entry)
    (run : Relation.ReflTransGen g.Visits s t) : t.Sound g entry := by
  induction run with
  | refl => exact sound
  | tail _ visit ih => exact visit.sound ih

theorem Walk.has_start {a z : BlockId} {p : List Step} (walk : g.Walk a p z) (there : g.has z) :
    g.has a := by
  cases walk with
  | nil => exact there
  | cons here => rw [has, here]; rfl

/-- A walk from a block that was seen to a block comes to blocks that were seen. -/
theorem Walk.seen {a z : BlockId} {p : List Step} (walk : g.Walk a p z) (there : g.has z)
    (start : a ∈ g.reached entry) : z ∈ g.reached entry := by
  induction walk with
  | nil => exact start
  | cons here taken rest ih =>
    exact ih there ((g.reached_spec entry).2 _ start _ here _ taken (rest.has_start there))

/-- The search sees the blocks to which a walk leads. -/
theorem mem_reached_iff {id : BlockId} :
    id ∈ g.reached entry ↔ g.has id ∧ g.Reaches entry id := by
  constructor
  · have start : Search.Sound g entry ⟨[entry], []⟩ :=
      ⟨List.forall_mem_nil _, List.forall_mem_singleton.mpr (.refl entry)⟩
    exact (start.run (g.reached_run entry)).seen id
  · rintro ⟨there, p, walk⟩
    exact walk.seen there ((g.reached_spec entry).1 (walk.has_start there))

/-! ### Survivors -/

/-- Whether a block is left after pruning. -/
def survives (g : Graph) (entry exit id : BlockId) : Bool :=
  g.has id && ((g.reached entry).contains id || id == exit)

theorem survives_iff {id : BlockId} :
    g.survives entry exit id ↔ g.has id ∧ (g.Reaches entry id ∨ id = exit) := by
  simp only [survives, Bool.and_eq_true, Bool.or_eq_true, List.contains_iff_mem, mem_reached_iff,
    beq_iff_eq]
  constructor
  · rintro ⟨there, ⟨_, reached⟩ | same⟩
    · exact ⟨there, .inl reached⟩
    · exact ⟨there, .inr same⟩
  · rintro ⟨there, reached | same⟩
    · exact ⟨there, .inl ⟨there, reached⟩⟩
    · exact ⟨there, .inr same⟩

/-- The blocks with the ids that pass a test, each with its edges to such blocks. -/
def restrict (keep : BlockId → Bool) (g : Graph) : Graph :=
  { g with blocks := (g.blocks.filter fun p => keep p.1).map fun p =>
      (p.1, { p.2 with succs := p.2.succs.filter fun e => keep e.1 }) }

theorem has_iff_mem {id : BlockId} : g.has id ↔ id ∈ g.blocks.map (·.1) := by
  simp [has, block?, List.lookup_isSome_iff]

theorem prune_eq_restrict (g : Graph) (entry exit : BlockId) :
    g.prune entry exit = g.restrict (g.survives entry exit) := by
  have kept : (g.blocks.filter fun p => (g.reached entry).contains p.1 || p.1 == exit) =
      g.blocks.filter fun p => g.survives entry exit p.1 := by
    refine List.filter_congr fun p inside => ?_
    have there : g.has p.1 := has_iff_mem.mpr (List.mem_map_of_mem inside)
    rw [survives, there, Bool.true_and]
  have ids : ∀ id, ((g.blocks.filter fun p => g.survives entry exit p.1).map (·.1)).contains id =
      g.survives entry exit id := by
    intro id
    rw [Bool.eq_iff_iff, List.contains_iff_mem]
    constructor
    · intro listed
      obtain ⟨p, inside, rfl⟩ := List.mem_map.mp listed
      exact (List.mem_filter.mp inside).2
    · intro survives
      obtain ⟨p, inside, rfl⟩ := List.mem_map.mp (has_iff_mem.mp (survives_iff.mp survives).1)
      exact List.mem_map_of_mem (List.mem_filter.mpr ⟨inside, survives⟩)
  unfold prune restrict
  simp only [kept, ids]

theorem restrict_block? (keep : BlockId → Bool) (id : BlockId) :
    (g.restrict keep).block? id =
      if keep id then (g.block? id).map fun b =>
        { b with succs := b.succs.filter fun e => keep e.1 } else none :=
  lookup_filter_map keep (fun b => { b with succs := b.succs.filter fun e => keep e.1 }) id g.blocks

theorem has_prune {id : BlockId} :
    (g.prune entry exit).has id ↔ g.survives entry exit id := by
  rw [has, prune_eq_restrict, restrict_block?]
  cases survives : g.survives entry exit id with
  | true =>
    have there : (g.block? id).isSome := (survives_iff.mp survives).1
    simpa using there
  | false => simp

theorem prune_ids : ((g.prune entry exit).blocks.map (·.1)).Sublist (g.blocks.map (·.1)) := by
  rw [prune, List.map_map]
  exact List.filter_sublist.map _

/-- A walk that starts where the search came to and ends in a block is still there. -/
theorem Walk.prune {a z : BlockId} {p : List Step} (walk : g.Walk a p z) (there : g.has z)
    (reached : g.Reaches entry a) : (g.prune entry exit).Walk a p z := by
  induction walk with
  | nil a => exact .nil a
  | @cons a z b e p here taken rest ih =>
    have onward := reached.trans (.edge here taken)
    have from_here : g.survives entry exit a :=
      survives_iff.mpr ⟨by rw [has, here]; rfl, .inl reached⟩
    have to_there : g.survives entry exit e.1 :=
      survives_iff.mpr ⟨rest.has_start there, .inl onward⟩
    have block : (g.prune entry exit).block? a =
        some { b with succs := b.succs.filter fun e => g.survives entry exit e.1 } := by
      rw [prune_eq_restrict, restrict_block?, if_pos from_here, here, Option.map_some]
    exact .cons block (List.mem_filter.mpr ⟨taken, to_there⟩) (ih there onward)

/-- Every edge that is left leads to a block that is left. -/
theorem prune_closed (g : Graph) (entry exit : BlockId) : (g.prune entry exit).Closed := by
  intro p inside e taken
  rw [prune_eq_restrict] at inside
  obtain ⟨q, _, rfl⟩ := List.mem_map.mp inside
  exact has_prune.mpr (List.mem_filter.mp taken).2

/-- A second pruning asks for no block less. -/
theorem survives_prune {id : BlockId} (survives : g.survives entry exit id) :
    (g.prune entry exit).survives entry exit id := by
  obtain ⟨there, reached | same⟩ := survives_iff.mp survives
  · obtain ⟨p, walk⟩ := reached
    exact survives_iff.mpr ⟨has_prune.mpr survives, .inl ⟨p, walk.prune there (.refl entry)⟩⟩
  · exact survives_iff.mpr ⟨has_prune.mpr survives, .inr same⟩

theorem restrict_eq_self {keep : BlockId → Bool} (all : ∀ p ∈ g.blocks, keep p.1)
    (ends : ∀ p ∈ g.blocks, ∀ e ∈ p.2.succs, keep e.1) : g.restrict keep = g := by
  have same : g.blocks.map (fun p =>
      (p.1, { p.2 with succs := p.2.succs.filter fun e => keep e.1 })) = g.blocks.map id := by
    refine List.map_congr_left fun p inside => ?_
    rw [List.filter_eq_self.mpr (ends p inside)]
    rfl
  rw [restrict, List.filter_eq_self.mpr all, same, List.map_id]

theorem prune_prune (g : Graph) (entry exit : BlockId) :
    (g.prune entry exit).prune entry exit = g.prune entry exit := by
  rw [prune_eq_restrict (g.prune entry exit)]
  apply restrict_eq_self
  · intro p inside
    exact survives_prune (has_prune.mp (has_iff_mem.mpr (List.mem_map_of_mem inside)))
  · intro p inside e taken
    exact survives_prune (has_prune.mp (g.prune_closed entry exit p inside e taken))

/-- Pruning any graph. No search goes on for ever, and the one from the entry is carried on until
nothing is left to visit. It leaves the blocks that the entry reaches and the exit, if there is
one, in their order and as they were, but only with the edges from one such block to another; and
pruning again changes nothing. -/
theorem prune_exact (g : Graph) (entry exit : BlockId) :
    (WellFounded (fun t s => g.Visits s t) ∧
      Relation.ReflTransGen g.Visits ⟨[entry], []⟩ ⟨[], g.reached entry⟩) ∧
    (∃ keep : BlockId → Bool,
      (∀ id, keep id ↔ g.has id ∧ (g.Reaches entry id ∨ id = exit)) ∧
      g.prune entry exit = { g with blocks := (g.blocks.filter fun p => keep p.1).map fun p =>
        (p.1, { p.2 with succs := p.2.succs.filter fun e => keep e.1 }) }) ∧
    (g.prune entry exit).prune entry exit = g.prune entry exit :=
  ⟨⟨g.visits_wellFounded, g.reached_run entry⟩,
    ⟨g.survives entry exit, fun _ => survives_iff, g.prune_eq_restrict entry exit⟩,
    g.prune_prune entry exit⟩

end Graph

end MethodLang
