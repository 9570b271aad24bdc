import Mathlib.Data.List.Nodup
import Mathlib.Data.List.Perm.Basic

/-!
Facts about lists that have nothing to do with methods: tables that are looked up by their keys,
lists that are related element by element, and passes over lists that may fail.
-/
namespace MethodLang

/-! ### Tables -/

section
variable {κ α β : Type}

theorem lookup_of_nodup [BEq κ] [LawfulBEq κ] {table : List (κ × α)} {k : κ} {a : α}
    (nodup : (table.map (·.1)).Nodup) (inside : (k, a) ∈ table) : table.lookup k = some a := by
  induction table with
  | nil => cases inside
  | cons p rest ih =>
    obtain ⟨i, c⟩ := p
    rw [List.map_cons, List.nodup_cons] at nodup
    rw [List.lookup_cons]
    rcases List.mem_cons.mp inside with same | later
    · cases same
      rw [beq_self_eq_true]
    · have other : (k == i) = false := by
        refine beq_false_of_ne fun same => nodup.1 ?_
        exact List.mem_map.mpr ⟨(k, a), later, same⟩
      rw [other]
      exact ih nodup.2 later

theorem mem_of_lookup {table : List (String × α)} {name : String} {a : α}
    (found : table.lookup name = some a) : (name, a) ∈ table := by
  obtain ⟨before, after, split, _⟩ := List.lookup_eq_some_iff.mp found
  rw [split]
  exact List.mem_append_right before List.mem_cons_self

theorem lookup_isSome (table : List (String × α)) (name : String) :
    (table.lookup name).isSome = table.any fun p => p.1 == name := by
  induction table with
  | nil => rfl
  | cons p rest ih =>
    rw [List.lookup_cons, List.any_cons, ← ih, Bool.beq_comm]
    cases p.1 == name <;> rfl

theorem lookup_map (f : α → β) (table : List (String × α)) (x : String) :
    (table.map fun p => (p.1, f p.2)).lookup x = (table.lookup x).map f := by
  induction table with
  | nil => rfl
  | cons p rest ih =>
    rw [List.map_cons, List.lookup_cons, List.lookup_cons, ih]
    cases x == p.1 <;> rfl

/-- If no name is repeated, the last declaration of a name is the first. -/
theorem lookup_reverse {table : List (String × α)} (distinct : (table.map (·.1)).Nodup)
    (x : String) : table.reverse.lookup x = table.lookup x := by
  cases found : table.lookup x with
  | some a =>
    refine lookup_of_nodup ?_ (List.mem_reverse.mpr (mem_of_lookup found))
    rw [List.map_reverse]
    exact List.nodup_reverse.mpr distinct
  | none =>
    have absent := lookup_isSome table x
    rw [found, ← List.any_reverse, ← lookup_isSome] at absent
    simpa using absent.symm

/-- What is picked from a list under its names keeps their order. -/
theorem filterMap_names {pick : String × α → Option (String × β)}
    (named : ∀ x y, pick x = some y → y.1 = x.1) (xs : List (String × α)) :
    ((xs.filterMap pick).map (·.1)).Sublist (xs.map (·.1)) := by
  induction xs with
  | nil => exact .slnil
  | cons x xs ih =>
    cases picked : pick x with
    | none =>
      rw [List.filterMap_cons_none picked]
      exact ih.cons x.1
    | some y =>
      rw [List.filterMap_cons_some picked, List.map_cons, List.map_cons, named x y picked]
      exact ih.cons_cons x.1

/-- A sorted list does not tell in which order its names were. -/
theorem sorted_perm {xs ys : List String} (perm : xs.Perm ys) :
    xs.mergeSort (· ≤ ·) = ys.mergeSort (· ≤ ·) := by
  have sorted (zs : List String) : (zs.mergeSort (· ≤ ·)).Pairwise (· ≤ ·) := by
    have pairwise := @List.pairwise_mergeSort _ (fun a b : String => decide (a ≤ b))
      (fun a b c => by simpa using String.le_trans)
      (fun a b => by simpa using String.le_total a b) zs
    simpa using pairwise
  refine List.Perm.eq_of_pairwise (fun a b _ _ => String.le_antisymm) (sorted xs) (sorted ys) ?_
  exact (List.mergeSort_perm xs _).trans (perm.trans (List.mergeSort_perm ys _).symm)

end

/-! ### Element by element -/

section
variable {α β : Type} {R : α → β → Prop} {xs : List α} {ys : List β}

theorem forall₂_getElem? (each : List.Forall₂ R xs ys) (i : Nat) : Option.Rel R xs[i]? ys[i]? := by
  induction each generalizing i with
  | nil => exact .none
  | cons here _ ih =>
    cases i with
    | zero => exact .some here
    | succ i => exact ih i

theorem forall₂_of_getElem? (each : ∀ i : Nat, Option.Rel R xs[i]? ys[i]?) :
    List.Forall₂ R xs ys := by
  induction xs generalizing ys with
  | nil =>
    cases ys with
    | nil => exact .nil
    | cons y ys => cases each 0
  | cons x xs ih =>
    cases ys with
    | nil => cases each 0
    | cons y ys =>
      have first := each 0
      cases first with
      | some here => exact .cons here (ih fun i => each (i + 1))

theorem forall₂_imp_mem {Q : α → β → Prop} (imp : ∀ x ∈ xs, ∀ y, R x y → Q x y)
    (each : List.Forall₂ R xs ys) : List.Forall₂ Q xs ys := by
  induction each with
  | nil => exact .nil
  | cons here _ ih =>
    have ⟨first, rest⟩ := List.forall_mem_cons.mp imp
    exact .cons (first _ here) (ih rest)

theorem forall₂_congr_mem {Q : α → β → Prop} (same : ∀ x ∈ xs, ∀ y, R x y ↔ Q x y) :
    List.Forall₂ R xs ys ↔ List.Forall₂ Q xs ys :=
  ⟨forall₂_imp_mem fun x inside y => (same x inside y).mp,
    forall₂_imp_mem fun x inside y => (same x inside y).mpr⟩

theorem forall₂_set_right (each : List.Forall₂ R xs ys) {i : Nat} {y : β}
    (new : ∀ x, xs[i]? = some x → R x y) : List.Forall₂ R xs (ys.set i y) := by
  induction each generalizing i with
  | nil => exact .nil
  | cons here rest ih =>
    cases i with
    | zero => exact .cons (new _ rfl) rest
    | succ i => exact .cons here (ih fun x found => new x found)

theorem exists_of_mem_left (each : List.Forall₂ R xs ys) {x : α} (inside : x ∈ xs) :
    ∃ y ∈ ys, R x y := by
  induction each with
  | nil => cases inside
  | cons first _ ih =>
    rcases List.mem_cons.mp inside with rfl | later
    · exact ⟨_, List.mem_cons_self, first⟩
    · obtain ⟨y, found, related⟩ := ih later
      exact ⟨y, List.mem_cons_of_mem _ found, related⟩

theorem forall_mem_congr {P : α → Prop} {Q : β → Prop}
    (each : List.Forall₂ (fun x y => P x ↔ Q y) xs ys) : (∀ x ∈ xs, P x) ↔ ∀ y ∈ ys, Q y := by
  induction each with
  | nil => simp
  | cons first _ ih => rw [List.forall_mem_cons, List.forall_mem_cons, first, ih]

theorem exists_map {γ : Type} {f : α → γ} {g : β → γ} {P : β → Prop}
    (each : ∀ x ∈ xs, ∃ y, f x = g y ∧ P y) :
    ∃ ys : List β, xs.map f = ys.map g ∧ ∀ y ∈ ys, P y := by
  induction xs with
  | nil => exact ⟨[], rfl, List.forall_mem_nil _⟩
  | cons x xs ih =>
    obtain ⟨⟨y, same, holds⟩, later⟩ := List.forall_mem_cons.mp each
    obtain ⟨ys, sames, all⟩ := ih later
    exact ⟨y :: ys, by rw [List.map_cons, List.map_cons, same, sames],
      List.forall_mem_cons.mpr ⟨holds, all⟩⟩

/-- Where the elements with a property end is told by the list alone. -/
theorem append_split {p : α → Prop} {xs xs' ys ys' : List α}
    (same : xs ++ ys = xs' ++ ys') (each : ∀ x ∈ xs, p x) (each' : ∀ x ∈ xs', p x)
    (stop : ∀ y ∈ ys.head?, ¬ p y) (stop' : ∀ y ∈ ys'.head?, ¬ p y) : xs = xs' ∧ ys = ys' := by
  induction xs generalizing xs' with
  | nil =>
    cases xs' with
    | nil => exact ⟨rfl, same⟩
    | cons x xs' =>
      rw [List.nil_append] at same
      exact absurd (each' x List.mem_cons_self) (stop x (by rw [same]; rfl))
  | cons x xs ih =>
    obtain ⟨here, later⟩ := List.forall_mem_cons.mp each
    cases xs' with
    | nil =>
      rw [List.nil_append] at same
      exact absurd here (stop' x (by rw [← same]; rfl))
    | cons x' xs' =>
      obtain ⟨rfl, below⟩ := List.cons.inj same
      obtain ⟨rfl, rest⟩ := ih below later (List.forall_mem_cons.mp each').2
      exact ⟨rfl, rest⟩

end

/-! ### Passes over lists -/

section
variable {ε α β : Type} {f : α → Except ε β} {xs : List α} {ys : List β}

theorem Except.bind_eq_ok {x : Except ε α} {b : β} :
    (x >>= f) = .ok b ↔ ∃ a, x = .ok a ∧ f a = .ok b := by
  cases x with
  | error e => simp [bind, Except.bind]
  | ok a => simp [bind, Except.bind]

theorem mapM_eq_ok_iff : xs.mapM f = .ok ys ↔ List.Forall₂ (fun x y => f x = .ok y) xs ys := by
  induction xs generalizing ys with
  | nil =>
    rw [List.mapM_nil, List.forall₂_nil_left_iff]
    exact ⟨fun h => (Except.ok.inj h).symm, fun h => congrArg Except.ok h.symm⟩
  | cons x xs ih =>
    rw [List.mapM_cons, List.forall₂_cons_left_iff, Except.bind_eq_ok]
    refine exists_congr fun y => ⟨fun ⟨here, h⟩ => ?_, fun ⟨rest, here, later, split⟩ => ?_⟩
    · obtain ⟨rest, later, h⟩ := Except.bind_eq_ok.mp h
      exact ⟨rest, here, ih.mp later, (Except.ok.inj h).symm⟩
    · rw [split, ih.mpr later]
      exact ⟨here, rfl⟩

theorem mapM_mem (h : xs.mapM f = .ok ys) {y : β} (inside : y ∈ ys) : ∃ x ∈ xs, f x = .ok y :=
  exists_of_mem_left (mapM_eq_ok_iff.mp h).flip inside

theorem mapM_eq_ok {g : α → β} (each : ∀ x ∈ xs, f x = .ok (g x)) :
    xs.mapM f = .ok (xs.map g) :=
  mapM_eq_ok_iff.mpr (List.forall₂_map_right_iff.mpr (List.forall₂_same.mpr each))

theorem mapM_ok {γ : Type} {g : α → Except ε γ} {h : β → γ} (all : xs.mapM f = .ok ys)
    (each : ∀ x ∈ xs, ∀ y ∈ ys, f x = .ok y → g x = .ok (h y)) : xs.mapM g = .ok (ys.map h) := by
  have related := mapM_eq_ok_iff.mp all
  rw [mapM_eq_ok_iff, List.forall₂_map_right_iff, List.forall₂_iff_zip]
  refine ⟨related.length_eq, fun {x y} inside => ?_⟩
  obtain ⟨left, right⟩ := List.of_mem_zip inside
  exact each x left y right (List.forall₂_zip related inside)

theorem mapM_perm {xs' : List α} (perm : xs.Perm xs') (h : xs.mapM f = .ok ys) :
    ∃ ys', xs'.mapM f = .ok ys' ∧ ys.Perm ys' := by
  obtain ⟨ys', each, perm'⟩ := List.perm_comp_forall₂ perm.symm (mapM_eq_ok_iff.mp h)
  exact ⟨ys', mapM_eq_ok_iff.mpr each, perm'.symm⟩

theorem mapM_congr {g : α → Except ε β} (same : ∀ x ∈ xs, f x = g x) : xs.mapM f = xs.mapM g := by
  induction xs with
  | nil => rfl
  | cons x xs ih =>
    obtain ⟨first, rest⟩ := List.forall_mem_cons.mp same
    rw [List.mapM_cons, List.mapM_cons, first, ih rest]

/-- A fold that may fail keeps what each of its steps keeps. -/
theorem foldlM_keeps {step : β → α → Except ε β} {P : β → Prop}
    (each : ∀ x ∈ xs, ∀ b b', P b → step b x = .ok b' → P b') {b b' : β} (start : P b)
    (h : xs.foldlM step b = .ok b') : P b' := by
  induction xs generalizing b with
  | nil =>
    cases h
    exact start
  | cons x xs ih =>
    have ⟨first, rest⟩ := List.forall_mem_cons.mp each
    rw [List.foldlM_cons] at h
    obtain ⟨next, step, h⟩ := Except.bind_eq_ok.mp h
    exact ih rest (first b next start step) h

/-- If a fold that collects items and flaws ends without a flaw, it has met none and has all the
items. -/
theorem foldl_clean {γ : Type} {step : List β × List γ → α → List β × List γ}
    (items : α → List β) (good : α → Prop)
    (each : ∀ acc x, (step acc x).2 = [] →
      acc.2 = [] ∧ (step acc x).1 = acc.1 ++ items x ∧ good x)
    (xs : List α) (acc : List β × List γ) (clean : (xs.foldl step acc).2 = []) :
    acc.2 = [] ∧ (xs.foldl step acc).1 = acc.1 ++ xs.flatMap items ∧ ∀ x ∈ xs, good x := by
  induction xs generalizing acc with
  | nil => exact ⟨clean, by simp, List.forall_mem_nil _⟩
  | cons x xs ih =>
    obtain ⟨stepClean, rest, goodRest⟩ := ih (step acc x) clean
    obtain ⟨accClean, first, goodFirst⟩ := each acc x stepClean
    refine ⟨accClean, ?_, List.forall_mem_cons.mpr ⟨goodFirst, goodRest⟩⟩
    rw [List.foldl_cons, rest, first, List.flatMap_cons, List.append_assoc]

end

end MethodLang
