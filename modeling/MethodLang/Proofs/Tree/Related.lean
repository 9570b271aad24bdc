import MethodLang.Proofs.ListLemmas
import MethodLang.Tree.Drawing

/-!
Trees that are equal label for label and child for child, and whose notes are related (`Rel`). The
labels of a tree alone are its bare tree.
-/
namespace MethodLang

namespace Tree

variable {α β : Type}

/-- Induction over trees, with the hypothesis for every child. -/
@[elab_as_elim]
theorem induction {P : Tree α → Prop}
    (node : ∀ l a ts, (∀ t ∈ ts, P t) → P (.node l a ts)) (t : Tree α) : P t :=
  @Tree.rec α P (fun ts => ∀ t ∈ ts, P t) node (List.forall_mem_nil _)
    (fun _ _ first rest => List.forall_mem_cons.mpr ⟨first, rest⟩) t

/-- The labels of a tree. -/
def bare (t : Tree α) : Tree Unit := t.map fun _ => ()

theorem bare_node (l : String) (a : α) (ts : List (Tree α)) :
    (node l a ts).bare = node l () (ts.map bare) := by
  rw [bare, map, mapAll_eq_map]
  rfl

theorem bare_label (t : Tree α) : t.bare.label = t.label := by
  obtain ⟨l, a, ts⟩ := t
  rw [bare_node]
  rfl

theorem label_of_bare {t : Tree α} {u : Tree β} (same : t.bare = u.bare) : t.label = u.label := by
  rw [← bare_label, same, bare_label]

theorem bare_children (t : Tree α) : t.bare.children = t.children.map bare := by
  obtain ⟨l, a, ts⟩ := t
  rw [bare_node]
  rfl

theorem map_map {γ : Type} (f : α → β) (g : β → γ) (t : Tree α) :
    (t.map f).map g = t.map fun a => g (f a) := by
  induction t using Tree.induction with
  | node l a ts ih =>
    simp only [map, mapAll_eq_map, List.map_map]
    exact congrArg (node l (g (f a))) (List.map_congr_left ih)

theorem map_id (t : Tree α) : (t.map fun a => a) = t := by
  induction t using Tree.induction with
  | node l a ts ih =>
    rw [map, mapAll_eq_map]
    exact congrArg (node l a) ((List.map_congr_left ih).trans (List.map_id ts))

theorem bare_map (f : α → β) (t : Tree α) : (t.map f).bare = t.bare := map_map ..

theorem map_const (b : β) (t : Tree α) : (t.map fun _ => b) = t.bare.map fun _ => b :=
  (map_map (fun _ => ()) (fun _ => b) t).symm

theorem bare_setNote (a : α) (t : Tree α) : (t.setNote a).bare = t.bare := by
  obtain ⟨l, b, ts⟩ := t
  rw [setNote, bare_node, bare_node]

/-- A child may be exchanged for one with the same labels. -/
theorem bare_set (t : Tree α) {i : Nat} {c c' : Tree α} (found : t.children[i]? = some c)
    (same : c'.bare = c.bare) : (t.setChildren (t.children.set i c')).bare = t.bare := by
  obtain ⟨l, a, ts⟩ := t
  simp only [children_node] at found ⊢
  rw [setChildren, bare_node, bare_node, List.map_set, same]
  refine congrArg (node l ()) (List.ext_getElem? fun j => ?_)
  rw [List.getElem?_set]
  split
  · rename_i at_
    subst at_
    rw [List.getElem?_map, found]
    simpa using (List.getElem?_eq_some_iff.mp found).1
  · rfl

theorem same_iff_bare (t : Tree α) (u : Tree β) :
    t.same u = true ↔ t.bare = u.bare := by
  induction t using Tree.induction generalizing u with
  | node l a ts ih =>
    obtain ⟨m, b, us⟩ := u
    have all : agreeAll (fun _ _ => true) ts us = true ↔ ts.map bare = us.map bare := by
      induction ts generalizing us with
      | nil => cases us <;> simp [agreeAll]
      | cons t ts ihs =>
        cases us with
        | nil => simp [agreeAll]
        | cons u us =>
          have first := ih t List.mem_cons_self u
          rw [same] at first
          rw [agreeAll, Bool.and_eq_true, first,
            ihs (fun t inside => ih t (List.mem_cons_of_mem _ inside)) us]
          simp
    rw [same, agree, bare_node, bare_node]
    simp [all]

theorem at?_bare (t : Tree α) (path : List Nat) : t.bare.at? path = (t.at? path).map bare := by
  induction path generalizing t with
  | nil => rfl
  | cons i path ih =>
    rw [at?, at?, bare_children, List.getElem?_map]
    cases t.children[i]? with
    | none => rfl
    | some c => exact ih c

theorem lines_bare (b : Branches) (first rest : String) (t : Tree α) :
    t.bare.lines b (fun label _ => label) first rest =
      t.lines b (fun label _ => label) first rest := by
  induction t using Tree.induction generalizing first rest with
  | node l a ts ih =>
    rw [bare_node, lines, lines]
    congr 1
    induction ts with
    | nil => rfl
    | cons t ts next =>
      obtain ⟨here, later⟩ := List.forall_mem_cons.mp ih
      rw [List.map_cons, linesAll, linesAll, here, here, next later, List.isEmpty_map]

theorem draw_bare (b : Branches) (t : Tree α) : t.bare.draw b = t.draw b := by
  rw [draw, draw, lines_bare]

end Tree

/-! ### Relations between trees -/

namespace Tree

variable {α β γ : Type}

mutual
/-- Equal label for label and child for child, with related notes. -/
def Rel (R : α → β → Prop) : Tree α → Tree β → Prop
  | .node l a ts, .node m b us => l = m ∧ R a b ∧ RelAll R ts us

def RelAll (R : α → β → Prop) : List (Tree α) → List (Tree β) → Prop
  | [], [] => True
  | t :: ts, u :: us => t.Rel R u ∧ RelAll R ts us
  | _, _ => False
end

theorem relAll_iff {R : α → β → Prop} {ts : List (Tree α)} {us : List (Tree β)} :
    RelAll R ts us ↔ List.Forall₂ (Rel R) ts us := by
  induction ts generalizing us with
  | nil => cases us <;> simp [RelAll]
  | cons t ts ih => cases us <;> simp [RelAll, ih]

theorem rel_node {R : α → β → Prop} {l m : String} {a : α} {b : β} {ts : List (Tree α)}
    {us : List (Tree β)} : Rel R (.node l a ts) (.node m b us) ↔
      l = m ∧ R a b ∧ List.Forall₂ (Rel R) ts us := by
  rw [Rel, relAll_iff]

theorem rel_iff {R : α → β → Prop} {t : Tree α} {u : Tree β} :
    t.Rel R u ↔
      t.label = u.label ∧ R t.note u.note ∧ List.Forall₂ (Rel R) t.children u.children := by
  obtain ⟨l, a, ts⟩ := t
  obtain ⟨m, b, us⟩ := u
  exact rel_node

namespace Rel

variable {R : α → β → Prop} {t : Tree α} {u : Tree β}

theorem note (rel : t.Rel R u) : R t.note u.note := (rel_iff.mp rel).2.1

theorem children (rel : t.Rel R u) : List.Forall₂ (Rel R) t.children u.children :=
  (rel_iff.mp rel).2.2

theorem setNote (rel : t.Rel R u) {a : α} {b : β} (new : R a b) :
    (t.setNote a).Rel R (u.setNote b) := by
  obtain ⟨l, a, ts⟩ := t
  obtain ⟨m, b, us⟩ := u
  obtain ⟨labels, _, below⟩ := rel_node.mp rel
  exact rel_node.mpr ⟨labels, new, below⟩

theorem setNote_right (rel : t.Rel R u) {b : β} (new : R t.note b) : t.Rel R (u.setNote b) := by
  obtain ⟨l, a, ts⟩ := t
  obtain ⟨m, b, us⟩ := u
  obtain ⟨labels, _, below⟩ := rel_node.mp rel
  exact rel_node.mpr ⟨labels, new, below⟩

theorem setNote_left (rel : t.Rel R u) {a : α} (new : R a u.note) : (t.setNote a).Rel R u := by
  obtain ⟨l, a, ts⟩ := t
  obtain ⟨m, b, us⟩ := u
  obtain ⟨labels, _, below⟩ := rel_node.mp rel
  exact rel_node.mpr ⟨labels, new, below⟩

theorem setChildren_right (rel : t.Rel R u) {us : List (Tree β)}
    (new : List.Forall₂ (Rel R) t.children us) : t.Rel R (u.setChildren us) := by
  obtain ⟨l, a, _⟩ := t
  obtain ⟨m, b, _⟩ := u
  obtain ⟨labels, notes, _⟩ := rel_node.mp rel
  exact rel_node.mpr ⟨labels, notes, new⟩

theorem comp {Q : β → γ → Prop} {P : α → γ → Prop} {v : Tree γ}
    (imp : ∀ {a b c}, R a b → Q b c → P a c) (first : t.Rel R u) (second : u.Rel Q v) :
    t.Rel P v := by
  induction t using Tree.induction generalizing u v with
  | node l a ts ih =>
    obtain ⟨m, b, us⟩ := u
    obtain ⟨n, c, vs⟩ := v
    obtain ⟨labels, notes, below⟩ := rel_node.mp first
    obtain ⟨labels', notes', below'⟩ := rel_node.mp second
    refine rel_node.mpr ⟨labels.trans labels', imp notes notes', ?_⟩
    clear labels labels' notes notes' first second
    induction below generalizing vs with
    | nil =>
      cases below'
      exact .nil
    | cons here _ next =>
      cases below' with
      | cons here' rest' =>
        obtain ⟨first, rest⟩ := List.forall_mem_cons.mp ih
        exact .cons (first here here') (next rest _ rest')

theorem symm (rel : t.Rel R u) : u.Rel (fun b a => R a b) t := by
  induction t using Tree.induction generalizing u with
  | node l a ts ih =>
    obtain ⟨m, b, us⟩ := u
    obtain ⟨labels, notes, below⟩ := rel_node.mp rel
    exact rel_node.mpr ⟨labels.symm, notes, (forall₂_imp_mem (fun t inside _ => ih t inside) below).flip⟩

theorem and {Q : α → β → Prop} (first : t.Rel R u) (second : t.Rel Q u) :
    t.Rel (fun a b => R a b ∧ Q a b) u := by
  induction t using Tree.induction generalizing u with
  | node l a ts ih =>
    obtain ⟨m, b, us⟩ := u
    obtain ⟨labels, notes, below⟩ := rel_node.mp first
    obtain ⟨_, notes', below'⟩ := rel_node.mp second
    refine rel_node.mpr ⟨labels, ⟨notes, notes'⟩, ?_⟩
    clear labels notes notes' first second
    induction below with
    | nil => exact .nil
    | cons here _ next =>
      cases below' with
      | cons here' rest' =>
        obtain ⟨first, rest⟩ := List.forall_mem_cons.mp ih
        exact .cons (first here here') (next rest rest')

end Rel

theorem rel_map {δ : Type} {R : γ → δ → Prop} {f : α → γ} {g : β → δ} {t : Tree α} {u : Tree β} :
    (t.map f).Rel R (u.map g) ↔ t.Rel (fun a b => R (f a) (g b)) u := by
  induction t using Tree.induction generalizing u with
  | node l a ts ih =>
    obtain ⟨m, b, us⟩ := u
    rw [map, map, mapAll_eq_map, mapAll_eq_map, rel_node, rel_node, List.forall₂_map_left_iff,
      List.forall₂_map_right_iff]
    exact and_congr_right fun _ => and_congr_right fun _ => forall₂_congr_mem fun t inside _ => ih t inside

theorem rel_eq_iff {t u : Tree α} : t.Rel (fun a b => a = b) u ↔ t = u := by
  induction t using Tree.induction generalizing u with
  | node l a ts ih =>
    obtain ⟨m, b, us⟩ := u
    rw [rel_node, Tree.node.injEq, forall₂_congr_mem fun t inside _ => ih t inside]
    exact and_congr_right fun _ => and_congr_right fun _ => Eq.to_iff (by rw [List.forall₂_eq_eq_eq])

/-- Mapped trees are equal if the notes agree after the mapping. -/
theorem map_eq_map_iff {f : α → γ} {g : β → γ} {t : Tree α} {u : Tree β} :
    t.map f = u.map g ↔ t.Rel (fun a b => f a = g b) u := by
  rw [← rel_eq_iff, rel_map]

theorem Rel.mono {R Q : α → β → Prop} (imp : ∀ {a b}, R a b → Q a b) {t : Tree α} {u : Tree β}
    (rel : t.Rel R u) : t.Rel Q u :=
  rel.comp (fun {_ b c} r (eq : b = c) => eq ▸ imp r) (rel_eq_iff.mpr rfl)

theorem rel_refl {R : α → α → Prop} (refl : ∀ a, R a a) (t : Tree α) : t.Rel R t :=
  (rel_eq_iff.mpr rfl : t.Rel (fun a b => a = b) t).mono fun {a _} eq => eq ▸ refl a

end Tree

end MethodLang
