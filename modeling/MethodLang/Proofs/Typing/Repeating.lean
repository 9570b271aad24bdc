import MethodLang.Proofs.Typing.Twins

/-!
Checking twice. A tree that was given its types is a twin of the tree it was before, so a second
check settles in it what the first one settled; all other nodes already have the type that they
would be filled with. Nothing changes any more (`assign_again`).
-/
namespace MethodLang

open Checker

namespace Mark

def SameType (m m' : Mark) : Prop := m.type = m'.type

theorem eq_of_shed {m m' : Mark} (twin : m.shed = m'.shed) (settled : m'.settled = true) :
    m = m' := by
  unfold shed at twin
  rw [if_pos settled] at twin
  split at twin
  · exact twin
  · rw [← twin] at settled
    cases settled

theorem Advances.unsettled {m m' : Mark} (advances : m.Advances m') (loose : m'.settled = false) :
    m' = m := by
  rcases advances.2 with same | ⟨_, type, rfl, _⟩
  · exact same
  · cases loose

theorem Advances.trans {m m' m'' : Mark} (first : m.Advances m') (second : m'.Advances m'') :
    m.Advances m'' := by
  refine ⟨first.1, ?_⟩
  rcases second.2 with rfl | ⟨loose, settled⟩
  · exact first.2
  · cases first.unsettled loose
    exact .inr ⟨loose, settled⟩

end Mark

namespace Marked

theorem sameType_iff {t u : Marked} : t.Rel Mark.SameType u ↔ t.operation = u.operation :=
  Tree.map_eq_map_iff.symm

theorem Advances.trans {t t' t'' : Marked} (first : t.Advances t') (second : t'.Advances t'') :
    t.Advances t'' :=
  Tree.Rel.comp (fun first second => first.trans second) first second

theorem setType_note (type : Option TypeName) (t : Marked) :
    (t.setType type).note = ⟨type, t.note.settled⟩ := by
  obtain ⟨l, m, ts⟩ := t
  rfl

end Marked

/-! ### Filling -/

namespace Checker

/-- Fills the child of the given index if it has no type. -/
def fillAt (kids : List Checker) (i : Nat) (c : Marked) : Marked :=
  match kids[i]? with
  | some kid => if c.note.type.isNone then kid.fill c else c
  | none => c

variable {kids : List Checker}

theorem onChild_fill (i : Nat) (t : Marked) :
    onChild kids i (fun kid c => if c.note.type.isNone then kid.fill c else c) t =
      t.setChildren (t.children.modify i (fillAt kids i)) := by
  obtain ⟨l, m, cs⟩ := t
  unfold onChild
  simp only [Tree.children_node, Tree.setChildren]
  rw [List.modify_eq_set_getElem?]
  cases found : cs[i]? with
  | none => split <;> simp_all
  | some c =>
    cases isKid : kids[i]? with
    | none =>
      obtain ⟨inside, rfl⟩ := List.getElem?_eq_some_iff.mp found
      simp [fillAt, isKid]
    | some kid => simp [fillAt, isKid]

theorem fillChildren_spec {indices : List Nat} (distinct : indices.Nodup) (t : Marked) :
    (fillChildren kids indices t).label = t.label ∧ (fillChildren kids indices t).note = t.note ∧
      ∀ j : Nat, (fillChildren kids indices t).children[j]? =
        t.children[j]?.map fun c => if j ∈ indices then fillAt kids j c else c := by
  induction indices generalizing t with
  | nil => simp [fillChildren]
  | cons i rest ih =>
    obtain ⟨l, m, cs⟩ := t
    obtain ⟨fresh, distinct⟩ := List.nodup_cons.mp distinct
    obtain ⟨label, note, children⟩ := ih distinct (.node l m (cs.modify i (fillAt kids i)))
    rw [fillChildren, onChild_fill]
    refine ⟨label, note, fun j => (children j).trans ?_⟩
    simp only [Tree.children_node, List.getElem?_modify]
    by_cases here : i = j
    · subst here
      cases cs[i]? <;> simp [fresh]
    · cases cs[j]? <;> simp [here, Ne.symm here]

/-- Fills all children that have no type. -/
def fillBelow (kids : List Checker) (t : Marked) : Marked :=
  fillChildren kids (List.range t.children.length) t

theorem fillBelow_rel {α : Type} {R : α → Mark → Prop} {t : Tree α} {u : Marked} :
    t.Rel R (fillBelow kids u) ↔ t.label = u.label ∧ R t.note u.note ∧
      ∀ j : Nat, Option.Rel (Tree.Rel R) t.children[j]? (u.children[j]?.map (fillAt kids j)) := by
  obtain ⟨label, note, children⟩ :=
    @fillChildren_spec kids _ (List.nodup_range (n := u.children.length)) u
  have children (j : Nat) : (fillBelow kids u).children[j]? =
      u.children[j]?.map (fillAt kids j) := by
    rw [fillBelow, children j]
    cases found : u.children[j]? with
    | none => rfl
    | some c =>
      have inside := (List.getElem?_eq_some_iff.mp found).1
      simp [inside]
  rw [Tree.rel_iff, fillBelow, label, note]
  refine and_congr_right fun _ => and_congr_right fun _ => ⟨fun each j => ?_, fun each => ?_⟩
  · rw [← children j]
    exact forall₂_getElem? each j
  · refine forall₂_of_getElem? fun j => ?_
    have here := each j
    rwa [← children j] at here

/-- What a first run settled in `d`, and a second one in `d'`, is what the first run left in `f`.
All else is in `d'` as it was before that run, which began with what the first one left. -/
theorem sameType_square {c' d d' f : Marked} (advances : c'.Advances d') (twin : d.shed = d'.shed)
    (guards : d.Guards f) (same : c'.Rel Mark.SameType f) : d'.Rel Mark.SameType f := by
  have marks : d.Rel (fun m m' => m.shed = m'.shed) d' := Tree.map_eq_map_iff.mp twin
  have settled : d'.Rel (fun m f => m.settled = true → m.type = f.type) f := by
    refine marks.symm.comp (fun {a b c} twin (guards : b.Guards c) is => ?_) guards
    cases Mark.eq_of_shed twin is
    rw [guards.held is]
  have unsettled : d'.Rel (fun m f => m.settled = false → m.type = f.type) f := by
    refine (Tree.Rel.symm advances).comp
      (fun {a b c} (advances : b.Advances a) (same : b.SameType c) loose => ?_) same
    rw [advances.unsettled loose]
    exact same
  refine (settled.and unsettled).mono fun {m f} both => ?_
  cases is : m.settled with
  | true => exact both.1 is
  | false => exact both.2 is

/-- A checker that fills nothing twice. -/
def Refills (kid : Checker) : Prop :=
  ∀ {c c' : Marked}, c.shed = c'.shed → c.Fixed → c'.Fixed → c'.Rel Mark.SameType (kid.fill c) →
    c'.note.type = none → (kid.fill c').Rel Mark.SameType c'

section
variable (refills : ∀ kid ∈ kids, kid.Refills) {t u : Marked} (twin : t.shed = u.shed)
  (fixed : t.Fixed) (fixed' : u.Fixed)
include refills twin fixed fixed'

theorem fillAt_again (i : Nat) (same : u.Rel Mark.SameType (fillAt kids i t)) :
    (fillAt kids i u).Rel Mark.SameType u := by
  have unchanged := Tree.rel_refl (R := Mark.SameType) (fun _ => rfl) u
  unfold fillAt at same ⊢
  split at same
  · rename_i kid isKid
    split
    · rename_i bare
      have bare : u.note.type = none := by simpa using bare
      split at same
      · exact refills kid (List.mem_of_getElem? isKid) twin fixed fixed' same bare
      · rename_i typed
        have here : u.note.type = t.note.type := same.note
        rw [← here, bare] at typed
        exact absurd rfl typed
    · exact unchanged
  · exact unchanged

/-- Where the first run left what the second one finds, there is nothing more to fill. -/
theorem fillBelow_again (same : u.Rel Mark.SameType (fillBelow kids t)) :
    (fillBelow kids u).Rel Mark.SameType u := by
  suffices filled : u.Rel Mark.SameType (fillBelow kids u) from
    Marked.sameType_iff.mpr (Marked.sameType_iff.mp filled).symm
  refine fillBelow_rel.mpr ⟨rfl, rfl, fun j => ?_⟩
  have leftHere := (fillBelow_rel.mp same).2.2 j
  have twinHere := congrArg (·[j]?) (congrArg Tree.children twin)
  have firstHere := forall₂_getElem? (Tree.Rel.children fixed) j
  have secondHere := forall₂_getElem? (Tree.Rel.children fixed') j
  simp only [Marked.children_shed, List.getElem?_map] at twinHere
  generalize t.children[j]? = x, u.children[j]? = y at leftHere twinHere firstHere secondHere ⊢
  cases firstHere with
  | none =>
    cases secondHere with
    | none => exact .none
    | some second => cases twinHere
  | some first =>
    cases secondHere with
    | none => cases twinHere
    | some second =>
      cases leftHere with
      | some left =>
        have again := fillAt_again refills (Option.some.inj twinHere) first second j left
        exact .some (Marked.sameType_iff.mpr (Marked.sameType_iff.mp again).symm)

end

theorem fillBelow_guards (s : Scope) (ts : List Marked) {u : Marked} (fixed : u.Fixed) :
    u.Guards (fillBelow (ts.map (Marked.checker s)) u) :=
  fillChildren_guards (List.forall_mem_map.mpr fun c _ _ => Marked.fill_guards s c) _ fixed.guards

theorem checker_refills (s : Scope) (t : Marked) : (t.checker s).Refills := by
  induction t using Tree.induction with
  | node l m ts ih =>
    intro c c' twin fixed fixed' same bare
    have refills : ∀ kid ∈ ts.map (Marked.checker s), kid.Refills := List.forall_mem_map.mpr ih
    have each : ∀ kid ∈ ts.map (Marked.checker s), kid.Advancing :=
      List.forall_mem_map.mpr fun c _ => Marked.checker_advancing s c
    have blind : ∀ kid ∈ ts.map (Marked.checker s), kid.Blind :=
      List.forall_mem_map.mpr fun c _ => Marked.checker_blind s c
    have answers := inferNode_shed blind s l c
    rw [twin, inferNode_shed blind] at answers
    have type := congrArg Inference.type answers
    have nodes := (congrArg Inference.node answers).symm
    simp only [Inference.shed] at type nodes
    have first := inferNode_advances each s l fixed
    have second := inferNode_advances each s l fixed'
    rw [Marked.checker_node] at same ⊢
    simp only [Checker.node, fillNode, type, ← Marked.settledType_shed c', ← twin,
      Marked.settledType_shed c] at same ⊢
    split at same
    · rename_i held
      have here : c'.note.type = c.note.type := same.note
      rw [(Marked.Advances.settled_fixed fixed held).2, bare] at here
      cases here
    split at same
    · have here := (fillBelow_rel.mp same).2.1
      rw [Mark.SameType, Marked.setType_note, bare] at here
      cases here
    · have left := sameType_square second nodes (fillBelow_guards s ts first.fixed) same
      have filled := fillBelow_again refills nodes first.fixed second.fixed left
      exact Marked.sameType_iff.mpr ((Marked.sameType_iff.mp filled).trans
        ((Marked.sameType_iff.mp left).trans (Marked.sameType_iff.mp same).symm))

end Checker

/-! ### Whole trees -/

namespace Marked

/-- A checker is made from the labels alone. -/
theorem checker_eq_bare (s : Scope) (t : Marked) :
    t.checker s = t.bare.compute fun label _ kids => Checker.node s label (kids.map (·.2)) := by
  induction t using Tree.induction with
  | node l m ts ih =>
    rw [checker_node, Tree.bare_node, Tree.compute_node, List.map_map, List.map_map]
    exact congrArg _ (List.map_congr_left ih)

theorem checkers_eq_bare (s : Scope) (t : Marked) : t.checkers s =
    t.bare.children.map fun c => c.compute fun label _ kids =>
      Checker.node s label (kids.map (·.2)) := by
  rw [checkers, Tree.bare_children, List.map_map]
  exact List.map_congr_left fun c _ => checker_eq_bare s c

theorem spread_note (s : Scope) (type : Option TypeName) (t u : Marked) :
    ((t.checker s).spread type u).note = u.note := by
  obtain ⟨l, m, ts⟩ := t
  rw [checker_node]
  exact spreadNode_note s l type u

/-- The same type is shown for twins, unless it is the one that they had. -/
theorem shownType_eq {r r' : Inference} (answers : r.shed = r'.shed)
    (kept : r.node.settledType = none → r'.node.note.type = shownType r) :
    shownType r' = shownType r := by
  have held : r'.node.settledType = r.node.settledType := by
    rw [← settledType_shed, ← settledType_shed r.node]
    exact congrArg (fun r => settledType r.node) answers.symm
  have type : r'.type = r.type := (congrArg Inference.type answers).symm
  unfold shownType at kept ⊢
  rw [held, type]
  cases found : r.node.settledType with
  | some _ => rfl
  | none =>
    cases typed : r.type with
    | some _ => rfl
    | none => simpa [found, typed] using kept found

theorem setType_twin {t u : Marked} (twin : t.shed = u.shed) (type : Option TypeName) :
    (t.setType type).shed = (u.setType type).shed := by
  obtain ⟨l, ⟨a, b⟩, ts⟩ := t
  obtain ⟨m, ⟨a', b'⟩, us⟩ := u
  rw [shed_node, shed_node, Tree.node.injEq] at twin
  obtain ⟨rfl, marks, below⟩ := twin
  have same : b = b' := by cases b <;> cases b' <;> simp_all [Mark.shed]
  rw [setType, setType, Tree.setNote, Tree.setNote, shed_node, shed_node, below, same]
  rfl

theorem fillBelow_note {kids : List Checker} (t : Marked) : (fillBelow kids t).note = t.note :=
  (fillChildren_spec List.nodup_range t).2.1

theorem assign_node (s : Scope) (t : Marked) : (t.assign s).node =
    fillBelow (t.checkers s) ((t.checker s).spread (shownType (t.infer s))
      ((t.infer s).node.setType (shownType (t.infer s)))) := rfl

/-- Where the second check begins with the types that the first one left, it leaves them too, and
finds the same errors. -/
theorem assign_twin {s : Scope} {t t' : Marked} (twin : t.shed = t'.shed) (fixed : t.Fixed)
    (fixed' : t'.Fixed) (left : t'.operation = (t.assign s).node.operation) :
    (t'.assign s).errors = (t.assign s).errors ∧ (t'.assign s).node.operation = t'.operation := by
  have bare : t'.bare = t.bare := by
    rw [← Tree.bare_map Mark.shed t', ← Tree.bare_map Mark.shed t]
    exact congrArg Tree.bare twin.symm
  have checker : t'.checker s = t.checker s := by
    rw [checker_eq_bare, checker_eq_bare, bare]
  have checkers : t'.checkers s = t.checkers s := by
    rw [checkers_eq_bare, checkers_eq_bare, bare]
  have blind := checker_blind s t
  have answers : (t.infer s).shed = (t'.infer s).shed := by
    rw [infer, infer, checker, ← blind.infer, ← blind.infer, twin]
  refine ⟨(congrArg Inference.errors answers).symm, ?_⟩
  have left : t'.Rel Mark.SameType (t.assign s).node := sameType_iff.mpr left
  -- the root keeps the type that is shown for it: only its children are settled
  have root : t'.note.type = shownType (t.infer s) := by
    have note : t'.note.type = (t.assign s).node.note.type := left.note
    have spread := spread_note s (shownType (t.infer s)) t
      ((t.infer s).node.setType (shownType (t.infer s)))
    rw [assign_node, fillBelow_note, spread, setType_note] at note
    exact note
  have shown : shownType (t'.infer s) = shownType (t.infer s) := by
    refine shownType_eq answers fun _ => ?_
    rw [← root, infer, infer_note]
  have fixedA := (setType_guards s fixed).fixed
  have fixedB := (setType_guards s fixed').fixed
  rw [shown] at fixedB
  have first := (checker_advancing s t).spread (shownType (t.infer s)) fixedA
  have second := (checker_advancing s t).spread (shownType (t.infer s)) fixedB
  have twins := congrArg ((t.checker s).spread (shownType (t.infer s)))
    (setType_twin (congrArg Inference.node answers) (shownType (t.infer s)))
  rw [blind.spread, blind.spread] at twins
  have mark : Mark.Fixed ⟨shownType (t.infer s), (t'.infer s).node.note.settled⟩ := by
    rw [← setType_note]
    exact (Tree.Rel.note fixedB).1
  have begun := Advances.trans (Tree.Rel.setNote (infer_advances s fixed') ⟨mark, .inl rfl⟩) second
  have settled := sameType_square begun twins (fillBelow_guards s t.children first.fixed)
    (left.setNote_left (root.symm.trans left.note))
  have filled := fillBelow_again (List.forall_mem_map.mpr fun c _ => checker_refills s c) twins
    first.fixed second.fixed settled
  rw [assign_node, shown, checker, checkers]
  exact (sameType_iff.mp filled).trans ((sameType_iff.mp settled).trans (sameType_iff.mp left).symm)

end Marked

theorem Marked.operation_unmarked (op : Operation) : (Marked.unmarked op).operation = op :=
  (Tree.map_map ..).trans op.map_id

theorem Marked.unmarked_fixed (op : Operation) : (Marked.unmarked op).Fixed :=
  Tree.rel_map.mpr (Tree.rel_refl (fun _ => ⟨fun settled => (by cases settled), .inl rfl⟩) op)

theorem Marked.shed_unmarked (op : Operation) :
    (Marked.unmarked op).shed = op.bare.map fun _ => ⟨none, false⟩ := by
  rw [unmarked, shed, ← Tree.map_const, Tree.map_map]
  rfl

/-- A tree may be given its types again: the errors are the same, and the types stay. -/
theorem assign_again (s : Scope) (op : Operation) :
    let once := (Marked.unmarked op).assign s
    let twice := (Marked.unmarked once.node.operation).assign s
    twice.errors = once.errors ∧ twice.node.operation = once.node.operation := by
  intro once twice
  have twin : (Marked.unmarked op).shed = (Marked.unmarked once.node.operation).shed := by
    rw [Marked.shed_unmarked, Marked.shed_unmarked, Marked.operation, Tree.bare_map,
      Marked.assign_bare, Marked.unmarked, Tree.bare_map]
  have again := Marked.assign_twin twin (Marked.unmarked_fixed _) (Marked.unmarked_fixed _)
    (Marked.operation_unmarked _)
  rwa [Marked.operation_unmarked] at again

end MethodLang
