import MethodLang.Proofs.Typing.Moves

/-!
Settled types stay. Whatever is asked of a node, in whatever scope, a type that is settled below it
is never changed, and what is newly settled is canonical and not the type of a bare number
(`Marked.checker_advancing`). The same holds of a tree that is filled or given its types
(`Marked.assign_guards`).
-/
namespace MethodLang

open Checker

theorem settledAs_fixed {wanted inferred : Option TypeName} {type : TypeName}
    (settled : settledAs (wanted.map TypeName.normalize) inferred = some type) : type.Fixed := by
  cases inferred with
  | none => cases settled
  | some v =>
    have resolved := TypeName.fixed_resolve v
    cases wanted with
    | none =>
      cases settled
      exact resolved
    | some w =>
      simp only [settledAs, Option.map_some] at settled
      split at settled
      · rename_i takes
        cases settled
        exact TypeName.fixed_numeric (Bool.and_eq_true_iff.mp takes).2
      · cases settled
        exact resolved

/-- A fixed type is settled as it is, whatever is asked for. -/
theorem settledAs_of_fixed (wanted : Option TypeName) {type : TypeName} (fixed : type.Fixed) :
    settledAs wanted (some type) = some type := by
  unfold settledAs
  cases wanted <;> simp [fixed.isUntyped_eq, fixed.resolve_eq]

/-! ### Marks -/

namespace Mark

/-- A settled mark stays. -/
def Held (m m' : Mark) : Prop := m.settled = true → m' = m

/-- If the type is settled, it is there and fixed. -/
def Fixed (m : Mark) : Prop := m.settled = true → ∃ type, m.type = some type ∧ type.Fixed

/-- What can become of a mark: it stays, or is settled if it was not. -/
def Advances (m m' : Mark) : Prop :=
  m.Fixed ∧ (m' = m ∨ m.settled = false ∧ ∃ type, m' = ⟨some type, true⟩ ∧ type.Fixed)

theorem Advances.fixed {m m' : Mark} (advances : m.Advances m') : m'.Fixed := by
  rcases advances.2 with rfl | ⟨_, type, rfl, fixed⟩
  · exact advances.1
  · exact fun _ => ⟨type, rfl, fixed⟩

theorem Advances.held {m m' : Mark} (advances : m.Advances m') : m.Held m' := by
  intro settled
  rcases advances.2 with same | ⟨loose, _⟩
  · exact same
  · cases settled.symm.trans loose

end Mark

namespace Marked

/-- What can become of a tree, mark by mark. -/
def Advances (t₀ t : Marked) : Prop := t₀.Rel Mark.Advances t

/-- All that is settled in the tree is fixed. -/
def Fixed (t : Marked) : Prop := t.Advances t

namespace Advances

variable {t₀ t : Marked} (advances : t₀.Advances t)
include advances

theorem fixed : t.Fixed := by
  have marks : t.Rel (fun m _ => m.Fixed) t :=
    Tree.Rel.comp (fun first (_ : Mark.Advances _ _) => first.fixed)
      (Tree.Rel.symm advances) advances
  exact (marks.and (Tree.rel_eq_iff.mpr rfl)).mono fun {_ _} both => ⟨both.1, .inl both.2.symm⟩

theorem settled_fixed {type : TypeName} (settled : t.settledType = some type) :
    type.Fixed ∧ t.note = ⟨some type, true⟩ := by
  unfold settledType at settled
  split at settled
  · rename_i held
    obtain ⟨type', typed, fixed⟩ := (Tree.Rel.note advances).fixed held
    cases typed.symm.trans settled
    exact ⟨fixed, by rw [← typed, ← held]⟩
  · cases settled

theorem loose (absent : t.settledType = none) : t.note.settled = false := by
  cases held : t.note.settled with
  | false => rfl
  | true =>
    obtain ⟨type, typed, _⟩ := (Tree.Rel.note advances).fixed held
    rw [settledType, if_pos held, typed] at absent
    cases absent

/-- A node that has no settled type had none before. -/
theorem unsettled (absent : t.settledType = none) : t₀.note.settled = false := by
  obtain ⟨-, same | ⟨before, -⟩⟩ := Tree.Rel.note advances
  · exact same ▸ advances.loose absent
  · exact before

theorem settleAs (loose : t₀.note.settled = false) {type : TypeName} (fixed : type.Fixed) :
    t₀.Advances (t.settleAs (some type)) := by
  refine Tree.Rel.setNote_right advances ⟨(Tree.Rel.note advances).1, .inr ⟨loose, type, ?_, fixed⟩⟩
  rw [fixed.1]

theorem settleAs_again {type : TypeName} (held : t.settledType = some type) :
    t₀.Advances (t.settleAs (some type)) := by
  obtain ⟨fixed, note⟩ := advances.settled_fixed held
  refine Tree.Rel.setNote_right advances ?_
  rw [fixed.1, ← note]
  exact Tree.Rel.note advances

theorem child {i : Nat} {c : Marked} (found : t.children[i]? = some c) :
    ∃ c₀ : Marked, t₀.children[i]? = some c₀ ∧ c₀.Advances c := by
  have below := forall₂_getElem? (Tree.Rel.children advances) i
  rw [found] at below
  generalize before : t₀.children[i]? = x at below
  cases below with
  | some below => exact ⟨_, rfl, below⟩

theorem setChild {i : Nat} {c₀ c : Marked} (before : t₀.children[i]? = some c₀)
    (below : c₀.Advances c) : t₀.Advances (t.setChildren (t.children.set i c)) := by
  refine Tree.Rel.setChildren_right advances (forall₂_set_right (Tree.Rel.children advances) ?_)
  intro x found
  cases before.symm.trans found
  exact below

theorem markChild {i : Nat} {type : TypeName} (fixed : type.Fixed)
    (loose : ∀ c₀, t₀.children[i]? = some c₀ → c₀.note.settled = false) :
    t₀.Advances (Checker.markChild (some type) i t) := by
  unfold Checker.markChild
  rw [List.modify_eq_set_getElem?]
  cases found : t.children[i]? with
  | none => exact Tree.Rel.setChildren_right advances (Tree.Rel.children advances)
  | some c =>
    obtain ⟨c₀, before, below⟩ := advances.child found
    exact advances.setChild before (below.settleAs (loose c₀ before) fixed)

end Advances

end Marked

/-! ### Inference -/

namespace Checker

/-- A checker that leaves alone what is settled, and settles nothing but fixed types. -/
structure Advancing (kid : Checker) : Prop where
  infer : ∀ {t₀ t : Marked}, t₀.Advances t → t₀.Advances (kid.infer t).node
  settled : ∀ {t type}, t.settledType = some type → kid.infer t = ⟨some type, [], t⟩
  settle : ∀ {t₀ t : Marked} type, t₀.Advances t → t₀.Advances (kid.settle type t)
  spread : ∀ {t₀ t : Marked} type, t₀.Advances t → t₀.Advances (kid.spread type t)

variable {kids : List Checker} {t₀ t : Marked}

theorem onChild_advances {f : Checker → Marked → Marked}
    (each : ∀ kid ∈ kids, ∀ {c₀ c : Marked}, c₀.Advances c → c₀.Advances (f kid c)) (i : Nat)
    (advances : t₀.Advances t) : t₀.Advances (onChild kids i f t) := by
  unfold onChild
  split
  · rename_i kid c isKid found
    obtain ⟨c₀, before, below⟩ := advances.child found
    exact advances.setChild before (each kid (List.mem_of_getElem? isKid) below)
  · exact advances

section
variable (each : ∀ kid ∈ kids, kid.Advancing)
include each

/-- A child of which only a bare number is known was not settled. -/
theorem inferChild_unsettled {i : Nat} (advances : t₀.Advances t) {type : TypeName}
    (typed : (inferChild kids i t).type = some type) (bare : TypeName.isUntyped type = true) :
    ∀ c₀, t₀.children[i]? = some c₀ → c₀.note.settled = false := by
  intro c₀ before
  unfold inferChild at typed
  split at typed
  · rename_i kid c isKid found
    obtain ⟨c₁, before', below⟩ := advances.child found
    cases before.symm.trans before'
    cases held : Marked.settledType c with
    | none => exact below.unsettled held
    | some settled =>
      rw [(each kid (List.mem_of_getElem? isKid)).settled held] at typed
      cases typed
      cases bare.symm.trans (below.settled_fixed held).1.isUntyped_eq
  · cases typed

theorem Moves.advances {u : Marked} (moves : Moves kids t u) (advances : t₀.Advances t) :
    t₀.Advances u := by
  induction moves with
  | start => exact advances
  | infer i _ ih =>
    rw [inferChild_node]
    exact onChild_advances (fun kid inside _ _ => (each kid inside).infer) i ih
  | settle type i _ ih =>
    exact onChild_advances (fun kid inside _ _ => (each kid inside).settle type) i ih
  | spread i _ ih =>
    exact onChild_advances (fun kid inside _ _ => (each kid inside).spread none) i ih
  | mark _ typed bare fixed _ known ih =>
    exact ih.markChild fixed (inferChild_unsettled each known typed bare)

theorem inferNode_advances (s : Scope) (label : String) (advances : t₀.Advances t) :
    t₀.Advances (inferNode s kids label t).node :=
  (inferNode_moves .start s label).advances each advances

/-- An inferred node is settled in the type it had, or in a fixed one if it had none. -/
theorem settleAs_advances (s : Scope) (label : String) (wanted : Option TypeName)
    (advances : t₀.Advances t) : t₀.Advances ((inferNode s kids label t).node.settleAs
      (settledAs (wanted.map TypeName.normalize) (inferNode s kids label t).type)) := by
  cases held : t.settledType with
  | some type =>
    simp only [inferNode, held]
    rw [settledAs_of_fixed _ (advances.settled_fixed held).1]
    exact advances.settleAs_again held
  | none =>
    have inferred := inferNode_advances each s label advances
    cases settled : settledAs (wanted.map TypeName.normalize) (inferNode s kids label t).type with
    | none => exact inferred
    | some type => exact inferred.settleAs (advances.unsettled held) (settledAs_fixed settled)

theorem settleNode_advances (s : Scope) (label : String) (wanted : Option TypeName)
    (advances : t₀.Advances t) : t₀.Advances (settleNode s kids label wanted t) := by
  unfold settleNode
  refine (spreadNode_moves .start s label _).advances each
    (settleAs_advances each s label wanted ?_)
  split
  · exact (settleEach_moves .start _ _).advances each advances
  · exact advances

theorem advancing_node (s : Scope) (label : String) : (Checker.node s label kids).Advancing where
  infer := inferNode_advances each s label
  settled := by
    intro t type settled
    simp only [Checker.node, inferNode, settled]
  settle := settleNode_advances each s label
  spread type advances := (spreadNode_moves .start s label type).advances each advances

end

end Checker

theorem Marked.checker_advancing (s : Scope) (t : Marked) : (t.checker s).Advancing := by
  induction t using Tree.induction with
  | node l m ts ih =>
    rw [checker_node]
    exact advancing_node (List.forall_mem_map.mpr ih) s l

/-! ### Filling -/

/-- A mark that is fixed before and after, and stays if it was settled. -/
structure Mark.Guards (m m' : Mark) : Prop where
  before : m.Fixed
  after : m'.Fixed
  held : m.Held m'

theorem Mark.Guards.trans {m m' m'' : Mark} (first : m.Guards m') (second : m'.Guards m'') :
    m.Guards m'' := by
  refine ⟨first.before, second.after, fun settled => ?_⟩
  have same := first.held settled
  rw [second.held (same ▸ settled), same]

namespace Marked

/-- The second tree is the first one with no settled type changed. -/
def Guards (t t' : Marked) : Prop := t.Rel Mark.Guards t'

theorem Advances.guards {t t' : Marked} (advances : t.Advances t') : t.Guards t' :=
  Tree.Rel.mono (fun {_ _} mark => ⟨mark.1, mark.fixed, mark.held⟩) advances

theorem Fixed.guards {t : Marked} (fixed : t.Fixed) : t.Guards t := Advances.guards fixed

theorem Guards.trans {t t' t'' : Marked} (first : t.Guards t') (second : t'.Guards t'') :
    t.Guards t'' :=
  Tree.Rel.comp (fun first second => first.trans second) first second

theorem Guards.fixed {t t' : Marked} (guards : t.Guards t') : t'.Fixed := by
  have marks : t'.Rel (fun m _ => m.Fixed) t' :=
    Tree.Rel.comp (fun first (_ : Mark.Guards _ _) => first.after) (Tree.Rel.symm guards) guards
  exact (marks.and (Tree.rel_eq_iff.mpr rfl)).mono fun {_ _} both => ⟨both.1, .inl both.2.symm⟩

/-- The type of a node that is not settled may be shown. -/
theorem Guards.setType {t t' : Marked} (guards : t.Guards t') (loose : t'.note.settled = false)
    (type : Option TypeName) : t.Guards (t'.setType type) := by
  refine Tree.Rel.setNote_right guards ⟨(Tree.Rel.note guards).before, fun settled => ?_,
    fun settled => ?_⟩
  · exact absurd (loose.symm.trans settled) Bool.false_ne_true
  · have same := (Tree.Rel.note guards).held settled
    rw [same, settled] at loose
    cases loose

theorem Guards.child {t t' c : Marked} {i : Nat} (guards : t.Guards t')
    (found : t'.children[i]? = some c) : ∃ c₀ : Marked, t.children[i]? = some c₀ ∧ c₀.Guards c := by
  have below := forall₂_getElem? (Tree.Rel.children guards) i
  rw [found] at below
  generalize before : t.children[i]? = x at below
  cases below with
  | some below => exact ⟨_, rfl, below⟩

end Marked

namespace Checker

variable {kids : List Checker} {t t' : Marked}

theorem onChild_guards {f : Checker → Marked → Marked}
    (each : ∀ kid ∈ kids, ∀ {c : Marked}, c.Fixed → c.Guards (f kid c)) (i : Nat)
    (guards : t.Guards t') : t.Guards (onChild kids i f t') := by
  unfold onChild
  split
  · rename_i kid c isKid found
    refine Tree.Rel.setChildren_right guards (forall₂_set_right (Tree.Rel.children guards) ?_)
    intro x before
    obtain ⟨c₀, before', below⟩ := guards.child found
    cases before.symm.trans before'
    exact below.trans (each kid (List.mem_of_getElem? isKid) below.fixed)
  · exact guards

section
variable (fills : ∀ kid ∈ kids, ∀ {c : Marked}, c.Fixed → c.Guards (kid.fill c))
include fills

theorem fillChildren_guards (indices : List Nat) (guards : t.Guards t') :
    t.Guards (fillChildren kids indices t') := by
  induction indices generalizing t' with
  | nil => exact guards
  | cons i rest ih =>
    refine ih (onChild_guards (fun kid inside {c} fixed => ?_) i guards)
    split
    · exact fills kid inside fixed
    · exact fixed.guards

theorem fillNode_guards (each : ∀ kid ∈ kids, kid.Advancing) (s : Scope) (label : String)
    (fixed : t.Fixed) : t.Guards (fillNode s kids label t) := by
  unfold fillNode
  split
  · exact fixed.guards
  · rename_i absent
    have inferred := inferNode_advances each s label fixed
    refine fillChildren_guards fills _ ?_
    split
    · refine inferred.guards.setType ?_ _
      rw [inferNode_note]
      exact Marked.Advances.loose fixed absent
    · exact inferred.guards

end

end Checker

namespace Marked

theorem fill_guards (s : Scope) {t : Marked} (u : Marked) (fixed : t.Fixed) :
    t.Guards ((u.checker s).fill t) := by
  induction u using Tree.induction generalizing t with
  | node l m ts ih =>
    rw [checker_node]
    refine fillNode_guards (List.forall_mem_map.mpr fun c inside _ => ih c inside) ?_ s l fixed
    exact List.forall_mem_map.mpr fun c _ => checker_advancing s c

theorem infer_note (s : Scope) (t u : Marked) : ((t.checker s).infer u).node.note = u.note := by
  obtain ⟨l, m, ts⟩ := t
  rw [checker_node]
  exact inferNode_note s l u

theorem infer_advances (s : Scope) {t : Marked} (fixed : t.Fixed) : t.Advances (t.infer s).node :=
  (checker_advancing s t).infer fixed

theorem inferAndSettle_advances (s : Scope) (wanted : Option TypeName) {t : Marked}
    (fixed : t.Fixed) : t.Advances (t.inferAndSettle s wanted).node := by
  have advancing := checker_advancing s t
  refine advancing.spread _ ?_
  obtain ⟨l, m, ts⟩ := t
  unfold infer
  rw [checker_node]
  exact settleAs_advances (List.forall_mem_map.mpr fun c _ => checker_advancing s c) s l wanted fixed

/-- Of a settled node the settled type is shown. -/
theorem setType_settled {r : Inference} {type : TypeName}
    (note : r.node.note = ⟨some type, true⟩) : r.node.setType (shownType r) = r.node := by
  obtain ⟨answer, errors, ⟨l, m, ts⟩⟩ := r
  cases note
  rfl

theorem setType_guards (s : Scope) {t : Marked} (fixed : t.Fixed) :
    t.Guards ((t.infer s).node.setType (shownType (t.infer s))) := by
  have inferred := infer_advances s fixed
  cases held : (t.infer s).node.settledType with
  | none => exact inferred.guards.setType (inferred.loose held) _
  | some type =>
    rw [setType_settled (inferred.settled_fixed held).2]
    exact inferred.guards

theorem assign_guards (s : Scope) {t : Marked} (fixed : t.Fixed) : t.Guards (t.assign s).node := by
  have shown := setType_guards s fixed
  have spread := (checker_advancing s t).spread (shownType (t.infer s)) shown.fixed
  have filled : ∀ kid ∈ t.checkers s, ∀ {c : Marked}, c.Fixed → c.Guards (kid.fill c) :=
    List.forall_mem_map.mpr fun c _ _ => fill_guards s c
  exact fillChildren_guards filled _ (shown.trans spread.guards)

end Marked

end MethodLang
