import MethodLang.Proofs.Typing.Spreading

/-!
Filling in the types of marked terms. The last pass over a tree shows types at the nodes that
bear none; it settles nothing, and keeps terms sound (`Term.fill_sound`).
-/
namespace MethodLang

open Checker

variable {s : Scope}

namespace Checker

/-- A child that is given a type if it bears none. -/
def fillOne (kid : Checker) (c : Marked) : Marked := if c.note.type.isNone then kid.fill c else c

theorem fillChildren_from (kids : List Checker) (cs : List Marked) (counted : kids.length = cs.length)
    (l : String) (m : Mark) (before : List Checker) (pre : List Marked)
    (same : before.length = pre.length) :
    fillChildren (before ++ kids) (List.range' pre.length cs.length) (.node l m (pre ++ cs)) =
      .node l m (pre ++ List.zipWith fillOne kids cs) := by
  induction cs generalizing kids before pre with
  | nil =>
    obtain rfl := List.eq_nil_of_length_eq_zero counted
    rfl
  | cons c cs ih =>
    obtain _ | ⟨kid, kids⟩ := kids
    · cases counted
    have rest := ih kids (Nat.succ.inj counted) (before ++ [kid]) (pre ++ [fillOne kid c])
      (by simp [same])
    have step : onChild (before ++ kid :: kids) pre.length fillOne (.node l m (pre ++ c :: cs)) =
        .node l m (pre ++ fillOne kid c :: cs) := onChild_at kid c same fillOne
    rw [List.length_cons, List.range'_succ]
    change fillChildren _ _ (onChild _ _ fillOne _) = _
    rw [step]
    simpa using rest

/-- Every child is looked at once. -/
theorem fillChildren_all {kids : List Checker} {cs : List Marked}
    (counted : kids.length = cs.length) (l : String) (m : Mark) :
    fillChildren kids (List.range cs.length) (.node l m cs) =
      .node l m (List.zipWith fillOne kids cs) := by
  rw [List.range_eq_range']
  exact fillChildren_from kids cs counted l m [] [] rfl

end Checker

/-- The mark of a node that is shown its type, unless it is settled. -/
def Mark.filled (m : Mark) (answer : Option TypeName) : Mark :=
  if m.settled then m
  else match answer with
    | some type => ⟨some type.resolve, false⟩
    | none => m

theorem Mark.filled_settled {m : Mark} (settled : m.settled) (answer : Option TypeName) :
    m.filled answer = m := by
  simp [Mark.filled, settled]

/-- Showing a node its type keeps it in its place. -/
theorem Mark.InPlace.fill {m : Mark} {wanted own now : Option TypeName}
    (place : m.InPlace wanted own now) : (m.filled now).InPlace wanted own now := by
  unfold Mark.filled
  split
  · exact place
  · rename_i unsettled
    have unsettled : m.settled = false := by simpa using unsettled
    cases now with
    | none => exact place
    | some type =>
      obtain ⟨turns, resolves⟩ := place.open_ unsettled
      refine ⟨.inr ?_, nofun, fun _ => ⟨turns, resolves⟩⟩
      rw [resolves]
      rcases turns with rfl | ⟨rfl, int⟩
      · rfl
      · cases int
        simp [TypeName.resolve_untyped, TypeName.proper_int.resolve_eq]

namespace Term

/-- Filling in types keeps the term sound and its answer the same. -/
def Fills (s : Scope) (e : Term) : Prop :=
  ∀ t type, e.Sound s t type → e.Sound s ((e.kid s).fill t) type ∧
    ((e.kid s).fill t).note = t.note.filled type

/-- What a child is after it was looked at. -/
theorem Fills.one {e : Term} (fills : e.Fills s) {c : Marked} {type : Option TypeName}
    (sound : e.Sound s c type) : e.Sound s (fillOne (e.kid s) c) type ∧
      ((fillOne (e.kid s) c).note = c.note ∨ (fillOne (e.kid s) c).note = c.note.filled type) := by
  unfold fillOne
  split
  · obtain ⟨sound, note⟩ := fills c type sound
    exact ⟨sound, .inr note⟩
  · exact ⟨sound, .inl rfl⟩

theorem filled_args {es : List Term} (each : ∀ e ∈ es, e.Fills s) {ps : TypeTable}
    {cs : List Marked} (below : ArgsBelow s ps es cs) :
    ArgsBelow s ps es (List.zipWith fillOne (kids s es) cs) := by
  induction below using ArgsBelow.induction with
  | nil => trivial
  | @cons p ps e es c cs type sound place taken rest ih =>
    have ⟨first, others⟩ := List.forall_mem_cons.mp each
    obtain ⟨sound, note⟩ := Fills.one first sound
    refine ⟨⟨type, sound, ?_, fun bare numeric => ?_⟩, ih others⟩
    · rcases note with same | filled
      · exact same ▸ place
      · exact filled ▸ place.fill
    · rcases note with same | filled
      · rw [same]
        exact taken bare numeric
      · rw [filled, Mark.filled_settled (taken bare numeric)]
        exact taken bare numeric

theorem filled_below {e : Term} (each : ∀ x ∈ e.children, x.Fills s) {cs : List Marked}
    {made : Option TypeName} (below : e.Below s cs made) :
    e.Below s (List.zipWith fillOne (kids s e.children) cs) made := by
  cases e with
  | literal kind text | load name =>
    obtain ⟨rfl, rfl⟩ := below
    exact ⟨rfl, rfl⟩
  | call function args => exact ⟨filled_args each below.1, below.2⟩
  | index base position =>
    obtain ⟨b, p, array, at_, rfl, soundB, soundP, place, rfl⟩ := below
    obtain ⟨soundB, _⟩ := Fills.one (each base List.mem_cons_self) soundB
    obtain ⟨soundP, note⟩ := Fills.one (each position (by simp [children])) soundP
    refine ⟨_, _, array, at_, rfl, soundB, soundP, ?_, rfl⟩
    rcases note with same | filled
    · exact same ▸ place
    · exact filled ▸ place.fill
  | binary op left right =>
    obtain ⟨a, b, l, r, rfl, soundA, soundB, held, rfl⟩ := below
    exact ⟨_, _, l, r, rfl, (Fills.one (each left List.mem_cons_self) soundA).1,
      (Fills.one (each right (by simp [children])) soundB).1, held, rfl⟩
  | unary op operand =>
    obtain ⟨a, type, rfl, sound, rfl⟩ := below
    exact ⟨_, type, rfl, (Fills.one (each operand List.mem_cons_self) sound).1, rfl⟩

theorem ArgsBelow.length {ps : TypeTable} {es : List Term} {cs : List Marked}
    (below : ArgsBelow s ps es cs) : cs.length = es.length := by
  induction below using ArgsBelow.induction with
  | nil => rfl
  | cons _ _ _ _ ih => rw [List.length_cons, List.length_cons, ih]

theorem Below.length {e : Term} {cs : List Marked} {made : Option TypeName}
    (below : e.Below s cs made) : cs.length = e.children.length := by
  cases e with
  | literal => exact congrArg List.length below.1
  | load => exact congrArg List.length below.1
  | call function args => exact below.1.length
  | index base position =>
    obtain ⟨b, p, _, _, rfl, _⟩ := below
    rfl
  | binary op left right =>
    obtain ⟨a, b, _, _, rfl, _⟩ := below
    rfl
  | unary op operand =>
    obtain ⟨a, _, rfl, _⟩ := below
    rfl

theorem kids_length (es : List Term) : (kids s es).length = es.length := by
  induction es with
  | nil => rfl
  | cons e es ih => rw [kids, List.length_cons, ih, List.length_cons]

/-- Filling in the types below a node keeps it sound. -/
theorem fillChildren_sound {e : Term} (each : ∀ x ∈ e.children, x.Fills s) {t : Marked}
    {type : Option TypeName} (sound : e.Sound s t type) :
    e.Sound s (fillChildren (kids s e.children) (List.range t.children.length) t) type ∧
      (fillChildren (kids s e.children) (List.range t.children.length) t).note = t.note := by
  obtain ⟨l, m, cs⟩ := t
  obtain ⟨rfl, made, below, gives⟩ := sound
  have counts : (kids s e.children).length = cs.length :=
    (kids_length e.children).trans below.length.symm
  rw [Tree.children_node, fillChildren_all counts]
  exact ⟨⟨rfl, made, filled_below each below, gives⟩, rfl⟩

/-- Filling in the types of a sound term. -/
theorem fill_sound (proper : s.Proper) {e : Term} (spelled : e.Spelled) (counted : e.Counted s) :
    e.Fills s := by
  induction e using children_induction with
  | step e ih =>
    intro t type sound
    have each := fun x inside => ih x inside (spelled.children x inside) (counted.children x inside)
    obtain ⟨answer, node⟩ := infer_sound proper spelled counted t type sound
    obtain ⟨_, made, below, gives⟩ := id sound
    rw [kid_eq] at answer node ⊢
    simp only [Checker.node, fillNode, Marked.settledType] at answer node ⊢
    rcases gives with ⟨unsettled, _⟩ | ⟨settled, same, w, typed, properW⟩
    · simp only [unsettled, Bool.false_eq_true, if_false, answer, node]
      cases type with
      | none =>
        have same : t.note.filled none = t.note := by simp [Mark.filled]
        rw [same]
        exact fillChildren_sound each sound
      | some type =>
        have shown : t.note.filled (some type) = ⟨some type.resolve, false⟩ := by
          simp [Mark.filled, unsettled]
        rw [shown, ← unsettled, ← Marked.setNote_note t ⟨some type.resolve, t.note.settled⟩]
        exact fillChildren_sound each (sound.setType unsettled (some type.resolve))
    · simp only [settled, if_true, typed]
      exact ⟨sound, (Mark.filled_settled settled type).symm⟩

end Term

end MethodLang
