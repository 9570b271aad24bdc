import MethodLang.Proofs.Typing.Result

/-!
Visits. A typed tree is a walk through the nodes of its terms, each with the way in which it comes
by its type (`Term.visits`). What holds of every node of the tree holds of every visit
(`Directive.forall_subtrees`), so a property of trees comes down to one of single nodes.
-/
namespace MethodLang

open Checker

variable {s : Scope}

namespace Term

/-- The nodes of a term, each with the way in which it comes by its type. -/
def visits (s : Scope) (e : Term) : Way → List (Way × Term) :=
  e.fold fun e below w => (w, e) :: (List.zipWith (fun f v => f v) below (e.ways s w)).flatten

theorem visits_eq (e : Term) (w : Way) : e.visits s w =
    (w, e) :: (e.children.zip (e.ways s w)).flatMap fun p => p.1.visits s p.2 := by
  rw [visits, fold_eq, List.zipWith_map_left, List.flatMap_def]
  congr 2
  exact (List.map_uncurry_zip_eq_zipWith (f := visits s)).symm

theorem outcome_operation (e : Term) (w : Way) : (e.outcome s w).operation =
    .node e.label (e.markOf s w).type
      ((e.children.zip (e.ways s w)).map fun p => (p.1.outcome s p.2).operation) := by
  rw [outcome_eq, operation_node, ← List.map_uncurry_zip_eq_zipWith, List.map_map]
  rfl

theorem outcome_operation_note (e : Term) (w : Way) :
    (e.outcome s w).operation.note = (e.markOf s w).type := by
  rw [outcome_operation, Tree.note_node]

/-- The nodes of an outcome are those that are visited. -/
theorem forall_subtrees {P : Operation → Prop} (e : Term) (w : Way) :
    (∀ n ∈ (e.outcome s w).operation.subtrees, P n) ↔
      ∀ v ∈ e.visits s w, P (v.2.outcome s v.1).operation := by
  induction e using children_induction generalizing w with
  | step e ih =>
    have below : (∀ n ∈ (e.children.zip (e.ways s w)).map fun p => (p.1.outcome s p.2).operation,
        ∀ m ∈ n.subtrees, P m) ↔ ∀ p ∈ e.children.zip (e.ways s w),
          ∀ v ∈ p.1.visits s p.2, P (v.2.outcome s v.1).operation := by
      rw [List.forall_mem_map]
      exact forall₂_congr fun p inside => ih p.1 (List.of_mem_zip inside).1 p.2
    rw [visits_eq, List.forall_mem_cons, Tree.forall_subtrees, outcome_operation, Tree.children_node,
      below]
    simp only [List.mem_flatMap]
    constructor
    · rintro ⟨here, each⟩
      exact ⟨here, fun v ⟨p, inside, visited⟩ => each p inside v visited⟩
    · rintro ⟨here, each⟩
      exact ⟨here, fun p inside v visited => each v ⟨p, inside, visited⟩⟩

end Term

/-! ### Valid visits -/

theorem Way.Valid.clean {w : Way} {e : Term} (valid : w.Valid s e) (other : e.isNumeric = false) :
    e.Clean s := by
  cases w with
  | inferred | shown | root => exact valid
  | marked | settled => exact valid.1
  | aimed type => exact ((Term.aims_other other).mp valid.2).1

theorem Way.Valid.filled {w : Way} {e : Term} (valid : w.Valid s e) : w.filled.Valid s e := by
  cases w <;> exact valid

namespace Term

theorem forall_argWays {way : Term → TypeName → Way} {P : Way → Term → Prop} {es : List Term}
    {ps : TypeTable} (each : List.Forall₂ (fun e p => P (way e (p.2.getD "int")) e) es ps) :
    ∀ v ∈ es.zip (argWays way es ps), P v.2 v.1 := by
  induction each with
  | nil => exact List.forall_mem_nil _
  | cons first _ ih => exact List.forall_mem_cons.mpr ⟨first, ih⟩

theorem bare_number (proper : s.Proper) {e : Term} (spelled : e.Spelled) (clean : e.Clean s)
    (bare : e.isBare) {type : TypeName} (shares : Shares (e.ownType s) type) :
    type ∈ TypeName.numbers := by
  rcases shares with ⟨own, typed⟩ | ⟨-, numeric⟩
  · rw [(clean.isBare_iff proper spelled).mpr bare] at own
    exact absurd (Option.some.inj own).symm typed
  · exact numeric

/-- A bare number takes a type, all else stays open. -/
theorem hint_valid (proper : s.Proper) {e : Term} (spelled : e.Spelled) (clean : e.Clean s)
    {type : TypeName} (shares : Shares (e.ownType s) type) {takes : Bool}
    (bare : takes = true → e.isBare = true) :
    (if takes then Way.marked type else .inferred).Valid s e := by
  cases h : takes with
  | true => exact ⟨clean, bare h, bare_number proper spelled clean (bare h) shares⟩
  | false => exact clean

section
variable (proper : s.Proper) {e : Term} (spelled : e.Spelled) (clean : e.Clean s)
include proper spelled clean

/-- The nodes below one that was inferred. -/
theorem hintWays_valid : ∀ p ∈ e.children.zip (e.hintWays s), p.2.Valid s p.1 := by
  cases e with
  | literal | load => exact List.forall_mem_nil _
  | call function args =>
    refine forall_argWays ((clean.args proper spelled).imp fun x p ⟨type, is, argument⟩ => ?_)
    rw [is, Option.getD_some]
    exact hint_valid proper argument.spelled argument.clean
      (shares_of_suits argument.proper argument.suits) id
  | index base position =>
    obtain ⟨cleanB, cleanP, -⟩ := clean.index
    simp [Term.children, hintWays, Way.Valid, cleanB, cleanP]
  | binary op left right =>
    have valid (x : Term) (operand : Operand s op (both s op left right) x) :
        (if takes op x then Way.marked (both s op left right) else .inferred).Valid s x :=
      hint_valid proper operand.spelled operand.clean operand.shares fun h =>
        (Bool.and_eq_true_iff.mp h).1
    have operands := clean.operands proper spelled.1 spelled.2
    simp only [List.forall_mem_cons] at operands
    simp only [Term.children, hintWays, List.zip_cons_cons, List.zip_nil_left, List.forall_mem_cons]
    exact ⟨valid left operands.1, valid right operands.2.1, List.forall_mem_nil _⟩
  | unary op operand => simpa [Term.children, hintWays, Way.Valid] using clean.unary

/-- The nodes below one that was settled. -/
theorem settleWays_valid {type : TypeName}
    (fits : ∀ own, e.ownType s = some own → Shares (some own) type) :
    ∀ p ∈ e.children.zip (e.settleWays s type), p.2.Valid s p.1 := by
  cases e with
  | literal | load => exact List.forall_mem_nil _
  | call function args =>
    refine forall_argWays ((clean.args proper spelled).imp fun x p ⟨type, is, argument⟩ => ?_)
    rw [is, Option.getD_some]
    exact ⟨argument.clean, shares_of_suits argument.proper argument.suits⟩
  | index base position =>
    obtain ⟨cleanB, cleanP, -, int⟩ := clean.index
    have shares := shares_of_suits TypeName.proper_int int
    simp [Term.children, settleWays, Way.Valid, cleanB, cleanP, shares]
  | binary op left right =>
    have operands := clean.operands proper spelled.1 spelled.2
    simp only [List.forall_mem_cons] at operands
    obtain ⟨operandL, operandR, -⟩ := operands
    rw [settleWays]
    split
    · simp [Term.children, Way.Valid, operandL.clean, operandR.clean]
    · simp [Term.children, Way.Valid, operandL.clean, operandR.clean, operandL.shares,
        operandR.shares]
  | unary op operand =>
    cases op with
    | not =>
      obtain ⟨cleanO, bool⟩ := clean.not
      exact List.forall_mem_singleton.mpr ⟨cleanO, .inl ⟨bool, by decide⟩⟩
    | invert =>
      obtain ⟨cleanO, own, is, -⟩ := clean.invert
      have shares := fits own (by rw [ownType_invert, is])
      refine List.forall_mem_singleton.mpr ⟨cleanO, ?_⟩
      rw [is]
      split
      · rename_i worked
        have spelledO : operand.Spelled := spelled
        have bare := (cleanO.isBare_iff proper spelledO).mpr (Bool.and_eq_true_iff.mp worked).1
        rw [is] at bare
        exact .inr ⟨bare, by decide⟩
      · exact shares

end

theorem aims_pair {op : Operator} {left right : Term} (numeric : (binary op left right).isNumeric)
    {type : TypeName} : (binary op left right).Aims s type ↔ left.Aims s type ∧ right.Aims s type := by
  rw [Aims, if_pos numeric]

/-- A valid visit leads to valid visits. -/
theorem ways_valid (proper : s.Proper) {e : Term} (spelled : e.Spelled) {w : Way}
    (valid : w.Valid s e) : ∀ p ∈ e.children.zip (e.ways s w), p.2.Valid s p.1 := by
  have filled {ws : List Way} (each : ∀ p ∈ e.children.zip ws, p.2.Valid s p.1) :
      ∀ p ∈ e.children.zip (ws.map Way.filled), p.2.Valid s p.1 := by
    rw [List.zip_map_right, List.forall_mem_map]
    exact fun p inside => (each p inside).filled
  cases w with
  | inferred => exact hintWays_valid proper spelled valid
  | marked type => exact hintWays_valid proper spelled valid.1
  | shown => exact filled (hintWays_valid proper spelled valid)
  | settled type => exact settleWays_valid proper spelled valid.1 fun own is => is ▸ valid.2
  | root =>
    exact filled (settleWays_valid proper spelled valid fun own =>
      shares_rootType proper spelled valid)
  | aimed type =>
    rw [ways]
    cases numeric : e.isNumeric with
    | true =>
      obtain ⟨op, left, right, rfl, -⟩ := binary_of_isNumeric spelled numeric
      obtain ⟨aimsL, aimsR⟩ := (aims_pair numeric).mp valid.2
      simp [children, Way.Valid, valid.1, aimsL, aimsR]
    | false =>
      obtain ⟨clean, shares⟩ := (aims_other numeric).mp valid.2
      exact settleWays_valid proper spelled clean fun own is => is ▸ shares

/-- All visits that a valid one leads to are valid. -/
theorem visits_valid (proper : s.Proper) {e : Term} (spelled : e.Spelled) {w : Way}
    (valid : w.Valid s e) : ∀ v ∈ e.visits s w, v.2.Spelled ∧ v.1.Valid s v.2 := by
  induction e using children_induction generalizing w with
  | step e ih =>
    rw [visits_eq, List.forall_mem_cons]
    refine ⟨⟨spelled, valid⟩, fun v visited => ?_⟩
    obtain ⟨p, inside, visited⟩ := List.mem_flatMap.mp visited
    have isChild := (List.of_mem_zip inside).1
    exact ih p.1 isChild (spelled.children p.1 isChild) (ways_valid proper spelled valid p inside) v
      visited

end Term

/-! ### Directives -/

namespace Directive

/-- The nodes of a directive's terms, each with the way in which it comes by its type. -/
def visits (s : Scope) (c : Directive) : List (Way × Term) :=
  (c.terms.zip (c.ways s)).flatMap fun p => p.1.visits s p.2

section
variable (proper : s.Proper) {c : Directive} (spelled : c.Spelled) (checked : c.Checked s)
  (accepted : (c.fresh.assign s).errors = [])
include proper spelled checked accepted

theorem visits_valid : ∀ v ∈ c.visits s, v.2.Spelled ∧ v.1.Valid s v.2 := by
  intro v visited
  obtain ⟨p, inside, visited⟩ := List.mem_flatMap.mp visited
  exact Term.visits_valid proper (spelled.terms p.1 (List.of_mem_zip inside).1)
    ((assign_outcome proper spelled checked accepted).2 p inside) v visited

/-- The nodes of a typed directive are its root, if that assigns, and those that are visited. -/
theorem forall_subtrees {op : Operation} (typed : (c.fresh.assign s).node.operation = op)
    {P : Operation → Prop} (plain : (Role.ofLabel op.label).assigns → P op) :
    (∀ n ∈ op.subtrees, P n) ↔ ∀ v ∈ c.visits s, P (v.2.outcome s v.1).operation := by
  have parts : c.parts op = (c.terms.zip (c.ways s)).map fun p => (p.1.outcome s p.2).operation := by
    rw [← typed, parts_operation, (assign_outcome proper spelled checked accepted).1,
      List.map_map]
    rfl
  rw [forall_parts spelled (assign_operation_label typed) plain, parts, List.forall_mem_map]
  simp only [Term.forall_subtrees, visits, List.mem_flatMap]
  constructor
  · rintro each v ⟨p, inside, visited⟩
    exact each p inside v visited
  · intro each p inside v visited
    exact each v ⟨p, inside, visited⟩

end

end Directive

end MethodLang
