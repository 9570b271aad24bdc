import Mathlib.Algebra.Ring.Nat
import Mathlib.Data.List.Count
import Mathlib.Data.List.Nodup
import MethodLang.Proofs.Typing.Moves
import MethodLang.Proofs.Typing.Wording

/-!
How often an error is reported. Arithmetic looks at its operands twice, everything else looks at a
child once, so each arithmetic operator above the node that finds an error at most doubles the
number of its reports (`Marked.infer_tally`).
-/
namespace MethodLang

open Checker

/-- How many arithmetic operators stand above the node at the path. -/
def Tree.arithmeticAbove {α : Type} : List Nat → Tree α → Nat
  | [], _ => 0
  | i :: path, t => (if Role.ofLabel t.label = .arithmetic then 1 else 0) +
    t.children[i]?.elim 0 (arithmeticAbove path)

/-- What the role says of the label: no operator has a quote. -/
def Role.Fits (label : String) : Role → Prop
  | .arithmetic | .bitwise | .logical | .comparison | .negation | .inversion => '\'' ∉ label.toList
  | _ => True

theorem Role.ofLabel_fits (label : String) : (ofLabel label).Fits label := by
  have pick {c : Prop} [Decidable c] {a b : Role} (first : c → a.Fits label)
      (second : b.Fits label) : (if c then a else b).Fits label := by
    split
    · exact first ‹_›
    · exact second
  have among {ops : List String} (each : ∀ op ∈ ops, '\'' ∉ op.toList) (inside : label ∈ ops) :
      '\'' ∉ label.toList := each label inside
  refine pick (fun _ => trivial) (pick (fun _ => trivial) (pick (fun _ => trivial)
    (pick (fun _ => trivial) (pick (fun _ => trivial) (pick (fun _ => trivial)
      (pick (among (by decide)) (pick (among (by decide)) (pick (among (by decide))
        (pick (among (by decide)) (pick (fun is => ?_) (pick (fun is => ?_) trivial)))))))))))
  · exact among (by decide : ∀ op ∈ ["!"], '\'' ∉ op.toList) (List.mem_singleton.mpr is)
  · exact among (by decide : ∀ op ∈ ["~"], '\'' ∉ op.toList) (List.mem_singleton.mpr is)

/-- No more errors of one kind at one node than the exponent of their finder allows. -/
structure Tally (n : List Nat → Nat) (errors : List TypeError) : Prop where
  worded : ∀ e ∈ errors, e.Worded
  count : ∀ e ∈ errors, (errors.map TypeError.spot).count e.spot ≤ 2 ^ n e.finder

namespace Tally

variable {n : List Nat → Nat} {es es' : List TypeError}

theorem nil (n : List Nat → Nat) : Tally n [] := ⟨List.forall_mem_nil _, List.forall_mem_nil _⟩

/-- The bound holds of errors that are not reported as well. -/
theorem count_le (tally : Tally n es) (e : TypeError) :
    (es.map TypeError.spot).count e.spot ≤ 2 ^ n e.finder := by
  by_cases inside : e.spot ∈ es.map TypeError.spot
  · obtain ⟨e', inside', same⟩ := List.mem_map.mp inside
    rw [← same, ← TypeError.finder_of_spot same]
    exact tally.count e' inside'
  · rw [List.count_eq_zero_of_not_mem inside]
    exact Nat.zero_le _

theorem perm (tally : Tally n es) (perm : es.Perm es') : Tally n es' where
  worded e inside := tally.worded e (perm.mem_iff.mpr inside)
  count e _ := ((perm.map TypeError.spot).count_eq e.spot).symm ▸ tally.count_le e

/-- Errors at other nodes, or of other kinds, do not count. -/
theorem append (first : Tally n es) (second : Tally n es')
    (apart : ∀ e ∈ es, ∀ e' ∈ es', e.spot ≠ e'.spot) : Tally n (es ++ es') := by
  have uncounted {e : TypeError} {es : List TypeError} (apart : ∀ e' ∈ es, e.spot ≠ e'.spot) :
      (es.map TypeError.spot).count e.spot = 0 := by
    refine List.count_eq_zero.mpr fun inside => ?_
    obtain ⟨e', inside, same⟩ := List.mem_map.mp inside
    exact apart e' inside same.symm
  refine ⟨List.forall_mem_append.mpr ⟨first.worded, second.worded⟩, fun e inside => ?_⟩
  rw [List.map_append, List.count_append]
  rcases List.mem_append.mp inside with inside | inside
  · rw [uncounted (apart e inside), Nat.add_zero]
    exact first.count e inside
  · rw [uncounted fun e' inside' => (apart e' inside' e inside).symm, Nat.zero_add]
    exact second.count e inside

theorem congr (tally : Tally n es) {n' : List Nat → Nat}
    (same : ∀ e ∈ es, n' e.finder = n e.finder) : Tally n' es :=
  ⟨tally.worded, fun e inside => (same e inside).symm ▸ tally.count e inside⟩

/-- What is asked twice. -/
theorem double (first : Tally n es) (second : Tally n es') :
    Tally (fun path => 1 + n path) (es ++ es') := by
  refine ⟨List.forall_mem_append.mpr ⟨first.worded, second.worded⟩, fun e _ => ?_⟩
  rw [List.map_append, List.count_append, Nat.pow_add, Nat.pow_one, Nat.two_mul]
  exact Nat.add_le_add (first.count_le e) (second.count_le e)

theorem under {n' : List Nat → Nat} (tally : Tally n es) {i : Nat}
    (below : ∀ path, n' (i :: path) = n path) : Tally n' (es.map (TypeError.under i)) := by
  have injective : Function.Injective fun spot : TypeError.Spot => (i :: spot.1, spot.2) := by
    rintro ⟨path, kind⟩ ⟨path', kind'⟩ same
    obtain ⟨paths, kinds⟩ := Prod.mk.inj same
    exact Prod.ext (List.cons.inj paths).2 kinds
  refine ⟨?_, List.forall_mem_map.mpr fun e inside => ?_⟩
  · refine List.forall_mem_map.mpr fun e inside => ⟨(tally.worded e inside).cause, ?_⟩
    exact fun _ => List.cons_ne_nil i e.path
  · rw [(tally.worded e inside).finder_under, below, List.map_map]
    have counted := List.count_map_of_injective (es.map TypeError.spot) _ injective e.spot
    rw [List.map_map] at counted
    exact Nat.le_trans (Nat.le_of_eq counted) (tally.count e inside)

theorem regroup {a a' b b' c : List TypeError} (tally : Tally n (a ++ a' ++ (b ++ b') ++ c)) :
    Tally n (a ++ b ++ (a' ++ b' ++ c)) := by
  refine tally.perm (List.perm_iff_count.mpr fun e => ?_)
  simp only [List.count_append]
  omega

end Tally

/-- What is reported at or below some of the children. -/
structure Spread (n : List Nat → Nat) (inside : Nat → Prop) (es : List TypeError) : Prop
    extends Tally n es where
  heads : ∀ e ∈ es, ∃ i, inside i ∧ e.path.head? = some i

namespace Spread

variable {n : List Nat → Nat} {es es' : List TypeError} {inside inside' : Nat → Prop}

theorem append (first : Spread n inside es) (second : Tally n es')
    (others : ∀ e ∈ es', ∀ i, inside i → e.path.head? ≠ some i) : Tally n (es ++ es') := by
  refine first.toTally.append second fun e among e' among' same => ?_
  obtain ⟨i, is, head⟩ := first.heads e among
  have path : e.path = e'.path := congrArg Prod.fst same
  exact others e' among' i is (path ▸ head)

/-- One more child in a row. -/
theorem cons {i : Nat} (first : Tally n es) (head : ∀ e ∈ es, e.path.head? = some i)
    (rest : Spread n inside es') (fresh : ¬ inside i) (own : inside' i)
    (more : ∀ j, inside j → inside' j) : Spread n inside' (es ++ es') := by
  have one : Spread n (· = i) es := ⟨first, fun e among => ⟨i, rfl, head e among⟩⟩
  refine ⟨one.append rest.toTally ?_, ?_⟩
  · rintro e among _ rfl here
    obtain ⟨j, is, head⟩ := rest.heads e among
    exact fresh (Option.some.inj (head.symm.trans here) ▸ is)
  · refine List.forall_mem_append.mpr ⟨fun e among => ⟨i, own, head e among⟩, fun e among => ?_⟩
    obtain ⟨j, is, head⟩ := rest.heads e among
    exact ⟨j, more j is, head⟩

end Spread

/-- What a node finds itself, with the spots where it may. -/
structure Own (own : List TypeError) (spots : List TypeError.Spot) : Prop where
  worded : ∀ e ∈ own, e.Worded ∧ e.finder = []
  spots : (own.map TypeError.spot).Sublist spots

namespace Own

variable {own own' : List TypeError} {spots spots' : List TypeError.Spot}

theorem nil (spots : List TypeError.Spot) : Own [] spots :=
  ⟨List.forall_mem_nil _, List.nil_sublist _⟩

theorem append (first : Own own spots) (second : Own own' spots') :
    Own (own ++ own') (spots ++ spots') :=
  ⟨List.forall_mem_append.mpr ⟨first.worded, second.worded⟩,
    List.map_append ▸ first.spots.append second.spots⟩

theorem tally (found : Own own spots) (distinct : spots.Nodup) {n : List Nat → Nat}
    (root : n [] = 0) : Tally n own := by
  refine ⟨fun e inside => (found.worded e inside).1, fun e inside => ?_⟩
  rw [(found.worded e inside).2, root]
  exact List.nodup_iff_count_le_one.mp (found.spots.nodup distinct) e.spot

theorem sub (found : Own own spots) (more : spots.Sublist spots') : Own own spots' :=
  ⟨found.worded, found.spots.trans more⟩

theorem atChild (i : Nat) (cause : TypeCause) (worded : cause.Worded)
    (operand : cause.ofOperand = true) : Own [Checker.atChild i cause] [([i], cause.kind)] := by
  refine ⟨List.forall_mem_singleton.mpr ⟨⟨worded, fun _ => List.cons_ne_nil _ _⟩, ?_⟩, .refl _⟩
  exact if_pos operand

theorem here (cause : TypeCause) (worded : cause.Worded) (operation : cause.ofOperand = false) :
    Own [Checker.here cause] [([], cause.kind)] := by
  refine ⟨List.forall_mem_singleton.mpr ⟨⟨worded, fun operand => ?_⟩, ite_self _⟩, .refl _⟩
  cases operation.symm.trans operand

theorem ite (found : Own own spots) (c : Prop) [Decidable c] :
    Own (if c then own else []) spots ∧ Own (if c then [] else own) spots := by
  constructor <;> split <;> first | exact found | exact nil spots

variable (type : Option TypeName) (i : Nat)

theorem voidError (use : ValueUse) : Own (voidError type i use) [([i], .noValue)] :=
  ((atChild i (.noValue use) trivial rfl).ite _).1

theorem operandError {op : String} (plain : '\'' ∉ op.toList) (o : Operands) :
    Own (operandError op o i type) [([i], .operandType)] :=
  ((atChild i (.operandType op _ o) plain rfl).ite _).2

theorem indexError (use : ValueUse) :
    Own (indexError type i use) [([i], .noValue), ([i], .badIndex)] := by
  unfold Checker.indexError
  split
  · exact (voidError none i use).sub (List.sublist_append_left _ _)
  · exact ((atChild i (.badIndex _) trivial rfl).ite _).1.sub (List.sublist_cons_self _ _)

theorem head (found : Own own spots) {i : Nat} (at_ : ∀ spot ∈ spots, spot.1 = [i]) :
    ∀ e ∈ own, e.path.head? = some i := by
  intro e inside
  have path : e.path = [i] := at_ e.spot (found.spots.subset (List.mem_map_of_mem inside))
  rw [path]
  rfl

/-- What a node says of itself comes before what is told of its children. -/
theorem before {k : TypeCause.Kind} (found : Own own [([], k)]) {n : List Nat → Nat}
    (root : n [] = 0) {es : List TypeError} {inside : Nat → Prop} (spread : Spread n inside es) :
    Tally n (own ++ es) := by
  refine (found.tally (List.nodup_singleton _) root).append spread.toTally
    fun e among e' among' same => ?_
  obtain ⟨i, -, head⟩ := spread.heads e' among'
  have here : e.spot = ([], k) :=
    List.mem_singleton.mp (found.spots.subset (List.mem_map_of_mem among))
  rw [show e'.path = [] from congrArg Prod.fst (same.symm.trans here)] at head
  cases head

end Own

/-- What is reported from below a child. -/
structure Piece (n : List Nat → Nat) (i : Nat) (es : List TypeError) : Prop extends Tally n es where
  below : ∀ e ∈ es, ∃ path, e.finder = i :: path

namespace Piece

variable {n : List Nat → Nat} {i j : Nat} {es es' own : List TypeError}
  {spots : List TypeError.Spot} (root : n [] = 0) (distinct : spots.Nodup)
include root distinct

theorem alone (piece : Piece n i es) (found : Own own spots) : Tally n (es ++ own) := by
  refine piece.append (found.tally distinct root) fun e inside e' inside' same => ?_
  obtain ⟨path, below⟩ := piece.below e inside
  cases (found.worded e' inside').2.symm.trans ((TypeError.finder_of_spot same).symm.trans below)

theorem pair (first : Piece n i es) (second : Piece n j es') (other : i ≠ j)
    (found : Own own spots) : Tally n (es ++ es' ++ own) := by
  rw [List.append_assoc]
  refine first.append (second.alone root distinct found) fun e inside e' inside' same => ?_
  obtain ⟨path, below⟩ := first.below e inside
  have finder := (TypeError.finder_of_spot same).symm.trans below
  rcases List.mem_append.mp inside' with inside' | inside'
  · obtain ⟨path', below'⟩ := second.below e' inside'
    exact other (List.cons.inj (finder.symm.trans below')).1
  · cases (found.worded e' inside').2.symm.trans finder

end Piece

namespace Checker

variable {kids : List Checker} {n : List Nat → Nat} {t : Marked} {s : Scope}

/-- Checkers of children, of which each reports no more than the exponents below it allow. -/
structure Tallied (n : List Nat → Nat) (kids : List Checker) : Prop where
  root : n [] = 0
  tally : ∀ {i : Nat} {kid : Checker}, kids[i]? = some kid → ∀ c : Marked,
    Tally (fun path => n (i :: path)) (kid.infer c).errors

theorem inferChild_head (kids : List Checker) (i : Nat) (t : Marked) :
    ∀ e ∈ (inferChild kids i t).errors, e.path.head? = some i := by
  unfold inferChild
  split
  · exact List.forall_mem_map.mpr fun _ _ => rfl
  · exact List.forall_mem_nil _

theorem inferChild_length (kids : List Checker) (i : Nat) (t : Marked) :
    (inferChild kids i t).node.children.length = t.children.length := by
  unfold inferChild
  split
  · obtain ⟨l, m, cs⟩ := t
    exact List.length_set
  · rfl

section
variable (tallied : Tallied n kids) (t : Marked)
include tallied

theorem inferChild_piece (i : Nat) : Piece n i (inferChild kids i t).errors := by
  unfold inferChild
  split
  · rename_i kid c isKid _
    have tally := tallied.tally isKid c
    exact ⟨tally.under fun _ => rfl, List.forall_mem_map.mpr fun e inside =>
      ⟨e.finder, (tally.worded e inside).finder_under i⟩⟩
  · exact ⟨Tally.nil n, List.forall_mem_nil _⟩

/-! ### Operators -/

omit tallied in
/-- What the check of two operands finds besides what they tell themselves. -/
theorem checkBinary_errors {op : String} (named : '\'' ∉ op.toList) (o : Operands)
    (two : t.children.length = 2) :
    ∃ own, Own own [([0], .noValue), ([1], .noValue), ([0], .operandType), ([1], .operandType),
        ([], .operandMismatch)] ∧
      (checkBinary kids op o t).errors = (inferChild kids 0 t).errors ++
        (inferChild kids 1 (inferChild kids 0 t).node).errors ++ own := by
  generalize first : inferChild kids 0 t = left
  generalize second : inferChild kids 1 left.node = right
  have found : Own _ _ := (((Own.voidError left.type 0 (.leftOperand op)).append
    (Own.voidError right.type 1 (.rightOperand op))).append
      (Own.operandError left.type 0 named o)).append (Own.operandError right.type 1 named o)
  simp only [checkBinary, first, second, two, ne_eq, not_true_eq_false, if_false]
  -- the mismatch comes last, and only where both operands are taken
  have alone := found.sub (List.sublist_append_left _ [([], .operandMismatch)])
  split
  · exact ⟨_, alone, by simp⟩
  split
  · rename_i l r _ _
    split
    · exact ⟨_, found.append (Own.here (.operandMismatch op l.resolve r.resolve) trivial rfl),
        by simp⟩
    · exact ⟨_, alone, by simp⟩
  · exact ⟨_, alone, by simp⟩

theorem checkBinary_tally {op : String} (named : '\'' ∉ op.toList) (o : Operands) :
    Tally n (checkBinary kids op o t).errors := by
  by_cases two : t.children.length = 2
  · obtain ⟨own, found, errors⟩ := checkBinary_errors t named o two
    rw [errors]
    exact (inferChild_piece tallied t 0).pair tallied.root (by decide)
      (inferChild_piece tallied _ 1) Nat.zero_ne_one found
  · have run : checkBinary kids op o t = ⟨none, none, [here (.operandCount op)], t⟩ := if_pos two
    rw [run]
    exact (Own.here (.operandCount op) named rfl).tally (by simp) tallied.root

/-- Arithmetic asks its operands once on their own and once for the check. -/
theorem inferArithmetic_tally {op : String} (named : '\'' ∉ op.toList) {n' : List Nat → Nat}
    (root : n' [] = 0) (above : ∀ i path, n' (i :: path) = 1 + n (i :: path)) :
    Tally n' (inferArithmetic kids op t).errors := by
  have twice {i : Nat} {es es' : List TypeError} (first : Piece n i es) (second : Piece n i es') :
      Piece n' i (es ++ es') := by
    have below := List.forall_mem_append.mpr ⟨first.below, second.below⟩
    refine ⟨(first.double second.toTally).congr fun e inside => ?_, below⟩
    obtain ⟨path, finder⟩ := below e inside
    rw [finder, above]
  by_cases two : t.children.length = 2
  · have run : (inferArithmetic kids op t).errors = (inferChild kids 0 t).errors ++
        (inferChild kids 1 (inferChild kids 0 t).node).errors ++ (checkBinary kids op .numbers
          (inferChild kids 1 (inferChild kids 0 t).node).node).errors := by
      simp only [inferArithmetic, two, ne_eq, not_true_eq_false, if_false]
      split
      · rfl
      · split <;> rfl
    rw [run]
    have two' : (inferChild kids 1 (inferChild kids 0 t).node).node.children.length = 2 := by
      rw [inferChild_length, inferChild_length, two]
    generalize (inferChild kids 1 (inferChild kids 0 t).node).node = u at two' ⊢
    obtain ⟨own, found, errors⟩ := checkBinary_errors u named .numbers two'
    rw [errors]
    exact ((twice (inferChild_piece tallied t 0) (inferChild_piece tallied u 0)).pair root
      (by decide) (twice (inferChild_piece tallied _ 1) (inferChild_piece tallied _ 1))
      Nat.zero_ne_one found).regroup
  · have run : inferArithmetic kids op t = ⟨none, [here (.operandCount op)], t⟩ := if_pos two
    rw [run]
    exact (Own.here (.operandCount op) named rfl).tally (by simp) root

theorem inferIndex_tally : Tally n (inferIndex kids t).errors := by
  unfold inferIndex
  split
  · exact (Own.here .indexOperands trivial rfl).tally (by simp) tallied.root
  have both {own : List TypeError} (found : Own own [([0], .notIndexable)]) := by
    have own := (Own.indexError (inferChild kids 1 (inferChild kids 0 t).node).type 1 .index).append
      found
    exact (inferChild_piece tallied t 0).pair tallied.root (by decide)
      (inferChild_piece tallied (inferChild kids 0 t).node 1) Nat.zero_ne_one own
  have alone := both (Own.nil _)
  rw [List.append_nil] at alone
  simp only [List.append_assoc] at both alone ⊢
  split
  · exact alone
  · split
    · exact both (Own.atChild 0 (.notIndexable _) trivial rfl)
    · exact alone

theorem inferUnary_tally {op : String} (named : '\'' ∉ op.toList) :
    Tally n (inferNegation kids op t).errors ∧ Tally n (inferInversion kids op t).errors := by
  have count := (Own.here (.unaryCount op) trivial rfl).tally (List.nodup_singleton _) tallied.root
  have told {own : List TypeError}
      (found : Own own [([0], .noValue), ([0], .notTruthValue), ([0], .notInteger)]) :=
    (inferChild_piece tallied t 0).alone tallied.root (by decide) found
  have void := (Own.voidError none 0 (.operand op)).sub
    (List.sublist_append_left _ [([0], .notTruthValue), ([0], .notInteger)])
  constructor
  · unfold inferNegation
    split
    · exact count
    refine told ?_
    split
    · exact void
    · exact ((Own.atChild 0 (.notTruthValue op _) named rfl).ite _).1.sub
        (List.singleton_sublist.mpr (by simp [TypeCause.kind]))
  · unfold inferInversion
    split
    · exact count
    refine told ?_
    split
    · exact void
    · exact ((Own.atChild 0 (.notInteger op _) named rfl).ite _).2.sub
        (List.singleton_sublist.mpr (by simp [TypeCause.kind]))

/-! ### Calls -/

theorem inferEach_tally (indices : List Nat) (distinct : indices.Nodup) :
    Spread n (· ∈ indices) (inferEach kids indices t).1 := by
  induction indices generalizing t with
  | nil => exact ⟨Tally.nil n, List.forall_mem_nil _⟩
  | cons i rest ih =>
    obtain ⟨fresh, distinct⟩ := List.nodup_cons.mp distinct
    exact .cons (inferChild_piece tallied t i).toTally (inferChild_head kids i t)
      (ih _ distinct) fresh List.mem_cons_self fun _ => List.mem_cons_of_mem i

omit tallied in
theorem checkArgument_errors (function : String) (i : Nat) (p : String × Option TypeName) :
    ∃ own, Own own [([i], .noValue), ([i], .argumentType)] ∧
      (checkArgument kids function i p t).1 = (inferChild kids i t).errors ++ own := by
  have void := Own.voidError (inferChild kids i t).type i (.argument p.1 function)
  have alone := void.sub (List.sublist_append_left _ [([i], .argumentType)])
  unfold checkArgument
  simp only
  split
  · split
    · exact ⟨_, alone, rfl⟩
    split
    · exact ⟨_, void.append (Own.atChild i (.argumentType _ _ _ _) trivial rfl),
        List.append_assoc ..⟩
    · exact ⟨_, alone, rfl⟩
  · exact ⟨_, alone, rfl⟩

theorem checkArguments_tally (function : String) (i : Nat) (ps : TypeTable) :
    Spread n (i ≤ ·) (checkArguments kids function i ps t).1 := by
  induction ps generalizing i t with
  | nil => exact ⟨Tally.nil n, List.forall_mem_nil _⟩
  | cons p ps ih =>
    obtain ⟨own, found, errors⟩ := checkArgument_errors t function i p
    rw [checkArguments]
    split
    · refine .cons ?_ ?_ (ih _ (i + 1)) (Nat.not_succ_le_self i) (Nat.le_refl i)
        fun _ => Nat.le_of_succ_le
      · rw [errors]
        exact (inferChild_piece tallied t i).alone tallied.root (by simp) found
      · rw [errors]
        exact List.forall_mem_append.mpr ⟨inferChild_head kids i t, found.head (by simp)⟩
    · exact ⟨Tally.nil n, List.forall_mem_nil _⟩

theorem inferCall_tally (label : String) (name : Option String) :
    Tally n (inferCall s kids label name t).errors := by
  cases name with
  | none => exact (Own.here (.unreadableCall label) trivial rfl).tally (by simp) tallied.root
  | some function =>
    simp only [inferCall, checkCall]
    split
    · exact (Own.here (.unknownFunction function) trivial rfl).before tallied.root
        (inferEach_tally tallied t _ List.nodup_range)
    · exact ((Own.here (.argumentCount function _ _) trivial rfl).ite _).2.before tallied.root
        (checkArguments_tally tallied t function 0 (s.parameters function))

/-! ### Assignments -/

theorem inferStore_tally (name : Option String) : Tally n (inferStore s kids name t).errors := by
  unfold inferStore
  split
  · exact Tally.nil n
  split
  · exact Tally.nil n
  split
  · exact (Own.here (.unknownTarget _) trivial rfl).tally (by simp) tallied.root
  rename_i expected _
  have piece (u : Marked) := inferChild_piece tallied u 0
  simp only
  split
  · exact (piece _).alone tallied.root (List.nodup_singleton _) (Own.voidError none 0 _)
  · refine (piece _).alone tallied.root (List.nodup_singleton ([], .assignment)) ?_
    split <;> exact ((Own.here (.assignment _ expected _) trivial rfl).ite _).1

theorem inferIndices_tally (use : ValueUse) (indices : List Nat) (distinct : indices.Nodup) :
    Spread n (· ∈ indices) (inferIndices kids use indices t).1 := by
  induction indices generalizing t with
  | nil => exact ⟨Tally.nil n, List.forall_mem_nil _⟩
  | cons i rest ih =>
    obtain ⟨fresh, distinct⟩ := List.nodup_cons.mp distinct
    have own := Own.indexError (inferChild kids i t).type i use
    exact .cons ((inferChild_piece tallied t i).alone tallied.root (by simp) own)
      (List.forall_mem_append.mpr ⟨inferChild_head kids i t, own.head (by simp)⟩)
      (ih _ distinct) fresh List.mem_cons_self fun _ => List.mem_cons_of_mem i

/-- What is told of the value comes behind what is told of the indices. -/
theorem inferElements_tally (array : String) (element : Option TypeName) :
    Tally n (inferElements kids array element t).errors := by
  have indices := inferIndices_tally tallied t (.storedIndex array)
    (List.range (t.children.length - 1)) List.nodup_range
  unfold inferElements
  simp only
  generalize t.children.length - 1 = last at *
  generalize inferIndices kids (.storedIndex array) (List.range last) t = loop at *
  have told {own : List TypeError} (found : Own own [([], .element)]) :
      Tally n (loop.1 ++ (inferChild kids last loop.2).errors ++
        voidError (inferChild kids last loop.2).type last (.storedValue array) ++ own) := by
    have own := (Own.voidError (inferChild kids last loop.2).type last (.storedValue array)).append
      found
    rw [List.append_assoc, List.append_assoc]
    refine indices.append ((inferChild_piece tallied _ last).alone tallied.root (by simp) own) ?_
    intro e among i before
    have before := List.mem_range.mp before
    rcases List.mem_append.mp among with among | among
    · rw [inferChild_head kids last _ e among]
      exact fun same => Nat.ne_of_gt before (Option.some.inj same)
    · have spot := own.spots.subset (List.mem_map_of_mem among)
      simp only [List.cons_append, List.nil_append, List.mem_cons, List.not_mem_nil, or_false,
        TypeError.spot, Prod.mk.injEq] at spot
      rcases spot with ⟨path, -⟩ | ⟨path, -⟩ <;> rw [path]
      · exact fun same => Nat.ne_of_gt before (Option.some.inj same)
      · exact (Option.some_ne_none i).symm
  have alone := told (Own.nil _)
  rw [List.append_nil] at alone
  split
  · split
    · exact alone
    · split
      · exact told (Own.here (.element array _ _) trivial rfl)
      · exact alone
  · exact alone

theorem inferStoreAt_tally (name : Option String) :
    Tally n (inferStoreAt s kids name t).errors := by
  have own (cause : TypeCause) (worded : cause.Worded) (operation : cause.ofOperand = false) :=
    (Own.here cause worded operation).tally (List.nodup_singleton _) tallied.root
  unfold inferStoreAt
  split
  · exact Tally.nil n
  split
  · exact Tally.nil n
  split
  · exact own (.unknownArray _) trivial rfl
  split
  · exact own (.notArray _ _) trivial rfl
  split
  · exact own .storeOperands trivial rfl
  · exact inferElements_tally tallied t _ _

theorem inferRole_tally {label : String} {n' : List Nat → Nat} (root : n' [] = 0)
    (above : ∀ i path, n' (i :: path) =
      (if Role.ofLabel label = .arithmetic then 1 else 0) + n (i :: path)) :
    Tally n' (inferRole s kids label t).errors := by
  have fits := Role.ofLabel_fits label
  have once {role : Role} (is : Role.ofLabel label = role) (other : role ≠ .arithmetic)
      {es : List TypeError} (tally : Tally n es) : Tally n' es := by
    have same : n' = n := by
      funext path
      cases path with
      | nil => exact root.trans tallied.root.symm
      | cons i path => rw [above, if_neg (is ▸ other), Nat.zero_add]
    exact same ▸ tally
  have own (cause : TypeCause) (worded : cause.Worded) (operation : cause.ofOperand = false) :=
    (Own.here cause worded operation).tally (List.nodup_singleton _) root
  unfold inferRole
  cases role : Role.ofLabel label with
  | const literal =>
    cases literal with
    | none => exact own (.unreadableConst label) trivial rfl
    | some literal => exact Tally.nil n'
  | load name =>
    change Tally n' (inferLoad s label name t).errors
    unfold inferLoad
    split
    · split
      · exact Tally.nil n'
      · exact own (.unknownVariable _) trivial rfl
    · exact own (.unreadableLoad label) trivial rfl
  | arithmetic =>
    rw [role] at fits
    refine inferArithmetic_tally tallied t fits root fun i path => ?_
    rw [above, if_pos role]
  | unknown => exact own (.unknownNode label) trivial rfl
  | call name => exact once role (by simp) (inferCall_tally tallied t label name)
  | store name => exact once role (by simp) (inferStore_tally tallied t name)
  | storeAt name => exact once role (by simp) (inferStoreAt_tally tallied t name)
  | index => exact once role (by simp) (inferIndex_tally tallied t)
  | bitwise | logical | comparison =>
    refine once role (by simp) (checkBinary_tally tallied t ?_ _)
    rw [role] at fits
    exact fits
  | negation =>
    rw [role] at fits
    exact once role (by simp) (inferUnary_tally tallied t fits).1
  | inversion =>
    rw [role] at fits
    exact once role (by simp) (inferUnary_tally tallied t fits).2

end

end Checker

/-- Each arithmetic operator above its finder at most doubles the reports of an error. -/
theorem Marked.infer_tally (s : Scope) (t c : Marked) :
    Tally (fun path => t.arithmeticAbove path) ((t.checker s).infer c).errors := by
  induction t using Tree.induction generalizing c with
  | node l m ts ih =>
    rw [checker_node]
    have tallied : Tallied (fun path => (path.head?.bind (ts[·]?)).elim 0
        (Tree.arithmeticAbove path.tail)) (ts.map (checker s)) := by
      refine ⟨rfl, fun {i kid} isKid c => ?_⟩
      rw [List.getElem?_map, Option.map_eq_some_iff] at isKid
      obtain ⟨child, found, rfl⟩ := isKid
      simp only [List.head?_cons, Option.bind_some, found, Option.elim_some, List.tail_cons]
      exact ih child (List.mem_of_getElem? found) c
    unfold Checker.node inferNode
    simp only
    split
    · exact Tally.nil _
    · exact inferRole_tally tallied c rfl fun i path => rfl

end MethodLang
