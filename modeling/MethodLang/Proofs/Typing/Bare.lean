import MethodLang.Proofs.Typing.Soundness

/-!
Bare numbers. A number has no type on its own, and neither has what is worked out from numbers
alone. Once it was inferred, though, a number that was worked out counts as `int`
(`Term.Clean.answer_eq`); this decides which operands still take the type of the other.
-/
namespace MethodLang

open Checker

variable {s : Scope}

namespace Term

/-- A number that is written or worked out from such, and so far has no type. -/
def isBare : Term → Bool
  | .literal kind _ => kind.isNumber
  | .binary op left right => op.1.role == .arithmetic && left.isBare && right.isBare
  | .unary .invert operand => operand.isBare
  | .load _ | .call _ _ | .index _ _ | .unary .not _ => false

/-- A bare number that is worked out by arithmetic counts as `int` when it is asked again. -/
def isWorked : Term → Bool
  | .binary _ _ _ => true
  | .unary .invert operand => operand.isWorked
  | .literal _ _ | .load _ | .call _ _ | .index _ _ | .unary .not _ => false

end Term

/-- The exact type of an arithmetic operation on operands that were inferred before. -/
theorem Checker.inferArithmetic_type (kid kid' : Checker) (l : String) (m : Mark) (a b : Marked)
    (op : String) {check : BinaryCheck}
    (second : checkBinary [kid, kid'] op .numbers
      (.node l m [(kid.infer a).node, (kid'.infer b).node]) = check) {both : TypeName}
    (first : TypeName.firstOf check.left check.right = some both) :
    (inferArithmetic [kid, kid'] op (.node l m [a, b])).type =
      if (kid.infer a).type = some TypeName.untyped ∧ (kid'.infer b).type = some TypeName.untyped ∧
        both = "int" then some TypeName.untyped else some both.resolve := by
  have untyped (type : Option TypeName) :
      type.any TypeName.isUntyped = true ↔ type = some TypeName.untyped :=
    ⟨isUntyped_any, fun same => by rw [same]; rfl⟩
  simp only [inferArithmetic, inferChild_first, inferChild_second, Tree.children_node,
    List.length_cons, List.length_nil, ne_eq, not_true_eq_false, if_false, second, first,
    Bool.and_eq_true, untyped, beq_iff_eq, and_assoc]
  split <;> rfl

namespace Term

/-- The type that the term answers with when it is asked again. -/
def answer (s : Scope) (e : Term) : Option TypeName := ((e.kid s).infer (e.inferred s)).type

/-- The type that two operands share. -/
def both (s : Scope) (op : Operator) (left right : Term) : TypeName :=
  (common op.1.operands (left.ownType s) (right.ownType s)).getD "int"

section
variable (proper : s.Proper) {e : Term} (spelled : e.Spelled) (clean : e.Clean s)
include proper spelled clean

theorem Clean.starts : e.Starts s := infer_fresh proper spelled (clean.counted proper spelled)

theorem Clean.settles : e.Settles s := infer_sound proper spelled (clean.counted proper spelled)

theorem Clean.known : e.ownType s ∈ answers := (clean.starts proper spelled).ownType_mem proper

/-- A term without errors is sound once it was inferred. -/
theorem Clean.sound : e.Sound s (e.inferred s) (e.answer s) ∧ Turns (e.ownType s) (e.answer s) ∧
    ((e.kid s).infer (e.inferred s)).node = e.inferred s ∧ (e.inferred s).note = unknownMark := by
  obtain ⟨type, sound, turns, note⟩ := clean.starts proper spelled
  obtain ⟨answer, node⟩ := clean.settles proper spelled _ _ sound
  have same : e.answer s = type := answer
  rw [same]
  exact ⟨sound, turns, node, note⟩

end

/-- What holds of the operands of an operation without errors, and of its type. -/
structure Operated (s : Scope) (op : Operator) (left right : Term) : Prop where
  shared : common op.1.operands (left.ownType s) (right.ownType s) = some (both s op left right)
  again : op.1.role = .arithmetic →
    common .numbers (left.answer s) (right.answer s) = some (both s op left right)
  arithmetic : op.1.role = .arithmetic → (binary op left right).ownType s =
    if left.ownType s = some TypeName.untyped ∧ right.ownType s = some TypeName.untyped then
      some TypeName.untyped
    else some (both s op left right)
  bitwise : op.1.role = .bitwise →
    (binary op left right).ownType s = some (both s op left right)
  truth : op.1.role = .logical ∨ op.1.role = .comparison →
    (binary op left right).ownType s = some "bool"

theorem common_turns {l r l' r' : Option TypeName} (left : l ∈ answers) (right : r ∈ answers)
    (turnsL : Turns l l') (turnsR : Turns r r') {both : TypeName}
    (h : common .numbers l' r' = some both) :
    common .numbers l r = some both ∧
      (l = some TypeName.untyped ∧ r = some TypeName.untyped → both = "int") := by
  have each : ∀ l ∈ answers, ∀ r ∈ answers, ∀ l' ∈ [l, some "int"], ∀ r' ∈ [r, some "int"],
      (l' = l ∨ l = some TypeName.untyped) → (r' = r ∨ r = some TypeName.untyped) →
      ∀ both ∈ common .numbers l' r', common .numbers l r = some both ∧
        (l = some TypeName.untyped ∧ r = some TypeName.untyped → both = "int") := by
    decide +kernel
  have inside {own now : Option TypeName} (turns : Turns own now) :
      now ∈ [own, some "int"] ∧ (now = own ∨ own = some TypeName.untyped) := by
    rcases turns with rfl | ⟨rfl, rfl⟩
    · exact ⟨by simp, .inl rfl⟩
    · exact ⟨by simp, .inr rfl⟩
  exact each l left r right l' (inside turnsL).1 r' (inside turnsR).1 (inside turnsL).2
    (inside turnsR).2 both h

theorem operands_of_arithmetic {op : Operator} (role : op.1.role = .arithmetic) :
    op.1.operands = .numbers := by
  rcases operator_cases op with ⟨-, o⟩ | ⟨other, -⟩ | ⟨other, -⟩ | ⟨other, -⟩
  · exact o
  all_goals
    rw [role] at other
    cases other

theorem both_eq {op : Operator} {left right : Term} {type : TypeName}
    (h : common op.1.operands (left.ownType s) (right.ownType s) = some type) :
    both s op left right = type := by
  rw [both, h]
  rfl

section
variable (proper : s.Proper) {op : Operator} {left right : Term}
  (spelledL : left.Spelled) (spelledR : right.Spelled)
  (clean : (Term.binary op left right).Clean s)
include proper spelledL spelledR clean

/-- Arithmetic looks at its operands twice: what they share is what they turned into. -/
theorem Clean.operated_arithmetic (role : op.1.role = .arithmetic) :
    Operated s op left right := by
  obtain ⟨cleanL, cleanR⟩ := clean.binary
  have knownL := cleanL.known proper spelledL
  have knownR := cleanR.known proper spelledR
  obtain ⟨soundL, turnsL, -, -⟩ := cleanL.sound proper spelledL
  obtain ⟨soundR, turnsR, -, -⟩ := cleanR.sound proper spelledR
  have type := ownType_binary (s := s) op left right
  have errorless := clean_binary.mp clean
  simp only [inferRole, BinaryOp.ofLabel_text, role] at type errorless
  obtain ⟨-, -, cleans⟩ := inferArithmetic_pair (left.kid s) (right.kid s) op.1.text unknownMark
    left.fresh right.fresh op.1.text rfl rfl
  obtain ⟨-, types, parts⟩ := checkBinary_pair (left.kid s) (right.kid s) op.1.text unknownMark
    (left.inferred s) (right.inferred s) op.1.text .numbers rfl rfl rfl
  obtain ⟨shared, again⟩ := Option.isSome_iff_exists.mp (parts (cleans errorless).2.2).2.2
  obtain ⟨own, int⟩ := common_turns knownL knownR turnsL turnsR again
  have operands := operands_of_arithmetic role
  have same : both s op left right = shared := both_eq (by rw [operands, own])
  have exact_ := inferArithmetic_type (left.kid s) (right.kid s) op.1.text unknownMark left.fresh
    right.fresh op.1.text rfl
    (types (mem_answers_of_turns knownL turnsL) |>.trans (firstOf_common again))
  refine ⟨by rw [operands, own, same], fun _ => by rw [same]; exact again, fun _ => ?_,
    by simp [role], by simp [role]⟩
  rw [type, exact_, same, (proper_common knownL knownR own).resolve_eq]
  exact if_congr ⟨fun h => ⟨h.1, h.2.1⟩, fun h => ⟨h.1, h.2, int h⟩⟩ rfl rfl

theorem Clean.operated : Operated s op left right := by
  obtain ⟨cleanL, cleanR⟩ := clean.binary
  have knownL := cleanL.known proper spelledL
  have knownR := cleanR.known proper spelledR
  rcases operator_cases op with ⟨role, _⟩ | ⟨role, o⟩ | ⟨role, o⟩ | ⟨role, o⟩
  · exact clean.operated_arithmetic proper spelledL spelledR role
  · obtain ⟨type, shared, result⟩ := clean.bitwise knownL role
    have same : both s op left right = type := both_eq (by rw [o, shared])
    refine ⟨by rw [o, shared, same], by simp [role], by simp [role], fun _ => ?_, by simp [role]⟩
    rw [result, same, (proper_common knownL knownR shared).resolve_eq]
  · obtain ⟨shared, result⟩ := clean.truth (.inl ⟨role, rfl⟩)
    obtain ⟨type, shared⟩ := Option.isSome_iff_exists.mp shared
    have same : both s op left right = type := both_eq (by rw [o, shared])
    exact ⟨by rw [o, shared, same], by simp [role], by simp [role], by simp [role], fun _ => result⟩
  · obtain ⟨shared, result⟩ := clean.truth (.inr ⟨role, rfl⟩)
    obtain ⟨type, shared⟩ := Option.isSome_iff_exists.mp shared
    have same : both s op left right = type := both_eq (by rw [o, shared])
    exact ⟨by rw [o, shared, same], by simp [role], by simp [role], by simp [role], fun _ => result⟩

end

/-- Just the bare numbers have no type of their own. -/
theorem Clean.isBare_iff (proper : s.Proper) {e : Term} (spelled : e.Spelled) (clean : e.Clean s) :
    e.ownType s = some TypeName.untyped ↔ e.isBare = true := by
  have typed {e : Term} {type : TypeName} (own : e.ownType s = some type) (proper : type.Proper)
      (other : e.isBare = false) : e.ownType s = some TypeName.untyped ↔ e.isBare = true := by
    simp [own, other, proper.ne_untyped]
  induction e using children_induction with
  | step e ih =>
    have below := fun x inside => ih x inside (spelled.children x inside)
      (clean.children proper spelled x inside)
    cases e with
    | literal kind text =>
      rw [clean.literal, isBare]
      cases kind <;> decide
    | load name =>
      obtain ⟨type, own, proper⟩ := clean.place proper spelled rfl
      exact typed own proper rfl
    | call function args =>
      rw [ownType_call spelled.1]
      refine ⟨fun bare => ?_, nofun⟩
      exact absurd rfl (proper.results bare).ne_untyped
    | index base position =>
      obtain ⟨type, own, proper⟩ := clean.place proper spelled rfl
      exact typed own proper rfl
    | binary op left right =>
      have knownL := clean.binary.1.known proper spelled.1
      have knownR := clean.binary.2.known proper spelled.2
      have operated := clean.operated proper spelled.1 spelled.2
      have shared := proper_common knownL knownR operated.shared
      have bareL := below left (by simp [Term.children])
      have bareR := below right (by simp [Term.children])
      rcases operator_cases op with ⟨role, _⟩ | ⟨role, _⟩ | ⟨role, _⟩ | ⟨role, _⟩
      · rw [operated.arithmetic role, isBare, role]
        simp [bareL, bareR, shared.ne_untyped]
      · exact typed (operated.bitwise role) shared (by simp [isBare, role])
      · exact typed (operated.truth (.inl role)) TypeName.proper_bool (by simp [isBare, role])
      · exact typed (operated.truth (.inr role)) TypeName.proper_bool (by simp [isBare, role])
    | unary op operand =>
      cases op with
      | not => exact typed (ownType_not operand) TypeName.proper_bool rfl
      | invert =>
        rw [ownType_invert]
        exact below operand (by simp [Term.children])

theorem numericType_ne_untyped (l r : Option TypeName) :
    numericType l r ≠ some TypeName.untyped := by
  rw [numericType_eq]
  intro bare
  obtain ⟨type, -, resolved⟩ := Option.map_eq_some_iff.mp bare
  simp only [TypeName.resolve] at resolved
  split at resolved
  · exact absurd resolved (by decide)
  · rename_i other
    exact other resolved

theorem inferred_literal (kind : LiteralKind) (text : String) :
    (literal kind text).inferred s = (literal kind text).fresh := by
  rw [inferred, infer_fresh_eq, fresh_eq]
  simp only [inferRole, Role.ofLabel_literal, inferConst]
  cases Label.literal? (Term.literal kind text).label <;> rfl

theorem inferred_unary (op : UnaryOp) (operand : Term) :
    (unary op operand).inferred s = .node op.text unknownMark [operand.inferred s] := by
  rw [inferred, infer_fresh_eq]
  simp only [inferRole, label, UnaryOp.ofLabel_text]
  cases op <;> rfl

theorem answer_invert (operand : Term) : (unary .invert operand).answer s = operand.answer s := by
  have open_ : (Tree.node (UnaryOp.text .invert) unknownMark [operand.inferred s]).note.settled =
      false := rfl
  rw [answer, inferred_unary, kid_eq, label]
  simp only [Checker.node]
  rw [inferNode_open _ _ _ open_]
  simp only [inferRole, UnaryOp.ofLabel_text]
  rfl

/-- When it is asked again, a bare number that was worked out counts as `int`. -/
theorem Clean.answer_eq (proper : s.Proper) {e : Term} (spelled : e.Spelled) (clean : e.Clean s) :
    e.answer s = if e.isBare && e.isWorked then some "int" else e.ownType s := by
  induction e using children_induction with
  | step e ih =>
    obtain ⟨sound, turns, -, note⟩ := clean.sound proper spelled
    have bare := clean.isBare_iff proper spelled
    cases h : e.isBare with
    | false =>
      rw [Bool.false_and, if_neg (by decide)]
      rcases turns with same | ⟨untyped, _⟩
      · exact same
      · rw [bare.mp untyped] at h
        cases h
    | true =>
      cases e with
      | literal kind text =>
        rw [answer, inferred_literal]
        rfl
      | load | call | index => cases h
      | binary op left right =>
        have own := bare.mpr h
        have role : op.1.role = .arithmetic := by
          simp only [isBare, Bool.and_eq_true, beq_iff_eq] at h
          exact h.1.1
        -- both operands were given a type by now, and what they make has one too
        obtain ⟨-, made, ⟨a, b, l, r, -, -, -, -, rfl⟩, gives⟩ := sound
        have open_ : ((Term.binary op left right).inferred s).note.settled = false := by
          rw [note]
          rfl
        rcases gives with ⟨-, same⟩ | ⟨settled, -⟩
        · rcases turns with own' | ⟨-, int⟩
          · simp only [BinaryOp.resultType, role] at same
            rw [own', own] at same
            exact absurd same.symm (numericType_ne_untyped l r)
          · exact int
        · rw [open_] at settled
          cases settled
      | unary op operand =>
        cases op with
        | not => cases h
        | invert =>
          have inside := ih operand (by simp [Term.children]) spelled clean.unary
          have bareO : operand.isBare = true := h
          rw [answer_invert, ownType_invert, inside, bareO, isWorked]

end Term

end MethodLang
