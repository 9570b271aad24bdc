import MethodLang.Proofs.Machine.Literals
import MethodLang.Proofs.Typing.Bare

/-!
Numbers beside a variable. An operand of arithmetic is inferred twice, and the first time the
numbers that it is worked out from are settled as `int`. So only a number as it is written takes the
type of a variable beside it; one that was worked out fits an `int` alone
(`number_operand_adapts_iff`).
-/
namespace MethodLang

open Checker

/-- The type and the errors that were found. -/
def Inference.Finds (r : Inference) (type : TypeName) (errors : List TypeError) : Prop :=
  r.type = some type ∧ r.errors = errors

/-- A term is inferred, nothing being known of its nodes before. -/
def Term.inference (s : Scope) (e : Term) : Inference := (Marked.unmarked e.tree).infer s

/-! ### Operands without errors -/

namespace Checker

variable {kid kid' : Checker} {l o : String} {m : Mark} {a b a' b' : Marked}
  {left right : TypeName}

/-- Two operands that share a type. -/
theorem checkBinary_shared (first : kid.infer a = ⟨some left, [], a'⟩)
    (second : kid'.infer b = ⟨some right, [], b'⟩) {both : TypeName}
    (shared : common .numbers (some left) (some right) = some both) :
    checkBinary [kid, kid'] o .numbers (.node l m [a, b]) = ⟨some both, some both, [], .node l m
      [Inference.taking ⟨some left, [], a'⟩ (some both),
        Inference.taking ⟨some right, [], b'⟩ (some both)]⟩ := by
  simp only [common, Option.ite_none_right_eq_some, Bool.and_eq_true] at shared
  obtain ⟨⟨allowedL, allowedR⟩, unified⟩ := shared
  simp only [checkBinary, inferChild_first, inferChild_second, Tree.children_node, List.length_cons,
    List.length_nil, first, second, voidError, operandError, allowedL, allowedR, unified]
  by_cases bareL : left = TypeName.untyped <;> by_cases bareR : right = TypeName.untyped <;>
    simp [Inference.taking, TypeName.isUntyped, bareL, bareR, markChild, Tree.setChildren]

/-- Two numeric operands that share no type. -/
theorem checkBinary_apart (first : kid.infer a = ⟨some left, [], a'⟩)
    (second : kid'.infer b = ⟨some right, [], b'⟩) (takesL : Operands.numbers.takes left)
    (takesR : Operands.numbers.takes right)
    (apart : TypeName.unify (some left) (some right) = none) :
    checkBinary [kid, kid'] o .numbers (.node l m [a, b]) = ⟨some left, some right,
      [here (.operandMismatch o left.resolve right.resolve)], .node l m [a', b']⟩ := by
  have allowedL : allowed .numbers (some left) = true := takesL
  have allowedR : allowed .numbers (some right) = true := takesR
  simp [checkBinary, first, second, voidError, operandError, allowedL, allowedR, apart]

/-- Arithmetic on operands without errors. -/
theorem inferArithmetic_eq (first : kid.infer a = ⟨some left, [], a'⟩)
    (second : kid'.infer b = ⟨some right, [], b'⟩) {own : TypeName} {other : Option TypeName}
    {errors : List TypeError} {t : Marked} (filled : own.isEmpty = false)
    (check : checkBinary [kid, kid'] o .numbers (.node l m [a', b']) =
      ⟨some own, other, errors, t⟩) :
    inferArithmetic [kid, kid'] o (.node l m [a, b]) =
      ⟨if left = TypeName.untyped ∧ right = TypeName.untyped ∧ own = "int" then
        some TypeName.untyped else some own.resolve, errors, t⟩ := by
  simp only [inferArithmetic, inferChild_first, inferChild_second, Tree.children_node,
    List.length_cons, List.length_nil, first, second, check, TypeName.firstOf, filled,
    Option.any_some, TypeName.isUntyped, Bool.and_eq_true, beq_iff_eq, and_assoc, ne_eq,
    not_true_eq_false, if_false, List.map_nil, List.nil_append, Bool.false_eq_true]
  split <;> rfl

/-- An inversion of an operand without errors. -/
theorem inferInversion_eq (first : kid.infer a = ⟨some left, [], a'⟩)
    (takes : Operands.integers.takes left = true) :
    inferInversion [kid] o (.node l m [a]) = ⟨some left, [], .node l m [a']⟩ := by
  simp [inferInversion, first, takes]

end Checker

/-! ### Bare numbers -/

namespace Term

variable {s : Scope} {e : Term}

/-- The type of a bare number that is asked again. -/
def againType (e : Term) : TypeName := if e.isWorked then "int" else TypeName.untyped

/-- The types that a term without errors has when it is inferred, and when it is asked again. The
second time nothing changes. -/
structure Asked (s : Scope) (e : Term) (own again : TypeName) : Prop where
  fresh : (e.kid s).infer e.fresh = ⟨some own, [], e.inferred s⟩
  again : (e.kid s).infer (e.inferred s) = ⟨some again, [], e.inferred s⟩

/-- A bare number is without a type at first. -/
abbrev Adaptable (s : Scope) (e : Term) : Prop := e.Asked s TypeName.untyped e.againType

theorem againType_common (left right : Term) :
    common .numbers (some left.againType) (some right.againType) = some "int" := by
  rw [againType, againType]
  cases left.isWorked <;> cases right.isWorked <;> decide +kernel

/-- A bare number as it is settled beside another one. -/
def asInt (s : Scope) (e : Term) : Marked :=
  Inference.taking ⟨some e.againType, [], e.inferred s⟩ (some "int")

theorem Adaptable.infer_asInt (h : e.Adaptable s) :
    (e.kid s).infer (e.asInt s) = ⟨some "int", [], e.asInt s⟩ := by
  have again := h.again
  rw [asInt, Inference.taking]
  cases worked : e.isWorked with
  | true =>
    rw [againType, worked, if_pos rfl] at again ⊢
    rw [if_neg fun same => absurd (Option.some.inj same) (by decide)]
    exact again
  | false =>
    rw [againType, worked, if_neg Bool.false_ne_true, if_pos rfl, kid_eq]
    have note : ((e.inferred s).settleAs (some "int")).note = ⟨some "int", true⟩ :=
      (Marked.setNote_note _ _).trans (by rw [TypeName.proper_int.normalize_eq])
    exact inferNode_settled s _ _ (by rw [note]) (by rw [note])

theorem adaptable_literal {kind : LiteralKind} {text : String} (number : kind.isNumber = true)
    (spells : kind.Spells text) : (literal kind text).Adaptable s := by
  have line : '\n' ∉ text.toList := by
    intro inside
    have letter := Action.isAlphanum_of_spells (.inr number) spells _ inside
    exact absurd letter (by decide)
  have read := Label.literal?_line kind spells.ne_nil line
  have untyped : TypeName.ofLiteral kind.name = TypeName.untyped := by
    cases kind <;> first | rfl | cases number
  have fresh : ((literal kind text).kid s).infer (literal kind text).fresh =
      ⟨some TypeName.untyped, [], (literal kind text).fresh⟩ := by
    rw [infer_fresh_eq, fresh_eq]
    simp only [inferRole, Role.ofLabel_literal, read, inferConst, untyped]
  exact ⟨by rw [fresh, inferred_literal], by rw [inferred_literal, fresh]; rfl⟩

/-- A term that nothing is known of, whatever its children turned into. -/
theorem infer_unknown (e : Term) (cs : List Marked) :
    (e.kid s).infer (.node e.label unknownMark cs) =
      inferRole s (kids s e.children) e.label (.node e.label unknownMark cs) := by
  have unsettled : (Tree.node e.label unknownMark cs).note.settled = false := rfl
  rw [kid_eq]
  exact inferNode_open s _ _ unsettled

theorem adaptable_invert {operand : Term} (h : operand.Adaptable s) :
    (unary .invert operand).Adaptable s := by
  have takes : Operands.integers.takes operand.againType = true := by
    rw [againType]
    cases operand.isWorked <;> decide
  refine ⟨?_, ?_⟩
  · rw [inferred_unary, infer_fresh_eq]
    simp only [inferRole, label, UnaryOp.ofLabel_text, UnaryOp.role]
    exact inferInversion_eq h.fresh (by decide)
  · rw [inferred_unary]
    refine (infer_unknown (unary .invert operand) _).trans ?_
    simp only [inferRole, label, UnaryOp.ofLabel_text, UnaryOp.role]
    exact inferInversion_eq h.again takes

/-- Arithmetic that nothing is known of. -/
theorem infer_arithmetic {op : Operator} (role : op.1.role = .arithmetic) (left right : Term)
    (a b : Marked) : ((binary op left right).kid s).infer (.node op.1.text unknownMark [a, b]) =
      inferArithmetic [left.kid s, right.kid s] op.1.text
        (.node op.1.text unknownMark [a, b]) := by
  refine (infer_unknown (binary op left right) [a, b]).trans ?_
  simp only [inferRole, label, BinaryOp.ofLabel_text, role]
  rfl

theorem fresh_binary (op : Operator) (left right : Term) : (binary op left right).fresh =
    .node op.1.text unknownMark [left.fresh, right.fresh] := fresh_eq _

theorem adaptable_binary {op : Operator} (role : op.1.role = .arithmetic) {left right : Term}
    (hl : left.Adaptable s) (hr : right.Adaptable s) : (binary op left right).Adaptable s := by
  have fresh : ((binary op left right).kid s).infer (binary op left right).fresh =
      ⟨some TypeName.untyped, [], .node op.1.text unknownMark [left.asInt s, right.asInt s]⟩ := by
    rw [fresh_binary, infer_arithmetic role]
    exact inferArithmetic_eq hl.fresh hr.fresh rfl
      (checkBinary_shared hl.again hr.again (againType_common left right))
  have inferred : (binary op left right).inferred s =
      .node op.1.text unknownMark [left.asInt s, right.asInt s] := by
    rw [Term.inferred, fresh]
  refine ⟨by rw [fresh, inferred], ?_⟩
  rw [inferred, infer_arithmetic role]
  -- the operands have their types by now, so the number has one too
  have shared : common .numbers (some "int") (some "int") = some "int" := by decide +kernel
  have typed (t : Marked) : Inference.taking ⟨some "int", [], t⟩ (some "int") = t :=
    if_neg fun same => absurd (Option.some.inj same) (by decide)
  have check := checkBinary_shared (l := op.1.text) (o := op.1.text) (m := unknownMark)
    hl.infer_asInt hr.infer_asInt shared
  rw [typed, typed] at check
  exact inferArithmetic_eq hl.infer_asInt hr.infer_asInt rfl check

/-- A bare number has no type at first, and `int` when it is asked again if it was worked out. -/
theorem adaptable_of_isBare (bare : e.isBare = true) (spelled : e.Spelled) : e.Adaptable s := by
  induction e using Term.induction with
  | literal kind text => exact adaptable_literal bare spelled
  | load | call | index => cases bare
  | binary op left right ihl ihr =>
    simp only [isBare, Bool.and_eq_true, beq_iff_eq] at bare
    exact adaptable_binary bare.1.1 (ihl bare.1.2 spelled.1) (ihr bare.2 spelled.2)
  | unary op operand ih =>
    cases op with
    | not => cases bare
    | invert => exact adaptable_invert (ih bare spelled)

/-! ### Beside a variable -/

section
variable {op : Operator} {left right : Term} {l l' r r' : TypeName}

theorem inference_eq (e : Term) : e.inference s = (e.kid s).infer e.fresh := by
  rw [inference, Marked.infer, ← e.fresh_checker]
  rfl

theorem asked_load {x : String} {type : TypeName} (spelled : (load x).Spelled)
    (declared : s.variableType x = some type) : (load x).Asked s type type := by
  have fresh : ((load x).kid s).infer (load x).fresh = ⟨some type, [], (load x).fresh⟩ := by
    rw [infer_fresh_eq, fresh_eq]
    simp only [inferRole, label, Role.ofLabel_load spelled, inferLoad, declared]
  have inferred : (load x).inferred s = (load x).fresh := by rw [Term.inferred, fresh]
  exact ⟨by rw [fresh, inferred], by rw [inferred, fresh]⟩

variable (role : op.1.role = .arithmetic) (hl : left.Asked s l l') (hr : right.Asked s r r')
include role hl hr

/-- Operands that share a type when they are asked again. -/
theorem infer_shared (typed : ¬ (l = TypeName.untyped ∧ r = TypeName.untyped)) {both : TypeName}
    (proper : both.Proper) (shared : common .numbers (some l') (some r') = some both) :
    ((binary op left right).inference s).Finds both [] := by
  rw [inference_eq, fresh_binary, infer_arithmetic role]
  have run := inferArithmetic_eq (l := op.1.text) (o := op.1.text) (m := unknownMark) hl.fresh
    hr.fresh proper.not_isEmpty (checkBinary_shared hl.again hr.again shared)
  rw [if_neg fun both => typed ⟨both.1, both.2.1⟩, proper.resolve_eq] at run
  exact ⟨congrArg Inference.type run, congrArg Inference.errors run⟩

/-- Operands that share none. -/
theorem infer_apart (typed : ¬ (l = TypeName.untyped ∧ r = TypeName.untyped)) (proper : l'.Proper)
    (proper' : r'.Proper) (takesL : Operands.numbers.takes l') (takesR : Operands.numbers.takes r')
    (apart : TypeName.unify (some l') (some r') = none) :
    ((binary op left right).inference s).Finds l' [here (.operandMismatch op.1.text l' r')] := by
  rw [inference_eq, fresh_binary, infer_arithmetic role]
  have run := inferArithmetic_eq (l := op.1.text) (o := op.1.text) (m := unknownMark) hl.fresh
    hr.fresh proper.not_isEmpty (checkBinary_apart hl.again hr.again takesL takesR apart)
  rw [if_neg fun both => typed ⟨both.1, both.2.1⟩, proper.resolve_eq, proper'.resolve_eq] at run
  exact ⟨congrArg Inference.type run, congrArg Inference.errors run⟩

end

/-- The types that a number can have beside a variable. -/
theorem numbers_beside : ∀ type ∈ TypeName.numbers, type.Proper ∧ Operands.numbers.takes type ∧
    common .numbers (some TypeName.untyped) (some type) = some type ∧
    common .numbers (some type) (some TypeName.untyped) = some type ∧
    (type ≠ "int" → TypeName.unify (some "int") (some type) = none ∧
      TypeName.unify (some type) (some "int") = none) := by
  decide +kernel

end Term

theorem Scope.variableType_proper {s : Scope} {x : String} {type : TypeName}
    (declared : s.variableType x = some type) (numeric : type.isNumeric) : type.Proper := by
  obtain ⟨written, -, rfl⟩ := Option.map_eq_some_iff.mp declared
  exact TypeName.proper_of_numeric numeric

section
variable {s : Scope} {e : Term} (bare : e.isBare = true) (spelled : e.Spelled) {x : String}
  (named : IsName x) {type : TypeName} (declared : s.variableType x = some type)
  (numeric : type.isNumeric) {op : Operator} (arithmetic : op.1.role = .arithmetic)
include bare spelled named declared numeric arithmetic

/-- A number as it is written takes the type of the variable, and any number is an `int`. -/
theorem number_beside_adapts (fits : e.isWorked = false ∨ type = "int") :
    ((Term.binary op e (.load x)).inference s).Finds type [] ∧
      ((Term.binary op (.load x) e).inference s).Finds type [] := by
  have proper := Scope.variableType_proper declared numeric
  obtain ⟨-, -, forth, back, -⟩ := Term.numbers_beside type (Term.mem_numbers proper numeric)
  have number : e.Adaptable s := Term.adaptable_of_isBare bare spelled
  have loaded := Term.asked_load ⟨x, named, .inl rfl⟩ declared
  have shared : common .numbers (some e.againType) (some type) = some type ∧
      common .numbers (some type) (some e.againType) = some type := by
    rw [Term.againType]
    rcases fits with written | rfl
    · rw [written, if_neg Bool.false_ne_true]
      exact ⟨forth, back⟩
    · split
      · decide +kernel
      · exact ⟨forth, back⟩
  exact ⟨Term.infer_shared arithmetic number loaded (fun both => proper.ne_untyped both.2) proper
      shared.1,
    Term.infer_shared arithmetic loaded number (fun both => proper.ne_untyped both.1) proper
      shared.2⟩

/-- A number that was worked out is an `int`, which no other type goes with. -/
theorem number_beside_clashes (worked : e.isWorked = true) (other : type ≠ "int") :
    ((Term.binary op e (.load x)).inference s).Finds "int"
        [here (.operandMismatch op.1.text "int" type)] ∧
      ((Term.binary op (.load x) e).inference s).Finds type
        [here (.operandMismatch op.1.text type "int")] := by
  have proper := Scope.variableType_proper declared numeric
  obtain ⟨-, takes, -, -, apart⟩ := Term.numbers_beside type (Term.mem_numbers proper numeric)
  obtain ⟨forth, back⟩ := apart other
  have number : e.Asked s TypeName.untyped "int" := by
    have adaptable : e.Adaptable s := Term.adaptable_of_isBare bare spelled
    rwa [Term.Adaptable, Term.againType, worked, if_pos rfl] at adaptable
  have loaded := Term.asked_load ⟨x, named, .inl rfl⟩ declared
  exact ⟨Term.infer_apart arithmetic number loaded (fun both => proper.ne_untyped both.2)
      TypeName.proper_int proper (by decide) takes forth,
    Term.infer_apart arithmetic loaded number (fun both => proper.ne_untyped both.1) proper
      TypeName.proper_int takes (by decide) back⟩

end

/-- Arithmetic on a bare number and a variable of a numeric type has the type of the variable and no
errors, on either side of the operator, just if the number is as it is written or the variable an
`int`. Otherwise the one error is that the operands do not go together. -/
theorem number_operand_adapts_iff {s : Scope} {e : Term} (bare : e.isBare = true)
    (spelled : e.Spelled) {x : String} (named : IsName x) {type : TypeName}
    (declared : s.variableType x = some type) (numeric : type.isNumeric) {op : Operator}
    (arithmetic : op.1.role = .arithmetic) :
    (((Term.binary op e (.load x)).inference s).Finds type [] ↔
      e.isWorked = false ∨ type = "int") ∧
    (((Term.binary op (.load x) e).inference s).Finds type [] ↔
      e.isWorked = false ∨ type = "int") ∧
    (e.isWorked = true → type ≠ "int" →
      ((Term.binary op e (.load x)).inference s).Finds "int"
        [here (.operandMismatch op.1.text "int" type)] ∧
      ((Term.binary op (.load x) e).inference s).Finds type
        [here (.operandMismatch op.1.text type "int")]) := by
  have clashes := number_beside_clashes bare spelled named declared numeric arithmetic
  by_cases fits : e.isWorked = false ∨ type = "int"
  · obtain ⟨forth, back⟩ :=
      number_beside_adapts bare spelled named declared numeric arithmetic fits
    exact ⟨iff_of_true forth fits, iff_of_true back fits, clashes⟩
  · obtain ⟨worked, other⟩ := not_or.mp fits
    rw [Bool.not_eq_false] at worked
    obtain ⟨⟨-, forth⟩, -, back⟩ := clashes worked other
    refine ⟨iff_of_false (fun h => ?_) fits, iff_of_false (fun h => ?_) fits, clashes⟩
    · exact List.cons_ne_nil _ _ (forth.symm.trans h.2)
    · exact List.cons_ne_nil _ _ (back.symm.trans h.2)

/-- A method with a byte. -/
def byteScope : Scope := ⟨[("x", some "byte")], [], [], []⟩

def numberOne : Term := .literal .dec "1"

def plus : Operator := ⟨.add, fun same => BinaryOp.noConfusion same⟩

theorem numberOne_spelled : numberOne.Spelled := ⟨'1', [], rfl, List.all_eq_true.mp (by decide)⟩

theorem byteScope_declares : byteScope.variableType "x" = some "byte" := by decide +kernel

/-- A number as it is written beside a byte. -/
theorem one_beside_byte : numberOne.isBare = true ∧ numberOne.isWorked = false ∧
    ((Term.binary plus numberOne (.load "x")).inference byteScope).Finds "byte" [] := by
  obtain ⟨before, -⟩ := @number_operand_adapts_iff byteScope numberOne rfl numberOne_spelled "x" rfl
    "byte" byteScope_declares (by decide) plus rfl
  exact ⟨rfl, rfl, before.mpr (.inl rfl)⟩

/-- A sum of numbers beside a byte. -/
theorem sum_beside_byte_clashes : (Term.binary plus numberOne numberOne).isBare = true ∧
    ((Term.binary plus (.binary plus numberOne numberOne) (.load "x")).inference byteScope).Finds
      "int" [here (.operandMismatch "+" "int" "byte")] := by
  have spelled : (Term.binary plus numberOne numberOne).Spelled :=
    ⟨numberOne_spelled, numberOne_spelled⟩
  obtain ⟨before, -⟩ := @number_beside_clashes byteScope _ rfl spelled "x" rfl "byte"
    byteScope_declares (by decide) plus rfl rfl (by decide)
  exact ⟨rfl, before⟩

end MethodLang
