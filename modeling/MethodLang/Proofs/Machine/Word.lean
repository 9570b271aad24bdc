import Mathlib.Algebra.Ring.Nat
import MethodLang.Machine.Operator
import MethodLang.Proofs.Machine.Execution
import MethodLang.Proofs.Operation.Term

/-!
What operators compute, as arithmetic on numbers. The machine compares signed words by their sign
bits, turns a shift by a negative count around and extends a sign by flipping it; each is shown to
be the operation on the numbers that the words stand for.
-/
namespace MethodLang

namespace Machine

theorem isNegative_eq (a : Word) : isNegative a = decide (a.toInt < 0) := by
  have bit : (0x80000000 : Word) = BitVec.twoPow 32 31 := by decide
  have sign : isNegative a = a.msb := by
    rw [isNegative, bit, BitVec.and_twoPow, BitVec.msb_eq_getLsbD_last]
    cases a.getLsbD 31 <;> decide
  rw [sign, BitVec.msb_eq_toInt]

/-! ### Comparisons -/

/-- The number that a word stands for in a comparison. -/
def number (unsigned : Bool) (a : Word) : Int := if unsigned then a.toNat else a.toInt

theorem lt_number (a b : Word) : decide (a < b) = decide (number true a < number true b) := by
  simp [number, BitVec.lt_def]

theorem le_number (a b : Word) : decide (a ≤ b) = decide (number true a ≤ number true b) := by
  simp [number, BitVec.le_def]

section
variable (a b : Word)

/-- Words of one sign are in the order of their bits, others in the order of their signs. -/
theorem lt_signed : (if isNegative a != isNegative b then isNegative a else decide (a < b)) =
    decide (number false a < number false b) := by
  have first := BitVec.toInt_eq_toNat_cond a
  have second := BitVec.toInt_eq_toNat_cond b
  have := a.isLt
  have := b.isLt
  simp only [isNegative_eq, number, BitVec.lt_def]
  split <;> simp_all <;> omega

theorem le_signed : (if isNegative a != isNegative b then isNegative a else decide (a ≤ b)) =
    decide (number false a ≤ number false b) := by
  have first := BitVec.toInt_eq_toNat_cond a
  have second := BitVec.toInt_eq_toNat_cond b
  have := a.isLt
  have := b.isLt
  simp only [isNegative_eq, number, BitVec.le_def]
  split <;> simp_all <;> omega

theorem gt_signed : (if isNegative a != isNegative b then !isNegative a else decide (a > b)) =
    decide (number false a > number false b) := by
  refine Eq.trans ?_ (lt_signed b a)
  cases isNegative a <;> cases isNegative b <;> rfl

theorem ge_signed : (if isNegative a != isNegative b then !isNegative a else decide (a ≥ b)) =
    decide (number false a ≥ number false b) := by
  refine Eq.trans ?_ (le_signed b a)
  cases isNegative a <;> cases isNegative b <;> rfl

end

/-! ### Shifts -/

/-- A shift to the left, or to the right if the count is negative. Counts are taken modulo the
width of a word. -/
def shifted (a : Word) (count : Int) : Word :=
  if count < 0 then a >>> (count.natAbs % 32) else a <<< (count.natAbs % 32)

theorem toNat_and_31 (b : Word) : (b &&& 0x1f).toNat = b.toNat % 32 := by
  rw [BitVec.toNat_and]
  exact Nat.and_two_pow_sub_one_eq_mod b.toNat 5

section
variable (b : Word)

theorem count_of_nonneg (nonneg : ¬ b.toInt < 0) : (b &&& 0x1f).toNat = b.toInt.natAbs % 32 := by
  have value := BitVec.toInt_eq_toNat_cond b
  have := b.isLt
  rw [toNat_and_31]
  omega

theorem count_of_neg (negative : b.toInt < 0) :
    ((0 - b) &&& 0x1f).toNat = b.toInt.natAbs % 32 := by
  have value := BitVec.toInt_eq_toNat_cond b
  have := b.isLt
  rw [toNat_and_31, BitVec.toNat_sub]
  simp
  omega

theorem shl_eq_shifted (a : Word) :
    (if isNegative b then a >>> ((0 - b) &&& 0x1f) else a <<< (b &&& 0x1f)) =
      shifted a b.toInt := by
  rw [isNegative_eq, shifted]
  by_cases negative : b.toInt < 0
  · rw [if_pos negative, if_pos (decide_eq_true negative), BitVec.ushiftRight_eq',
      count_of_neg b negative]
  · rw [if_neg negative, if_neg (by simpa using negative), BitVec.shiftLeft_eq',
      count_of_nonneg b negative]

theorem shr_eq_shifted (a : Word) :
    (if isNegative b then a <<< ((0 - b) &&& 0x1f) else a >>> (b &&& 0x1f)) =
      shifted a (-b.toInt) := by
  rw [isNegative_eq, shifted, Int.natAbs_neg]
  by_cases negative : b.toInt < 0
  · rw [if_pos (decide_eq_true negative), if_neg (by omega), BitVec.shiftLeft_eq',
      count_of_neg b negative]
  · rw [if_neg (by simpa using negative), BitVec.ushiftRight_eq', count_of_nonneg b negative]
    by_cases zero : b.toInt = 0
    · simp [zero]
    · rw [if_pos (by omega)]

end

/-! ### Sign extension -/

/-- Flipping the sign bit and subtracting it again extends the sign. -/
theorem flip_sub (x : BitVec 16) : (x.setWidth 32 ^^^ 0x8000) - 0x8000 = x.signExtend 32 := by
  have low : (x.toNat ^^^ 0x8000) % 2 ^ 15 = x.toNat % 2 ^ 15 := by
    rw [Nat.xor_mod_two_pow]
    exact Nat.xor_zero _
  have high : (x.toNat ^^^ 0x8000) / 2 ^ 15 = x.toNat / 2 ^ 15 ^^^ 1 := Nat.xor_div_two_pow
  have bound : x.toNat < 2 ^ 16 := x.isLt
  have sign : x.toNat / 2 ^ 15 = 0 ∨ x.toNat / 2 ^ 15 = 1 := by omega
  have wide : x.toNat % 4294967296 = x.toNat := by omega
  have mask : (0x8000 : BitVec 32).toNat = 0x8000 := rfl
  apply BitVec.eq_of_toNat_eq
  rw [BitVec.toNat_signExtend, BitVec.msb_eq_decide]
  simp only [BitVec.toNat_sub, BitVec.toNat_xor, BitVec.toNat_setWidth, wide]
  rcases sign with zero | one
  · have plain : ¬ 2 ^ (16 - 1) ≤ x.toNat := by omega
    have flipped : x.toNat ^^^ 0x8000 = x.toNat + 0x8000 := by
      rw [zero, Nat.zero_xor] at high
      omega
    rw [decide_eq_false plain, if_neg Bool.false_ne_true, mask, flipped]
    omega
  · have negative : 2 ^ (16 - 1) ≤ x.toNat := by omega
    have flipped : x.toNat ^^^ 0x8000 = x.toNat - 0x8000 := by
      rw [one, Nat.xor_self] at high
      omega
    rw [decide_eq_true negative, if_pos rfl, mask, flipped]
    omega

theorem and_eq_setWidth (a : Word) {n : Nat} (narrow : n ≤ 32) :
    a &&& BitVec.ofNat 32 (2 ^ n - 1) = (a.setWidth n).setWidth 32 := by
  apply BitVec.eq_of_toNat_eq
  have fits : 2 ^ n - 1 < 2 ^ 32 := by
    have := Nat.pow_le_pow_right (n := 2) (by decide) narrow
    omega
  have small : a.toNat % 2 ^ n < 2 ^ 32 :=
    Nat.lt_of_lt_of_le (Nat.mod_lt _ (Nat.two_pow_pos n)) (Nat.pow_le_pow_right (by decide) narrow)
  rw [BitVec.toNat_and, BitVec.toNat_ofNat, Nat.mod_eq_of_lt fits, Nat.and_two_pow_sub_one_eq_mod,
    BitVec.toNat_setWidth, BitVec.toNat_setWidth, Nat.mod_eq_of_lt small]

end Machine

/-! ### Operators -/

open Machine

namespace BinaryOp

/-- What an operator gives. A division by zero gives nothing; `&&` asks whether the operands share
a bit, which on truth values is whether both are true. -/
def value? (unsigned : Bool) (a b : Word) : BinaryOp → Option Word
  | .assign => none
  | .add => some (a + b)
  | .sub => some (a - b)
  | .mul => some (a * b)
  | .div => if b = 0 then none else some (BitVec.ofNat 32 (a.toNat / b.toNat))
  | .mod => if b = 0 then none else some (BitVec.ofNat 32 (a.toNat % b.toNat))
  | .or => some (ofBool (a ≠ 0 ∨ b ≠ 0))
  | .and => some (ofBool (a &&& b ≠ 0))
  | .bitOr => some (a ||| b)
  | .bitXor => some (a ^^^ b)
  | .bitAnd => some (a &&& b)
  | .eq => some (ofBool (a = b))
  | .ne => some (ofBool (a ≠ b))
  | .gt => some (ofBool (number unsigned a > number unsigned b))
  | .ge => some (ofBool (number unsigned a ≥ number unsigned b))
  | .le => some (ofBool (number unsigned a ≤ number unsigned b))
  | .lt => some (ofBool (number unsigned a < number unsigned b))
  | .shl => some (shifted a b.toInt)
  | .shr => some (shifted a (-b.toInt))

/-- Whether the result is brought into the form of the node's type. -/
def reduces : BinaryOp → Bool
  | .add | .sub | .mul | .div | .mod | .bitOr | .bitXor | .bitAnd | .shl | .shr => true
  | .assign | .or | .and | .eq | .ne | .gt | .ge | .le | .lt => false

/-- The instruction of an operator. -/
def instr (unsigned : Bool) : BinaryOp → BinaryInstr
  | .assign | .add => .add
  | .sub => .sub
  | .mul => .mul
  | .div => .div
  | .mod => .mod
  | .or => .lor
  | .and => .land
  | .bitOr => .bor
  | .bitXor => .bxor
  | .bitAnd => .band
  | .eq => .eq
  | .ne => .ne
  | .gt => if unsigned then .gtUnsigned else .gt
  | .ge => if unsigned then .geUnsigned else .ge
  | .le => if unsigned then .leUnsigned else .le
  | .lt => if unsigned then .ltUnsigned else .lt
  | .shl => .shl
  | .shr => .shr

end BinaryOp

namespace Operator

theorem ofOperator?_text (op : Operator) (unsigned : Bool) :
    BinaryInstr.ofOperator? unsigned op.1.text = some (op.1.instr unsigned) := by
  obtain ⟨op, proper⟩ := op
  cases op with
  | assign => exact absurd rfl proper
  | _ => rfl

theorem isArithmetic_instr (op : Operator) (unsigned : Bool) :
    (op.1.instr unsigned).isArithmetic = op.1.reduces := by
  obtain ⟨op, proper⟩ := op
  cases op with
  | assign => exact absurd rfl proper
  | gt | ge | le | lt => cases unsigned <;> rfl
  | _ => rfl

/-- The instruction of an operator computes its value. -/
theorem result_instr (op : Operator) (unsigned : Bool) (a b : Word) :
    (op.1.instr unsigned).result a b = op.1.value? unsigned a b := by
  have unequal (a b : Word) : (a != b) = decide (a ≠ b) := by
    rw [bne, decide_not]
    rfl
  obtain ⟨op, proper⟩ := op
  cases op with
  | assign => exact absurd rfl proper
  | add | sub | mul | eq | bitOr | bitXor | bitAnd => rfl
  | div => simp only [BinaryOp.instr, BinaryInstr.result, BinaryOp.value?, BitVec.udiv_def]
  | mod => simp only [BinaryOp.instr, BinaryInstr.result, BinaryOp.value?, BitVec.umod_def]
  | or =>
    have either : (a ||| b != 0) = decide (a ≠ 0 ∨ b ≠ 0) := by
      rw [unequal, decide_eq_decide, Ne, BitVec.ofNat_eq_ofNat, BitVec.or_eq_zero_iff,
        Decidable.not_and_iff_not_or_not]
    exact congrArg (some ∘ ofBool) either
  | and => exact congrArg (some ∘ ofBool) (unequal (a &&& b) 0)
  | ne => exact congrArg (some ∘ ofBool) (unequal a b)
  | gt => cases unsigned with
    | false => exact congrArg (some ∘ ofBool) (gt_signed a b)
    | true => exact congrArg (some ∘ ofBool) (lt_number b a)
  | ge => cases unsigned with
    | false => exact congrArg (some ∘ ofBool) (ge_signed a b)
    | true => exact congrArg (some ∘ ofBool) (le_number b a)
  | le => cases unsigned with
    | false => exact congrArg (some ∘ ofBool) (le_signed a b)
    | true => exact congrArg (some ∘ ofBool) (le_number a b)
  | lt => cases unsigned with
    | false => exact congrArg (some ∘ ofBool) (lt_signed a b)
    | true => exact congrArg (some ∘ ofBool) (lt_number a b)
  | shl => exact congrArg some (shl_eq_shifted b a)
  | shr => exact congrArg some (shr_eq_shifted b a)

end Operator

end MethodLang
