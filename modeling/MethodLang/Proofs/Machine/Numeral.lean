import Mathlib.Algebra.Ring.Nat
import MethodLang.Machine.Expression
import MethodLang.Proofs.Operation.Term

/-!
Numbers in literals. A literal of digits is read as the number that the digits stand for, unless
decimal conversion is asked for too many of them.
-/
namespace MethodLang

namespace Text

/-- The number that digits stand for. -/
def valueOf (base : Nat) (cs : List Char) : Nat :=
  cs.foldl (fun value c => value * base + (digitValue? base c).getD 0) 0

theorem valueOf_zeros (base : Nat) (cs : List Char) (n : Nat) :
    valueOf base (cs ++ List.replicate n '0') = valueOf base cs * base ^ n := by
  have zero : (digitValue? base '0').getD 0 = 0 := by
    cases base <;> rfl
  induction n with
  | zero => simp
  | succ n ih =>
    rw [List.replicate_succ', ← List.append_assoc, valueOf, List.foldl_append, ← valueOf, ih]
    simp [zero, Nat.pow_succ, Nat.mul_assoc]

/-- A digit of the base, in ASCII. -/
def IsDigitOf (base : Nat) (c : Char) : Prop := (digitValue? base c).isSome ∧ c.toNat < 128

theorem isDigitOf_of_hex {base : Nat} {is : Char → Bool} {c : Char}
    (hex : Token.isHexDigit c) (digit : is c)
    (each : ∀ n < 128, is (Char.ofNat n) → (digitValue? base (Char.ofNat n)).isSome) :
    IsDigitOf base c := by
  have ascii : c.toNat < 128 := by
    simp only [Token.isHexDigit, Char.isDigit, Bool.or_eq_true, Bool.and_eq_true, decide_eq_true_eq,
      Char.le_def, UInt32.le_iff_toNat_le] at hex
    simp at hex
    omega
  have here := each c.toNat ascii
  rw [Char.ofNat_toNat] at here
  exact ⟨here digit, ascii⟩

section
variable {base : Nat}

theorem IsDigitOf.ne {c other : Char} (digit : IsDigitOf base c)
    (absent : digitValue? base other = none) : c ≠ other := by
  rintro rfl
  rw [IsDigitOf, absent] at digit
  exact absurd digit.1 (by simp)

theorem IsDigitOf.not_blank {c : Char} (digit : IsDigitOf base c) : isNumberBlank c = false := by
  have each : ∀ n < 128, isNumberBlank (Char.ofNat n) →
      digitValue? base (Char.ofNat n) = none := by
    have code : ∀ n < 128, isNumberBlank (Char.ofNat n) → (Char.ofNat n).isDigit = false ∧
        ('a' ≤ Char.ofNat n && Char.ofNat n ≤ 'z') = false ∧
        ('A' ≤ Char.ofNat n && Char.ofNat n ≤ 'Z') = false := by decide
    intro n small blank
    obtain ⟨digit, low, high⟩ := code n small blank
    simp [digitValue?, digit, low, high]
  have here := each c.toNat digit.2
  rw [Char.ofNat_toNat] at here
  refine Bool.eq_false_iff.mpr fun blank => ?_
  exact digit.ne (here blank) rfl

theorem readDigits_digits {cs : List Char} (digits : ∀ c ∈ cs, IsDigitOf base c)
    (value count : Nat) (after : Bool) (some_ : cs ≠ [] ∨ after = true) :
    readDigits base value count after cs =
      some (cs.foldl (fun value c => value * base + (digitValue? base c).getD 0) value,
        count + cs.length) := by
  induction cs generalizing value count after with
  | nil => simp_all [readDigits]
  | cons c cs ih =>
    have ⟨first, rest⟩ := List.forall_mem_cons.mp digits
    obtain ⟨d, digit⟩ := Option.isSome_iff_exists.mp first.1
    have mark : c ≠ '_' := first.ne (by simp [digitValue?])
    simp [readDigits, mark, digit, ih rest _ _ _ (.inr rfl), Nat.add_comm 1, Nat.add_assoc]

theorem skipMarker_digits {cs : List Char} (digits : ∀ c ∈ cs, IsDigitOf base c) :
    skipMarker base cs = cs := by
  unfold skipMarker
  split
  · rename_i m rest
    have digit := digits m (by simp)
    rw [if_neg]
    simp only [Bool.or_eq_true, Bool.and_eq_true, beq_iff_eq, not_or, not_and]
    constructor <;> rintro rfl
    · exact ⟨digit.ne (by decide), digit.ne (by decide)⟩
    · exact ⟨digit.ne (by decide), digit.ne (by decide)⟩
  · rfl

theorem trimBy_digits {cs : List Char} (digits : ∀ c ∈ cs, IsDigitOf base c) :
    trimBy isNumberBlank (cs.map numeral) = cs := by
  have same : cs.map numeral = cs := by
    rw [List.map_congr_left fun c inside => numeral_of_ascii c (digits c inside).2]
    exact List.map_id cs
  have stays {ds : List Char} (digits : ∀ c ∈ ds, IsDigitOf base c) :
      ds.dropWhile isNumberBlank = ds := by
    cases ds with
    | nil => rfl
    | cons d ds => simp [(digits d List.mem_cons_self).not_blank]
  rw [same, trimBy, stays digits, stays (by simpa using digits), List.reverse_reverse]

/-- Plain digits are read as their number; too many decimal digits are refused. -/
theorem readInteger_digits {d : Char} {ds : List Char}
    (digits : ∀ c ∈ d :: ds, IsDigitOf base c) : readInteger base (d :: ds) =
      if base = 10 ∧ digitLimit < (d :: ds).length then none
      else some (Int.ofNat (valueOf base (d :: ds))) := by
  have first := digits d List.mem_cons_self
  have minus : d ≠ '-' := first.ne (by simp [digitValue?])
  have plus : d ≠ '+' := first.ne (by simp [digitValue?])
  have natural : readNatural base (d :: ds) =
      if base = 10 ∧ digitLimit < (d :: ds).length then none
      else some (valueOf base (d :: ds)) := by
    rw [readNatural, skipMarker_digits digits, readDigits_digits digits 0 0 false (.inl (by simp))]
    simp [valueOf]
  rw [readInteger, trimBy_digits digits]
  split
  · exact absurd (List.cons.inj ‹_›).1 minus
  · exact absurd (List.cons.inj ‹_›).1 plus
  · rw [natural]
    split <;> rfl

end

end Text

/-! ### Literals -/

namespace LiteralKind

def base : LiteralKind → Nat
  | .hex => 16
  | .bits => 2
  | _ => 10

/-- The digits of a number, behind the marker of its base. -/
def digits (kind : LiteralKind) (text : String) : List Char :=
  match kind with
  | .hex | .bits => text.toList.drop 2
  | _ => text.toList

/-- The number that a literal stands for. -/
def value (kind : LiteralKind) (text : String) : Nat := Text.valueOf kind.base (kind.digits text)

/-- Decimal conversion takes the number: it can be read, and written again. -/
def Convertible (kind : LiteralKind) (text : String) : Prop :=
  (kind = .dec → text.toList.length ≤ Text.digitLimit) ∧ kind.value text < 10 ^ Text.digitLimit

instance (kind : LiteralKind) (text : String) : Decidable (kind.Convertible text) :=
  inferInstanceAs (Decidable (_ ∧ _))

theorem digits_eq {kind : LiteralKind} (number : kind.isNumber) {text : String}
    (spells : kind.Spells text) :
    ∃ d ds, kind.digits text = d :: ds ∧ ∀ c ∈ d :: ds, Text.IsDigitOf kind.base c := by
  cases kind with
  | bool | str | char => cases number
  | hex =>
    obtain ⟨m, d, ds, -, text, digits⟩ := spells
    exact ⟨d, ds, by simp [LiteralKind.digits, text], fun c inside =>
      Text.isDigitOf_of_hex (digits c inside) (digits c inside) (by decide)⟩
  | bits =>
    obtain ⟨m, d, ds, -, text, digits⟩ := spells
    have hex {c : Char} (bit : Token.isBit c) : Token.isHexDigit c := by
      rcases Bool.or_eq_true_iff.mp bit with bit | bit
      all_goals
        rw [eq_of_beq bit]
        decide
    exact ⟨d, ds, by simp [LiteralKind.digits, text], fun c inside =>
      Text.isDigitOf_of_hex (hex (digits c inside)) (digits c inside) (by decide)⟩
  | dec =>
    obtain ⟨d, ds, text, digits⟩ := spells
    have hex {c : Char} (digit : c.isDigit) : Token.isHexDigit c := by simp [Token.isHexDigit, digit]
    exact ⟨d, ds, text, fun c inside =>
      Text.isDigitOf_of_hex (hex (digits c inside)) (digits c inside) (by decide)⟩

end LiteralKind

/-- The code of a number pushes it if decimal conversion takes it. -/
theorem Literal.code_number {kind : LiteralKind} (number : kind.isNumber) {text : String}
    (spells : kind.Spells text) : Literal.code kind.name text =
      if kind.Convertible text then .write [Literal.pushed (kind.value text) kind.name text]
      else .stop .unreadableNumber := by
  obtain ⟨d, ds, digits, each⟩ := kind.digits_eq number spells
  have read := Text.readInteger_digits each
  have code : Literal.code kind.name text =
      Literal.number kind.name text (Text.readInteger kind.base (d :: ds)) := by
    rw [← digits]
    cases kind with
    | bool | str | char => cases number
    | hex | bits | dec => rfl
  have many : kind.base = 10 ∧ Text.digitLimit < (d :: ds).length ↔
      ¬ (kind = .dec → text.toList.length ≤ Text.digitLimit) := by
    rw [← digits]
    cases kind with
    | bool | str | char => cases number
    | hex | bits => simp [LiteralKind.base]
    | dec => simp [LiteralKind.base, LiteralKind.digits]
  have value : kind.value text = Text.valueOf kind.base (d :: ds) := by rw [LiteralKind.value, digits]
  rw [code, read, ← value]
  by_cases few : kind = .dec → text.toList.length ≤ Text.digitLimit
  · rw [if_neg fun long => many.mp long few]
    by_cases small : kind.value text < 10 ^ Text.digitLimit
    · have written : (Text.writeInteger? (Int.ofNat (kind.value text))).isSome := by
        simp [Text.writeInteger?, small]
      rw [if_pos ⟨few, small⟩, Literal.number, if_pos written]
      rfl
    · have refused : ¬ (Text.writeInteger? (Int.ofNat (kind.value text))).isSome := by
        simp [Text.writeInteger?, small]
      rw [if_neg fun both => small both.2, Literal.number, if_neg refused]
  · rw [if_pos (many.mpr few), if_neg fun both => few both.1]
    rfl

end MethodLang
