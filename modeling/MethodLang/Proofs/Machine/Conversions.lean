import Mathlib.Algebra.Ring.Int.Defs
import MethodLang.Machine.Library
import MethodLang.Proofs.Machine.Evaluation
import MethodLang.Proofs.Machine.Processor

/-!
Conversions between the types of single values. A word holds a value of a type in a canonical form,
and a conversion has to bring the value into the form of its target. Most bodies leave the word as
it is or only cut it, so a value comes out right just if what is left is canonical for the target
(`conversion_canonical_iff`).
-/
namespace MethodLang

open Machine

/-! ### Values in words -/

namespace Scalar

/-- The word has the form in which values of the type are held. -/
def Canonical (w : Word) : Scalar → Prop
  | .bool => w = 0 ∨ w = 1
  | .byte => w.toNat < 2 ^ 8
  | .uint => w.toNat < 2 ^ 16
  | .int => (w.setWidth 16).signExtend 32 = w
  | .long | .ulong => True

instance (w : Word) : (s : Scalar) → Decidable (s.Canonical w)
  | .bool => inferInstanceAs (Decidable (w = 0 ∨ w = 1))
  | .byte => inferInstanceAs (Decidable (w.toNat < 2 ^ 8))
  | .uint => inferInstanceAs (Decidable (w.toNat < 2 ^ 16))
  | .int => inferInstanceAs (Decidable ((w.setWidth 16).signExtend 32 = w))
  | .long | .ulong => .isTrue trivial

/-- The value that a word of the type stands for. -/
def value (w : Word) : Scalar → Int
  | .int | .long => w.toInt
  | .bool | .byte | .uint | .ulong => w.toNat

/-- The canonical word of a value that is reduced to the range of the type. -/
def encode (v : Int) : Scalar → Word
  | .bool => ofBool (v ≠ 0)
  | .byte => BitVec.ofInt 32 (v % 2 ^ 8)
  | .uint => BitVec.ofInt 32 (v % 2 ^ 16)
  | .int => BitVec.ofInt 32 (v.bmod (2 ^ 16))
  | .long | .ulong => BitVec.ofInt 32 v

theorem canonical_bool (w : Word) : Scalar.bool.Canonical w ↔ w.toNat < 2 := by
  rw [Canonical, ← BitVec.toNat_inj, ← BitVec.toNat_inj]
  change w.toNat = 0 ∨ w.toNat = 1 ↔ _
  omega

theorem canonical_int (w : Word) :
    Scalar.int.Canonical w ↔ -2 ^ 15 ≤ w.toInt ∧ w.toInt < 2 ^ 15 := by
  have extended : ((w.setWidth 16).signExtend 32).toInt = (w.setWidth 16).toInt :=
    BitVec.toInt_signExtend_of_le (by decide)
  have low := (w.setWidth 16).le_toInt
  have high := (w.setWidth 16).toInt_lt
  refine ⟨fun same => ?_, fun bounds => BitVec.toInt_inj.mp ?_⟩
  · rw [Canonical] at same
    rw [same] at extended
    omega
  · have number := BitVec.toInt_eq_toNat_cond w
    rw [extended, BitVec.toInt_setWidth, Int.bmod_def]
    omega

theorem encode_canonical (v : Int) (s : Scalar) : s.Canonical (s.encode v) := by
  cases s with
  | bool =>
    rw [encode, ofBool]
    split
    · exact .inr rfl
    · exact .inl rfl
  | byte | uint =>
    rw [Canonical, encode, BitVec.toNat_ofInt]
    omega
  | int =>
    rw [canonical_int, encode, BitVec.toInt_ofInt, Int.bmod_def, Int.bmod_def]
    omega
  | long | ulong => trivial

end Scalar

/-! ### Bodies -/

/-- The conversions there are. -/
inductive Conversion where
  | boolToByte | byteToBool | byteToInt | intToByte | intToUint
  | uintToInt | intToLong | longToInt | longToUlong | ulongToLong

/-- A constant, and the instruction that combines the word on top of the stack with it. -/
abbrev Adjustment := Operand × BinaryInstr

namespace Adjustment

def instrs (steps : List Adjustment) : List Instr :=
  steps.flatMap fun (value, op) => [.push value, .binary op]

/-- What adjustments make of a word. -/
def apply (steps : List Adjustment) (w : Word) : Option Word :=
  steps.foldlM (fun w (value, op) => value.word? >>= op.result w) w

/-- The body of a conversion. Where there is nothing to adjust, the word is not touched. -/
def body (steps : List Adjustment) : List Instr :=
  if steps.isEmpty then [.ret] else .loadFrame 8 :: instrs steps ++ [.storeFrame 8, .ret]

end Adjustment

namespace Conversion

def source : Conversion → Scalar
  | .boolToByte => .bool
  | .byteToBool | .byteToInt => .byte
  | .intToByte | .intToUint | .intToLong => .int
  | .uintToInt => .uint
  | .longToInt | .longToUlong => .long
  | .ulongToLong => .ulong

def target : Conversion → Scalar
  | .byteToBool => .bool
  | .boolToByte | .intToByte => .byte
  | .byteToInt | .uintToInt | .longToInt => .int
  | .intToUint => .uint
  | .intToLong | .ulongToLong => .long
  | .longToUlong => .ulong

def name (c : Conversion) : String := c.source.name ++ "_to_" ++ c.target.name

def adjustments : Conversion → List Adjustment
  | .intToByte => [(.hex 2 0xFF, .band)]
  | .intToLong => [(.hex 4 0xFFFF, .band), (.hex 4 0x8000, .bxor), (.hex 4 0x8000, .sub)]
  | .longToInt => [(.hex 4 0xFFFF, .band)]
  | _ => []

theorem instrs_builtin (c : Conversion) {r : Library.Routine} (isBuiltin : r ∈ Library.routines)
    (named : r.name = c.name) : r.instrs = Adjustment.body c.adjustments := by
  have all : ∀ r ∈ Library.routines, r.name = c.name →
      r.instrs = Adjustment.body c.adjustments := by
    cases c <;> decide +kernel
  exact all r isBuiltin named

end Conversion

theorem Library.Routine.instrs_lines (r : Library.Routine) : Line.instrs r.lines = r.instrs := by
  have head : r.head.instr? = none := by
    rw [Library.Routine.head]
    cases r.about <;> rfl
  have line (i : Instr) (remark : Option String) : (r.line i remark).instr? = some i := by
    cases remark <;> rfl
  have notes : (r.notes.map fun text => (⟨r.indent, .empty, some (0, text)⟩ : Line)).filterMap
      Line.instr? = [] := by
    rw [List.filterMap_map]
    exact List.filterMap_eq_nil_iff.mpr fun _ _ => rfl
  have body : (r.body.map fun p => r.line p.1 p.2).filterMap Line.instr? = r.body.map (·.1) := by
    rw [List.filterMap_map, ← List.filterMap_eq_map]
    exact congrArg (List.filterMap · r.body) (funext fun p => line p.1 p.2)
  rw [Line.instrs, Library.Routine.lines, List.cons_append, List.cons_append,
    List.filterMap_cons_none rfl, List.filterMap_cons_none head, List.filterMap_append, notes]
  exact body

/-! ### Execution -/

namespace Image

variable {im : Image} {scope : String} {a : Word} {p q : Processor}

/-- Instructions stand one after the other from the address on. -/
def Fetches (im : Image) : Word → List Instr → Prop
  | _, [] => True
  | a, i :: rest => im.fetch a = some i ∧ im.Fetches (a + BitVec.ofNat 32 i.size) rest

theorem Holds.fetches {lines : List Line} (h : im.Holds scope a lines) :
    im.Fetches a (Line.instrs lines) := by
  induction lines generalizing a with
  | nil => trivial
  | cons l rest ih =>
    cases is : l.instr? with
    | none =>
      rw [Line.instrs, List.filterMap_cons_none is]
      exact ih (h.skip is)
    | some i =>
      have statement : l.statement = .instr i := by
        rw [Line.instr?] at is
        split at is <;> simp_all
      obtain ⟨fetched, later⟩ := h.instr statement
      rw [Line.instrs, List.filterMap_cons_some is]
      exact ⟨fetched, ih later⟩

end Image

namespace Processor

variable {im : Image} {p q : Processor} {v : Word}

/-- A word lies on top of the stack that a function was entered with. Memory from there on is as it
was. -/
structure Topped (p : Processor) (v : Word) (q : Processor) : Prop where
  bp : q.bp = p.bp
  sp : q.sp.toNat + 4 = p.sp.toNat
  top : q.word q.sp = v
  keeps : Keeps p.sp.toNat p.data q.data

/-- A function has gone back to its caller, and the word is where its last argument was. Otherwise
memory is as it was, below the stack apart. -/
structure Left (p : Processor) (v : Word) (q : Processor) : Prop where
  ip : q.ip = p.word (p.bp + 4)
  bp : q.bp = p.word p.bp
  sp : q.sp = p.bp + 8
  word : q.word (p.bp + 8) = v
  others : ∀ a : Word, p.sp.toNat ≤ a.toNat →
    (a.toNat < p.bp.toNat + 8 ∨ p.bp.toNat + 12 ≤ a.toNat) → q.data a = p.data a

/-- Pushing a constant and combining the word below with it replaces that word. -/
theorem Topped.adjust {value : Operand} {op : BinaryInstr} {w u : Word} {rest : List Instr}
    (h : p.Topped v q) (room : 8 ≤ p.sp.toNat)
    (fetches : im.Fetches q.ip (.push value :: .binary op :: rest))
    (isWord : value.word? = some w) (result : op.result v w = some u) :
    ∃ q', im.Reaches q q' ∧ im.Fetches q'.ip rest ∧ p.Topped u q' := by
  obtain ⟨fetched, fetched', later⟩ := fetches
  have depth := h.sp
  have limit := p.sp.isLt
  obtain ⟨below, top, keeps⟩ := q.push_spec w (by omega)
  have up : (q.push w).sp + 4 = q.sp := by bv_omega
  have under : (q.push w).word q.sp = v := (word_keeps keeps (Nat.le_refl _) (by omega)).trans h.top
  have pushed : im.exec (.push value) q = some ((q.push w).next (.push value)) := by
    rw [Image.exec, isWord]
    rfl
  have combined : im.exec (.binary op) ((q.push w).next (.push value)) =
      some ((((q.push w).next (.push value)).drop.put q.sp u).next (.binary op)) := by
    change Option.map _ (op.result ((q.push w).word ((q.push w).sp + 4))
      ((q.push w).word (q.push w).sp)) = _
    rw [up, under, top, result]
    change some (Processor.next _ (Processor.put _ ((q.push w).sp + 4) u)) = _
    rw [up]
  refine ⟨_, (Image.reaches_step fetched pushed).trans (Image.reaches_step fetched' combined),
    later, h.bp, ?_, ?_, ?_⟩
  · change ((q.push w).sp + 4).toNat + 4 = _
    rw [up, depth]
  · change Width.word.read (Width.word.write _ q.sp u) ((q.push w).sp + 4) = u
    rw [up]
    exact Width.read_write_word _ _
  · have written : Keeps p.sp.toNat (q.push w).data ((q.push w).put q.sp u).data :=
      put_keeps u (by omega) (by omega)
    exact (h.keeps.trans keeps (by omega)).trans written (Nat.le_refl _)

/-- Adjustments, one after the other. -/
theorem Topped.adjustAll {steps : List Adjustment} {u : Word} {rest : List Instr}
    (h : p.Topped v q) (room : 8 ≤ p.sp.toNat)
    (fetches : im.Fetches q.ip (Adjustment.instrs steps ++ rest))
    (applied : Adjustment.apply steps v = some u) :
    ∃ q', im.Reaches q q' ∧ im.Fetches q'.ip rest ∧ p.Topped u q' := by
  induction steps generalizing q v with
  | nil => exact ⟨q, .refl, fetches, Option.some.inj applied ▸ h⟩
  | cons step steps ih =>
    obtain ⟨value, op⟩ := step
    rw [Adjustment.apply, List.foldlM_cons] at applied
    obtain ⟨x, first, later⟩ := Option.bind_eq_some_iff.mp applied
    obtain ⟨w, isWord, result⟩ := Option.bind_eq_some_iff.mp first
    obtain ⟨q₁, run, fetches, h⟩ := h.adjust room fetches isWord result
    obtain ⟨q₂, run', fetches, h⟩ := ih h fetches later
    exact ⟨q₂, run.trans run', fetches, h⟩

/-- A return, with the word already in its place. -/
theorem Left.ofRet (fetched : im.fetch q.ip = some .ret) (bp : q.bp = p.bp)
    (isWord : q.word (p.bp + 8) = v) (below : p.sp.toNat ≤ p.bp.toNat)
    (bank : p.bp.toNat + 12 ≤ 2 ^ 16)
    (others : ∀ a : Word, p.sp.toNat ≤ a.toNat →
      (a.toNat < p.bp.toNat + 8 ∨ p.bp.toNat + 12 ≤ a.toNat) → q.data a = p.data a) :
    ∃ q', im.Reaches q q' ∧ p.Left v q' := by
  have saved (a : Word) (low : p.bp.toNat ≤ a.toNat) (high : a.toNat + 4 ≤ p.bp.toNat + 8) :
      q.word a = p.word a :=
    Width.read_word_congr (fun c _ _ => others c (by omega) (by omega)) (by omega)
  refine ⟨q.leave, Image.reaches_step fetched rfl, ?_, ?_, congrArg (· + 8) bp, isWord, others⟩
  · rw [leave, bp]
    exact saved _ (by bv_omega) (by bv_omega)
  · rw [leave, bp]
    exact saved _ (Nat.le_refl _) (by omega)

theorem address_result (bank : p.bp.toNat + 12 ≤ 2 ^ 16) : address p.bp 8 = p.bp + 8 := by
  refine BitVec.eq_of_toNat_eq ?_
  rw [toNat_address (a := p.bp.toNat + 8) rfl (by omega)]
  bv_omega

/-- The word on top is stored in its place before the return. -/
theorem Topped.leave (h : p.Topped v q) (fetches : im.Fetches q.ip [.storeFrame 8, .ret])
    (below : p.sp.toNat ≤ p.bp.toNat) (bank : p.bp.toNat + 12 ≤ 2 ^ 16) :
    ∃ q', im.Reaches q q' ∧ p.Left v q' := by
  obtain ⟨fetched, fetched', -⟩ := fetches
  have home : address q.bp 8 = p.bp + 8 := by rw [h.bp, address_result bank]
  have stored : im.exec (.storeFrame 8) q =
      some ((q.put (p.bp + 8) v).drop.next (.storeFrame 8)) := by
    rw [Image.exec, home, h.top]
  have eight : (p.bp + 8).toNat = p.bp.toNat + 8 := by bv_omega
  obtain ⟨q', run, left⟩ := Left.ofRet (p := p)
    (q := (q.put (p.bp + 8) v).drop.next (.storeFrame 8)) fetched' h.bp (word_put _ _) below bank
    fun a inside apart => by
      refine (Width.write_word_other a ?_ ?_).trans (h.keeps a inside)
      · omega
      · omega
  exact ⟨q', (Image.reaches_step fetched stored).trans run, left⟩

/-- A conversion leaves what its adjustments make of the word. -/
theorem conversion_left {steps : List Adjustment} {u : Word}
    (fetches : im.Fetches p.ip (Adjustment.body steps)) (room : 8 ≤ p.sp.toNat)
    (below : p.sp.toNat ≤ p.bp.toNat) (bank : p.bp.toNat + 12 ≤ 2 ^ 16)
    (applied : Adjustment.apply steps (p.word (p.bp + 8)) = some u) :
    ∃ q, im.Reaches p q ∧ p.Left u q := by
  cases steps with
  | nil =>
    rw [← Option.some.inj applied]
    exact Left.ofRet fetches.1 rfl rfl below bank fun _ _ _ => rfl
  | cons step steps =>
    obtain ⟨fetched, fetches⟩ := fetches
    obtain ⟨depth, top, keeps⟩ := p.push_spec (p.slot 8) (by omega)
    have word : p.slot 8 = p.word (p.bp + 8) := by rw [slot, address_result bank]
    have topped : p.Topped (p.word (p.bp + 8)) ((p.push (p.slot 8)).next (.loadFrame 8)) :=
      ⟨rfl, depth, top.trans word, keeps⟩
    obtain ⟨q, run, fetches, topped⟩ := topped.adjustAll room fetches applied
    obtain ⟨q', run', left⟩ := topped.leave fetches below bank
    exact ⟨q', (Image.reaches_step fetched rfl).trans (run.trans run'), left⟩

end Processor

/-! ### Results -/

namespace Conversion

variable {w : Word}

/-- What a conversion makes of a word. -/
def convert (w : Word) : Conversion → Word
  | .intToByte => (w.setWidth 8).setWidth 32
  | .intToLong => (w.setWidth 16).signExtend 32
  | .longToInt => (w.setWidth 16).setWidth 32
  | _ => w

theorem apply_adjustments (w : Word) (c : Conversion) :
    Adjustment.apply c.adjustments w = some (c.convert w) := by
  have half : w &&& 0xFFFF = (w.setWidth 16).setWidth 32 := and_eq_setWidth w (n := 16) (by decide)
  have low : w &&& 0xFF = (w.setWidth 8).setWidth 32 := and_eq_setWidth w (n := 8) (by decide)
  have extended : ((w &&& 0xFFFF) ^^^ 0x8000) - 0x8000 = (w.setWidth 16).signExtend 32 := by
    rw [half, flip_sub]
  cases c with
  | intToByte => exact congrArg some low
  | intToLong => exact congrArg some extended
  | longToInt => exact congrArg some half
  | _ => rfl

/-- The values that a conversion brings into the form of its target. -/
def Preserves (v : Int) : Conversion → Prop
  | .byteToBool => v < 2
  | .intToUint => 0 ≤ v
  | .uintToInt => v < 2 ^ 15
  | .longToInt => v % 2 ^ 16 < 2 ^ 15
  | .boolToByte | .byteToInt | .intToByte | .intToLong | .longToUlong | .ulongToLong => True

instance (v : Int) : (c : Conversion) → Decidable (c.Preserves v)
  | .byteToBool => inferInstanceAs (Decidable (v < 2))
  | .intToUint => inferInstanceAs (Decidable (0 ≤ v))
  | .uintToInt => inferInstanceAs (Decidable (v < 2 ^ 15))
  | .longToInt => inferInstanceAs (Decidable (v % 2 ^ 16 < 2 ^ 15))
  | .boolToByte | .byteToInt | .intToByte | .intToLong | .longToUlong | .ulongToLong =>
    .isTrue trivial

theorem convert_canonical (c : Conversion) (canonical : c.source.Canonical w) :
    c.target.Canonical (c.convert w) ↔ c.Preserves (c.source.value w) := by
  have number := BitVec.toInt_eq_toNat_cond w
  have limit := w.isLt
  cases c with
  | boolToByte =>
    rw [source, Scalar.canonical_bool] at canonical
    simp only [target, Scalar.Canonical, Preserves, convert, iff_true]
    omega
  | byteToBool =>
    rw [target, Scalar.canonical_bool]
    simp only [Preserves, convert, source, Scalar.value]
    omega
  | byteToInt =>
    rw [target, Scalar.canonical_int]
    simp only [source, Scalar.Canonical, Preserves, convert, iff_true] at canonical ⊢
    omega
  | intToByte =>
    simp only [target, Scalar.Canonical, Preserves, convert, BitVec.toNat_setWidth, iff_true]
    omega
  | intToUint =>
    rw [source, Scalar.canonical_int] at canonical
    simp only [source, target, Scalar.Canonical, Scalar.value, Preserves, convert]
    omega
  | uintToInt =>
    rw [target, Scalar.canonical_int]
    simp only [source, Scalar.Canonical, Scalar.value, Preserves, convert] at canonical ⊢
    omega
  | longToInt =>
    have cut := BitVec.toInt_eq_toNat_cond ((w.setWidth 16).setWidth 32)
    rw [target, Scalar.canonical_int]
    simp only [source, Scalar.value, Preserves, convert, BitVec.toNat_setWidth] at cut ⊢
    omega
  | intToLong | longToUlong | ulongToLong => exact Iff.rfl

/-- What is left stands for the value reduced to the target, if it is in the form of the target. -/
theorem encode_value (c : Conversion) (canonical : c.source.Canonical w)
    (fits : c.target.Canonical (c.convert w)) :
    c.target.encode (c.source.value w) = c.convert w := by
  have number := BitVec.toInt_eq_toNat_cond w
  have limit := w.isLt
  cases c with
  | boolToByte =>
    rw [source, Scalar.canonical_bool] at canonical
    refine BitVec.eq_of_toNat_eq ?_
    simp only [source, target, Scalar.encode, Scalar.value, convert, BitVec.toNat_ofInt]
    omega
  | byteToBool =>
    rcases fits with zero | one
    · have isZero : w = 0 := zero
      rw [isZero]
      rfl
    · have isOne : w = 1 := one
      rw [isOne]
      rfl
  | byteToInt =>
    refine BitVec.eq_of_toNat_eq ?_
    simp only [source, target, Scalar.Canonical, Scalar.encode, Scalar.value, convert,
      BitVec.toNat_ofInt, Int.bmod_def] at canonical ⊢
    omega
  | intToByte =>
    refine BitVec.eq_of_toNat_eq ?_
    simp only [source, target, Scalar.encode, Scalar.value, convert, BitVec.toNat_ofInt,
      BitVec.toNat_setWidth]
    omega
  | intToUint =>
    refine BitVec.eq_of_toNat_eq ?_
    simp only [source, target, Scalar.Canonical, Scalar.encode, Scalar.value, convert,
      BitVec.toNat_ofInt] at fits ⊢
    omega
  | uintToInt =>
    rw [target, Scalar.canonical_int] at fits
    refine BitVec.eq_of_toNat_eq ?_
    simp only [source, target, Scalar.Canonical, Scalar.encode, Scalar.value, convert,
      BitVec.toNat_ofInt, Int.bmod_def] at canonical fits ⊢
    omega
  | longToInt =>
    have cut := BitVec.toInt_eq_toNat_cond ((w.setWidth 16).setWidth 32)
    rw [target, Scalar.canonical_int] at fits
    refine BitVec.eq_of_toNat_eq ?_
    simp only [source, target, Scalar.encode, Scalar.value, convert, BitVec.toNat_ofInt,
      BitVec.toNat_setWidth, Int.bmod_def] at cut fits ⊢
    omega
  | intToLong => exact BitVec.ofInt_toInt.trans canonical.symm
  | longToUlong => exact BitVec.ofInt_toInt
  | ulongToLong =>
    refine (BitVec.ofInt_natCast 32 w.toNat).trans ?_
    rw [BitVec.ofNat_toNat, BitVec.setWidth_eq]
    rfl

theorem convert_eq_encode_iff (c : Conversion) (canonical : c.source.Canonical w) :
    c.convert w = c.target.encode (c.source.value w) ↔ c.Preserves (c.source.value w) := by
  rw [← c.convert_canonical canonical]
  refine ⟨fun same => ?_, fun fits => (c.encode_value canonical fits).symm⟩
  rw [same]
  exact Scalar.encode_canonical _ _

end Conversion

/-- A conversion, called with a word in the form of its source, goes back to its caller with a word
in the place of the argument. The word is the form of the value in the target just for the values
that the conversion preserves, and for no other value is it in the form of the target at all. -/
theorem conversion_canonical_iff (c : Conversion) {r : Library.Routine}
    (isBuiltin : r ∈ Library.routines) (named : r.name = c.name) {im : Image} {p : Processor}
    (holds : im.Holds r.name p.ip r.lines) (room : 8 ≤ p.sp.toNat)
    (below : p.sp.toNat ≤ p.bp.toNat) (bank : p.bp.toNat + 12 ≤ 2 ^ 16) {w : Word}
    (argument : p.word (p.bp + 8) = w) (canonical : c.source.Canonical w) :
    ∃ u q, im.Reaches p q ∧ p.Left u q ∧
      (u = c.target.encode (c.source.value w) ↔ c.Preserves (c.source.value w)) ∧
      (c.target.Canonical u ↔ c.Preserves (c.source.value w)) := by
  subst argument
  have fetches := holds.fetches
  rw [r.instrs_lines, c.instrs_builtin isBuiltin named] at fetches
  obtain ⟨q, run, left⟩ :=
    Processor.conversion_left fetches room below bank (c.apply_adjustments _)
  exact ⟨_, q, run, left, c.convert_eq_encode_iff canonical,
    c.convert_canonical canonical⟩

/-- The conversion from `long` to `int` at the address 0. -/
def longToIntImage : Image where
  fetch a := [((0 : Word), Instr.loadFrame 8), (3, .push (.hex 4 0xFFFF)), (8, .binary .band),
    (9, .storeFrame 8), (12, .ret)].lookup a
  function _ := 0
  place _ _ := 0
  scope _ := "long_to_int"

/-- The state in which a conversion at the address 0 starts on a word. -/
def enteredWith (w : Word) : Processor :=
  ⟨0, 1024, 1024, 0, Width.word.write (fun _ => 0) 1032 w, 0, 0⟩

theorem longToIntImage_holds :
    longToIntImage.Holds "long_to_int" 0 Library.longToInt.lines := by
  decide +kernel

/-- A long number whose low half has no sign. -/
theorem long_to_int_low_half : Scalar.long.Canonical 0x12345 ∧
    ∃ q, longToIntImage.Reaches (enteredWith 0x12345) q ∧ q.word 1032 = 0x2345 := by
  refine ⟨trivial, ?_⟩
  obtain ⟨u, q, run, left, same, -⟩ := conversion_canonical_iff .longToInt
    (r := Library.longToInt) (p := enteredWith 0x12345) (w := 0x12345)
    (by simp [Library.routines]) (by decide +kernel) longToIntImage_holds (by decide) (by decide)
    (by decide) (Width.read_write_word _ _) trivial
  refine ⟨q, run, left.word.trans ((same.mpr ?_).trans ?_)⟩
  · decide
  · decide

/-- A sign in the low half is not extended. -/
theorem long_to_int_unextended :
    ¬ Scalar.int.Canonical 0x8000 ∧ Scalar.int.encode (Scalar.long.value 0x8000) = 0xFFFF8000 ∧
      ∃ q, longToIntImage.Reaches (enteredWith 0x8000) q ∧ q.word 1032 = 0x8000 := by
  have fetches : longToIntImage.Fetches 0 (Adjustment.body Conversion.longToInt.adjustments) := by
    have held := longToIntImage_holds.fetches
    rwa [Library.Routine.instrs_lines] at held
  have argument : (enteredWith 0x8000).word 1032 = 0x8000 := Width.read_write_word _ _
  obtain ⟨q, run, left⟩ := Processor.conversion_left (p := enteredWith 0x8000) fetches
    (by decide) (by decide) (by decide) (Conversion.apply_adjustments _ .longToInt)
  refine ⟨by decide, by decide, q, run, left.word.trans ?_⟩
  exact (congrArg (Conversion.convert · .longToInt) argument).trans (by decide)

end MethodLang
