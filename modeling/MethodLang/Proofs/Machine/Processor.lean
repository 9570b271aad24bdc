import Mathlib.Algebra.Ring.Nat
import Mathlib.Logic.Relation
import MethodLang.Proofs.Machine.Execution

/-!
The machine in full. It has registers and one bank of data memory, in which the stack grows down, so
that the words of a frame, those of the frames around it and what an expression has pushed are all
cells of one memory. Instructions are fetched from a program's image.
-/
namespace MethodLang

open Machine

/-- The bytes of an instruction in code memory. -/
def Instr.size : Instr → Nat
  | .push _ => 5
  | .loadFrame _ | .storeFrame _ | .call _ | .jump _ | .jumpIf _ | .setStack _ | .setHeap _ => 3
  | _ => 1

/-- A program in code memory. Places are known by their function. -/
structure Image where
  fetch : Word → Option Instr
  function : String → Word
  place : String → Target → Word
  /-- The function that an instruction belongs to. -/
  scope : Word → String

structure Processor where
  ip : Word
  sp : Word
  bp : Word
  hp : Word
  data : Word → BitVec 8
  input : BitVec 8
  output : BitVec 8

namespace Processor

def word (p : Processor) (a : Word) : Word := Width.word.read p.data a

def put (p : Processor) (a w : Word) : Processor := { p with data := Width.word.write p.data a w }

def push (p : Processor) (w : Word) : Processor := { p.put (p.sp - 4) w with sp := p.sp - 4 }

def drop (p : Processor) : Processor := { p with sp := p.sp + 4 }

/-- Where a word of the frame is. The sum is cut to the sixteen bits of data addresses. -/
def address (bp : Word) (offset : Int) : Word :=
  (bp.setWidth 16 + BitVec.ofInt 16 offset).setWidth 32

/-- A word of the running function's frame. -/
def slot (p : Processor) (offset : Int) : Word := p.word (address p.bp offset)

/-- Goes back to the caller, with the stack above the two words of the call. -/
def leave (p : Processor) : Processor :=
  { p with ip := p.word (p.bp + 4), sp := p.bp + 8, bp := p.word p.bp }

def next (i : Instr) (p : Processor) : Processor :=
  { p with ip := p.ip + BitVec.ofNat 32 i.size }

end Processor

namespace Image

/-- What an instruction does. -/
def exec (im : Image) (i : Instr) (p : Processor) : Option Processor :=
  match i with
  | .push value => value.word?.map fun w => (p.push w).next i
  | .binary op =>
    (op.result (p.word (p.sp + 4)) (p.word p.sp)).map fun w => (p.drop.put p.drop.sp w).next i
  | .unary op => some ((p.put p.sp (op.result (p.word p.sp))).next i)
  | .dup => some ((p.push (p.word p.sp)).next i)
  | .drop => some (p.drop.next i)
  | .swap => some (((p.put p.sp (p.word (p.sp + 4))).put (p.sp + 4) (p.word p.sp)).next i)
  | .loadFrame offset => some ((p.push (p.slot offset)).next i)
  | .storeFrame offset => some ((p.put (Processor.address p.bp offset) (p.word p.sp)).drop.next i)
  | .load width => width.map fun w => (p.put p.sp (w.read p.data (p.word p.sp))).next i
  | .store width => width.map fun w =>
    { p with data := w.write p.data (p.word (p.sp + 4)) (p.word p.sp) }.drop.drop.next i
  | .call function =>
    let q := (p.push (p.ip + BitVec.ofNat 32 i.size)).push p.bp
    some { q with bp := q.sp, ip := im.function function }
  | .ret => some p.leave
  | .jump target => some { p with ip := im.place (im.scope p.ip) target }
  | .jumpIf target =>
    if p.word p.sp = 0 then some (p.drop.next i)
    else some { p.drop with ip := im.place (im.scope p.ip) target }
  | .readByte => some ((p.push (p.input.setWidth 32)).next i)
  | .sendByte => some ({ p with output := (p.word p.sp).setWidth 8 }.drop.next i)
  | .pushHeap => some ((p.push p.hp).next i)
  | .growHeap => some ({ p with hp := p.hp + p.word p.sp }.drop.next i)
  | .setStack address => some ({ p with sp := BitVec.ofNat 32 address }.next i)
  | .setHeap address => some ({ p with hp := BitVec.ofNat 32 address }.next i)
  | .setBase => some ({ p with bp := p.sp }.next i)
  | .halt => some p

def step (im : Image) (p : Processor) : Option Processor := im.fetch p.ip >>= fun i => im.exec i p

def Reaches (im : Image) : Processor → Processor → Prop :=
  Relation.ReflTransGen fun p q => im.step p = some q

end Image

/-! ### Layout -/

namespace Line

def size (l : Line) : Nat := (l.instr?.map Instr.size).getD 0

def sizeAll (lines : List Line) : Nat := (lines.map size).sum

@[simp] theorem sizeAll_nil : sizeAll [] = 0 := rfl

@[simp] theorem sizeAll_cons (l : Line) (lines : List Line) :
    sizeAll (l :: lines) = l.size + sizeAll lines := List.sum_cons

@[simp] theorem sizeAll_append (xs ys : List Line) :
    sizeAll (xs ++ ys) = sizeAll xs + sizeAll ys := by
  simp [sizeAll]

end Line

namespace Image

/-- What a statement of a function's code says about its address. -/
def Shows (im : Image) (scope : String) (a : Word) : Statement → Prop
  | .instr i => im.fetch a = some i
  | .function name => im.function name = a
  | .place target => im.place scope target = a
  | .empty | .codeSection => True

instance (im : Image) (scope : String) (a : Word) :
    (s : Statement) → Decidable (im.Shows scope a s)
  | .instr i => inferInstanceAs (Decidable (im.fetch a = some i))
  | .function name => inferInstanceAs (Decidable (im.function name = a))
  | .place target => inferInstanceAs (Decidable (im.place scope target = a))
  | .empty | .codeSection => .isTrue trivial

/-- The lines of a function stand in the image from the address on. -/
def Holds (im : Image) (scope : String) : Word → List Line → Prop
  | _, [] => True
  | a, l :: rest =>
    im.Shows scope a l.statement ∧ im.Holds scope (a + BitVec.ofNat 32 l.size) rest

instance (im : Image) (scope : String) :
    (a : Word) → (lines : List Line) → Decidable (im.Holds scope a lines)
  | _, [] => .isTrue trivial
  | a, l :: rest =>
    have := instDecidableHolds im scope (a + BitVec.ofNat 32 l.size) rest
    inferInstanceAs (Decidable (im.Shows scope a l.statement ∧ im.Holds scope _ rest))

variable {im : Image} {scope : String} {a : Word} {p q r : Processor}

theorem holds_append {xs ys : List Line} : im.Holds scope a (xs ++ ys) ↔
    im.Holds scope a xs ∧ im.Holds scope (a + BitVec.ofNat 32 (Line.sizeAll xs)) ys := by
  induction xs generalizing a with
  | nil => simp [Holds]
  | cons x xs ih =>
    rw [List.cons_append, Holds, Holds, ih, Line.sizeAll_cons, BitVec.ofNat_add, ← BitVec.add_assoc,
      and_assoc]

/-- The instruction of the first line, and the lines behind it. -/
theorem Holds.instr {l : Line} {i : Instr} {rest : List Line} (is : l.statement = .instr i)
    (h : im.Holds scope a (l :: rest)) :
    im.fetch a = some i ∧ im.Holds scope (a + BitVec.ofNat 32 i.size) rest := by
  have size : l.size = i.size := by rw [Line.size, Line.instr?, is]; rfl
  obtain ⟨fetched, later⟩ := h
  rw [is] at fetched
  exact ⟨fetched, size ▸ later⟩

/-- A line that is no instruction takes no room. -/
theorem Holds.skip {l : Line} {rest : List Line} (plain : l.instr? = none)
    (h : im.Holds scope a (l :: rest)) : im.Holds scope a rest := by
  have size : l.size = 0 := by rw [Line.size, plain]; rfl
  obtain ⟨-, later⟩ := h
  rwa [size, BitVec.add_zero] at later

theorem Reaches.trans (first : im.Reaches p q) (later : im.Reaches q r) : im.Reaches p r :=
  Relation.ReflTransGen.trans first later

theorem reaches_step {i : Instr} (fetched : im.fetch p.ip = some i) (done : im.exec i p = some q) :
    im.Reaches p q := by
  refine Relation.ReflTransGen.single ?_
  rw [step, fetched]
  exact done

end Image

/-! ### Memory -/

/-- The bytes from an address on are the same. -/
def Keeps (from_ : Nat) (before after : Word → BitVec 8) : Prop :=
  ∀ a : Word, from_ ≤ a.toNat → after a = before a

theorem Keeps.trans {s t : Nat} {x y z : Word → BitVec 8} (first : Keeps s x y)
    (later : Keeps t y z) (below : t ≤ s) : Keeps s x z := fun a inside =>
  (later a (Nat.le_trans below inside)).trans (first a inside)

namespace Width

variable {data after : Word → BitVec 8} {a w : Word}

theorem read_word_congr
    (same : ∀ c : Word, a.toNat ≤ c.toNat → c.toNat < a.toNat + 4 → after c = data c)
    (room : a.toNat + 4 ≤ 2 ^ 32) : Width.word.read after a = Width.word.read data a := by
  have one : (a + 1).toNat = a.toNat + 1 := by bv_omega
  have two : (a + 2).toNat = a.toNat + 2 := by bv_omega
  have three : (a + 3).toNat = a.toNat + 3 := by bv_omega
  rw [read, read, same a, same (a + 1), same (a + 2), same (a + 3)] <;> omega

/-- Writing a word leaves other cells as they are. -/
theorem write_word_other (c : Word) (room : a.toNat + 4 ≤ 2 ^ 32)
    (apart : c.toNat < a.toNat ∨ a.toNat + 4 ≤ c.toNat) :
    Width.word.write data a w c = data c := by
  have far : ¬ (c - a).toNat < 4 := by
    rcases apart with below | above
    · bv_omega
    · bv_omega
  rw [write, bytes, if_neg far]

theorem read_write_word (a w : Word) : Width.word.read (Width.word.write data a w) a = w := by
  have byte (k : Nat) (small : k < 4) :
      Width.word.write data a w (a + BitVec.ofNat 32 k) = w.extractLsb' (8 * k) 8 := by
    have distance : (a + BitVec.ofNat 32 k - a).toNat = k := by bv_omega
    rw [write, distance, bytes, if_pos small]
  have zero := byte 0 (by decide)
  rw [BitVec.add_zero] at zero
  have one : Width.word.write data a w (a + 1) = _ := byte 1 (by decide)
  have two : Width.word.write data a w (a + 2) = _ := byte 2 (by decide)
  have three : Width.word.write data a w (a + 3) = _ := byte 3 (by decide)
  rw [read, zero, one, two, three,
    BitVec.extractLsb'_append_extractLsb'_eq_extractLsb' (by decide),
    BitVec.extractLsb'_append_extractLsb'_eq_extractLsb' (by decide),
    BitVec.extractLsb'_append_extractLsb'_eq_extractLsb' (by decide)]
  exact BitVec.extractLsb'_eq_self

end Width

namespace Processor

variable {p : Processor}

@[simp] theorem next_sp (i : Instr) : (p.next i).sp = p.sp := rfl

theorem word_put (a w : Word) : (p.put a w).word a = w := Width.read_write_word a w

theorem put_keeps {a : Word} {s : Nat} (w : Word) (below : a.toNat + 4 ≤ s) (room : s ≤ 2 ^ 32) :
    Keeps s p.data (p.put a w).data := fun _ inside =>
  Width.write_word_other _ (Nat.le_trans below room) (.inr (Nat.le_trans below inside))

theorem word_keeps {q : Processor} {s : Nat} {a : Word} (keeps : Keeps s p.data q.data)
    (above : s ≤ a.toNat) (room : a.toNat + 4 ≤ 2 ^ 32) : q.word a = p.word a :=
  Width.read_word_congr (fun c low _ => keeps c (Nat.le_trans above low)) room

/-- Pushing moves the stack down by a word and changes nothing above. -/
theorem push_spec (w : Word) (room : 4 ≤ p.sp.toNat) :
    (p.push w).sp.toNat + 4 = p.sp.toNat ∧ (p.push w).word (p.push w).sp = w ∧
      Keeps p.sp.toNat p.data (p.push w).data := by
  have below : (p.sp - 4).toNat + 4 = p.sp.toNat := by bv_omega
  exact ⟨below, word_put _ _, put_keeps w (Nat.le_of_eq below) (Nat.le_of_lt p.sp.isLt)⟩

/-- Where a word of the frame is, if it is inside of data memory. -/
theorem toNat_address {bp : Word} {offset : Int} {a : Nat} (sum : bp.toNat + offset = a)
    (inside : a < 2 ^ 16) : (address bp offset).toNat = a := by
  rw [address, BitVec.toNat_setWidth_of_le (by decide), BitVec.toNat_add, BitVec.toNat_setWidth,
    BitVec.toNat_ofInt]
  omega

end Processor

end MethodLang
