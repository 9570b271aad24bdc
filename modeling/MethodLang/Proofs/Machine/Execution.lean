import MethodLang.Machine.Line

/-!
The machine that the code is for. Its stack, the words of the running function's frame and the
bytes of memory are kept apart. Code without jumps and calls is run instruction by instruction;
an instruction that lacks an operand, or a divisor that is zero, has no meaning.
-/
namespace MethodLang

abbrev Machine.Word := BitVec 32

/-- The state between two instructions. -/
structure Machine where
  /-- The word on top comes first. -/
  stack : List Machine.Word
  /-- The words of the frame, by their distance from the base pointer. -/
  frame : Int → Machine.Word
  memory : Machine.Word → BitVec 8

namespace Machine

def ofBool (b : Bool) : Word := if b then 1 else 0

def isNegative (a : Word) : Bool := a &&& 0x80000000 != 0

/-- A signed comparison: words of different signs are told apart by the sign of the first, others
are compared as they are. -/
def signed (bySign : Bool) (plain : Bool) (a b : Word) : Word :=
  ofBool (if isNegative a != isNegative b then bySign else plain)

def push (w : Word) (m : Machine) : Machine := { m with stack := w :: m.stack }

end Machine

open Machine

/-- The result on a word and the word above it. A negative count shifts the other way. -/
def BinaryInstr.result (a b : Machine.Word) : BinaryInstr → Option Machine.Word
  | .add => some (a + b)
  | .sub => some (a - b)
  | .mul => some (a * b)
  | .div => if b = 0 then none else some (a / b)
  | .mod => if b = 0 then none else some (a % b)
  | .shl => some (if isNegative b then a >>> ((0 - b) &&& 0x1f) else a <<< (b &&& 0x1f))
  | .shr => some (if isNegative b then a <<< ((0 - b) &&& 0x1f) else a >>> (b &&& 0x1f))
  | .bor => some (a ||| b)
  | .band => some (a &&& b)
  | .bxor => some (a ^^^ b)
  | .lor => some (ofBool (a ||| b != 0))
  | .land => some (ofBool (a &&& b != 0))
  | .eq => some (ofBool (a == b))
  | .ne => some (ofBool (a != b))
  | .gt => some (signed (!isNegative a) (a > b) a b)
  | .lt => some (signed (isNegative a) (a < b) a b)
  | .ge => some (signed (!isNegative a) (a ≥ b) a b)
  | .le => some (signed (isNegative a) (a ≤ b) a b)
  | .gtUnsigned => some (ofBool (a > b))
  | .ltUnsigned => some (ofBool (a < b))
  | .geUnsigned => some (ofBool (a ≥ b))
  | .leUnsigned => some (ofBool (a ≤ b))

def UnaryInstr.result (a : Machine.Word) : UnaryInstr → Machine.Word
  | .not => ofBool (a == 0)
  | .complement => ~~~a

/-- The word that an immediate operand stands for. -/
def Operand.word? : Operand → Option Machine.Word
  | .decimal n => some (BitVec.ofInt 32 n)
  | .hex _ n => some (BitVec.ofNat 32 n)
  | .unknown => none

namespace Width

/-- Reads as many bytes, the lowest first, and fills up with zeros. -/
def read (memory : Machine.Word → BitVec 8) (a : Machine.Word) : Width → Machine.Word
  | .byte => (memory a).setWidth 32
  | .half => (memory (a + 1) ++ memory a).setWidth 32
  | .word => memory (a + 3) ++ memory (a + 2) ++ memory (a + 1) ++ memory a

def bytes : Width → Nat
  | .byte => 1
  | .half => 2
  | .word => 4

/-- Writes as many of the low bytes of a word. -/
def write (memory : Machine.Word → BitVec 8) (a w : Machine.Word) (width : Width) :
    Machine.Word → BitVec 8 :=
  fun b => if (b - a).toNat < width.bytes then w.extractLsb' (8 * (b - a).toNat) 8 else memory b

end Width

namespace Machine

def step : Instr → Machine → Option Machine
  | .push value, m => value.word?.map (push · m)
  | .binary op, ⟨b :: a :: rest, frame, memory⟩ => (op.result a b).map fun w => ⟨w :: rest, frame, memory⟩
  | .unary op, ⟨a :: rest, frame, memory⟩ => some ⟨op.result a :: rest, frame, memory⟩
  | .dup, ⟨a :: rest, frame, memory⟩ => some ⟨a :: a :: rest, frame, memory⟩
  | .drop, ⟨_ :: rest, frame, memory⟩ => some ⟨rest, frame, memory⟩
  | .swap, ⟨b :: a :: rest, frame, memory⟩ => some ⟨a :: b :: rest, frame, memory⟩
  | .loadFrame offset, m => some (push (m.frame offset) m)
  | .storeFrame offset, ⟨a :: rest, frame, memory⟩ =>
    some ⟨rest, fun at_ => if at_ = offset then a else frame at_, memory⟩
  | .load (some width), ⟨a :: rest, frame, memory⟩ => some ⟨width.read memory a :: rest, frame, memory⟩
  | .store (some width), ⟨w :: a :: rest, frame, memory⟩ => some ⟨rest, frame, width.write memory a w⟩
  | _, _ => none

/-- Runs instructions one after the other. -/
def run : List Instr → Machine → Option Machine
  | [], m => some m
  | i :: rest, m => (step i m).bind (run rest)

theorem run_append (is js : List Instr) (m : Machine) :
    run (is ++ js) m = (run is m).bind (run js) := by
  induction is generalizing m with
  | nil => rfl
  | cons i rest ih =>
    rw [List.cons_append, run, run, Option.bind_assoc]
    exact congrArg _ (funext ih)

end Machine

end MethodLang
