import MethodLang.Proofs.Machine.Evaluation
import MethodLang.Proofs.Machine.Generation
import MethodLang.Proofs.Machine.Processor

/-!
Elements of arrays. The code that assigns an element and the code that reads one find it at the same
address, though the one takes the size of an element from the declared type of the variable and the
other from the type of its own node. What was assigned is read back in the form of the element's
type, and all other elements are as before (`stored_element_read`).
-/
namespace MethodLang

open Machine

/-! ### Bytes -/

namespace Width

variable {memory after : Word → BitVec 8} {a b w : Word}

/-- A read looks at as many bytes as it is wide. -/
theorem read_congr (width : Width)
    (same : ∀ k < width.bytes, after (a + BitVec.ofNat 32 k) = memory (a + BitVec.ofNat 32 k)) :
    width.read after a = width.read memory a := by
  have first : after a = memory a := by
    have zero := same 0 (by cases width <;> decide)
    rwa [BitVec.add_zero] at zero
  cases width with
  | byte => rw [read, read, first]
  | half =>
    have one : after (a + 1) = memory (a + 1) := same 1 (by decide)
    rw [read, read, first, one]
  | word =>
    have one : after (a + 1) = memory (a + 1) := same 1 (by decide)
    have two : after (a + 2) = memory (a + 2) := same 2 (by decide)
    have three : after (a + 3) = memory (a + 3) := same 3 (by decide)
    rw [read, read, first, one, two, three]

theorem write_inside (width : Width) {k : Nat} (inside : k < width.bytes) :
    width.write memory a w (a + BitVec.ofNat 32 k) = w.extractLsb' (8 * k) 8 := by
  have small : width.bytes ≤ 4 := by cases width <;> decide
  have distance : (a + BitVec.ofNat 32 k - a).toNat = k := by bv_omega
  rw [write, distance, if_pos inside]

/-- What is read where it was written are the low bytes. -/
theorem read_write (width : Width) (memory : Word → BitVec 8) (a w : Word) :
    width.read (width.write memory a w) a = (w.setWidth (8 * width.bytes)).setWidth 32 := by
  have zero (width : Width) : width.write memory a w a = w.extractLsb' 0 8 := by
    have first : width.write memory a w (a + BitVec.ofNat 32 0) = _ :=
      width.write_inside (by cases width <;> decide)
    rwa [BitVec.add_zero] at first
  cases width with
  | byte =>
    rw [read, zero, bytes, Nat.mul_one, BitVec.setWidth_eq_extractLsb' (w := 8) (by decide)]
  | half =>
    have one : Width.half.write memory a w (a + 1) = _ := write_inside .half (k := 1) (by decide)
    rw [read, zero, one, BitVec.extractLsb'_append_extractLsb'_eq_extractLsb' (by decide), bytes,
      BitVec.setWidth_eq_extractLsb' (w := 8 * 2) (by decide)]
  | word =>
    rw [read_write_word, bytes, BitVec.setWidth_eq, BitVec.setWidth_eq]

/-- None of the bytes at the second address is one of those at the first. -/
def Apart (width : Width) (a b : Word) : Prop :=
  ∀ k < width.bytes, width.bytes ≤ (b + BitVec.ofNat 32 k - a).toNat

theorem read_write_apart {width : Width} (apart : width.Apart a b) :
    width.read (width.write memory a w) b = width.read memory b := by
  refine width.read_congr fun k inside => ?_
  rw [write, if_neg (Nat.not_lt.mpr (apart k inside))]

/-- The address of an element as a number. -/
theorem elementAddress_eq (base : Word) (i : BitVec 16) (n : Nat) :
    base + i.signExtend 32 * BitVec.ofNat 32 n =
      BitVec.ofInt 32 (base.toInt + i.toInt * n) := by
  rw [BitVec.ofInt_add, BitVec.ofInt_mul, BitVec.ofInt_toInt, BitVec.ofInt_natCast]
  rfl

/-- Elements at different positions are apart. The positions are less than `2 ^ 16` elements away
from each other, so that the addresses do not meet on the other side of memory. -/
theorem elements_apart (width : Width) (base : Word) {i j : BitVec 16} (differ : i ≠ j) :
    width.Apart (base + i.signExtend 32 * BitVec.ofNat 32 width.bytes)
      (base + j.signExtend 32 * BitVec.ofNat 32 width.bytes) := by
  intro k inside
  have positions : i.toInt ≠ j.toInt := fun same => differ (BitVec.toInt_inj.mp same)
  have := i.toInt_lt
  have := i.le_toInt
  have := j.toInt_lt
  have := j.le_toInt
  rw [elementAddress_eq, elementAddress_eq, BitVec.toNat_sub, BitVec.toNat_add, BitVec.toNat_ofInt,
    BitVec.toNat_ofInt, BitVec.toNat_ofNat]
  cases width <;> simp only [bytes] at * <;> omega

end Width

namespace Scalar

theorem reduce_low (s : Scalar) (w : Word) :
    s.reduce ((w.setWidth (8 * s.width.bytes)).setWidth 32) = s.reduce w := by
  have low {n : Nat} (narrow : n ≤ 32) :
      ((w.setWidth n).setWidth 32).setWidth n = w.setWidth n := by
    rw [BitVec.setWidth_setWidth_of_le _ narrow, BitVec.setWidth_eq]
  cases s with
  | bool | byte => exact congrArg (BitVec.setWidth 32) (low (n := 8) (by decide))
  | uint => exact congrArg (BitVec.setWidth 32) (low (n := 16) (by decide))
  | int => exact congrArg (BitVec.signExtend 32) (low (n := 16) (by decide))
  | long | ulong => simp only [reduce, width, Width.bytes, BitVec.setWidth_eq]

/-- The element that was written has the new value, all others have their old one. -/
theorem element_write (s : Scalar) (memory : Word → BitVec 8) (base w : Word) (i j : BitVec 16) :
    s.element (s.width.write memory (base + i.signExtend 32 * BitVec.ofNat 32 s.width.bytes) w) base
        (j.signExtend 32) =
      if j = i then s.reduce w else s.element memory base (j.signExtend 32) := by
  split
  · rename_i same
    rw [same, element, Width.read_write, reduce_low]
  · rename_i differ
    rw [element, Width.read_write_apart (s.width.elements_apart base (Ne.symm differ)), element]

/-- The last word of an array's type is the type of its elements. -/
theorem elementOf_array (s : Scalar) : Code.elementOf (VarType.array s).name = s.name := by
  cases s <;> decide +kernel

end Scalar

/-! ### Code -/

/-- The tree of an assignment to an element. -/
def storeTree (array : String) (type : Scalar) (position value : Operation) : Operation :=
  .node ("store_at(" ++ array ++ ")") (some type.name) [position, value]

/-- The tree of an element, the array being loaded under its name with brackets. -/
def elementTree (array : String) (type : Scalar) (position : Operation) : Operation :=
  .node "index" (some type.name)
    [.node ("load(" ++ (array ++ "[]") ++ ")") (some (VarType.array type).name) [], position]

section
variable {c : CodeContext} {array : String} {type : Scalar} {offset : Int}
  {frame : Int → Word} {memory : Word → BitVec 8} {position value : Operation} {i w : Word}

/-- Assigning an element writes as many bytes as the element has. -/
theorem run_storeTree (named : IsName array)
    (declared : c.frame.slot? array = some ⟨some (VarType.array type).name, offset⟩)
    (atPosition : (position.code c).Leaves frame memory [] (some i))
    (hasValue : (value.code c).Leaves frame memory [] (some w)) :
    ((storeTree array type position value).code c).fault = none ∧
      ∀ stack, run ((storeTree array type position value).code c).instrs ⟨stack, frame, memory⟩ =
        some ⟨stack, frame, type.width.write memory
          (frame offset + i * BitVec.ofNat 32 type.width.bytes) w⟩ := by
  have width : (some type.name >>= Width.ofType?) = some type.width := type.ofType?_name
  have code : (storeTree array type position value).code c =
      (Code.instr (.loadFrame offset) ++ (position.code c ++
        (Code.write (Line.scale type.width) ++ Code.instr (.binary .add)))) ++
      (value.code c ++ Code.instr (.store type.width)) := by
    rw [storeTree, Operation.code_storeAt (Action.ofLabel?_storeAt named)]
    simp only [Code.storeAt, Code.withSlot, declared, type.elementOf_array, type.ofType?_name,
      width, Code.append_assoc]
  have base : (Code.instr (.loadFrame offset)).Leaves frame memory [] (some (frame offset)) :=
    ⟨rfl, fun _ => rfl⟩
  have address : (Code.instr (.loadFrame offset) ++ (position.code c ++
      (Code.write (Line.scale type.width) ++ Code.instr (.binary .add)))).Leaves frame memory []
        (some (frame offset + i * BitVec.ofNat 32 type.width.bytes)) :=
    base.andThen (u := []) fun a => atPosition.andThen (u := [a]) (Code.leaves_scale type.width a)
  rw [code, Code.fault_append address.whole, Code.fault_append hasValue.whole,
    Code.instrs_append address.whole, Code.instrs_append hasValue.whole]
  refine ⟨rfl, fun stack => ?_⟩
  have first := address.run stack
  have second := hasValue.run ((frame offset + i * BitVec.ofNat 32 type.width.bytes) :: stack)
  rw [List.nil_append, Option.map_some] at first second
  rw [run_append, first, Option.bind_some, run_append, second]
  rfl

/-- Reading an element pushes it. -/
theorem run_elementTree (named : IsName array)
    (declared : c.frame.slot? array = some ⟨some (VarType.array type).name, offset⟩)
    (atPosition : (position.code c).Leaves frame memory [] (some i)) :
    ((elementTree array type position).code c).Leaves frame memory []
      (some (type.element memory (frame offset) i)) := by
  have base : (Code.instr (.loadFrame offset)).Leaves frame memory [] (some (frame offset)) :=
    ⟨rfl, fun _ => rfl⟩
  have load : Operation.code c (.node ("load(" ++ (array ++ "[]") ++ ")")
      (some (VarType.array type).name) []) = Code.instr (.loadFrame offset) := by
    rw [Operation.code_load (Action.ofLabel?_loadArray named), Code.withSlot, declared]
  rw [elementTree, Operation.code_index Action.ofLabel?_index, load]
  exact base.index atPosition type

end

/-- Assigning an element of an array and reading one. The positions are 16-bit numbers, the assigned
value is any word. Both assignment and reading run to their ends; the element at the position of the
assignment is then the word in the form of the element's type, and any other is what it was. -/
theorem stored_element_read {c : CodeContext} {array : String} (named : IsName array)
    {type : Scalar} {offset : Int}
    (declared : c.frame.slot? array = some ⟨some (VarType.array type).name, offset⟩)
    {frame : Int → Word} {memory : Word → BitVec 8} {i : BitVec 16} {w : Word}
    {position value : Operation}
    (atPosition : (position.code c).Leaves frame memory [] (some (i.signExtend 32)))
    (hasValue : (value.code c).Leaves frame memory [] (some w)) :
    ((storeTree array type position value).code c).fault = none ∧ ∃ after : Word → BitVec 8,
      (∀ stack, run ((storeTree array type position value).code c).instrs ⟨stack, frame, memory⟩ =
        some ⟨stack, frame, after⟩) ∧
      ∀ (j : BitVec 16) (p q : Operation),
        (p.code c).Leaves frame memory [] (some (j.signExtend 32)) →
        (q.code c).Leaves frame after [] (some (j.signExtend 32)) →
        ∃ old, ((elementTree array type p).code c).Leaves frame memory [] (some old) ∧
          ((elementTree array type q).code c).Leaves frame after []
            (some (if j = i then type.reduce w else old)) := by
  obtain ⟨whole, stored⟩ := run_storeTree named declared atPosition hasValue
  refine ⟨whole, _, stored, fun j p q before later => ?_⟩
  refine ⟨_, run_elementTree named declared before, ?_⟩
  rw [← type.element_write]
  exact run_elementTree named declared later

/-- The `int` array at 100, whose first element is -1, is assigned 70000 at position 1: there 4464
is read, and the first element is still -1. -/
theorem truncated_element_read :
    let c : CodeContext := ⟨arrayFrame, []⟩
    let number (text : String) : Operation := (Formula.literal .dec text .int).tree
    ∃ after : Word → BitVec 8,
      run ((storeTree "a" .int (number "1") (number "70000")).code c).instrs arrayState =
        some { arrayState with memory := after } ∧
      run ((elementTree "a" .int (number "1")).code c).instrs { arrayState with memory := after } =
        some (push 4464 { arrayState with memory := after }) ∧
      run ((elementTree "a" .int (number "0")).code c).instrs { arrayState with memory := after } =
        some (push 0xFFFFFFFF { arrayState with memory := after }) := by
  intro c number
  have leaves (text : String) (spells : LiteralKind.dec.Spells text)
      (convertible : LiteralKind.dec.Convertible text) (memory : Word → BitVec 8) :
      ((number text).code c).Leaves arrayState.frame memory []
        (some (BitVec.ofNat 32 (LiteralKind.dec.value text))) :=
    Formula.leaves_literal spells (.inr ⟨rfl, convertible⟩) .int
  have zero := leaves "0" ⟨'0', [], rfl, List.all_eq_true.mp (by decide)⟩ (by decide +kernel)
  have one := leaves "1" ⟨'1', [], rfl, List.all_eq_true.mp (by decide)⟩ (by decide +kernel)
  have many := leaves "70000"
    ⟨'7', ['0', '0', '0', '0'], rfl, List.all_eq_true.mp (by decide)⟩ (by decide +kernel)
  have named : IsName "a" := by decide +kernel
  have declared : c.frame.slot? "a" = some ⟨some (VarType.array .int).name, 8⟩ := by decide +kernel
  obtain ⟨-, after, stored, read⟩ := stored_element_read named declared (i := 1)
    (one arrayState.memory) (many arrayState.memory)
  obtain ⟨_, -, new⟩ := read 1 _ _ (one _) (one after)
  obtain ⟨old, before, kept⟩ := read 0 _ _ (zero _) (zero after)
  have first : Scalar.int.element arrayState.memory 100 0 = 0xFFFFFFFF := by decide +kernel
  have isOld : old = 0xFFFFFFFF := by
    have same := (before.run []).symm.trans ((run_elementTree named declared (zero _)).run [])
    simpa using (congrArg (Option.map Machine.stack) same).trans (congrArg (some [·]) first)
  exact ⟨after, stored [7], new.run [7], isOld ▸ kept.run [7]⟩

end MethodLang
