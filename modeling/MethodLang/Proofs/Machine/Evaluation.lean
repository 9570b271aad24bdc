import MethodLang.Proofs.Machine.Numeral
import MethodLang.Proofs.Machine.Reading
import MethodLang.Proofs.Machine.Word

/-!
The code of an expression computes its value. Expressions without calls are evaluated by their
types, and the code of each leaves that value on the stack, whatever lies below. The argument runs
over fragments of code that take a few words and leave one.
-/
namespace MethodLang

open Machine

/-! ### Types -/

/-- A type of single values. -/
inductive Scalar where
  | bool | byte | int | uint | long | ulong
  deriving DecidableEq, Repr

namespace Scalar

def name : Scalar → TypeName
  | .bool => "bool"
  | .byte => "byte"
  | .int => "int"
  | .uint => "uint"
  | .long => "long"
  | .ulong => "ulong"

def width : Scalar → Width
  | .bool | .byte => .byte
  | .int | .uint => .half
  | .long | .ulong => .word

/-- The value of the type with the same low bits. -/
def reduce (w : Word) : Scalar → Word
  | .bool | .byte => (w.setWidth 8).setWidth 32
  | .int => (w.setWidth 16).signExtend 32
  | .uint => (w.setWidth 16).setWidth 32
  | .long | .ulong => w

/-- The element of an array at a position. -/
def element (memory : Word → BitVec 8) (array position : Word) (s : Scalar) : Word :=
  s.reduce (s.width.read memory (array + position * BitVec.ofNat 32 s.width.bytes))

/-- The instructions that bring a word into the form of the type. -/
def narrowing : Scalar → List Instr
  | .bool | .byte => [.push (.decimal 0xFF), .binary .band]
  | .uint => [.push (.decimal 0xFFFF), .binary .band]
  | .int => [.push (.decimal 0xFFFF), .binary .band, .push (.hex 4 0x8000), .binary .bxor,
      .push (.hex 4 0x8000), .binary .sub]
  | .long | .ulong => []

theorem instrs_narrow (s : Scalar) : Line.instrs (Line.narrow s.name) = s.narrowing := by
  cases s <;> decide +kernel

theorem ofType?_name (s : Scalar) : Width.ofType? s.name = some s.width := by
  cases s <;> decide

end Scalar

/-- The type of a variable. -/
inductive VarType where
  | single (s : Scalar)
  | array (element : Scalar)
  deriving DecidableEq, Repr

namespace VarType

def name : VarType → TypeName
  | .single s => s.name
  | .array element => "array[] of " ++ element.name

/-- Values of the type are compared as natural numbers. -/
def isUnsigned : VarType → Bool
  | .single .uint | .single .ulong | .single .byte => true
  | _ => false

theorem isUnsigned_name (h : VarType) : TypeName.isUnsigned h.name = h.isUnsigned := by
  cases h with
  | single s => cases s <;> decide +kernel
  | array s => cases s <;> decide +kernel

end VarType

/-! ### Expressions -/

/-- An expression without calls, with its types. -/
inductive Formula where
  | literal (kind : LiteralKind) (text : String) (type : Scalar)
  /-- A variable, which in front of an index is written with brackets. -/
  | load (name : String) (brackets : Bool) (type : VarType)
  | index (base position : Formula) (type : Scalar)
  | binary (op : Operator) (left right : Formula) (type : Scalar)
  | unary (op : UnaryOp) (operand : Formula) (type : Scalar)

namespace Formula

def type : Formula → VarType
  | .load _ _ type => type
  | .literal _ _ type | .index _ _ type | .binary _ _ _ type | .unary _ _ type => .single type

def label : Formula → String
  | .literal kind text _ => "const(" ++ kind.name ++ "(" ++ text ++ "))"
  | .load name brackets _ => "load(" ++ (if brackets then name ++ "[]" else name) ++ ")"
  | .index _ _ _ => "index"
  | .binary op _ _ _ => op.1.text
  | .unary op _ _ => op.text

def tree (x : Formula) : Operation :=
  .node x.label (some x.type.name)
    (match x with
    | .literal _ _ _ | .load _ _ _ => []
    | .index base position _ => [base.tree, position.tree]
    | .binary _ left right _ => [left.tree, right.tree]
    | .unary _ operand _ => [operand.tree])

@[simp] theorem note_tree (x : Formula) : x.tree.note = some x.type.name := by
  cases x <;> rw [tree] <;> rfl

/-- The literals are numbers that can be written and truth values, and all variables are in the
frame. -/
def Ready (frame : Frame) : Formula → Prop
  | .literal kind text _ => kind.Spells text ∧ (kind = .bool ∨ kind.isNumber ∧ kind.Convertible text)
  | .load name _ _ => IsName name ∧ (frame.slot? name).isSome
  | .index base position _ => base.Ready frame ∧ position.Ready frame
  | .binary _ left right _ => left.Ready frame ∧ right.Ready frame
  | .unary _ operand _ => operand.Ready frame

/-- The value of an expression, from left to right; there is none if a divisor is zero. -/
def value? (vars : String → Word) (memory : Word → BitVec 8) : Formula → Option Word
  | .literal kind text _ =>
    some (if kind = .bool then ofBool (text = "true") else BitVec.ofNat 32 (kind.value text))
  | .load name _ _ => some (vars name)
  | .index base position type => do
    let a ← base.value? vars memory
    let i ← position.value? vars memory
    some (type.element memory a i)
  | .binary op left right type => do
    let a ← left.value? vars memory
    let b ← right.value? vars memory
    let w ← op.1.value? left.type.isUnsigned a b
    some (if op.1.reduces then type.reduce w else w)
  | .unary .not operand _ => do
    let a ← operand.value? vars memory
    some (ofBool (a = 0))
  | .unary .invert operand type => do
    let a ← operand.value? vars memory
    some (type.reduce (~~~a))

end Formula

/-! ### Fragments -/

namespace Code

theorem instrs_append {a : Code} (whole : a.fault = none) (b : Code) :
    (a ++ b).instrs = a.instrs ++ b.instrs := by
  rw [append_def, append, whole]
  exact List.filterMap_append

theorem fault_append {a : Code} (whole : a.fault = none) (b : Code) :
    (a ++ b).fault = b.fault := by
  rw [append_def, append, whole]

/-- The code takes some words from the stack and leaves one; it reads nothing below them and
changes neither frame nor memory. Without a value the machine stops. -/
structure Leaves (frame : Int → Word) (memory : Word → BitVec 8) (code : Code) (taken : List Word)
    (value : Option Word) : Prop where
  whole : code.fault = none
  run (stack : List Word) : Machine.run code.instrs ⟨taken ++ stack, frame, memory⟩ =
    value.map fun w => ⟨w :: stack, frame, memory⟩

section
variable {frame : Int → Word} {memory : Word → BitVec 8}

/-- What one fragment leaves is the first word that the next takes. -/
theorem Leaves.andThen {a b : Code} {t u : List Word} {v : Option Word} {r : Word → Option Word}
    (first : a.Leaves frame memory t v) (next : ∀ w, b.Leaves frame memory (w :: u) (r w)) :
    (a ++ b).Leaves frame memory (t ++ u) (v.bind r) where
  whole := by rw [fault_append first.whole, (next 0).whole]
  run stack := by
    rw [instrs_append first.whole, run_append, List.append_assoc, first.run]
    cases v with
    | none => rfl
    | some w => exact (next w).run stack

theorem leaves_nothing (w : Word) : nothing.Leaves frame memory [w] (some w) where
  whole := rfl
  run _ := rfl

theorem leaves_binary (i : BinaryInstr) (a b : Word) :
    (instr (.binary i)).Leaves frame memory [b, a] (i.result a b) where
  whole := rfl
  run stack := by
    cases result : i.result a b <;> simp [instr, write, instrs, Line.instrs, Line.instr?, Line.code, Machine.run, step, result]

theorem leaves_unary (i : UnaryInstr) (a : Word) :
    (instr (.unary i)).Leaves frame memory [a] (some (i.result a)) where
  whole := rfl
  run _ := rfl

theorem leaves_extendSign (x : BitVec 16) :
    (write Line.extendSign).Leaves frame memory [x.setWidth 32] (some (x.signExtend 32)) where
  whole := rfl
  run stack := by
    rw [← flip_sub]
    rfl

/-- A word of a narrow type is cut to its bits, an `int` then extended by its sign. -/
theorem leaves_narrow (s : Scalar) (w : Word) :
    (narrow (some s.name)).Leaves frame memory [w] (some (s.reduce w)) where
  whole := rfl
  run stack := by
    have instrs : (narrow (some s.name)).instrs = s.narrowing := by
      rw [narrow, Code.instrs, write, s.instrs_narrow]
    have byte := and_eq_setWidth w (n := 8) (by decide)
    have half := and_eq_setWidth w (n := 16) (by decide)
    rw [instrs]
    cases s with
    | bool | byte => exact congrArg (fun v => some (Machine.mk (v :: stack) frame memory)) byte
    | uint => exact congrArg (fun v => some (Machine.mk (v :: stack) frame memory)) half
    | int =>
      have extended : ((w &&& BitVec.ofNat 32 (2 ^ 16 - 1)) ^^^ 0x8000) - 0x8000 =
          (w.setWidth 16).signExtend 32 := by rw [half, flip_sub]
      exact congrArg (fun v => some (Machine.mk (v :: stack) frame memory)) extended
    | long | ulong => rfl

/-- The address of the element at a position. -/
theorem leaves_scale (width : Width) (a i : Word) :
    (write (Line.scale (some width)) ++ instr (.binary .add)).Leaves frame memory [i, a]
      (some (a + i * BitVec.ofNat 32 width.bytes)) where
  whole := by cases width <;> rfl
  run stack := by
    cases width with
    | byte => simp [Width.bytes]; rfl
    | half =>
      have double : i * BitVec.ofNat 32 2 = i <<< 1 := (BitVec.shiftLeft_eq_mul_twoPow i 1).symm
      rw [Width.bytes, double]
      rfl
    | word =>
      have double : i * BitVec.ofNat 32 4 = i <<< 2 := (BitVec.shiftLeft_eq_mul_twoPow i 2).symm
      rw [Width.bytes, double]
      rfl

/-- An element is read with zeros above it; only an `int` has a sign to extend. -/
theorem leaves_load (s : Scalar) (a : Word) :
    (instr (.load (some s.width)) ++
      write (if some s.name = some "int" then Line.extendSign else [])).Leaves frame memory [a]
      (some (s.reduce (s.width.read memory a))) where
  whole := rfl
  run stack := by
    have back {n : Nat} (x : BitVec n) (narrow : n ≤ 32) : (x.setWidth 32).setWidth n = x := by
      rw [BitVec.setWidth_setWidth_of_le x narrow, BitVec.setWidth_eq]
    cases s with
    | bool | byte | uint =>
      rw [Scalar.reduce, Scalar.width, Width.read, back _ (by decide)]
      rfl
    | int =>
      rw [Scalar.reduce, Scalar.width, Width.read, back _ (by decide)]
      exact leaves_extendSign _ |>.run stack
    | long | ulong => rfl

variable {a b : Code} {v w : Option Word} (first : a.Leaves frame memory [] v)
include first

theorem Leaves.index (second : b.Leaves frame memory [] w) (type : Scalar) :
    (Code.index (some type.name) a b).Leaves frame memory []
      (v.bind fun a => w.bind fun i => some (type.element memory a i)) := by
  have width : (some type.name >>= Width.ofType?) = some type.width := type.ofType?_name
  have code : Code.index (some type.name) a b = a ++ (b ++
      ((write (Line.scale type.width) ++ instr (.binary .add)) ++
        (instr (.load type.width) ++
          write (if some type.name = some "int" then Line.extendSign else [])))) := by
    simp only [Code.index, width, append_assoc]
  rw [code]
  refine first.andThen (u := []) fun a => second.andThen (u := [a]) fun i => ?_
  exact (leaves_scale type.width a i).andThen (u := []) (leaves_load type)

theorem Leaves.binary (second : b.Leaves frame memory [] w) (op : Operator)
    (left : VarType) (type : Scalar) :
    (Code.binary op.1.text (some left.name) (some type.name) a b).Leaves frame memory []
      (v.bind fun a => w.bind fun b => (op.1.value? left.isUnsigned a b).bind
        fun w => some (if op.1.reduces then type.reduce w else w)) := by
  have reduced (w : Word) : (if op.1.reduces then narrow (some type.name) else nothing).Leaves
      frame memory [w] (some (if op.1.reduces then type.reduce w else w)) := by
    split
    · exact leaves_narrow type w
    · exact leaves_nothing w
  simp only [Code.binary, Option.any_some, left.isUnsigned_name, op.ofOperator?_text,
    op.isArithmetic_instr, append_assoc]
  refine first.andThen (u := []) fun a => second.andThen (u := [a]) fun b => ?_
  rw [← op.result_instr]
  exact (leaves_binary _ a b).andThen (u := []) reduced

theorem Leaves.not (type : Scalar) : (unary UnaryOp.not.text (some type.name) a).Leaves frame memory []
    (v.bind fun a => some (ofBool (a = 0))) :=
  first.andThen (u := []) (leaves_unary .not)

theorem Leaves.invert (type : Scalar) :
    (unary UnaryOp.invert.text (some type.name) a).Leaves frame memory []
      (v.bind fun a => some (type.reduce (~~~a))) :=
  first.andThen (u := []) fun a => (leaves_unary .complement a).andThen (u := []) (leaves_narrow type)

end

end Code

/-! ### Expressions -/

/-- The words of the variables. -/
def Frame.words (f : Frame) (frame : Int → Word) (name : String) : Word :=
  ((f.slot? name).map fun slot => frame slot.offset).getD 0

namespace Formula

variable {c : CodeContext} {frame : Int → Word} {memory : Word → BitVec 8}

theorem leaves_literal {kind : LiteralKind} {text : String} (spells : kind.Spells text)
    (simple : kind = .bool ∨ kind.isNumber ∧ kind.Convertible text) (type : Scalar) :
    ((literal kind text type).tree.code c).Leaves frame memory []
      ((literal kind text type).value? (c.frame.words frame) memory) := by
  have code : (literal kind text type).tree.code c = Literal.code kind.name text :=
    Operation.code_literal (Action.ofLabel?_simple (simple.imp id (·.1)) spells)
  rw [code]
  rcases simple with rfl | ⟨number, convertible⟩
  · rcases spells with rfl | rfl <;> exact ⟨rfl, fun _ => rfl⟩
  · have other : kind ≠ .bool := by
      rintro rfl
      cases number
    rw [Literal.code_number number spells, if_pos convertible, value?, if_neg other]
    exact ⟨rfl, fun _ => rfl⟩

theorem leaves_load {name : String} (named : IsName name) (known : (c.frame.slot? name).isSome)
    (brackets : Bool) (type : VarType) :
    ((load name brackets type).tree.code c).Leaves frame memory []
      ((load name brackets type).value? (c.frame.words frame) memory) := by
  obtain ⟨slot, found⟩ := Option.isSome_iff_exists.mp known
  have read : Action.ofLabel? (load name brackets type).label = some (.load name) := by
    cases brackets with
    | false => exact Action.ofLabel?_load named
    | true => exact Action.ofLabel?_loadArray named
  have code : (load name brackets type).tree.code c = Code.instr (.loadFrame slot.offset) := by
    rw [tree, Operation.code_load read, Code.withSlot, found]
  have word : c.frame.words frame name = frame slot.offset := by
    rw [Frame.words, found]
    rfl
  rw [code, value?, word]
  exact ⟨rfl, fun _ => rfl⟩

/-- The code of an expression leaves its value. -/
theorem leaves (x : Formula) (ready : x.Ready c.frame) :
    (x.tree.code c).Leaves frame memory [] (x.value? (c.frame.words frame) memory) := by
  induction x with
  | literal kind text type => exact leaves_literal ready.1 ready.2 type
  | load name brackets type => exact leaves_load ready.1 ready.2 brackets type
  | index base position type baseLeaves positionLeaves =>
    rw [tree, label, Operation.code_index Action.ofLabel?_index]
    exact (baseLeaves ready.1).index (positionLeaves ready.2) type
  | binary op left right type leftLeaves rightLeaves =>
    rw [tree, label, Operation.code_binary (Action.ofLabel?_binary op), note_tree]
    exact (leftLeaves ready.1).binary (rightLeaves ready.2) op left.type type
  | unary op operand type operandLeaves =>
    rw [tree, label, Operation.code_unary (Action.ofLabel?_unary op)]
    cases op with
    | not => exact (operandLeaves ready).not type
    | invert => exact (operandLeaves ready).invert type

end Formula

/-- The code of an expression, run from any state, pushes the expression's value and changes
nothing else; it stops only where a divisor is zero. -/
theorem expression_code_computes {c : CodeContext} {x : Formula} (ready : x.Ready c.frame) :
    (x.tree.code c).fault = none ∧ ∀ m : Machine, run (x.tree.code c).instrs m =
      (x.value? (c.frame.words m.frame) m.memory).map (push · m) := by
  have leaves (m : Machine) : (x.tree.code c).Leaves m.frame m.memory []
      (x.value? (c.frame.words m.frame) m.memory) := x.leaves ready
  exact ⟨(leaves ⟨[], fun _ => 0, fun _ => 0⟩).whole, fun m => (leaves m).run m.stack⟩

/-- An `int` array `a` as argument and an `int` variable `i`. -/
def arrayFrame : Frame :=
  Frame.ofMethod [("a", some "array[] of int")] [("i", some "int")]

/-- The comparison `a[1] + i < 0x10`. -/
def elementSum : Formula :=
  .binary ⟨.lt, by decide⟩
    (.binary ⟨.add, by decide⟩
      (.index (.load "a" true (.array .int)) (.literal .dec "1" .int) .int)
      (.load "i" false (.single .int)) .int)
    (.literal .hex "0x10" .int) .bool

/-- The array is at 100 and its second element is -2; the variable is 3. -/
def arrayState : Machine where
  stack := [7]
  frame offset := if offset = -4 then 3 else 100
  memory address := if address = 102 then 0xFE else 0xFF

theorem element_sum_computes : elementSum.Ready arrayFrame ∧
    run (elementSum.tree.code ⟨arrayFrame, []⟩).instrs arrayState = some (push 1 arrayState) := by
  have ready : elementSum.Ready arrayFrame :=
    ⟨⟨⟨⟨by decide +kernel, by decide +kernel⟩,
        ⟨⟨'1', [], by decide, List.all_eq_true.mp (by decide)⟩, .inr ⟨rfl, by decide +kernel⟩⟩⟩,
        ⟨by decide +kernel, by decide +kernel⟩⟩,
      ⟨'x', '1', ['0'], .inl rfl, by decide, List.all_eq_true.mp (by decide)⟩, .inr ⟨rfl, by decide +kernel⟩⟩
  have value : elementSum.value? (arrayFrame.words arrayState.frame) arrayState.memory = some 1 := by
    decide +kernel
  refine ⟨ready, ((expression_code_computes ready).2 arrayState).trans ?_⟩
  rw [value]
  rfl

/-- A power of sixteen: `0x1` and zeros. -/
def hexPower (n : Nat) : String := String.ofList ('0' :: 'x' :: '1' :: List.replicate n '0')

theorem spells_hexPower (n : Nat) : LiteralKind.hex.Spells (hexPower n) := by
  refine ⟨'x', '1', List.replicate n '0', .inl rfl, String.toList_ofList, ?_⟩
  rw [List.forall_mem_cons]
  refine ⟨by decide, fun c inside => ?_⟩
  rw [List.eq_of_mem_replicate inside]
  decide

theorem value_hexPower (n : Nat) : LiteralKind.hex.value (hexPower n) = 16 ^ n := by
  rw [LiteralKind.value, LiteralKind.digits, hexPower, String.toList_ofList]
  exact (Text.valueOf_zeros 16 ['1'] n).trans (Nat.one_mul _)

/-- Decimal conversion limits numbers of any base. -/
theorem long_hex_refused : LiteralKind.hex.Spells (hexPower 3600) ∧
    ((Formula.literal .hex (hexPower 3600) .ulong).tree.code ⟨⟨[], []⟩, []⟩).fault =
      some .unreadableNumber := by
  have large : ¬ LiteralKind.hex.Convertible (hexPower 3600) := fun convertible =>
    absurd (value_hexPower 3600 ▸ convertible.2) (by decide +kernel)
  have code : (Formula.literal .hex (hexPower 3600) .ulong).tree.code ⟨⟨[], []⟩, []⟩ =
      Literal.code "hex" (hexPower 3600) :=
    Operation.code_literal (Action.ofLabel?_simple (.inr rfl) (spells_hexPower 3600))
  refine ⟨spells_hexPower 3600, ?_⟩
  rw [code, ← LiteralKind.name, Literal.code_number rfl (spells_hexPower 3600), if_neg large]
  rfl

end MethodLang
