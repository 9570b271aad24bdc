import MethodLang.Builtin
import MethodLang.Machine.Line

/-!
The start of every program and the code of the builtins. A builtin finds its last argument where
it leaves its result. Remarks of one function stand in one column.
-/
namespace MethodLang

namespace Library

/-- A function whose remarks stand in a column behind a head and indented instructions. -/
structure Routine where
  name : String
  column : Nat
  indent : Nat
  /-- The remark beside the name, if there is one. -/
  about : Option String
  /-- Remarks in front of the instructions. -/
  notes : List String
  /-- Instructions, with their remarks. -/
  body : List (Instr × Option String)
  deriving Repr

namespace Routine

def line (r : Routine) (i : Instr) (remark : Option String) : Line :=
  match remark with
  | some text => Line.aligned r.column r.indent (.instr i) text
  | none => ⟨r.indent, .instr i, none⟩

def head (r : Routine) : Line :=
  match r.about with
  | some text => Line.aligned r.column 0 (.function r.name) text
  | none => .function r.name

def lines (r : Routine) : List Line :=
  .blank :: r.head :: r.notes.map (fun text => ⟨r.indent, .empty, some (0, text)⟩) ++
    r.body.map fun (i, remark) => r.line i remark

def instrs (r : Routine) : List Instr := r.body.map (·.1)

end Routine

def readByte : Routine where
  name := "read_byte"
  column := 16
  indent := 4
  about := some "Builtin function: read_byte()"
  notes := []
  body := [
    (.readByte, some "read in byte"),
    (.storeFrame 8, some "store at bp + 8"),
    (.ret, none)]

def sendByte : Routine where
  name := "send_byte"
  column := 16
  indent := 4
  about := some "Builtin function: send_byte(b: byte)"
  notes := []
  body := [
    (.loadFrame 8, some "load bp + 8"),
    (.sendByte, some "send byte"),
    (.ret, none)]

/-- Takes a length and the width of an element; leaves the old end of the heap. -/
def alloc : Routine where
  name := "alloc"
  column := 19
  indent := 5
  about := none
  notes := ["frame layout: [bp] saved bp, [bp+4] return, [bp+8] size_shift, [bp+12] len"]
  body := [
    (.loadFrame 12, some "push len"),
    (.loadFrame 8, some "push size_shift"),
    (.binary .shl, some "total_bytes = len << size_shift"),
    (.pushHeap, some "old hp -> will be return value"),
    (.storeFrame 8, some "store return value at [bp+8], pop old hp"),
    (.growHeap, some "hp = hp + total_bytes, pop total"),
    (.ret, none)]

/-- The constructor of arrays whose elements take `2 ^ shift` bytes. -/
def arrayOf (type : String) (shift : Int) : Routine where
  name := type
  column := 24
  indent := 5
  about := some ("Builtin constructor: " ++ type ++ "(size) -> array[] of " ++ type)
  notes := []
  body := [
    (.loadFrame 8, some "load len (size of array) from [bp+8] and push to stack"),
    (.push (.decimal shift), some "push size_shift to stack"),
    (.call "alloc", some "alloc(size_shift, len) -> result on TOS after ret"),
    (.storeFrame 8, some "store result at [bp+8] and pop"),
    (.ret, none)]

/-- A conversion of the word at the result's place. -/
def conversion (c : Builtin.Conversion) (body : List (Instr × Option String)) : Routine where
  name := c.name
  column := 17
  indent := 4
  about := some ("Builtin function: " ++ c.name ++ "(" ++ c.parameter ++ ": " ++ c.source ++ ") -> " ++
    c.target)
  notes := []
  body := body

/-- A conversion that leaves the word as it is. -/
def keep (why : String) : List (Instr × Option String) :=
  [(.ret, some ("value already at [bp+8], " ++ why))]

def unchanged : List (Instr × Option String) := keep "no conversion needed"

/-- A conversion that changes the word. -/
def change (source : String) (steps : List (Instr × Option String)) :
    List (Instr × Option String) :=
  (.loadFrame 8, some ("load " ++ source ++ " value from [bp+8]")) :: steps ++
    [(.storeFrame 8, some "store result at [bp+8]"), (.ret, none)]

def boolToByte : Routine := conversion ⟨"bool", "byte", "b"⟩ unchanged

def byteToBool : Routine := conversion ⟨"byte", "bool", "b"⟩ unchanged

def byteToInt : Routine := conversion ⟨"byte", "int", "b"⟩ (keep "already zero-extended to 32 bits")

def intToByte : Routine :=
  conversion ⟨"int", "byte", "i"⟩ (change "int" [
    (.push (.hex 2 0xFF), some "mask for byte (8 bits)"),
    (.binary .band, some "apply mask")])

def intToUint : Routine := conversion ⟨"int", "uint", "i"⟩ unchanged

def uintToInt : Routine := conversion ⟨"uint", "int", "u"⟩ unchanged

def intToLong : Routine :=
  conversion ⟨"int", "long", "i"⟩ (change "int" [
    (.push (.hex 4 0xFFFF), some "mask to get only lower 16 bits"),
    (.binary .band, some "keep only lower 16 bits (clears upper 16 bits)"),
    (.push (.hex 4 0x8000), some "sign bit mask"),
    (.binary .bxor, some "flip sign bit: (x ^ 0x8000)"),
    (.push (.hex 4 0x8000), some "prepare for subtraction"),
    (.binary .sub, some "(x ^ 0x8000) - 0x8000 (sign extend 16->32)")])

def longToInt : Routine :=
  conversion ⟨"long", "int", "l"⟩ (change "long" [
    (.push (.hex 4 0xFFFF), some "mask for int (16 bits)"),
    (.binary .band, some "apply mask to get lower 16 bits")])

def longToUlong : Routine := conversion ⟨"long", "ulong", "l"⟩ unchanged

def ulongToLong : Routine := conversion ⟨"ulong", "long", "u"⟩ unchanged

/-- All builtins, in the order in which a program holds them. -/
def routines : List Routine := [
  readByte, sendByte, alloc,
  arrayOf "bool" 0, arrayOf "byte" 0, arrayOf "int" 1, arrayOf "uint" 1,
  arrayOf "long" 2, arrayOf "ulong" 2, arrayOf "char" 0,
  boolToByte, byteToBool, byteToInt, intToByte, intToUint, uintToInt,
  intToLong, longToInt, longToUlong, ulongToLong]

/-- Sets the machine up and runs `main`. -/
def start : List Line := [
  ⟨0, .codeSection, none⟩,
  .aligned 17 0 (.instr (.setStack 0xFFFC)) "even-aligned stack top",
  .aligned 17 0 (.instr (.setHeap 0x0000)) "init heap base",
  .aligned 17 0 (.instr .setBase) "establish caller bp before first call",
  ⟨0, .instr (.call "main"), none⟩,
  ⟨0, .instr .halt, none⟩]

def opening : List Line := start ++ routines.flatMap Routine.lines

theorem routines_names : ∀ n, n ∈ routines.map Routine.name ↔ n ∈ Builtin.names := by
  have forth : ∀ n ∈ routines.map Routine.name, n ∈ Builtin.names := by decide +kernel
  have back : ∀ n ∈ Builtin.names, n ∈ routines.map Routine.name := by decide +kernel
  exact fun n => ⟨forth n, back n⟩

end Library

end MethodLang
