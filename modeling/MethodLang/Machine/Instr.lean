/-!
Instructions of the target: a machine with a stack of 32-bit words, a base pointer into it that
marks the frame of the running function, and a heap of bytes that only grows.
-/
namespace MethodLang

/-- Instructions that take two words and leave one. Comparisons come signed and unsigned. -/
inductive BinaryInstr where
  | add | sub | mul | div | mod
  | shl | shr | bor | band | bxor
  | lor | land
  | eq | ne | gt | lt | ge | le
  | gtUnsigned | ltUnsigned | geUnsigned | leUnsigned
  deriving DecidableEq, Repr

def BinaryInstr.text : BinaryInstr → String
  | .add => "add" | .sub => "sub" | .mul => "mul" | .div => "div" | .mod => "mod"
  | .shl => "shl" | .shr => "shr" | .bor => "bor" | .band => "band" | .bxor => "bxor"
  | .lor => "lor" | .land => "land"
  | .eq => "eq" | .ne => "ne" | .gt => "gt" | .lt => "lt" | .ge => "ge" | .le => "le"
  | .gtUnsigned => "gt_u" | .ltUnsigned => "lt_u" | .geUnsigned => "ge_u" | .leUnsigned => "le_u"

/-- Instructions that change the word on top. -/
inductive UnaryInstr where
  | not | complement
  deriving DecidableEq, Repr

def UnaryInstr.text : UnaryInstr → String
  | .not => "not_u"
  | .complement => "bnot_u"

/-- How many bytes a memory access moves. -/
inductive Width where
  | byte | half | word
  deriving DecidableEq, Repr

namespace Width

def text : Width → String
  | .byte => "1"
  | .half => "2"
  | .word => ""

/-- The width of an element, doubled this many times from one byte. -/
def shift : Width → Nat
  | .byte => 0
  | .half => 1
  | .word => 2

end Width

/-- What cannot be told of an unknown type is written so. -/
def unknownText : String := "None"

/-- A number as it is written: in decimal, or in hexadecimal with a least number of digits. -/
inductive Operand where
  | decimal (n : Int)
  | hex (digits : Nat) (n : Nat)
  | unknown
  deriving DecidableEq, Repr

def hexText (digits n : Nat) : String :=
  let text := (Nat.toDigits 16 n).map Char.toUpper
  "0x" ++ String.ofList (List.replicate (digits - text.length) '0' ++ text)

def Operand.text : Operand → String
  | .decimal n => toString n
  | .hex digits n => hexText digits n
  | .unknown => unknownText

/-- A place inside the running function. -/
inductive Target where
  | block (id : Int)
  | exit
  deriving DecidableEq, Repr

def Target.text : Target → String
  | .block id => ".id" ++ toString id
  | .exit => ".out"

inductive Instr where
  | push (value : Operand)
  | binary (op : BinaryInstr)
  | unary (op : UnaryInstr)
  | dup | drop | swap
  /-- Pushes the frame's word at an offset from the base pointer. -/
  | loadFrame (offset : Int)
  /-- Pops a word into the frame. -/
  | storeFrame (offset : Int)
  /-- Replaces an address by what memory holds there; the width is missing for an unknown type. -/
  | load (width : Option Width)
  /-- Pops a word and stores it at the address below it. -/
  | store (width : Option Width)
  | call (function : String)
  | ret
  | jump (target : Target)
  /-- Pops a word and jumps unless it is zero. -/
  | jumpIf (target : Target)
  | readByte | sendByte
  /-- Pushes the end of the heap. -/
  | pushHeap
  /-- Pops a number of bytes and moves the end of the heap by it. -/
  | growHeap
  | setStack (address : Nat)
  | setHeap (address : Nat)
  | setBase
  | halt
  deriving DecidableEq, Repr

namespace Instr

def widthText : Option Width → String
  | some width => width.text
  | none => unknownText

def text : Instr → String
  | .push value => "push " ++ value.text
  | .binary op => op.text
  | .unary op => op.text
  | .dup => "dup"
  | .drop => "drop"
  | .swap => "swap"
  | .loadFrame offset => "ldbp " ++ toString offset
  | .storeFrame offset => "stbp " ++ toString offset
  | .load width => "load" ++ widthText width
  | .store width => "store" ++ widthText width
  | .call function => "call " ++ function
  | .ret => "ret"
  | .jump target => "jmp " ++ target.text
  | .jumpIf target => "jnz " ++ target.text
  | .readByte => "inb"
  | .sendByte => "outb"
  | .pushHeap => "pushhp"
  | .growHeap => "addhp"
  | .setStack address => "ldsp " ++ hexText 4 address
  | .setHeap address => "ldhp " ++ hexText 4 address
  | .setBase => "setbp"
  | .halt => "hlt"

end Instr

example : (Instr.push (.hex 2 255)).text = "push 0xFF" := by decide +kernel
example : (Instr.setHeap 0).text = "ldhp 0x0000" := by decide +kernel
example : (Instr.loadFrame (-4)).text = "ldbp -4" := by decide +kernel

end MethodLang
