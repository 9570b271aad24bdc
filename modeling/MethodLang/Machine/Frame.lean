import MethodLang.Typing.Declaration

/-!
Frames. The base pointer of a running function has its variables below it, a word each, and its
arguments above the two words that a call pushes; the first argument stands highest.
-/
namespace MethodLang

/-- A word of the frame, and the type of what it holds. -/
structure Slot where
  type : Option TypeName
  offset : Int
  deriving DecidableEq, Repr, Inhabited

structure Frame where
  locals : List (String × Slot)
  params : List (String × Slot)
  deriving DecidableEq, Repr, Inhabited

namespace Frame

def wordSize : Nat := 4

/-- Of several variables of one name the last counts. -/
def find? (slots : List (String × Slot)) (name : String) : Option Slot := slots.reverse.lookup name

/-- A variable hides an argument of its name. -/
def slot? (f : Frame) (name : String) : Option Slot :=
  (find? f.locals name).or (find? f.params name)

def localOffset (i : Nat) : Int := -(wordSize * (i + 1) : Nat)

def paramOffset (count i : Nat) : Int := (wordSize * (count - i + 1) : Nat)

def place (offset : Nat → Int) (names : TypeTable) : List (String × Slot) :=
  names.zipIdx.map fun ((name, type), i) => (name, ⟨type, offset i⟩)

def ofMethod (params vars : TypeTable) : Frame :=
  ⟨place localOffset vars, place (paramOffset params.length) params⟩

/-- Where a function leaves its result: the word of its last argument, or of a placeholder. -/
def resultOffset : Int := 8

theorem paramOffset_last (n : Nat) : paramOffset (n + 1) n = resultOffset := by
  simp [paramOffset, wordSize, resultOffset]

end Frame

end MethodLang
