import MethodLang.Fault
import MethodLang.Machine.Instr

/-!
Lines of an assembly file, and code that is written line by line until a fault stops it.
-/
namespace MethodLang

/-- What a line says to the assembler. -/
inductive Statement where
  | empty
  | codeSection
  | function (name : String)
  | place (target : Target)
  | instr (i : Instr)
  deriving DecidableEq, Repr

def Statement.text : Statement → String
  | .empty => ""
  | .codeSection => "[section code, code]"
  | .function name => name ++ ":"
  | .place target => target.text ++ ":"
  | .instr i => i.text

/-- A statement behind an indent, and a remark some blanks after it. -/
structure Line where
  indent : Nat
  statement : Statement
  remark : Option (Nat × String)
  deriving DecidableEq, Repr

namespace Line

def spaces (n : Nat) : String := String.ofList (List.replicate n ' ')

def text (l : Line) : String :=
  spaces l.indent ++ l.statement.text ++
    (match l.remark with
    | some (gap, remark) => spaces gap ++ "; " ++ remark
    | none => "")

def blank : Line := ⟨0, .empty, none⟩

def function (name : String) : Line := ⟨0, .function name, none⟩

def place (target : Target) : Line := ⟨0, .place target, none⟩

def code (i : Instr) : Line := ⟨4, .instr i, none⟩

/-- An instruction with a remark some blanks after it. -/
def noted (i : Instr) (gap : Nat) (remark : String) : Line := ⟨4, .instr i, some (gap, remark)⟩

/-- Moves the remark to a column; a longer statement has it directly behind. -/
def aligned (column : Nat) (indent : Nat) (s : Statement) (remark : String) : Line :=
  ⟨indent, s, some (column - (indent + s.text.length), remark)⟩

def instr? (l : Line) : Option Instr :=
  match l.statement with
  | .instr i => some i
  | _ => none

/-- The text of lines, each ended by a line feed. -/
def textOf (lines : List Line) : String := String.join (lines.map fun l => l.text ++ "\n")

/-- The instructions among lines. -/
def instrs (lines : List Line) : List Instr := lines.filterMap instr?

end Line

/-- The lines written, and the fault that stopped the writing. -/
structure Code where
  lines : List Line
  fault : Option Fault
  deriving Repr, Inhabited

namespace Code

def nothing : Code := ⟨[], none⟩

def write (lines : List Line) : Code := ⟨lines, none⟩

def stop (fault : Fault) : Code := ⟨[], some fault⟩

def instr (i : Instr) : Code := write [.code i]

/-- What follows a fault is not written. -/
def append (a b : Code) : Code :=
  match a.fault with
  | some fault => ⟨a.lines, some fault⟩
  | none => ⟨a.lines ++ b.lines, b.fault⟩

instance : Append Code := ⟨append⟩

def join (codes : List Code) : Code := codes.foldr (· ++ ·) nothing

def text (c : Code) : String := Line.textOf c.lines

def instrs (c : Code) : List Instr := Line.instrs c.lines

theorem append_def (a b : Code) : a ++ b = a.append b := rfl

@[simp] theorem nothing_append (a : Code) : nothing ++ a = a := rfl

@[simp] theorem append_nothing (a : Code) : a ++ nothing = a := by
  obtain ⟨lines, _ | fault⟩ := a <;> simp [append_def, append, nothing]

@[simp] theorem append_assoc (a b c : Code) : a ++ b ++ c = a ++ (b ++ c) := by
  obtain ⟨_, _ | _⟩ := a <;> obtain ⟨_, _ | _⟩ := b <;> simp [append_def, append]

@[simp] theorem join_cons (a : Code) (cs : List Code) : join (a :: cs) = a ++ join cs := rfl

@[simp] theorem write_append_write (a b : List Line) : write a ++ write b = write (a ++ b) := rfl

end Code

end MethodLang
