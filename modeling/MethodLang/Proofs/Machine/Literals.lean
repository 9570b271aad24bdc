import MethodLang.Proofs.Machine.Execution
import MethodLang.Proofs.Machine.Generation
import MethodLang.Proofs.Machine.Labels
import MethodLang.Proofs.Operation.Lowering

/-!
Literals in labels. A literal is written into the label of its leaf and read from there twice: by
the checker up to the last parentheses of the line, by the generator from the last opening
parenthesis. The generator reads it back just if it holds neither an opening parenthesis nor a line
feed, and then its code leaves one word (`literal_code_exact`).
-/
namespace MethodLang

open Machine

/-! ### The checker's reading -/

theorem LiteralKind.Spells.ne_nil {kind : LiteralKind} {text : String} (spells : kind.Spells text) :
    text.toList ≠ [] := by
  cases kind with
  | bool => rcases spells with rfl | rfl <;> decide
  | str =>
    obtain ⟨body, is⟩ := spells
    simp [is]
  | char =>
    obtain ⟨c, is⟩ := spells
    simp [is]
  | hex | bits =>
    obtain ⟨m, d, ds, -, is, -⟩ := spells
    simp [is]
  | dec =>
    obtain ⟨d, ds, is, -⟩ := spells
    simp [is]

/-- The checker reads a literal in one line back. -/
theorem Label.literal?_line (kind : LiteralKind) {text : String} (filled : text.toList ≠ [])
    (line : '\n' ∉ text.toList) :
    Label.literal? (Term.literal kind text).label = some (kind.name, text) := by
  have label : (Term.literal kind text).label = "const(" ++ (kind.name ++ ("(" ++ text ++ "))")) := by
    simp [Term.label, String.append_assoc]
  have each : ∀ c ∈ kind.name.toList, Text.isWord c = true :=
    List.all_eq_true.mp (by cases kind <;> decide)
  have stop : Text.isWord '(' = false := by decide
  have named : kind.name ≠ "" := by cases kind <;> decide
  have first : Text.firstLine (text.toList ++ [')', ')']) = text.toList ++ [')', ')'] :=
    Text.firstLine_eq_self (by simpa using line)
  have cut := Text.beforeLast?_append [')', ')'] filled
  have name (cs : List Char) :
      (kind.name.toList ++ '(' :: cs).takeWhile Text.isWord = kind.name.toList := by
    rw [List.takeWhile_append_of_pos each, List.takeWhile_cons_of_neg (by simp [stop]),
      List.append_nil]
  have rest (cs : List Char) :
      (kind.name.toList ++ '(' :: cs).dropWhile Text.isWord = '(' :: cs := by
    rw [List.dropWhile_append_of_pos each, List.dropWhile_cons_of_neg (by simp [stop])]
  have chars : (kind.name ++ ("(" ++ text ++ "))")).toList =
      kind.name.toList ++ '(' :: (text.toList ++ [')', ')']) := by simp
  rw [label, Label.literal?, Text.after?_append]
  simp only [Option.bind_eq_bind, Option.bind_some, chars, name, rest]
  simp [named, first, List.isPrefixOf?, cut]

/-! ### Running the code -/

/-- Runs instructions one after the other; what a called function does is given. -/
def Machine.runCalling (call : String → Machine → Option Machine) :
    List Instr → Machine → Option Machine
  | [], m => some m
  | .call function :: rest, m => (call function m).bind (runCalling call rest)
  | i :: rest, m => (step i m).bind (runCalling call rest)

namespace Literal

/-- Memory after characters were stored, each in the byte at its index behind the address. -/
def stored (memory : Word → BitVec 8) (address : Word) (cs : List (Char × Nat)) :
    Word → BitVec 8 :=
  cs.foldl (fun memory p =>
    Width.byte.write memory (address + BitVec.ofNat 32 p.2) (BitVec.ofNat 32 p.1.toNat)) memory

variable {call : String → Machine → Option Machine}

theorem run_pushed (n : Nat) (kind text : String) (rest : List Instr) (m : Machine) :
    runCalling call (Line.instrs [pushed n kind text] ++ rest) m =
      runCalling call rest (m.push (BitVec.ofNat 32 n)) := by
  rw [← BitVec.ofInt_natCast]
  rfl

/-- Storing a character leaves the address on the stack. -/
theorem run_storeChar (c : Char) (i : Nat) (rest : List Instr) (address : Word)
    (stack : List Word) (frame : Int → Word) (memory : Word → BitVec 8) :
    runCalling call (Line.instrs (storeChar c i) ++ rest) ⟨address :: stack, frame, memory⟩ =
      runCalling call rest ⟨address :: stack, frame, stored memory address [(c, i)]⟩ := by
  rw [stored, List.foldl_cons, List.foldl_nil, ← BitVec.ofInt_natCast, ← BitVec.ofInt_natCast]
  rfl

theorem run_storeChars (cs : List (Char × Nat)) (address : Word) (stack : List Word)
    (frame : Int → Word) (memory : Word → BitVec 8) :
    runCalling call (Line.instrs (cs.flatMap fun p => storeChar p.1 p.2))
        ⟨address :: stack, frame, memory⟩ =
      some ⟨address :: stack, frame, stored memory address cs⟩ := by
  induction cs generalizing memory with
  | nil => rfl
  | cons p cs ih =>
    rw [List.flatMap_cons, Line.instrs_append, run_storeChar, ih]
    rfl

/-- The code of a string: its length is pushed, the call gives an address, and the characters are
stored there. -/
theorem run_string (cs : List Char) (m : Machine) {address : Word} {frame : Int → Word}
    {memory : Word → BitVec 8}
    (called : call "byte" (m.push (BitVec.ofNat 32 cs.length)) =
      some ⟨address :: m.stack, frame, memory⟩) :
    runCalling call (Line.instrs (string cs)) m =
      some ⟨address :: m.stack, frame, stored memory address cs.zipIdx⟩ := by
  have split : Line.instrs (string cs) =
      Line.instrs [pushed cs.length "string" (String.ofList cs)] ++ Instr.call "byte" ::
        Line.instrs (cs.zipIdx.flatMap fun p => storeChar p.1 p.2) := rfl
  rw [split, run_pushed, runCalling, called, Option.bind_some, run_storeChars]

end Literal

namespace LiteralKind

/-- The word of a literal that is no string: a truth value, the code point between the quotes, or
the number. -/
def word (kind : LiteralKind) (text : String) : Nat :=
  match kind, text.toList with
  | .bool, _ => if text = "true" then 1 else 0
  | .char, [_, c, _] => c.toNat
  | kind, _ => kind.value text

/-- Running the code puts one word on the stack. For a string it is what the call of `byte` with the
length gives, and the characters are stored there. -/
def Pushes (kind : LiteralKind) (text : String) (code : List Instr) : Prop :=
  match kind with
  | .str => ∀ call m address frame memory,
      let cs := (text.toList.drop 1).dropLast
      call "byte" (Machine.push (BitVec.ofNat 32 cs.length) m) =
          some ⟨address :: m.stack, frame, memory⟩ →
        runCalling call code m =
          some ⟨address :: m.stack, frame, Literal.stored memory address cs.zipIdx⟩
  | kind => ∀ call m, runCalling call code m = some (m.push (BitVec.ofNat 32 (kind.word text)))

/-- The code of a literal that is read back. -/
theorem pushes_code {kind : LiteralKind} {text : String} (spells : kind.Spells text)
    (convertible : kind.isNumber → kind.Convertible text) :
    (Literal.code kind.name text).fault = none ∧
      kind.Pushes text (Literal.code kind.name text).instrs := by
  have single {n : Nat} {kind text : String} (call : String → Machine → Option Machine)
      (m : Machine) : runCalling call (Code.write [Literal.pushed n kind text]).instrs m =
        some (m.push (BitVec.ofNat 32 n)) := Literal.run_pushed n kind text [] m
  cases number : kind.isNumber with
  | true =>
    rw [Literal.code_number number spells, if_pos (convertible number)]
    refine ⟨rfl, ?_⟩
    cases kind with
    | bool | str | char => cases number
    | hex | bits | dec => exact single
  | false =>
    cases kind with
    | hex | bits | dec => cases number
    | bool => rcases spells with rfl | rfl <;> exact ⟨rfl, single⟩
    | str => exact ⟨rfl, fun call m address frame memory => Literal.run_string _ m⟩
    | char =>
      obtain ⟨c, is⟩ := spells
      have code : Literal.code LiteralKind.char.name text =
          .write [Literal.pushed c.toNat LiteralKind.char.name text] := by
        simp [Literal.code, LiteralKind.name, is]
      have word : LiteralKind.char.word text = c.toNat := by simp [LiteralKind.word, is]
      rw [code]
      refine ⟨rfl, fun call m => ?_⟩
      rw [word]
      exact single call m

end LiteralKind

/-! ### Literals of the language -/

/-- The generator reads a literal back just if nothing in it can be taken for a part of the
label. -/
theorem Action.ofLabel?_literal_iff (kind : LiteralKind) (text : String) :
    ofLabel? (Term.literal kind text).label = some (.literal kind.name text) ↔
      '\n' ∉ text.toList ∧ '(' ∉ text.toList := by
  have label : (Term.literal kind text).label = "const(" ++ (kind.name ++ "(" ++ text) ++ "))" := by
    simp [Term.label, String.append_assoc]
  have named : '\n' ∉ kind.name.toList ∧ '(' ∉ kind.name.toList := by cases kind <;> decide
  rw [label, ofLabel?_const]
  constructor
  · intro read
    have line : '\n' ∉ text.toList := by
      intro feed
      rw [literal?_feed (by simp [feed])] at read
      cases read
    refine ⟨line, fun nested => ?_⟩
    obtain ⟨other, rest, cut, paren⟩ := literal?_nested kind.name nested (by simp [named, line])
    rw [cut] at read
    cases read
    exact named.2 paren
  · rintro ⟨line, plain⟩
    rw [literal?_append kind.name plain (by simp [named, line])]
    rfl

/-- A literal in one line is read back by the checker. The generator reads it back just if it holds
no opening parenthesis either, and then its code pushes it, unless it is a number that cannot be
converted. With an opening parenthesis in it a literal has no code, with a line feed it is a
fault. -/
theorem literal_code_exact {kind : LiteralKind} {text : String} (spells : kind.Spells text)
    (c : CodeContext) : ∃ op, (Expr.literal kind text).operation = .ok op ∧
      ('\n' ∉ text.toList → Label.literal? op.label = some (kind.name, text)) ∧
      (Action.ofLabel? op.label = some (.literal kind.name text) ↔
        '\n' ∉ text.toList ∧ '(' ∉ text.toList) ∧
      (Action.ofLabel? op.label = some (.literal kind.name text) →
        (kind.isNumber → kind.Convertible text) →
          (op.code c).fault = none ∧ kind.Pushes text (op.code c).instrs) ∧
      (kind.isNumber → ¬ kind.Convertible text → op.code c = .stop .unreadableNumber) ∧
      ('\n' ∉ text.toList → '(' ∈ text.toList → op.code c = .nothing) ∧
      ('\n' ∈ text.toList → op.code c = .stop (.unknownOperation op.label)) := by
  have code : (Term.literal kind text).tree.code c = kind.code text :=
    Operation.code_writtenLiteral c none kind text
  have plain : '\n' ∉ text.toList → '(' ∉ text.toList →
      kind.code text = Literal.code kind.name text := fun line plain => by
    rw [LiteralKind.code, if_neg line, if_neg plain]
  refine ⟨_, Expr.operation_literal spells, Label.literal?_line kind spells.ne_nil,
    Action.ofLabel?_literal_iff kind text, fun read convertible => ?_, fun number long => ?_,
    fun line nested => ?_, fun feed => ?_⟩
  · obtain ⟨line, unnested⟩ := (Action.ofLabel?_literal_iff kind text).mp read
    rw [code, plain line unnested]
    exact LiteralKind.pushes_code spells convertible
  · obtain ⟨line, unnested⟩ := (Action.ofLabel?_literal_iff kind text).mp
      (Action.ofLabel?_simple (.inr number) spells)
    rw [code, plain line unnested, Literal.code_number number spells, if_neg long]
  · rw [code, LiteralKind.code, if_neg line, if_pos nested]
  · rw [code, LiteralKind.code, if_pos feed]
    rfl

/-- A string with closing parentheses in it is stored character by character. -/
theorem closing_parens_stored : ∃ op,
    (Expr.literal .str "\"a))\"").operation = .ok op ∧
      Action.ofLabel? op.label = some (.literal "str" "\"a))\"") ∧
      LiteralKind.Pushes .str "\"a))\"" (op.code ⟨⟨[], []⟩, []⟩).instrs := by
  have spells : LiteralKind.str.Spells "\"a))\"" := ⟨['a', ')', ')'], by decide⟩
  obtain ⟨op, lowered, -, read, pushed, -⟩ := literal_code_exact spells ⟨⟨[], []⟩, []⟩
  have isRead := read.mpr (by decide)
  exact ⟨op, lowered, isRead, (pushed isRead (by decide)).2⟩

/-- The checker reads an opening parenthesis between quotes, the generator writes nothing for
it. -/
theorem opening_paren_unwritten : ∃ op, (Expr.literal .char "'('").operation = .ok op ∧
    Label.literal? op.label = some ("char", "'('") ∧
    Action.ofLabel? op.label = some (.literal "char('" "'") ∧
    (op.code ⟨⟨[], []⟩, []⟩).lines = [] ∧ (op.code ⟨⟨[], []⟩, []⟩).fault = none := by
  refine ⟨_, Expr.operation_literal ⟨'(', by decide⟩, ?_⟩
  decide +kernel

end MethodLang
