import Mathlib.Data.List.Basic
import MethodLang.Proofs.Operation.Term
import MethodLang.Typing.Role

/-!
The roles of terms: the type checker reads from a label what the term was made with.
-/
namespace MethodLang

namespace Text

theorem after?_append (opening rest : String) :
    after? opening (opening ++ rest) = some rest.toList := by
  rw [after?, List.isPrefixOf?_eq_some_iff_append_eq, String.toList_append]

theorem beforeLast?_short {mark cs : List Char} (short : cs.length ≤ mark.length) :
    beforeLast? mark cs = none := by
  induction cs with
  | nil => rfl
  | cons c cs ih =>
    rw [List.length_cons] at short
    have apart : mark.isPrefixOf cs = false := Bool.eq_false_iff.mpr fun isPrefix =>
      absurd (List.isPrefixOf_iff_prefix.mp isPrefix).length_le (by omega)
    simp [beforeLast?, ih (by omega), apart]

/-- A mark at the end is the last one. -/
theorem beforeLast?_append (mark : List Char) {cs : List Char} (inhabited : cs ≠ []) :
    beforeLast? mark (cs ++ mark) = some cs := by
  induction cs with
  | nil => contradiction
  | cons c cs ih =>
    cases cs with
    | nil => simp [beforeLast?, beforeLast?_short]
    | cons e es =>
      rw [List.cons_append, beforeLast?, ih (List.cons_ne_nil e es)]

theorem firstLine_eq_self {cs : List Char} (plain : '\n' ∉ cs) : firstLine cs = cs := by
  have each : ∀ c ∈ cs, (c != '\n') = true := by
    intro c inside
    simpa using fun same : c = '\n' => plain (same ▸ inside)
  have whole : (cs ++ []).takeWhile (· != '\n') = cs ++ [].takeWhile (· != '\n') :=
    List.takeWhile_append_of_pos each
  simpa [firstLine] using whole

end Text

theorem IsName.word_char {name : String} (named : IsName name) {c : Char}
    (inside : c ∈ name.toList) : (c.isAlphanum || c == '_') = true := by
  unfold IsName at named
  cases chars : name.toList with
  | nil => simp [chars] at inside
  | cons d cs =>
    simp only [chars, Text.isIdentifier, Bool.and_eq_true, List.all_eq_true] at named
    rw [chars] at inside
    rcases List.mem_cons.mp inside with rfl | later
    · have first := named.1
      simp only [Char.isAlphanum, Bool.or_eq_true] at first ⊢
      exact first.imp_left .inl
    · exact named.2 c later

theorem IsName.not_mem {name : String} (named : IsName name) {c : Char}
    (other : (c.isAlphanum || c == '_') = false) : c ∉ name.toList := by
  intro inside
  rw [named.word_char inside] at other
  cases other

theorem IsName.no_feed {name : String} (named : IsName name) : '\n' ∉ name.toList :=
  named.not_mem (by decide)

theorem IsName.ne_empty {name : String} (named : IsName name) : name.toList ≠ [] := by
  intro empty
  simp [IsName, empty, Text.isIdentifier] at named

/-- A name that stands alone in the parentheses of a label is read back. -/
theorem Label.name?_append (opening : String) {name : String} (inhabited : name.toList ≠ [])
    (plain : '\n' ∉ name.toList) : Label.name? opening (opening ++ name ++ ")") = some name := by
  have line : Text.firstLine (name.toList ++ [')']) = name.toList ++ [')'] :=
    Text.firstLine_eq_self (by simpa using plain)
  rw [Label.name?, String.append_assoc, Text.after?_append]
  simp [line, Text.beforeLast?_append [')'] inhabited]

namespace Role

theorem ofLabel_call {function : String} (named : IsName function) :
    ofLabel ("call(" ++ function ++ ")") = .call (some function) := by
  have read := Label.name?_append "call(" named.ne_empty named.no_feed
  simp [ofLabel, Text.startsWith, Label.callName?, read]

theorem ofLabel_store {name : String} (named : IsName name) :
    ofLabel ("store(" ++ name ++ ")") = .store (some name) := by
  have read := Label.name?_append "store(" named.ne_empty named.no_feed
  simp [ofLabel, Text.startsWith, Label.storeName?, read]

theorem ofLabel_storeAt {array : String} (named : IsName array) :
    ofLabel ("store_at(" ++ array ++ ")") = .storeAt (some array) := by
  have read := Label.name?_append "store_at(" named.ne_empty named.no_feed
  simp [ofLabel, Text.startsWith, Label.storeAtName?, read]

theorem ofLabel_load {name : String} (spelled : (Term.load name).Spelled) :
    ofLabel ("load(" ++ name ++ ")") = .load (some name) := by
  obtain ⟨x, named, form⟩ := spelled
  have inhabited : name.toList ≠ [] := by
    rcases form with rfl | rfl <;> simp [named.ne_empty]
  have plain : '\n' ∉ name.toList := by
    rcases form with rfl | rfl <;> simp [named.no_feed]
  have read := Label.name?_append "load(" inhabited plain
  simp [ofLabel, Text.startsWith, Label.loadName?, read]

theorem ofLabel_literal (kind : LiteralKind) (text : String) :
    ofLabel (Term.literal kind text).label =
      .const (Label.literal? (Term.literal kind text).label) := by
  simp [ofLabel, Text.startsWith, Term.label]

end Role

/-- The kind of a literal that can be read is read back. -/
theorem Label.literal?_kind {kind : LiteralKind} {text : String} {read : String × String}
    (h : Label.literal? (Term.literal kind text).label = some read) : read.1 = kind.name := by
  have label : (Term.literal kind text).label = "const(" ++ (kind.name ++ ("(" ++ text ++ "))")) := by
    simp [Term.label, String.append_assoc]
  rw [label, Label.literal?, Text.after?_append] at h
  have word : ((kind.name ++ ("(" ++ text ++ "))")).toList.takeWhile Text.isWord) =
      kind.name.toList := by
    have each : ∀ c ∈ kind.name.toList, Text.isWord c = true :=
      List.all_eq_true.mp (by cases kind <;> decide)
    rw [String.toList_append, List.takeWhile_append_of_pos each]
    have stop : Text.isWord '(' = false := by decide
    simp [stop]
  simp only [word, Option.bind_eq_bind, Option.bind_some] at h
  split at h
  · cases h
  · obtain ⟨rest, _, h⟩ := Option.bind_eq_some_iff.mp h
    obtain ⟨body, _, h⟩ := Option.bind_eq_some_iff.mp h
    cases h
    exact String.ofList_toList

theorem Role.ofLabel_index : Role.ofLabel "index" = .index := by decide

/-- The role of an operator's sign. -/
def BinaryOp.role : BinaryOp → Role
  | .assign => .unknown
  | .add | .sub | .mul | .div | .mod => .arithmetic
  | .bitOr | .bitXor | .bitAnd | .shl | .shr => .bitwise
  | .or | .and => .logical
  | .eq | .ne | .gt | .ge | .le | .lt => .comparison

theorem BinaryOp.ofLabel_text (op : BinaryOp) : Role.ofLabel op.text = op.role := by
  cases op <;> decide

def UnaryOp.role : UnaryOp → Role
  | .not => .negation
  | .invert => .inversion

theorem UnaryOp.ofLabel_text (op : UnaryOp) : Role.ofLabel op.text = op.role := by
  cases op <;> decide

end MethodLang
