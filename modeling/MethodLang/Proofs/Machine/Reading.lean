import MethodLang.Machine.Expression
import MethodLang.Proofs.Operation.Term
import MethodLang.Proofs.Typing.Reading

/-!
What the code generator reads in the labels of a term. Names are read back; a literal is cut at its
last opening parenthesis, and cannot be read if it holds a line feed.
-/
namespace MethodLang

namespace Action

theorem withoutFeed_closed (label : String) : withoutFeed (label ++ ")") = label ++ ")" := by
  simp [withoutFeed]

/-- Labels of operators and indices have no letter that others start with. -/
theorem ofLabel?_worded {label : String} {c : Char} (first : label.toList.head? = some c)
    (word : c = 's' ∨ c = 'l' ∨ c = 'c') (closed : withoutFeed label = label) :
    ofLabel? label = (((name? "store(" ")" label).map .store)
      <|> ((name? "load(" ")" label).map .load)
      <|> ((name? "load(" "[])" label).map .load)
      <|> ((name? "store_at(" ")" label).map .storeAt)
      <|> ((name? "call(" ")" label).map .call)
      <|> ((literal? label).map fun (kind, text) => .literal kind text)) := by
  have apart : ∀ o ∈ "index" :: binaryOps ++ unaryOps, o.toList.head? ≠ some 's' ∧
      o.toList.head? ≠ some 'l' ∧ o.toList.head? ≠ some 'c' := by decide
  have other (o : String) (inside : o ∈ "index" :: binaryOps ++ unaryOps) : label ≠ o := by
    rintro rfl
    obtain ⟨s, l, c⟩ := apart label inside
    rcases word with rfl | rfl | rfl
    · exact s first
    · exact l first
    · exact c first
  have binary : label ∉ binaryOps := fun inside => other label (by simp [inside]) rfl
  have unary : label ∉ unaryOps := fun inside => other label (by simp [inside]) rfl
  have index : label ≠ "index" := other "index" (by simp)
  rw [ofLabel?, closed, ofPlainLabel?, if_neg binary, if_neg unary, if_neg index]

theorem between?_append (opening inner ending : String) :
    between? opening ending (opening ++ inner ++ ending) = some inner.toList := by
  have back : ending.toList.reverse.isPrefixOf? (ending.toList.reverse ++ inner.toList.reverse) =
      some inner.toList.reverse := List.isPrefixOf?_eq_some_iff_append_eq.mpr rfl
  rw [between?, String.append_assoc, Text.after?_append]
  simp [back]

theorem name?_append (opening ending : String) {name : String} (named : IsName name) :
    name? opening ending (opening ++ name ++ ending) = some name := by
  simp [name?, between?_append, show Text.isIdentifier name.toList = true from named]

theorem name?_apart {opening label : String} (apart : Text.after? opening label = none)
    (ending : String) : name? opening ending label = none := by
  simp [name?, between?, apart]

/-! ### Names -/

section
variable {name : String} (named : IsName name)
include named

theorem ofLabel?_store : ofLabel? ("store(" ++ name ++ ")") = some (.store name) := by
  rw [ofLabel?_worded (c := 's') (by simp) (by simp) (withoutFeed_closed _),
    name?_append "store(" ")" named]
  rfl

theorem ofLabel?_load : ofLabel? ("load(" ++ name ++ ")") = some (.load name) := by
  have store : Text.after? "store(" ("load(" ++ name ++ ")") = none := by
    simp [Text.after?, List.isPrefixOf?]
  rw [ofLabel?_worded (c := 'l') (by simp) (by simp) (withoutFeed_closed _),
    name?_append "load(" ")" named, name?_apart store]
  rfl

theorem ofLabel?_loadArray : ofLabel? ("load(" ++ (name ++ "[]") ++ ")") = some (.load name) := by
  have store : Text.after? "store(" ("load(" ++ (name ++ "[]") ++ ")") = none := by
    simp [Text.after?, List.isPrefixOf?]
  have bracket : ¬ IsName (name ++ "[]") := fun other =>
    other.not_mem (c := '[') (by decide) (by simp)
  have plain : name? "load(" ")" ("load(" ++ (name ++ "[]") ++ ")") = none := by
    simpa [name?, between?_append, IsName] using bracket
  have read : name? "load(" "[])" ("load(" ++ (name ++ "[]") ++ ")") = some name := by
    rw [← name?_append "load(" "[])" named]
    simp [String.append_assoc]
  rw [ofLabel?_worded (c := 'l') (by simp) (by simp) (withoutFeed_closed _), name?_apart store, plain,
    read]
  rfl

theorem ofLabel?_storeAt : ofLabel? ("store_at(" ++ name ++ ")") = some (.storeAt name) := by
  have store : Text.after? "store(" ("store_at(" ++ name ++ ")") = none := by
    simp [Text.after?, List.isPrefixOf?]
  have load : Text.after? "load(" ("store_at(" ++ name ++ ")") = none := by
    simp [Text.after?, List.isPrefixOf?]
  rw [ofLabel?_worded (c := 's') (by simp) (by simp) (withoutFeed_closed _),
    name?_append "store_at(" ")" named, name?_apart store, name?_apart load, name?_apart load]
  rfl

theorem ofLabel?_call : ofLabel? ("call(" ++ name ++ ")") = some (.call name) := by
  have store : Text.after? "store(" ("call(" ++ name ++ ")") = none := by
    simp [Text.after?, List.isPrefixOf?]
  have load : Text.after? "load(" ("call(" ++ name ++ ")") = none := by
    simp [Text.after?, List.isPrefixOf?]
  have storeAt : Text.after? "store_at(" ("call(" ++ name ++ ")") = none := by
    simp [Text.after?, List.isPrefixOf?]
  rw [ofLabel?_worded (c := 'c') (by simp) (by simp) (withoutFeed_closed _),
    name?_append "call(" ")" named, name?_apart store, name?_apart load, name?_apart load,
    name?_apart storeAt]
  rfl

end

theorem ofLabel?_binary (op : Operator) : ofLabel? op.1.text = some (.binary op.1.text) := by
  have each : ∀ op : BinaryOp, op ≠ .assign → ofLabel? op.text = some (.binary op.text) := by
    intro op proper
    cases op <;> first | contradiction | decide +kernel
  exact each op.1 op.2

theorem ofLabel?_unary (op : UnaryOp) : ofLabel? op.text = some (.unary op.text) := by
  cases op <;> decide +kernel

theorem ofLabel?_index : ofLabel? "index" = some .index := by decide +kernel

/-! ### Literals -/

theorem ofLabel?_const (inner : String) : ofLabel? ("const(" ++ inner ++ "))") =
    (literal? ("const(" ++ inner ++ "))")).map fun (kind, text) => .literal kind text := by
  have closed : withoutFeed ("const(" ++ inner ++ "))") = "const(" ++ inner ++ "))" := by
    simp [withoutFeed]
  have apart : ∀ opening ∈ ["store(", "load(", "store_at(", "call("],
      Text.after? opening ("const(" ++ inner ++ "))") = none := by
    simp [Text.after?, List.isPrefixOf?]
  rw [ofLabel?_worded (c := 'c') (by simp) (by simp) closed, name?_apart (apart _ (by simp)),
    name?_apart (apart _ (by simp)), name?_apart (apart _ (by simp)),
    name?_apart (apart _ (by simp)), name?_apart (apart _ (by simp))]
  rfl

/-- A literal in one line is cut at the last opening parenthesis. -/
theorem literal?_append (kind : String) {text : String} (plain : '(' ∉ text.toList)
    (line : '\n' ∉ kind.toList ++ text.toList) :
    literal? ("const(" ++ (kind ++ "(" ++ text) ++ "))") = some (kind, text) := by
  have cut : (text.toList.reverse ++ '(' :: kind.toList.reverse).takeWhile (· != '(') =
      text.toList.reverse := by
    have kept : ∀ c ∈ text.toList.reverse, (c != '(') = true := by
      intro c inside
      rw [bne_iff_ne]
      rintro rfl
      exact plain (List.mem_reverse.mp inside)
    rw [List.takeWhile_append_of_pos kept]
    simp
  simpa [literal?, between?_append, cut] using line

/-- The text of a number or truth value has letters and digits only. -/
theorem isAlphanum_of_spells {kind : LiteralKind} (simple : kind = .bool ∨ kind.isNumber)
    {text : String} (spells : kind.Spells text) : ∀ c ∈ text.toList, c.isAlphanum := by
  have hex {c : Char} (digit : Token.isHexDigit c) : c.isAlphanum := by
    simp only [Token.isHexDigit, Char.isAlphanum, Text.isAlpha_iff, Text.isUpper_iff,
      Text.isLower_iff, Char.isDigit, Bool.or_eq_true, Bool.and_eq_true, decide_eq_true_eq,
      ge_iff_le, Char.le_def, UInt32.le_iff_toNat_le] at digit ⊢
    simp at digit ⊢
    omega
  cases kind with
  | str | char => simp [LiteralKind.isNumber] at simple
  | bool => rcases spells with rfl | rfl <;> exact List.all_eq_true.mp (by decide)
  | hex =>
    obtain ⟨m, d, ds, marker, same, digits⟩ := spells
    rw [same]
    simp only [List.forall_mem_cons] at digits ⊢
    exact ⟨by decide, by rcases marker with rfl | rfl <;> decide, hex digits.1,
      fun c inside => hex (digits.2 c inside)⟩
  | bits =>
    obtain ⟨m, d, ds, marker, same, digits⟩ := spells
    have bit {c : Char} (digit : Token.isBit c) : c.isAlphanum := by
      rcases Bool.or_eq_true_iff.mp digit with digit | digit
      all_goals
        rw [eq_of_beq digit]
        decide
    rw [same]
    simp only [List.forall_mem_cons] at digits ⊢
    exact ⟨by decide, by rcases marker with rfl | rfl <;> decide, bit digits.1,
      fun c inside => bit (digits.2 c inside)⟩
  | dec =>
    obtain ⟨d, ds, same, digits⟩ := spells
    rw [same]
    exact fun c inside => by simp [Char.isAlphanum, digits c inside]

theorem ofLabel?_simple {kind : LiteralKind} (simple : kind = .bool ∨ kind.isNumber)
    {text : String} (spells : kind.Spells text) :
    ofLabel? (Term.label (.literal kind text)) = some (.literal kind.name text) := by
  have letters := isAlphanum_of_spells simple spells
  have plain : '(' ∉ text.toList := fun inside => absurd (letters _ inside) (by decide)
  have line : '\n' ∉ kind.name.toList ++ text.toList := by
    rw [List.mem_append, not_or]
    exact ⟨by cases kind <;> decide, fun inside => absurd (letters _ inside) (by decide)⟩
  have label : Term.label (.literal kind text) = "const(" ++ (kind.name ++ "(" ++ text) ++ "))" := by
    simp [Term.label, String.append_assoc]
  rw [label, ofLabel?_const, literal?_append kind.name plain line]
  rfl

/-- A literal that goes over several lines cannot be read. -/
theorem literal?_feed {inner : String} (feed : '\n' ∈ inner.toList) :
    literal? ("const(" ++ inner ++ "))") = none := by
  simp [literal?, between?_append, feed]

end Action

/-! ### Code of nodes -/

namespace Operation

variable {c : CodeContext} {type : Option TypeName}

theorem code_node (c : CodeContext) (label : String) (type : Option TypeName)
    (operands : List Operation) : code c (.node label type operands) =
      Code.ofNode c label type (operands.map fun op => (op, op.code c)) :=
  Tree.compute_node _ _ _ _

theorem code_binary {label op : String} (read : Action.ofLabel? label = some (.binary op))
    (left right : Operation) : code c (.node label type [left, right]) =
      Code.binary op left.note type (left.code c) (right.code c) := by
  rw [code_node, Code.ofNode.eq_def]
  simp only [read, List.map_cons, List.map_nil]

theorem code_unary {label op : String} (read : Action.ofLabel? label = some (.unary op))
    (operand : Operation) : code c (.node label type [operand]) =
      Code.unary op type (operand.code c) := by
  rw [code_node, Code.ofNode.eq_def]
  simp only [read, List.map_cons, List.map_nil]

theorem code_index {label : String} (read : Action.ofLabel? label = some .index)
    (base position : Operation) : code c (.node label type [base, position]) =
      Code.index type (base.code c) (position.code c) := by
  rw [code_node, Code.ofNode.eq_def]
  simp only [read, List.map_cons, List.map_nil]

theorem code_literal {label kind text : String}
    (read : Action.ofLabel? label = some (.literal kind text)) :
    code c (.node label type []) = Literal.code kind text := by
  rw [code_node, Code.ofNode.eq_def]
  simp only [read, List.map_nil]

theorem code_load {label name : String} (read : Action.ofLabel? label = some (.load name)) :
    code c (.node label type []) =
      Code.withSlot c name fun slot => Code.instr (.loadFrame slot.offset) := by
  rw [code_node, Code.ofNode.eq_def]
  simp only [read, List.map_nil]

end Operation

end MethodLang
