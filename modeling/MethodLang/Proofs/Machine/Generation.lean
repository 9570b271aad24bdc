import MethodLang.Proofs.Machine.Numeral
import MethodLang.Proofs.Machine.Reading
import MethodLang.Proofs.Typing.Conformance
import MethodLang.Proofs.Typing.Outcome

/-!
When code is written without a fault. The code of a tree depends on its labels, so that it can be
told from the term or directive it comes from: literals must be in one line and not too long,
variables must have a slot in the frame, and an element is stored at one index only.
-/
namespace MethodLang

namespace Code

variable {a b : Code}

@[simp] theorem fault_append_iff : (a ++ b).fault = none ↔ a.fault = none ∧ b.fault = none := by
  obtain ⟨_, _ | _⟩ := a <;> simp [append_def, append]

@[simp] theorem fault_write (lines : List Line) : (write lines).fault = none := rfl

@[simp] theorem fault_nothing : nothing.fault = none := rfl

@[simp] theorem fault_instr (i : Instr) : (instr i).fault = none := rfl

@[simp] theorem fault_stop (fault : Fault) : (stop fault).fault = some fault := by
  rw [stop]

theorem fault_join {cs : List Code} : (join cs).fault = none ↔ ∀ c ∈ cs, c.fault = none := by
  induction cs with
  | nil => exact ⟨fun _ => List.forall_mem_nil _, fun _ => rfl⟩
  | cons c cs ih => rw [join_cons, fault_append_iff, ih, List.forall_mem_cons]

@[simp] theorem fault_narrow (type : Option TypeName) : (narrow type).fault = none := by
  cases type <;> rfl

theorem fault_withSlot {c : CodeContext} {name : String} {write : Slot → Code} :
    (withSlot c name write).fault = none ↔
      ∃ slot, c.frame.slot? name = some slot ∧ (write slot).fault = none := by
  unfold withSlot
  cases c.frame.slot? name with
  | none => simp
  | some slot => simp

theorem ofOperator?_isSome (unsigned : Bool) (op : Operator) :
    (BinaryInstr.ofOperator? unsigned op.1.text).isSome := by
  have each : ∀ op : BinaryOp, op ≠ .assign → ∀ unsigned,
      (BinaryInstr.ofOperator? unsigned op.text).isSome := by
    intro op proper
    cases op <;> first | contradiction | decide
  exact each op.1 op.2 unsigned

theorem fault_binary (op : Operator) (leftType type : Option TypeName) (left right : Code) :
    (binary op.1.text leftType type left right).fault = none ↔
      left.fault = none ∧ right.fault = none := by
  obtain ⟨i, is⟩ := Option.isSome_iff_exists.mp
    (ofOperator?_isSome (leftType.any TypeName.isUnsigned) op)
  simp only [binary, is, fault_append_iff, fault_instr, true_and, and_assoc]
  split <;> simp

theorem fault_unary (op : UnaryOp) (type : Option TypeName) (operand : Code) :
    (unary op.text type operand).fault = none ↔ operand.fault = none := by
  cases op <;> simp [unary, UnaryOp.text, UnaryInstr.ofOperator?]

theorem fault_index (type : Option TypeName) (array position : Code) :
    (index type array position).fault = none ↔ array.fault = none ∧ position.fault = none := by
  simp [index]

theorem fault_call (c : CodeContext) (function : String) (arguments : List Code) :
    (call c function arguments).fault = none ↔ ∀ code ∈ arguments, code.fault = none := by
  simp [call, fault_join]

end Code

/-! ### Literals -/

namespace LiteralKind

/-- The code of a literal. One in several lines is not read; one with an opening parenthesis is cut
in the wrong place, and nothing is written for it. -/
def code (kind : LiteralKind) (text : String) : Code :=
  if '\n' ∈ text.toList then .stop (.unknownOperation (Term.literal kind text).label)
  else if '(' ∈ text.toList then .nothing
  else Literal.code kind.name text

/-- Code can be written for the literal. -/
def Writable (kind : LiteralKind) (text : String) : Prop :=
  '\n' ∉ text.toList ∧ (kind.isNumber → kind.Convertible text)

instance (kind : LiteralKind) (text : String) : Decidable (kind.Writable text) :=
  inferInstanceAs (Decidable (_ ∧ _))

end LiteralKind

/-- A literal with an opening parenthesis in its text is cut inside the text. -/
theorem Action.literal?_nested (kind : String) {text : String} (nested : '(' ∈ text.toList)
    (line : '\n' ∉ kind.toList ++ text.toList) : ∃ read rest,
      literal? ("const(" ++ (kind ++ "(" ++ text) ++ "))") = some (read, rest) ∧
        '(' ∈ read.toList := by
  obtain ⟨back, front, split, free⟩ := List.eq_append_cons_of_mem (List.mem_reverse.mpr nested)
  have kept : ∀ c ∈ back, (c != '(') = true := by
    intro c inside
    rw [bne_iff_ne]
    rintro rfl
    exact free inside
  have inner : (kind ++ "(" ++ text).toList.reverse =
      back ++ '(' :: (front ++ '(' :: kind.toList.reverse) := by
    simp [split]
  have cut : (back ++ '(' :: (front ++ '(' :: kind.toList.reverse)).takeWhile (· != '(') = back := by
    rw [List.takeWhile_append_of_pos kept]
    simp
  have feed : (kind ++ "(" ++ text).toList.contains '\n' = false := by
    simpa using line
  refine ⟨String.ofList (front ++ '(' :: kind.toList.reverse).reverse, String.ofList back.reverse,
    ?_, by simp⟩
  rw [literal?, between?_append]
  simp only [Option.bind_eq_bind, Option.bind_some, feed, inner, cut]
  simp

/-- No kind of literal has a parenthesis in its name. -/
theorem Literal.code_unknown {kind : String} (nested : '(' ∈ kind.toList) (text : String) :
    Literal.code kind text = .nothing := by
  unfold Literal.code
  split
  case h_8 => rfl
  all_goals exact absurd nested (by decide)

theorem Operation.code_writtenLiteral (c : CodeContext) (type : Option TypeName) (kind : LiteralKind)
    (text : String) : code c (.node (Term.literal kind text).label type []) = kind.code text := by
  have label : (Term.literal kind text).label = "const(" ++ (kind.name ++ "(" ++ text) ++ "))" := by
    simp [Term.label, String.append_assoc]
  have named : '\n' ∉ kind.name.toList := by cases kind <;> decide
  unfold LiteralKind.code
  split
  · rename_i feed
    rw [code_node, Code.ofNode.eq_def]
    rw [label, Action.ofLabel?_const, Action.literal?_feed (by simp [feed])]
    rfl
  · rename_i line
    have line : '\n' ∉ kind.name.toList ++ text.toList := by simp [named, line]
    split
    · rename_i nested
      obtain ⟨read, rest, is, paren⟩ := Action.literal?_nested kind.name nested line
      refine (code_literal ?_).trans (Literal.code_unknown paren rest)
      rw [label, Action.ofLabel?_const, is]
      rfl
    · rename_i plain
      apply code_literal
      rw [label, Action.ofLabel?_const, Action.literal?_append kind.name plain line]
      rfl

/-- A spelled literal has code just if it is in one line and can be converted. -/
theorem LiteralKind.fault_code {kind : LiteralKind} {text : String} (spells : kind.Spells text) :
    (kind.code text).fault = none ↔ kind.Writable text := by
  have plain (simple : kind = .bool ∨ kind.isNumber) {c : Char} (other : c.isAlphanum = false) :
      c ∉ text.toList := by
    intro inside
    rw [Action.isAlphanum_of_spells simple spells c inside] at other
    cases other
  unfold code Writable
  by_cases feed : '\n' ∈ text.toList
  · simp [feed]
  by_cases nested : '(' ∈ text.toList
  · rw [if_neg feed, if_pos nested]
    refine iff_of_true rfl ⟨feed, fun number => ?_⟩
    exact absurd nested (plain (.inr number) (by decide))
  rw [if_neg feed, if_neg nested]
  cases number : kind.isNumber with
  | true =>
    rw [Literal.code_number number spells]
    by_cases convertible : kind.Convertible text
    · simp [feed, convertible]
    · simp [convertible]
  | false =>
    refine iff_of_true ?_ ⟨feed, nofun⟩
    cases kind with
    | hex | bits | dec => cases number
    | bool | str => rfl
    | char =>
      obtain ⟨c, is⟩ := spells
      simp [Literal.code, LiteralKind.name, is]

/-! ### Terms -/

/-- The variable that a load reads: its name, without the brackets of an array. -/
def loadedName (name : String) : String :=
  match name.toList.reverse with
  | ']' :: '[' :: base => String.ofList base.reverse
  | _ => name

theorem loadedName_name {name : String} (named : IsName name) : loadedName name = name := by
  unfold loadedName
  split
  · rename_i base is
    have inside : ']' ∈ name.toList := by
      rw [← List.mem_reverse, is]
      simp
    exact absurd inside (named.not_mem (by decide))
  · rfl

theorem loadedName_array (name : String) : loadedName (name ++ "[]") = name := by
  simp [loadedName]

namespace Term

variable {α : Type}

/-- The terms in a term, itself among them. -/
def subterms (e : Term) : List Term := e.fold fun e below => e :: below.flatten

theorem forall_subterms {P : Term → Prop} (e : Term) :
    (∀ t ∈ e.subterms, P t) ↔ P e ∧ ∀ x ∈ e.children, ∀ t ∈ x.subterms, P t := by
  rw [subterms, fold_eq, List.forall_mem_cons, List.forall_mem_flatten, List.forall_mem_map]
  rfl

theorem Shapes.node {e : Term} {n : Tree α} (shapes : e.Shapes n) :
    ∃ a ns, n = .node e.label a ns ∧ List.Forall₂ Shapes e.children ns := by
  obtain ⟨label, a, ns⟩ := n
  obtain ⟨rfl, each⟩ := shapes_iff.mp shapes
  exact ⟨a, ns, rfl, each⟩

/-- Code can be written for a node: a literal is writable, a variable has its slot. -/
def Codable (frame : Frame) : Term → Prop
  | .literal kind text => kind.Writable text
  | .load name => (frame.slot? (loadedName name)).isSome
  | .call _ _ | .index _ _ | .binary _ _ _ | .unary _ _ => True

end Term

namespace Operation

variable {c : CodeContext} {type : Option TypeName}

theorem code_call {function : String} (named : IsName function) (args : List Term)
    (operands : List Operation) : code c (.node (Term.call function args).label type operands) =
      Code.call c function (operands.map (code c)) := by
  rw [code_node, Code.ofNode.eq_def]
  simp only [Term.label, Action.ofLabel?_call named, List.map_map]
  rfl

theorem code_spelledLoad {name : String} (spelled : (Term.load name).Spelled) :
    code c (.node (Term.load name).label type []) =
      Code.withSlot c (loadedName name) fun slot => Code.instr (.loadFrame slot.offset) := by
  obtain ⟨x, named, rfl | rfl⟩ := spelled
  · rw [loadedName_name named]
    exact code_load (Action.ofLabel?_load named)
  · rw [loadedName_array]
    exact code_load (Action.ofLabel?_loadArray named)

theorem code_store {label name : String} (read : Action.ofLabel? label = some (.store name))
    (value : Operation) : code c (.node label type [value]) =
      value.code c ++ Code.withSlot c name fun slot => Code.instr (.storeFrame slot.offset) := by
  rw [code_node, Code.ofNode.eq_def]
  simp only [read, List.map_cons, List.map_nil]

theorem code_storeAt {label name : String} (read : Action.ofLabel? label = some (.storeAt name))
    (operands : List Operation) : code c (.node label type operands) =
      match operands with
      | [position, value] => Code.storeAt c name type (position.code c) (value.code c)
      | _ => .stop .wrongArity := by
  rw [code_node, Code.ofNode.eq_def]
  obtain _ | ⟨_, _ | ⟨_, _ | _⟩⟩ := operands <;> simp only [read, List.map_cons, List.map_nil]

end Operation

theorem Code.fault_storeAt {c : CodeContext} {name : String} {type : Option TypeName}
    {position value : Code} : (storeAt c name type position value).fault = none ↔
      position.fault = none ∧ value.fault = none ∧
        ∃ slot, c.frame.slot? name = some slot ∧ slot.type.isSome := by
  rw [storeAt, fault_withSlot]
  constructor
  · rintro ⟨slot, is, written⟩
    cases typed : slot.type with
    | none => simp [typed] at written
    | some array =>
      simp only [typed, fault_append_iff, fault_instr, fault_write, true_and, and_true] at written
      exact ⟨written.1, written.2, slot, is, by rw [typed]; rfl⟩
  · rintro ⟨first, second, slot, is, typed⟩
    obtain ⟨array, typed⟩ := Option.isSome_iff_exists.mp typed
    exact ⟨slot, is, by simp [typed, first, second]⟩

namespace Term

/-- The code of a tree has no fault just if all nodes of its term are codable. -/
theorem fault_code_iff (c : CodeContext) {e : Term} (spelled : e.Spelled) {n : Operation}
    (shapes : e.Shapes n) :
    (n.code c).fault = none ↔ ∀ t ∈ e.subterms, t.Codable c.frame := by
  induction e using children_induction generalizing n with
  | step e ih =>
    obtain ⟨type, ns, rfl, each⟩ := shapes.node
    have below : List.Forall₂ (fun m x => (Operation.code c m).fault = none ↔
        ∀ t ∈ x.subterms, t.Codable c.frame) ns e.children :=
      ((List.forall₂_and_left _ _).mpr ⟨fun x => id, each⟩).flip.imp
        fun m x ⟨inside, same⟩ => ih x inside (spelled.children x inside) same
    rw [forall_subterms, ← forall_mem_congr below]
    clear ih
    cases e with
    | literal kind text =>
      obtain _ | _ := each
      rw [Operation.code_writtenLiteral, LiteralKind.fault_code spelled]
      exact ⟨fun h => ⟨h, List.forall_mem_nil _⟩, And.left⟩
    | load name =>
      obtain _ | _ := each
      rw [Operation.code_spelledLoad spelled, Code.fault_withSlot, Codable, Option.isSome_iff_exists]
      exact ⟨fun ⟨slot, is, _⟩ => ⟨⟨slot, is⟩, List.forall_mem_nil _⟩,
        fun ⟨⟨slot, is⟩, _⟩ => ⟨slot, is, rfl⟩⟩
    | call function args =>
      rw [Operation.code_call spelled.1, Code.fault_call, List.forall_mem_map]
      exact ⟨fun h => ⟨trivial, h⟩, And.right⟩
    | index base position =>
      obtain _ | ⟨_, _ | ⟨_, _ | _⟩⟩ := each
      rw [label, Operation.code_index Action.ofLabel?_index, Code.fault_index]
      simp [Codable]
    | binary op left right =>
      obtain _ | ⟨_, _ | ⟨_, _ | _⟩⟩ := each
      rw [label, Operation.code_binary (Action.ofLabel?_binary op), Code.fault_binary]
      simp [Codable]
    | unary op operand =>
      obtain _ | ⟨_, _ | _⟩ := each
      rw [label, Operation.code_unary (Action.ofLabel?_unary op), Code.fault_unary]
      simp [Codable]

end Term

/-! ### Directives -/

namespace Directive

/-- What a directive assigns to has a slot, and a known type if an element is stored; that goes to
one index only. -/
def Assignable (frame : Frame) : Directive → Prop
  | .value _ => True
  | .store name _ => (frame.slot? name).isSome
  | .storeAt array indices _ =>
    indices.length = 1 ∧ ∃ slot, frame.slot? array = some slot ∧ slot.type.isSome

/-- Code can be written for a directive. -/
def Codable (frame : Frame) (c : Directive) : Prop :=
  (∀ e ∈ c.terms, ∀ t ∈ e.subterms, t.Codable frame) ∧ c.Assignable frame

/-- The code of a tree has no fault just if its directive is codable. -/
theorem fault_code_iff (ctx : CodeContext) {c : Directive} (spelled : c.Spelled) {op : Operation}
    (shape : op.bare = c.tree.bare) : (op.code ctx).fault = none ↔ c.Codable ctx.frame := by
  have each := parts_shapes shape
  have below : (∀ m ∈ c.parts op, (Operation.code ctx m).fault = none) ↔
      ∀ e ∈ c.terms, ∀ t ∈ e.subterms, t.Codable ctx.frame :=
    forall_mem_congr (((List.forall₂_and_left _ _).mpr ⟨fun x => id, each⟩).flip.imp
      fun m e ⟨inside, shapes⟩ => Term.fault_code_iff ctx (spelled.terms e inside) shapes)
  have label : op.label = c.label := Tree.label_of_bare shape
  have count := each.length_eq
  rw [Codable, ← below]
  obtain ⟨l, type, ns⟩ := op
  obtain rfl := label
  cases c with
  | value e => simp [parts, Assignable]
  | store name right =>
    obtain ⟨n, rfl⟩ := List.length_eq_one_iff.mp count.symm
    rw [Directive.label, Operation.code_store (Action.ofLabel?_store spelled.1),
      Code.fault_append_iff, Code.fault_withSlot]
    simp [parts, Assignable, Option.isSome_iff_exists]
  | storeAt array indices right =>
    rw [Directive.label, Operation.code_storeAt (Action.ofLabel?_storeAt spelled.1)]
    simp only [terms, List.length_append, List.length_singleton, parts, Tree.children_node] at count
    split
    · rename_i position value
      have one : indices.length = 1 := by simpa using count
      rw [Code.fault_storeAt]
      simp [parts, Assignable, one, and_assoc]
    · rename_i other
      simp only [Code.fault_stop, reduceCtorEq, false_iff, not_and, Assignable]
      intro _ one
      rw [one] at count
      obtain ⟨position, value, rfl⟩ := List.length_eq_two.mp count.symm
      exact absurd rfl (other position value)

end Directive

end MethodLang
