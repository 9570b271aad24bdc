import MethodLang.Proofs.Program.Checked
import MethodLang.Proofs.Typing.Visiting

/-!
Operators and their operands in accepted programs. Arithmetic, operations on bits and inversion
should be of one type with their operands, and the two sides of a comparison of one type with each
other. Numbers worked out from numbers alone fall out of this: they count as `int` below their
topmost operator, whichever type that operator takes from its place (`Term.Even`).
-/
namespace MethodLang

open Checker

/-- Whether the operands of a node are to have its type. -/
def Role.keepsType : Role → Bool
  | .arithmetic | .bitwise | .inversion => true
  | _ => false

/-- The operands bear the type of the node, or that of each other if they are compared. -/
def Operation.Coherent (n : Operation) : Prop :=
  ((Role.ofLabel n.label).keepsType → ∀ c ∈ n.children, c.note = n.note) ∧
    (Role.ofLabel n.label = .comparison → ∀ c ∈ n.children, ∀ d ∈ n.children, c.note = d.note)

instance (n : Operation) : Decidable n.Coherent := inferInstanceAs (Decidable (_ ∧ _))

/-- Nothing is asked of a node that neither computes nor compares. -/
theorem Operation.coherent_of_other {n : Operation}
    (keeps : (Role.ofLabel n.label).keepsType = false)
    (compares : Role.ofLabel n.label ≠ .comparison) : n.Coherent := by
  constructor
  · intro other
    rw [keeps] at other
    cases other
  · intro other
    exact absurd other compares

theorem Operation.coherent_of_assigns {n : Operation}
    (assigns : (Role.ofLabel n.label).assigns) : n.Coherent := by
  apply coherent_of_other
  · cases role : Role.ofLabel n.label <;> first | rfl | (rw [role] at assigns; cases assigns)
  · intro role
    rw [role] at assigns
    cases assigns

variable {s : Scope}

namespace Term

/-- The operands of an operation on numbers end up with its type. They are given the type that they
share, which is `int` if both are bare, and not the one that the operation takes from its place. -/
def EvenPair (op : Operator) (left right : Term) : Way → Prop
  | .inferred => takes op left = false ∧ takes op right = false
  | .marked type => takes op left = true ∧ takes op right = true ∧ type = "int"
  | .settled type => (binary op left right).isBare → type = "int"
  | .shown | .aimed _ | .root => True

/-- The operands of a node that is visited in the given way end up with one type. -/
def Even (w : Way) : Term → Prop
  | .binary op left right =>
    match op.1.role with
    | .arithmetic | .bitwise => EvenPair op left right w
    | .comparison => w = .inferred → takes op left = takes op right
    | _ => True
  | .unary .invert operand =>
    match w with
    | .marked _ => False
    | .settled type | .aimed type => operand.isBare && operand.isWorked → type = "int"
    | .inferred | .shown | .root => True
  | _ => True

/-! ### Binary operators -/

/-- Coherence of a binary operator is about three types. -/
theorem coherent_binary {op : Operator} {left right : Term} {w a b : Way}
    (ways : (binary op left right).ways s w = [a, b]) :
    ((binary op left right).outcome s w).operation.Coherent ↔
      ((binary op left right).isNumeric →
        (left.markOf s a).type = ((binary op left right).markOf s w).type ∧
          (right.markOf s b).type = ((binary op left right).markOf s w).type) ∧
      (op.1.role = .comparison → (left.markOf s a).type = (right.markOf s b).type) := by
  have keeps : op.1.role.keepsType = (binary op left right).isNumeric := by
    rw [isNumeric_binary]
    rcases operator_cases op with ⟨role, -⟩ | ⟨role, -⟩ | ⟨role, -⟩ | ⟨role, -⟩ <;> rw [role] <;> rfl
  rw [outcome_operation, ways, Operation.Coherent, Tree.label_node, label, BinaryOp.ofLabel_text,
    keeps]
  simp only [children, List.zip_cons_cons, List.zip_nil_left, List.map_cons, List.map_nil,
    Tree.children_node, Tree.note_node, List.forall_mem_cons, List.not_mem_nil, false_implies,
    implies_true, and_true, outcome_operation_note, true_and]
  refine and_congr_right' (forall_congr' fun _ => ?_)
  exact ⟨And.left, fun same => ⟨same, same.symm⟩⟩

/-- What an operand that was inferred is shown is the type that it shares with the other. -/
theorem Operand.shown (proper : s.Proper) {op : Operator} {type : TypeName} (properT : type.Proper)
    {e : Term} (operand : Operand s op type e) :
    (e.markOf s (if takes op e then Way.marked type else .inferred).filled).type = some type := by
  cases takes : takes op e with
  | true => rfl
  | false =>
    have resolved := resolve_answer proper operand.spelled operand.clean
    rw [operand.answer takes, Option.map_some, properT.resolve_eq] at resolved
    exact resolved.symm

section
variable (proper : s.Proper) {op : Operator} {left right : Term} {w : Way}
  (spelled : (Term.binary op left right).Spelled)
include proper spelled

/-- An operation on numbers shows the type that its operands share. -/
theorem Clean.shown_both (clean : (Term.binary op left right).Clean s)
    (numeric : (Term.binary op left right).isNumeric) :
    ((Term.binary op left right).ownType s).map TypeName.resolve = some (both s op left right) := by
  obtain ⟨own, is⟩ : ∃ own, (Term.binary op left right).ownType s = some own := by
    have operated := clean.operated proper spelled.1 spelled.2
    rw [isNumeric_binary, Bool.or_eq_true, beq_iff_eq, beq_iff_eq] at numeric
    rcases numeric with role | role
    · rw [operated.arithmetic role]
      split
      · exact ⟨_, rfl⟩
      · exact ⟨_, rfl⟩
    · exact ⟨_, operated.bitwise role⟩
  have shares := shares_rootType proper spelled clean is
  rw [← is] at shares
  obtain ⟨same, -⟩ := clean.both_of_shares proper spelled numeric shares
  have bare := clean.isBare_iff proper spelled
  rw [same, rootType]
  cases h : (Term.binary op left right).isBare with
  | true =>
    rw [bare.mpr h]
    decide +kernel
  | false =>
    rw [is]
    rfl

/-- An operation on numbers is coherent just if it is even. -/
theorem coherent_numeric (numeric : (binary op left right).isNumeric)
    (valid : w.Valid s (binary op left right)) :
    ((binary op left right).outcome s w).operation.Coherent ↔ (binary op left right).Even w := by
  have role : op.1.role = .arithmetic ∨ op.1.role = .bitwise := by
    simpa [isNumeric_binary] using numeric
  have even : (binary op left right).Even w ↔ EvenPair op left right w := by
    rcases role with role | role <;> simp only [Even, role]
  have settles (type : TypeName) : (binary op left right).settleWays s type =
      [.settled (both s op left right), .settled (both s op left right)] := by
    rw [settleWays, if_neg (not_logical numeric)]
  have coherent {a b : Way} (ways : (binary op left right).ways s w = [a, b]) :
      ((binary op left right).outcome s w).operation.Coherent ↔
        (left.markOf s a).type = ((binary op left right).markOf s w).type ∧
          (right.markOf s b).type = ((binary op left right).markOf s w).type := by
    rw [coherent_binary ways]
    have other : op.1.role ≠ .comparison := by rcases role with role | role <;> simp [role]
    exact ⟨fun h => h.1 numeric, fun h => ⟨fun _ => h, fun is => absurd is other⟩⟩
  have hinted (x : Term) (type : Option TypeName) :
      (x.markOf s (if takes op x then .marked (both s op left right) else .inferred)).type = type ↔
        if takes op x then some (both s op left right) = type else none = type := by
    cases takes op x <;> rfl
  rw [even]
  cases w with
  | inferred =>
    rw [coherent rfl, hinted, hinted]
    cases l : takes op left <;> cases r : takes op right <;>
      simp [EvenPair, l, r, markOf, unknownMark]
  | marked type =>
    have clean := valid.1
    obtain ⟨same, -⟩ := clean.both_of_shares proper spelled numeric
      (.inr ⟨(clean.isBare_iff proper spelled).mpr valid.2.1, valid.2.2⟩)
    rw [valid.2.1, if_pos rfl] at same
    rw [coherent rfl, hinted, hinted, same]
    cases l : takes op left <;> cases r : takes op right <;> simp [EvenPair, l, r, markOf, eq_comm]
  | shown =>
    have clean : (binary op left right).Clean s := valid
    have operands := clean.operands proper spelled.1 spelled.2
    simp only [List.forall_mem_cons] at operands
    have properB := (clean.both_shared proper spelled.1 spelled.2).2
    have own := clean.shown_both proper spelled numeric
    rw [coherent rfl, operands.1.shown proper properB, operands.2.1.shown proper properB]
    exact iff_of_true ⟨own.symm, own.symm⟩ trivial
  | settled type =>
    obtain ⟨same, -⟩ := valid.1.both_of_shares proper spelled numeric valid.2
    rw [coherent (settles type)]
    simp only [markOf, and_self, Option.some.injEq, same, EvenPair]
    cases (binary op left right).isBare <;> simp [eq_comm]
  | aimed type =>
    have below : (binary op left right).ways s (.aimed type) = [.aimed type, .aimed type] := by
      simp only [ways, numeric, if_true]
    rw [coherent below]
    exact iff_of_true ⟨rfl, rfl⟩ trivial
  | root =>
    have clean : (binary op left right).Clean s := valid
    have own := clean.shown_both proper spelled numeric
    have below : (binary op left right).ways s .root =
        [.settled (both s op left right), .settled (both s op left right)] := by
      simp only [ways, settles, List.map_cons, List.map_nil, Way.filled]
    rw [coherent below]
    exact iff_of_true ⟨own.symm, own.symm⟩ trivial

/-- A comparison is coherent just if it is even. -/
theorem coherent_comparison (role : op.1.role = .comparison)
    (valid : w.Valid s (binary op left right)) :
    ((binary op left right).outcome s w).operation.Coherent ↔ (binary op left right).Even w := by
  have other : (binary op left right).isNumeric = false := by simp [isNumeric_binary, role]
  have even : (binary op left right).Even w ↔ (w = .inferred → takes op left = takes op right) := by
    simp only [Even, role]
  have clean := valid.clean other
  have settles (type : TypeName) : (binary op left right).settleWays s type =
      [.settled (both s op left right), .settled (both s op left right)] := by
    rw [settleWays, if_neg (by simp [role])]
  have coherent {a b : Way} (ways : (binary op left right).ways s w = [a, b]) :
      ((binary op left right).outcome s w).operation.Coherent ↔
        (left.markOf s a).type = (right.markOf s b).type := by
    rw [coherent_binary ways]
    simp only [other, Bool.false_eq_true, false_implies, true_and, role, true_implies]
  rw [even]
  cases w with
  | inferred =>
    rw [coherent rfl]
    cases takes op left <;> cases takes op right <;> simp [markOf, unknownMark]
  | marked type =>
    have bare := valid.2.1
    simp [isBare, role] at bare
  | shown =>
    have operands := clean.operands proper spelled.1 spelled.2
    simp only [List.forall_mem_cons] at operands
    have properB := (clean.both_shared proper spelled.1 spelled.2).2
    rw [coherent rfl, operands.1.shown proper properB, operands.2.1.shown proper properB]
    exact iff_of_true rfl (by simp)
  | settled type => exact (coherent (settles type)).trans (iff_of_true rfl (by simp))
  | aimed type =>
    have below : (binary op left right).ways s (.aimed type) =
        [.settled (both s op left right), .settled (both s op left right)] := by
      simp only [ways, other, Bool.false_eq_true, if_false, settles]
    exact (coherent below).trans (iff_of_true rfl (by simp))
  | root =>
    have below : (binary op left right).ways s .root =
        [.settled (both s op left right), .settled (both s op left right)] := by
      simp only [ways, settles, List.map_cons, List.map_nil, Way.filled]
    exact (coherent below).trans (iff_of_true rfl (by simp))

end

/-! ### Inversion -/

/-- An inversion is coherent just if it is even. -/
theorem coherent_invert (proper : s.Proper) {operand : Term} {w : Way}
    (spelled : (unary .invert operand).Spelled) (valid : w.Valid s (unary .invert operand)) :
    ((unary .invert operand).outcome s w).operation.Coherent ↔ (unary .invert operand).Even w := by
  have other : (unary .invert operand).isNumeric = false := by
    rw [isNumeric, label, UnaryOp.ofLabel_text]
    rfl
  have clean := valid.clean other
  have coherent {a : Way} (ways : (unary .invert operand).ways s w = [a]) :
      ((unary .invert operand).outcome s w).operation.Coherent ↔
        (operand.markOf s a).type = ((unary .invert operand).markOf s w).type := by
    rw [outcome_operation, ways, Operation.Coherent, Tree.label_node, label, UnaryOp.ofLabel_text]
    simp only [children, List.zip_cons_cons, List.zip_nil_left, List.map_cons, List.map_nil,
      Tree.children_node, Tree.note_node, List.forall_mem_singleton, outcome_operation_note]
    exact ⟨fun h => h.1 rfl, fun h => ⟨fun _ => h, fun role => (by cases role)⟩⟩
  have own : (unary .invert operand).ownType s = operand.ownType s := ownType_invert ..
  have settled (type : TypeName) :
      (operand.markOf s (.settled (if operand.isBare && operand.isWorked then "int" else type))).type =
        some type ↔ (operand.isBare && operand.isWorked → type = "int") := by
    cases operand.isBare && operand.isWorked <;> simp [markOf, eq_comm]
  cases w with
  | inferred => exact (coherent rfl).trans (iff_of_true rfl trivial)
  | marked type =>
    exact (coherent rfl).trans ⟨fun same => (by cases same), fun even => (by cases even)⟩
  | shown =>
    refine (coherent rfl).trans (iff_of_true ?_ trivial)
    exact congrArg (Option.map TypeName.resolve) own.symm
  | settled type => exact (coherent rfl).trans (settled type)
  | aimed type =>
    have below : (unary .invert operand).ways s (.aimed type) =
        [.settled (if operand.isBare && operand.isWorked then "int" else type)] := by
      simp only [ways, other, Bool.false_eq_true, if_false, settleWays]
    exact (coherent below).trans (settled type)
  | root =>
    refine (coherent rfl).trans (iff_of_true ?_ trivial)
    obtain ⟨cleanO, type, is, -⟩ := clean.invert
    have spelledO : operand.Spelled := spelled
    have bare := cleanO.isBare_iff proper spelledO
    have shown : (unary .invert operand).markOf s .root = ⟨(some type).map TypeName.resolve, false⟩ := by
      rw [markOf, own, is]
    rw [shown, rootType, own, is]
    cases worked : operand.isBare && operand.isWorked with
    | true =>
      rw [is] at bare
      rw [Option.some.inj (bare.mpr (Bool.and_eq_true_iff.mp worked).1)]
      have int : some "int" = (some TypeName.untyped).map TypeName.resolve := by decide +kernel
      exact int
    | false => rfl

/-- A node that is visited is coherent just if it is even. -/
theorem coherent_outcome (proper : s.Proper) {e : Term} {w : Way} (spelled : e.Spelled)
    (valid : w.Valid s e) : (e.outcome s w).operation.Coherent ↔ e.Even w := by
  have other {role : Role} (is : Role.ofLabel e.label = role) (keeps : role.keepsType = false)
      (compares : role ≠ .comparison) (even : e.Even w) :
      (e.outcome s w).operation.Coherent ↔ e.Even w := by
    refine iff_of_true (Operation.coherent_of_other ?_ ?_) even
    · rwa [outcome_operation, Tree.label_node, is]
    · rwa [outcome_operation, Tree.label_node, is]
  cases e with
  | literal kind text => exact other (Role.ofLabel_literal kind text) rfl nofun trivial
  | load name => exact other (Role.ofLabel_load spelled) rfl nofun trivial
  | call function args => exact other (Role.ofLabel_call spelled.1) rfl nofun trivial
  | index base position => exact other Role.ofLabel_index rfl nofun trivial
  | binary op left right =>
    rcases operator_cases op with ⟨role, -⟩ | ⟨role, -⟩ | ⟨role, -⟩ | ⟨role, -⟩
    · exact coherent_numeric proper spelled (by simp [isNumeric_binary, role]) valid
    · exact coherent_numeric proper spelled (by simp [isNumeric_binary, role]) valid
    · exact other ((BinaryOp.ofLabel_text op).trans role) rfl nofun (by simp [Even, role])
    · exact coherent_comparison proper spelled role valid
  | unary op operand =>
    cases op with
    | not => exact other (UnaryOp.ofLabel_text .not) rfl nofun trivial
    | invert => exact coherent_invert proper spelled valid

/-- Numbers that stand alone are no trouble where every operator bears a type. -/
theorem even_of_written {e : Term} {w : Way}
    (written : e.isBare = true ∨ w = .inferred → e.children = []) (valid : w.Valid s e) :
    e.Even w := by
  have typed (nonempty : e.children ≠ []) : e.isBare = false ∧ w ≠ .inferred :=
    ⟨Bool.eq_false_iff.mpr fun bare => nonempty (written (.inl bare)),
      fun inferred => nonempty (written (.inr inferred))⟩
  cases e with
  | literal | load | call | index => trivial
  | binary op left right =>
    obtain ⟨other, shown⟩ := typed (by simp [children])
    have pair : EvenPair op left right w := by
      cases w with
      | inferred => exact absurd rfl shown
      | marked type => rw [valid.2.1] at other; cases other
      | settled type => intro bare; rw [other] at bare; cases bare
      | shown | aimed | root => trivial
    rcases operator_cases op with ⟨role, -⟩ | ⟨role, -⟩ | ⟨role, -⟩ | ⟨role, -⟩
    · simpa only [Even, role] using pair
    · simpa only [Even, role] using pair
    · simp only [Even, role]
    · simp only [Even, role]
      intro inferred
      exact absurd inferred shown
  | unary op operand =>
    obtain ⟨other, shown⟩ := typed (by simp [children])
    cases op with
    | not => trivial
    | invert =>
      have bare : operand.isBare = false := other
      cases w with
      | marked type => rw [valid.2.1] at other; cases other
      | settled type | aimed type => intro worked; rw [bare] at worked; cases worked
      | inferred | shown | root => trivial

end Term

/-- What holds of the operators in the typed tree of a directive. -/
structure Directive.Coherence (s : Scope) (c : Directive) (op : Operation) : Prop where
  spelled : c.Spelled
  shape : op.bare = c.tree.bare
  /-- Only what is assigned to a numeric variable can have errors. -/
  checked : c.storesNumber s = false → c.Checked s
  /-- Where there are no errors, the operators are coherent just where they are even. -/
  coherent_iff : c.Checked s →
    ((∀ n ∈ op.subtrees, Operation.Coherent n) ↔ ∀ v ∈ c.visits s, v.2.Even v.1)
  /-- So they are if no number is worked out from numbers alone and no operator lacks a type. -/
  coherent : c.Checked s →
    (∀ v ∈ c.visits s, v.2.isBare = true ∨ v.1 = .inferred → v.2.children = []) →
    ∀ n ∈ op.subtrees, Operation.Coherent n

/-- In an accepted program, the operators of every tree are coherent as far as the directive it
comes from has no errors and they are even. -/
theorem accepted_operators_coherent {files : List SourceFile}
    (texts : ∀ f ∈ files, ∃ text, f.content = .text text) {a : Analysis}
    (analysed : analyze files = .ok a) {typed : Entries} {results : TypeTable}
    (checked : checkTypes a.entries = .ok (.typed typed results)) :
    ∃ tables, checkedTables a.entries = .ok tables ∧
      ∀ name e g, (name, e, g) ∈ typed.defined → ∀ p ∈ g.blocks, ∀ op, p.2.tree = some op →
        ∃ c : Directive, c.Coherence (tables.scope name) op := by
  obtain ⟨tables, found, trees⟩ := typed_tree texts analysed checked
  refine ⟨tables, found, fun name e g inside p isBlock op tree => ?_⟩
  obtain ⟨complete, directives⟩ := trees name e g inside
  obtain ⟨c, spelled, accepted, typed⟩ := directives p isBlock op tree
  have proper := complete.toProper
  have iff (checked : c.Checked (tables.scope name)) :
      (∀ n ∈ op.subtrees, Operation.Coherent n) ↔ ∀ v ∈ c.visits (tables.scope name), v.2.Even v.1 := by
    have valid := Directive.visits_valid proper spelled checked accepted
    rw [Directive.forall_subtrees proper spelled checked accepted typed
      Operation.coherent_of_assigns]
    exact forall₂_congr fun v visited =>
      Term.coherent_outcome proper (valid v visited).1 (valid v visited).2
  refine ⟨c, spelled, Directive.assign_operation_bare typed, Directive.checked_of_storesNumber, iff,
    fun checked written => (iff checked).mpr fun v visited => ?_⟩
  exact Term.even_of_written (written v visited)
    (Directive.visits_valid proper spelled checked accepted v visited).2

/-- Numbers of two types, with a number that stands alone and one that is worked out. -/
theorem mixed_operators_coherent :
    let files : List SourceFile := [⟨"a.txt", .text
      ("method f(x: long, y: byte): bool begin f := ((x + 1) * 2 > 3) || (~y = 1 + 2); end;" ++
        "method main() var b: bool; x: long; begin b := f(x - 1, 2); x := 1 + 2 * x; end;")⟩]
    ∃ a typed results tables, typedProgram? files = some (a, typed, results, tables) ∧
      ∀ name e g, (name, e, g) ∈ typed.defined → ∀ p ∈ g.blocks, ∀ op, p.2.tree = some op →
        ∃ c : Directive, c.Coherence (tables.scope name) op := by
  intro files
  obtain ⟨a, typed, results, tables, found, -⟩ :=
    exists_typedProgram files (P := fun _ _ _ _ => True) (by decide +kernel)
  obtain ⟨analysed, checked, same⟩ := typedProgram_eq_some.mp found
  obtain ⟨_, same', each⟩ := accepted_operators_coherent (by simp [files]) analysed checked
  cases same.symm.trans same'
  exact ⟨a, typed, results, tables, found, each⟩

/-- The quotient takes its type from the variable that it is compared with, while the sum that it
is taken of has long become an `int`. -/
theorem worked_number_incoherent :
    let files : List SourceFile := [⟨"a.txt", .text
      "method main() var x: byte; b: bool; begin b := (200 + 100) / 2 < x; end;"⟩]
    ∃ a typed results tables, typedProgram? files = some (a, typed, results, tables) ∧
      ∃ d ∈ typed.defined, ∃ p ∈ d.2.2.blocks, ∃ op ∈ p.2.tree, ∃ n ∈ op.subtrees,
        ¬ Operation.Coherent n := by
  intro files
  exact exists_typedProgram files (by decide +kernel)

end MethodLang
