import MethodLang.Proofs.Program.Checked
import MethodLang.Proofs.Typing.Visiting

/-!
Calls and indices in accepted programs. Arguments and indices bear the types that their places ask
for if they were visited in a way that gives them types (`Term.Exposed`); what stands below a
logical operator that was settled is not. Errors on the right side of an assignment to a numeric
variable may go unnoticed, and then arguments need not even suit their places.
-/
namespace MethodLang

open Checker

variable {s : Scope}

namespace Term

/-- The arguments of a call and the index of an array get types unless the node was only inferred;
then bare numbers are the only arguments that do. -/
def Exposed (w : Way) : Term → Prop
  | .call _ args => w = .inferred → ∀ x ∈ args, x.isBare
  | .index _ _ => w ≠ .inferred
  | .literal _ _ | .load _ | .binary _ _ _ | .unary _ _ => True

/-- The way of an argument of a call. -/
def argWay (w : Way) : Term → TypeName → Way :=
  match w with
  | .inferred | .marked _ => hintWay
  | .shown => fun e type => (hintWay e type).filled
  | .settled _ | .aimed _ | .root => fun _ type => .settled type

theorem ways_call (w : Way) {function : String} (named : IsName function) (args : List Term) :
    (call function args).ways s w = argWays (argWay w) args (s.parameters function) := by
  have other : (call function args).isNumeric = false := by
    rw [isNumeric, label, Role.ofLabel_call named]
    rfl
  cases w with
  | inferred | marked | settled => rfl
  | shown => exact List.map_zipWith ..
  | root => exact List.map_zipWith ..
  | aimed type => simp only [ways, other, Bool.false_eq_true, if_false]; rfl

/-- The types that the arguments of a call bear. -/
theorem notes_eq {way : Term → TypeName → Way} {es : List Term} {ps : TypeTable}
    (each : List.Forall₂ (fun e p => ∃ type, p.2 = some type ∧ type.Proper ∧
      (e.markOf s (way e type)).type = some type) es ps) :
    (es.zip (argWays way es ps)).map (fun p => (p.1.markOf s p.2).type) =
      ps.map fun p => p.2.map TypeName.normalize := by
  induction each with
  | nil => rfl
  | cons first _ ih =>
    obtain ⟨type, is, proper, note⟩ := first
    simp only [argWays, List.zipWith_cons_cons, List.zip_cons_cons, List.map_cons] at ih ⊢
    rw [ih, is, Option.getD_some, note, Option.map_some, proper.normalize_eq]

/-- If a call was only inferred, just the bare numbers among its arguments bear types. -/
theorem notes_hints_iff {es : List Term} {ps : TypeTable}
    (each : List.Forall₂ (fun _ p => ∃ type, p.2 = some type ∧ type.Proper) es ps) :
    (es.zip (argWays hintWay es ps)).map (fun p => (p.1.markOf s p.2).type) =
      ps.map (fun p => p.2.map TypeName.normalize) ↔ ∀ x ∈ es, x.isBare := by
  induction each with
  | nil => exact ⟨fun _ => List.forall_mem_nil _, fun _ => rfl⟩
  | @cons e p es ps first _ ih =>
    obtain ⟨type, is, proper⟩ := first
    simp only [argWays, List.zipWith_cons_cons, List.zip_cons_cons, List.map_cons, List.cons.injEq,
      List.forall_mem_cons] at ih ⊢
    refine and_congr ?_ ih
    rw [is, Option.getD_some, Option.map_some, proper.normalize_eq, hintWay]
    cases e.isBare with
    | true => exact ⟨fun _ => rfl, fun _ => rfl⟩
    | false => exact ⟨fun shown => (by cases shown), fun bare => (by cases bare)⟩

theorem conforms_call (complete : s.Complete) {function : String} {args : List Term} {w : Way}
    (spelled : (call function args).Spelled) (valid : w.Valid s (call function args)) :
    Operation.Conforms s ((call function args).outcome s w).operation ↔
      (call function args).Exposed w := by
  have proper := complete.toProper
  have other : (call function args).isNumeric = false := by
    rw [isNumeric, label, Role.ofLabel_call spelled.1]
    rfl
  have clean := valid.clean other
  have arguments := clean.args proper spelled
  obtain ⟨_, known, _⟩ := clean.call proper spelled.1
  obtain ⟨parameters, found⟩ := Option.isSome_iff_exists.mp (complete.known function ▸ known)
  have same : s.parameters function = parameters := by simp [Scope.parameters, found]
  have notes : Operation.Conforms s ((call function args).outcome s w).operation ↔
      (args.zip (argWays (argWay w) args (s.parameters function))).map
        (fun p => (p.1.markOf s p.2).type) =
      (s.parameters function).map fun p => p.2.map TypeName.normalize := by
    rw [outcome_operation, ways_call w spelled.1]
    simp only [Operation.Conforms, Tree.label_node, label, Role.ofLabel_call spelled.1,
      Tree.children_node, found, Option.some.injEq, exists_eq_left', ← same, List.map_map, children]
    simp only [Function.comp_def, outcome_operation_note]
  have given (each : ∀ e type, Argument s args type e →
      (e.markOf s (argWay w e type)).type = some type) :
      Operation.Conforms s ((call function args).outcome s w).operation :=
    notes.mpr (notes_eq (arguments.imp fun e p typed => typed.imp fun type is =>
      ⟨is.1, is.2.proper, each e type is.2⟩))
  cases w with
  | inferred =>
    rw [notes]
    exact (notes_hints_iff (arguments.imp fun e p typed => typed.imp fun type is =>
      ⟨is.1, is.2.proper⟩)).trans ⟨fun h _ => h, fun h => h rfl⟩
  | marked type => cases valid.2.1
  | settled | aimed | root =>
    exact iff_of_true (given fun _ _ _ => rfl) fun inferred => by cases inferred
  | shown =>
    refine iff_of_true (given fun e type argument => ?_) fun inferred => by cases inferred
    -- what is no bare number has the type of its parameter, and is shown it
    simp only [argWay, hintWay]
    cases bare : e.isBare with
    | true => rfl
    | false =>
      rcases shares_of_suits argument.proper argument.suits with ⟨own, -⟩ | ⟨own, -⟩
      · exact (congrArg (Option.map TypeName.resolve) own).trans
          (congrArg some argument.proper.resolve_eq)
      · rw [(argument.clean.isBare_iff proper argument.spelled).mp own] at bare
        cases bare

theorem conforms_index (proper : s.Proper) {base position : Term} {w : Way}
    (spelled : (index base position).Spelled) (valid : w.Valid s (index base position)) :
    Operation.Conforms s ((index base position).outcome s w).operation ↔
      (index base position).Exposed w := by
  have other : (index base position).isNumeric = false := by
    rw [isNumeric, label, Role.ofLabel_index]
    rfl
  have clean := valid.clean other
  obtain ⟨name, rfl⟩ := clean.base_load proper spelled
  obtain ⟨cleanB, cleanP, array, int⟩ := clean.index
  obtain ⟨type, own, -⟩ := cleanB.place proper spelled.2.1 rfl
  have arrays (v : Way) :
      (Operation.ownType s ((load name).outcome s v).operation).any TypeName.isArray := by
    have shapes : (load name).Shapes ((load name).outcome s v).operation := by
      rw [outcome_operation, shapes_iff]
      exact ⟨rfl, .nil⟩
    rw [shapes.ownType_eq, own]
    exact array type own
  -- only the type of the index is left to be decided
  have conforms {a b : Way} (ways : (index (load name) position).ways s w = [a, b]) :
      Operation.Conforms s ((index (load name) position).outcome s w).operation ↔
        (position.markOf s b).type = some "int" := by
    rw [outcome_operation, ways]
    simp only [Operation.Conforms, Tree.label_node, label, Role.ofLabel_index, Tree.children_node,
      children, List.zip_cons_cons, List.zip_nil_left, List.map_cons, List.map_nil]
    constructor
    · rintro ⟨b', p', same, -, note⟩
      obtain ⟨-, rfl⟩ : _ ∧ (position.outcome s b).operation = p' := by simpa using same
      rwa [outcome_operation_note] at note
    · intro note
      exact ⟨_, _, rfl, arrays a, by rwa [outcome_operation_note]⟩
  have shown : ((position.ownType s).map TypeName.resolve) = some "int" := by
    rcases shares_of_suits TypeName.proper_int int with ⟨own, -⟩ | ⟨own, -⟩
    · rw [own]
      decide +kernel
    · rw [own]
      decide +kernel
  cases w with
  | inferred => exact (conforms rfl).trans ⟨fun note => (by cases note), fun h => absurd rfl h⟩
  | marked type => cases valid.2.1
  | shown => exact (conforms rfl).trans (iff_of_true shown Way.noConfusion)
  | settled type | root => exact (conforms rfl).trans (iff_of_true rfl Way.noConfusion)
  | aimed type =>
    refine (conforms (a := .inferred) (b := .settled "int") ?_).trans
      (iff_of_true rfl Way.noConfusion)
    simp only [ways, other, Bool.false_eq_true, if_false]
    rfl

/-- A node that is visited conforms just if it is exposed. -/
theorem conforms_outcome (complete : s.Complete) {e : Term} {w : Way} (spelled : e.Spelled)
    (valid : w.Valid s e) : Operation.Conforms s (e.outcome s w).operation ↔ e.Exposed w := by
  cases e with
  | call function args => exact conforms_call complete spelled valid
  | index base position => exact conforms_index complete.toProper spelled valid
  | literal | load | binary | unary =>
    obtain ⟨noCall, noIndex⟩ := plain_role spelled (by simp) (by simp)
    refine iff_of_true (Operation.plain ?_ noCall noIndex).1 trivial
    rw [outcome_operation, Tree.label_node]

end Term

/-- In a term that has no errors once a numeric type is asked of it every node fits. -/
theorem Term.Aims.fits (complete : s.Complete) {type : TypeName} {e : Term} (spelled : e.Spelled)
    (aims : e.Aims s type) {n : Operation} (shapes : e.Shapes n) :
    ∀ m ∈ n.subtrees, Operation.Fits s m := by
  induction e using Term.children_induction generalizing n with
  | step e ih =>
    cases numeric : e.isNumeric with
    | false => exact ((Term.aims_other numeric).mp aims).1.fits complete spelled shapes
    | true =>
      obtain ⟨op, left, right, rfl, -⟩ := Term.binary_of_isNumeric spelled numeric
      obtain ⟨aimsL, aimsR⟩ := (Term.aims_pair numeric).mp aims
      obtain ⟨label, each⟩ := Term.shapes_iff.mp shapes
      obtain ⟨noCall, noIndex⟩ := Term.plain_role spelled (by simp) (by simp)
      refine (Tree.forall_subtrees n).mpr ⟨(Operation.plain (by rw [label]) noCall noIndex).2.1, ?_⟩
      intro c isChild
      obtain ⟨x, inside, same⟩ := exists_of_mem_left each.flip isChild
      have aimsX : x.Aims s type := by
        rcases List.mem_pair.mp inside with rfl | rfl
        · exact aimsL
        · exact aimsR
      exact ih x inside (spelled.children x inside) aimsX same

theorem Directive.Checked.fits (complete : s.Complete) {c : Directive} (spelled : c.Spelled)
    (checked : c.Checked s) (accepted : (c.fresh.assign s).errors = []) {op : Operation}
    (typed : (c.fresh.assign s).node.operation = op) : ∀ n ∈ op.subtrees, Operation.Fits s n := by
  cases number : c.storesNumber s with
  | false => exact fits_of_accepted complete spelled accepted typed number
  | true =>
    cases c with
    | value | storeAt => cases number
    | store name right =>
      obtain ⟨type, known, numeric⟩ : ∃ type, s.variableType name = some type ∧ type.isNumeric := by
        simpa [storesNumber, Option.any_eq_true] using number
      have shapes := parts_shapes (assign_operation_bare typed)
      refine (forall_parts spelled (assign_operation_label typed) fun assigns =>
        (Operation.plain_of_assigns assigns).2.1).mpr fun t isPart => ?_
      obtain ⟨e, inside, same⟩ := exists_of_mem_left shapes.flip isPart
      obtain rfl := List.mem_singleton.mp inside
      exact (checked type known numeric).fits complete spelled.2 same

/-- What holds of the calls and indices in the typed tree of a directive. -/
structure Directive.Conformity (s : Scope) (c : Directive) (op : Operation) : Prop where
  spelled : c.Spelled
  shape : op.bare = c.tree.bare
  /-- Arguments and indices bear the types of their places just if they suit these and bear any. -/
  conforms_iff : (∀ n ∈ op.subtrees, Operation.Conforms s n) ↔
    (∀ n ∈ op.subtrees, Operation.Fits s n) ∧ ∀ n ∈ op.subtrees, Operation.Given n
  /-- Only what is assigned to a numeric variable can have errors. -/
  checked : c.storesNumber s = false → c.Checked s
  fits : c.Checked s → ∀ n ∈ op.subtrees, Operation.Fits s n
  /-- Where there are no errors, types are missing just where settling does not go. -/
  exposed : c.Checked s → ((∀ n ∈ op.subtrees, Operation.Conforms s n) ↔
    ∀ v ∈ c.visits s, v.2.Exposed v.1)

/-- In an accepted program, the calls and indices of every tree conform as far as the directive it
comes from has no errors and exposes them. -/
theorem accepted_calls_conform {files : List SourceFile}
    (texts : ∀ f ∈ files, ∃ text, f.content = .text text) {a : Analysis}
    (analysed : analyze files = .ok a) {typed : Entries} {results : TypeTable}
    (checked : checkTypes a.entries = .ok (.typed typed results)) :
    ∃ tables, checkedTables a.entries = .ok tables ∧
      ∀ name e g, (name, e, g) ∈ typed.defined → ∀ p ∈ g.blocks, ∀ op, p.2.tree = some op →
        ∃ c : Directive, c.Conformity (tables.scope name) op := by
  obtain ⟨tables, found, trees⟩ := typed_tree texts analysed checked
  refine ⟨tables, found, fun name e g inside p isBlock op tree => ?_⟩
  obtain ⟨complete, directives⟩ := trees name e g inside
  obtain ⟨c, spelled, accepted, typed⟩ := directives p isBlock op tree
  refine ⟨c, spelled, Directive.assign_operation_bare typed,
    Directive.conforms_iff complete spelled accepted typed, Directive.checked_of_storesNumber,
    fun checked => checked.fits complete spelled accepted typed, fun checked => ?_⟩
  have valid := Directive.visits_valid complete.toProper spelled checked accepted
  rw [Directive.forall_subtrees complete.toProper spelled checked accepted typed fun assigns =>
    (Operation.plain_of_assigns assigns).1]
  exact forall₂_congr fun v visited =>
    Term.conforms_outcome complete (valid v visited).1 (valid v visited).2

/-- An element below a call, in what is assigned to a variable that is not numeric. -/
theorem element_argument_conforms :
    let files : List SourceFile := [⟨"a.txt", .text
      ("method f(x: long): bool begin f := x > 1; end;" ++
        "method main() var b: bool; a: array[] of long; i: int; begin b := f(a[i + 1]); end;")⟩]
    ∃ a typed results tables, typedProgram? files = some (a, typed, results, tables) ∧
      ∀ name e g, (name, e, g) ∈ typed.defined → ∀ p ∈ g.blocks, ∀ op, p.2.tree = some op →
        ∃ c : Directive, c.Conformity (tables.scope name) op := by
  intro files
  obtain ⟨a, typed, results, tables, found, -⟩ :=
    exists_typedProgram files (P := fun _ _ _ _ => True) (by decide +kernel)
  obtain ⟨analysed, checked, same⟩ := typedProgram_eq_some.mp found
  obtain ⟨_, same', each⟩ := accepted_calls_conform (by simp [files]) analysed checked
  cases same.symm.trans same'
  exact ⟨a, typed, results, tables, found, each⟩

/-- Surplus arguments go unnoticed where the result is assigned to a numeric variable. -/
theorem surplus_arguments_accepted :
    let files : List SourceFile := [⟨"a.txt", .text
      ("method f(a: int): int begin f := a; end;" ++
        "method main() var x: int; begin x := f(1, 2, 3); end;")⟩]
    ∃ a typed results tables, typedProgram? files = some (a, typed, results, tables) ∧
      ∃ d ∈ typed.defined, ∃ p ∈ d.2.2.blocks, ∃ op ∈ p.2.tree, ∃ n ∈ op.subtrees,
        ¬ Operation.Conforms (tables.scope d.1) n := by
  intro files
  exact exists_typedProgram files (by decide +kernel)

end MethodLang
