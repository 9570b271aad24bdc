import MethodLang.Program.Compile
import MethodLang.Proofs.Program.Balance
import MethodLang.Proofs.Program.Framing
import MethodLang.Proofs.Program.Quiet

/-!
When an accepted program is written to its end. The generator looks up again what earlier stages
have looked at: the labels of edges, the slots of variables, the text of literals. It stops with a
fault where a choice is not decided, where a literal is in several lines or too long, where an
element has several indices, and where an unchecked right side names a variable that is not there
(`accepted_written_iff`).
-/
namespace MethodLang

/-! ### Jumps -/

namespace Code

theorem edgeLabelled_pair (outcome : String) (e f : Edge) :
    (∃ id, edgeLabelled outcome [e, f] = .ok id) ↔
      e.2.map Text.lower = some outcome ∨
        e.2.isSome ∧ f.2.map Text.lower = some outcome := by
  obtain ⟨id, label⟩ := e
  obtain ⟨id', label'⟩ := f
  cases label with
  | none => simp [edgeLabelled]
  | some l =>
    by_cases here : Text.lower l = outcome
    · simp [edgeLabelled, here]
    · cases label' with
      | none => simp [edgeLabelled, here]
      | some l' => by_cases there : Text.lower l' = outcome <;> simp [edgeLabelled, here, there]

/-- The jumps out of a choice between two edges. -/
theorem fault_choice (e f : Edge) : (jumps [e, f]).fault = none ↔
    (∃ yes, edgeLabelled "true" [e, f] = .ok yes) ∧ ∃ no, edgeLabelled "false" [e, f] = .ok no := by
  unfold jumps
  simp only
  cases edgeLabelled "true" [e, f] with
  | error fault => simp
  | ok yes =>
    cases edgeLabelled "false" [e, f] with
    | error fault => simp
    | ok no => simp

/-- The jumps of a block with at most two edges are written just if it is decided. -/
theorem fault_jumps {b : Block} (narrow : b.succs.length ≤ 2) :
    (jumps b.succs).fault = none ↔ b.Decided := by
  obtain ⟨label, tree, succs⟩ := b
  unfold Block.Decided
  obtain _ | ⟨e, _ | ⟨f, _ | ⟨_, _⟩⟩⟩ := succs
  · simp [jumps]
  · simp [jumps]
  · rw [fault_choice, edgeLabelled_pair, edgeLabelled_pair]
    obtain ⟨id, label⟩ := e
    obtain ⟨id', label'⟩ := f
    cases label with
    | none => simp
    | some l => cases label' <;> grind
  · simp at narrow

end Code

theorem prune_narrow {g : Graph} {entry exit : BlockId} (narrow : Blocks.Narrow g.blocks) :
    Blocks.Narrow (g.prune entry exit).blocks := by
  refine List.forall_mem_map.mpr fun p kept => ?_
  exact Nat.le_trans (List.length_filter_le _ _) (narrow p (List.mem_filter.mp kept).1)

theorem TypedFrom.narrow {tables : Tables} {name : String} {e e₀ : Entry} {g g₀ : Graph}
    (from_ : TypedFrom tables name e g e₀ g₀) {m : Method} (read : e₀.ReadFrom m) :
    Blocks.Narrow g.blocks := by
  obtain ⟨body, built, has, build, rfl, -⟩ := read.graph _ from_.untyped
  rw [from_.blocks]
  refine List.forall_mem_map.mpr fun p inside => ?_
  have narrow := prune_narrow (buildGraph_narrow has build) p inside
  simp only [TypeCheck.checkBlock]
  split <;> exact narrow

/-! ### Directives -/

namespace Term

variable {s : Scope}

/-- A literal is one that has code. -/
def IsWritable : Term → Prop
  | .literal kind text => kind.Writable text
  | _ => True

/-- A variable is one with a type. -/
def IsDeclared (s : Scope) : Term → Prop
  | .load name => (s.variableType name).isSome
  | _ => True

theorem HasType.declared {e : Term} {type : TypeName} (has : e.HasType s type) :
    ∀ t ∈ e.subterms, t.IsDeclared s := by
  induction e using children_induction generalizing type with
  | step e ih =>
    refine (forall_subterms e).mpr ⟨?_, fun x inside => ?_⟩
    · cases e with
      | load name =>
        obtain _ | _ | _ | _ | ⟨declared⟩ := has
        exact Option.isSome_iff_exists.mpr ⟨_, declared⟩
      | _ => trivial
    · obtain ⟨_, typed⟩ := has.children x inside
      exact ih x inside typed

theorem Rated.declared {e : Term} {type : Option TypeName} (rated : e.Rated s type) :
    ∀ t ∈ e.subterms, t.IsDeclared s := by
  cases type with
  | none =>
    obtain ⟨function, args, rfl, -, -, typed⟩ := rated
    refine (forall_subterms _).mpr ⟨trivial, fun x inside => ?_⟩
    obtain ⟨_, has⟩ := typed.each x inside
    exact has.declared
  | some type =>
    by_cases bare : type = TypeName.untyped
    · subst bare
      have int : e.HasType s "int" := rated.numeric (by decide)
      exact int.declared
    · exact (rated.hasType bare).declared

end Term

namespace Directive

/-- Every variable that is loaded has a type. -/
def Declared (s : Scope) (c : Directive) : Prop :=
  ∀ e ∈ c.terms, ∀ t ∈ e.subterms, t.IsDeclared s

/-- What it takes for an accepted directive to have code. -/
structure Usable (s : Scope) (c : Directive) : Prop where
  literals : ∀ e ∈ c.terms, ∀ t ∈ e.subterms, t.IsWritable
  declared : c.Declared s
  index : ∀ array indices right, c = .storeAt array indices right → indices.length = 1

variable {s : Scope}

/-- If no error was dropped, all variables have types. -/
theorem Checked.declared {c : Directive} (checked : c.Checked s) (proper : s.Proper)
    (spelled : c.Spelled) (accepted : (c.fresh.assign s).errors = []) : c.Declared s := by
  intro e inside
  cases c with
  | value e' =>
    obtain rfl := List.mem_singleton.mp inside
    exact ((assign_value_clean accepted).rated proper spelled).declared
  | store _ _ | storeAt _ _ _ =>
    obtain ⟨_, has⟩ := assigned_hasType proper spelled checked accepted (by simp) e inside
    exact has.declared

/-- The variable that is assigned to, or into. -/
def target? : Directive → Option String
  | .value _ => none
  | .store name _ => some name
  | .storeAt array _ _ => some array

theorem Spelled.target {c : Directive} (spelled : c.Spelled) : ∀ name ∈ c.target?, IsName name := by
  cases c with
  | value e => exact fun name is => nomatch is
  | store _ _ | storeAt _ _ _ =>
    rintro name ⟨⟩
    exact spelled.1

/-- What is assigned to has a type. -/
theorem target_known {c : Directive} (spelled : c.Spelled)
    (accepted : (c.fresh.assign s).errors = []) :
    ∀ name ∈ c.target?, (s.variableType name).isSome := by
  cases c with
  | value e => exact fun name is => nomatch is
  | store name right =>
    rintro _ ⟨⟩
    rw [(assign_eq (inferRole_store spelled.1 right) rfl).1] at accepted
    cases known : s.variableType name with
    | none => exact absurd accepted (inferStore_unknown known _ _ _ _)
    | some type => rfl
  | storeAt array indices right =>
    rintro _ ⟨⟩
    rw [(assign_eq (inferRole_storeAt spelled.1 indices right) rfl).1] at accepted
    obtain ⟨type, known, -⟩ := inferStoreAt_clean (by simp) accepted
    rw [known]
    rfl

/-- An accepted directive has code in a frame with a slot for every variable of the scope just if
it is usable. -/
theorem codable_iff_usable {c : Directive} (spelled : c.Spelled)
    (accepted : (c.fresh.assign s).errors = []) {frame : Frame}
    (framed : ∀ x, ((frame.slot? (loadedName x)).isSome ↔ (s.variableType x).isSome) ∧
      ∀ slot, frame.slot? x = some slot → slot.type.isSome) :
    c.Codable frame ↔ c.Usable s := by
  have term (t : Term) : t.Codable frame ↔ t.IsWritable ∧ t.IsDeclared s := by
    cases t with
    | literal kind text => simp [Term.Codable, Term.IsWritable, Term.IsDeclared]
    | load name => simp [Term.Codable, Term.IsWritable, Term.IsDeclared, (framed name).1]
    | _ => simp [Term.Codable, Term.IsWritable, Term.IsDeclared]
  have slot : ∀ name ∈ c.target?, ∃ slot, frame.slot? name = some slot ∧ slot.type.isSome := by
    intro name is
    have found := (framed name).1.mpr (target_known spelled accepted name is)
    rw [loadedName_name (spelled.target name is)] at found
    obtain ⟨slot, found⟩ := Option.isSome_iff_exists.mp found
    exact ⟨slot, found, (framed name).2 slot found⟩
  have assignable : c.Assignable frame ↔
      ∀ array indices right, c = .storeAt array indices right → indices.length = 1 := by
    cases c with
    | value e => simp [Assignable]
    | store name right =>
      obtain ⟨slot, found, -⟩ := slot name rfl
      simp [Assignable, found]
    | storeAt array indices right =>
      have found := slot array rfl
      simp only [Assignable, found, and_true, storeAt.injEq]
      exact ⟨fun one _ _ _ same => same.2.1 ▸ one, fun h => h _ _ _ ⟨rfl, rfl, rfl⟩⟩
  rw [Codable, assignable]
  simp only [term]
  constructor
  · rintro ⟨terms, index⟩
    exact ⟨fun e inside t below => (terms e inside t below).1,
      fun e inside t below => (terms e inside t below).2, index⟩
  · rintro ⟨literals, declared, index⟩
    exact ⟨fun e inside t below => ⟨literals e inside t below, declared e inside t below⟩, index⟩

end Directive

/-! ### Programs -/

theorem Code.fault_program {results : TypeTable} {typed : Entries} :
    (program results typed).fault = none ↔ ∀ name e g, (name, e, g) ∈ typed.defined →
      ∀ p ∈ g.blocks, (block (e.context results) p.1 p.2).fault = none := by
  simp only [program, methods, fault_append_iff, fault_write, true_and, fault_join,
    List.forall_mem_map, Prod.forall]
  refine forall₃_congr fun name e g => forall_congr' fun _ => ?_
  simp only [method, fault_append_iff, fault_write, true_and, and_true, fault_join,
    List.forall_mem_map, Prod.forall]
  rfl

theorem Block.fault_code {ctx : CodeContext} {id : BlockId} {b : Block}
    (narrow : b.succs.length ≤ 2) : (Code.block ctx id b).fault = none ↔
      b.Decided ∧ ∀ op, b.tree = some op → (op.code ctx).fault = none := by
  rw [Block.code_eq, Code.fault_append_iff, Code.fault_append_iff, Code.fault_jumps narrow]
  simp only [Code.fault_write, true_and, Block.treeCode]
  cases b.tree <;> simp [and_comm]

/-- A program that passes every check: it is read from texts, has no report and no error of types,
and has a main method. -/
structure Accepted (files : List SourceFile) (a : Analysis) (typed : Entries)
    (results : TypeTable) : Prop where
  texts : ∀ f ∈ files, ∃ text, f.content = .text text
  analysed : analyze files = .ok a
  quiet : a.entries.report? = none
  checked : checkTypes a.entries = .ok (.typed typed results)
  main : mainFlaw? a.entries = .ok none

/-- A property of an accepted program that can be evaluated. -/
theorem exists_accepted (files : List SourceFile)
    (texts : ∀ f ∈ files, ∃ text, f.content = .text text)
    {P : Analysis → Entries → TypeTable → Prop} [∀ a typed results, Decidable (P a typed results)]
    (h : (typedProgram? files).any (fun x => decide (x.1.entries.Quiet ∧
      mainFlaw? x.1.entries = .ok none ∧ P x.1 x.2.1 x.2.2.1)) = true) :
    ∃ a typed results, Accepted files a typed results ∧ P a typed results := by
  obtain ⟨a, typed, results, _, found, quiet, main, holds⟩ := exists_typedProgram files
    (P := fun a typed results _ => a.entries.Quiet ∧ mainFlaw? a.entries = .ok none ∧
      P a typed results) h
  obtain ⟨analysed, checked, -⟩ := typedProgram_eq_some.mp found
  exact ⟨a, typed, results,
    ⟨texts, analysed, Entries.report?_eq_none.mpr quiet, checked, main⟩, holds⟩

/-- Compiling an accepted program writes its code, or stops with the fault of the code. -/
theorem Accepted.compile_eq {files : List SourceFile} {a : Analysis} {typed : Entries}
    {results : TypeTable} (accepted : Accepted files a typed results) (directory : String) :
    compile directory files = match (Code.program results typed).fault with
      | some fault => .error fault
      | none => .ok (((Outcome.ofAnalysis a).addPictures
          (typedPictures Outcome.typedDirectory typed)).addFile Outcome.codePath
            (Code.program results typed).text ("Ассемблерный код сохранен в " ++
              Pathname.inside directory Outcome.codePath ++ "\n")) := by
  cases written : (Code.program results typed).fault <;>
    simp only [compile, accepted.analysed, accepted.quiet, accepted.checked, accepted.main,
      written, Bind.bind, Except.bind]

/-- An accepted program is compiled just if its code is written without a fault. -/
theorem Accepted.compile_iff {files : List SourceFile} {a : Analysis} {typed : Entries}
    {results : TypeTable} (accepted : Accepted files a typed results) (directory : String) :
    (∃ outcome, compile directory files = .ok outcome ∧
        (Outcome.codePath, (Code.program results typed).text) ∈ outcome.files) ↔
      (Code.program results typed).fault = none := by
  rw [accepted.compile_eq]
  cases (Code.program results typed).fault with
  | some fault => simp
  | none => simp [Outcome.addFile]

/-- What holds of every tree of an accepted program. -/
structure Directive.Underlies (s : Scope) (op : Operation) (c : Directive) : Prop where
  spelled : c.Spelled
  accepted : (c.fresh.assign s).errors = []
  shape : op.bare = c.tree.bare
  /-- Only what is assigned to a numeric variable can have errors. -/
  checked : c.storesNumber s = false → c.Checked s
  declared : c.Checked s → c.Declared s

/-- An accepted program is written to its end, and so compiled, just if every choice in its graphs
has an edge for either outcome, and every tree is that of a usable directive. -/
theorem accepted_written_iff {files : List SourceFile} {a : Analysis} {typed : Entries}
    {results : TypeTable} (accepted : Accepted files a typed results) :
    ∃ tables, checkedTables a.entries = .ok tables ∧
      ((Code.program results typed).fault = none ↔
        ∀ name e g, (name, e, g) ∈ typed.defined → ∀ p ∈ g.blocks, p.2.Decided ∧
          ∀ op, p.2.tree = some op → ∃ c : Directive, c.Underlies (tables.scope name) op ∧
            c.Usable (tables.scope name)) ∧
      ∀ directory, (∃ outcome, compile directory files = .ok outcome ∧
          (Outcome.codePath, (Code.program results typed).text) ∈ outcome.files) ↔
        (Code.program results typed).fault = none := by
  obtain ⟨tables, found, rfl, each⟩ :=
    typed_method accepted.texts accepted.analysed accepted.checked
  refine ⟨tables, found, ?_, accepted.compile_iff⟩
  rw [Code.fault_program]
  refine forall₃_congr fun name e g => forall₃_congr fun inside p isBlock => ?_
  obtain ⟨complete, m, e₀, g₀, -, read, from_, hd, named, of, lists⟩ := each name e g inside
  rw [Block.fault_code (from_.narrow read p isBlock)]
  refine and_congr_right fun _ => forall₂_congr fun op tree => ?_
  have framed := from_.framed read named of lists
  constructor
  · intro written
    obtain ⟨c, spelled, clean, typed⟩ := from_.directive read isBlock tree
    have shape := Directive.assign_operation_bare typed
    refine ⟨c, ⟨spelled, clean, shape, Directive.checked_of_storesNumber, fun checked =>
      checked.declared complete.toProper spelled clean⟩, ?_⟩
    exact (Directive.codable_iff_usable spelled clean framed).mp
      ((Directive.fault_code_iff _ spelled shape).mp written)
  · rintro ⟨c, underlies, usable⟩
    exact (Directive.fault_code_iff _ underlies.spelled underlies.shape).mpr
      ((Directive.codable_iff_usable underlies.spelled underlies.accepted framed).mpr usable)

/-- A choice inside a loop, with a repetition in a block of its own. -/
theorem nested_choice_written :
    let files : List SourceFile := [⟨"a.txt", .text
      ("method f(x: long): bool begin f := x > 1; end;" ++
        "method main() var a: array[] of byte; x: long; begin " ++
        "while f(x - 1) do begin if x = 2 then begin repeat a[1] := 'b'; until f(x); end; " ++
        "else x := x + 0x1F; end; end;")⟩]
    ∃ a typed results, Accepted files a typed results ∧
      ∃ tables, checkedTables a.entries = .ok tables ∧
        (∀ name e g, (name, e, g) ∈ typed.defined → ∀ p ∈ g.blocks, p.2.Decided ∧
          ∀ op, p.2.tree = some op → ∃ c : Directive, c.Underlies (tables.scope name) op ∧
            c.Usable (tables.scope name)) ∧
        ∃ outcome, compile "out" files = .ok outcome ∧
          (Outcome.codePath, (Code.program results typed).text) ∈ outcome.files := by
  intro files
  obtain ⟨a, typed, results, accepted, written⟩ := exists_accepted files (by simp [files])
    (P := fun _ typed results => (Code.program results typed).fault = none) (by decide +kernel)
  obtain ⟨tables, found, usable, compiled⟩ := accepted_written_iff accepted
  exact ⟨a, typed, results, accepted, tables, found, usable.mp written, (compiled "out").mpr written⟩

/-- A repetition that is a branch itself leaves a choice without an edge for true. -/
theorem bare_repeat_unwritten :
    let files : List SourceFile := [⟨"a.txt", .text
      "method main() begin if true then repeat begin end; until true; end;"⟩]
    ∃ a typed results, Accepted files a typed results ∧
      (Code.program results typed).fault = some .unlabelledEdge := by
  intro files
  exact exists_accepted files (by simp [files]) (by decide +kernel)

end MethodLang
