import Mathlib.Data.List.Induction
import Mathlib.Data.List.Nodup
import MethodLang.Proofs.Grammar.Reading
import MethodLang.Proofs.Program.Framing
import MethodLang.Proofs.Typing.Agreement

/-!
Slots and scopes. The checker looks a variable up in the tables of its method, the generator in the
frame. As the tables and the frame's lists agree, both give it one type: a name has a type in the
scope just when its slot has that type (`declared_lists_agree`).
-/
namespace MethodLang

open Declaration TypeCheck

/-! ### Looking up -/

theorem TypeTable.lookup_set (table : TypeTable) (name : String) (type : Option TypeName)
    (x : String) : (table.set name type).lookup x =
      if x == name then some type else table.lookup x := by
  induction table with
  | nil =>
    rw [TypeTable.set, List.lookup_cons]
    cases x == name <;> rfl
  | cons p rest ih =>
    obtain ⟨n, t⟩ := p
    rw [TypeTable.set]
    by_cases here : n = name
    · subst here
      rw [if_pos rfl, List.lookup_cons, List.lookup_cons]
      cases x == n <;> rfl
    · rw [if_neg here, List.lookup_cons, List.lookup_cons, ih]
      cases same : x == n with
      | false => rfl
      | true =>
        rw [beq_iff_eq] at same
        simp [same, here]

namespace Frame

/-- The slot of a name has the type of its last declaration. -/
theorem find?_types (offset : Nat → Int) (names : TypeTable) (x : String) :
    (find? (place offset names) x).map Slot.type = names.reverse.lookup x := by
  induction names using List.reverseRecOn with
  | nil => rfl
  | append_singleton names p ih =>
    have last : place offset (names ++ [p]) =
        place offset names ++ [(p.1, ⟨p.2, offset names.length⟩)] := by
      simp [place, List.zipIdx_append]
    rw [last, find?, List.reverse_concat, List.reverse_concat, List.lookup_cons, List.lookup_cons,
      ← ih]
    cases x == p.1 <;> rfl

theorem slot?_types (params vars : TypeTable) (x : String) :
    ((ofMethod params vars).slot? x).map Slot.type =
      (vars.reverse.lookup x).or (params.reverse.lookup x) := by
  rw [slot?, Option.map_or]
  exact congrArg₂ Option.or (find?_types localOffset vars x) (find?_types _ params x)

end Frame

/-! ### Headings -/

/-- The frame lists of a method without flaws hold what its heading holds: the types of all names,
the result under the method's own name. -/
theorem Heading.Of.slot_types {hd : Heading} {m : Method} (of : hd.Of m.view) (spelled : m.Spelled)
    {body : Body} (has : m.body = some body) {params vars : TypeTable}
    (readParams : orderedArguments m.view = .ok params)
    (readVars : orderedVariables m.view = .ok vars) (x : String) :
    ((Frame.ofMethod params (vars ++
        (hd.result.map fun result => (hd.name, some result)).toList)).slot? x).map Slot.type =
      ((hd.vars.lookup x).or (hd.args.lookup x)).map (Option.map TypeName.normalize) := by
  obtain ⟨_, args, flaws, read, table, agree⟩ := arguments_agree spelled
  cases read.symm.trans readParams
  cases table.symm.trans of.args
  obtain ⟨distinctP, sameP⟩ := agree.unreported
  obtain ⟨_, locals_, flaws, read, table, agree⟩ := locals_agree spelled has
  cases read.symm.trans readVars
  obtain ⟨declared, table', isVars⟩ := methodVariables_ok of.vars
  rw [Method.body?_view, has] at table'
  cases table.symm.trans table'
  obtain ⟨distinctV, sameV⟩ := agree.unreported
  have ofParams : params.reverse.lookup x = (hd.args.lookup x).map (Option.map TypeName.normalize) := by
    rw [lookup_reverse distinctP, sameP, lookup_map]
  have ofLocals : vars.reverse.lookup x = (locals_.lookup x).map (Option.map TypeName.normalize) := by
    rw [lookup_reverse distinctV, sameV, lookup_map]
  rw [Frame.slot?_types, ofParams, Option.map_or]
  congr 1
  rw [isVars]
  cases result : hd.result with
  | none => simpa [result] using ofLocals
  | some r =>
    have proper := (of.proper (Method.view_typed spelled)).result r (by simp [result])
    rw [Option.isSome_some, if_pos rfl, TypeTable.lookup_set, Option.map_some, Option.toList_some,
      List.reverse_concat, List.lookup_cons, ofLocals]
    cases x == hd.name <;> simp [proper.normalize_eq]

/-- What the entry of a method is after its check, as far as its frame is concerned. -/
theorem checkEntry_frame {tables : Tables} {hd : Heading} (lists : tables.Lists hd) (e : Entry) :
    (checkEntry tables hd.name e).1.params = e.params ∧ (checkEntry tables hd.name e).1.vars =
      e.vars ++ (hd.result.map fun result => (hd.name, some result)).toList := by
  unfold checkEntry
  rw [lists.result]
  cases hd.result <;> cases e.graph <;> simp only [Option.join_some] <;> refine ⟨?_, ?_⟩ <;>
    (try split) <;> simp

theorem Scope.variableType_eq (s : Scope) (x : String) : s.variableType x =
    (((s.vars.lookup (loadedName x)).or (s.args.lookup (loadedName x))).map
      (Option.map TypeName.normalize)).join := by
  have opened : s.variableType x = (((s.vars.lookup (loadedName x)).orElse fun _ =>
      s.args.lookup (loadedName x)).join).map TypeName.normalize := rfl
  rw [opened]
  cases s.vars.lookup (loadedName x) with
  | some type => cases type <;> rfl
  | none =>
    cases s.args.lookup (loadedName x) with
    | some type => cases type <;> rfl
    | none => rfl

/-- In a program whose declarations have no flaw, a scope gives a variable the type of its slot. -/
theorem Analysis.Read.slot_type {a : Analysis} (read : a.Read) {d : Declared}
    (declared : a.entries.defined.foldlM declare ⟨⟨[], [], []⟩, []⟩ = .ok d)
    (clean : d.messages = []) {name : String} {e : Entry} {g : Graph}
    (isDefined : (name, e, g) ∈ a.entries.defined) (x : String) :
    ((withBuiltins d.tables).scope name).variableType x =
      (((Frame.ofMethod (checkEntry (withBuiltins d.tables) name e).1.params
        (checkEntry (withBuiltins d.tables) name e).1.vars).slot? (loadedName x)).map
          Slot.type).join := by
  have distinct := Entries.defined_distinct read.distinct
  obtain ⟨hs, headings, tables⟩ := declared_tables read.shaped distinct declared clean
  obtain ⟨hd, isHeading, rfl, t, tree, of⟩ := exists_of_mem_left headings isDefined
  have lists : (withBuiltins d.tables).Lists hd :=
    tables ▸ Tables.of_lists (headings_names headings ▸ distinct) isHeading
  obtain ⟨isEntry, notFile, graph⟩ := Entries.mem_defined.mp isDefined
  obtain ⟨m, from_⟩ := read.entries _ isEntry notFile
  cases from_.tree.symm.trans tree
  obtain ⟨body, _, has, _, _, readParams, readVars⟩ := from_.graph g graph
  obtain ⟨params, vars⟩ := checkEntry_frame lists e
  have scope : ((withBuiltins d.tables).scope hd.name).vars = hd.vars ∧
      ((withBuiltins d.tables).scope hd.name).args = hd.args := by
    simp [Tables.scope, lists.vars, lists.args]
  rw [Scope.variableType_eq, scope.1, scope.2]
  simp only [params, vars]
  rw [of.slot_types from_.spelled has readParams readVars]

/-! ### Programs -/

/-- In files of the language, every method's frame lists agree with the checker's tables. If the
declarations have no flaw, a variable has a type in the scope of its method just when it has a slot
of that type in the frame. -/
theorem declared_lists_agree {files : List SourceFile} {sources : List Source}
    (parsed : List.Forall₂ (fun f source => ∃ text,
      f.content = .text text ∧ parseSource text = some source) files sources) :
    (∀ m ∈ sources.flatten,
      (∃ params table flaws, orderedArguments m.view = .ok params ∧
        methodArguments m.view = .ok (table, flaws) ∧
        Agree m.signature.declared params table .repeatedArgument flaws) ∧
      ∀ body, m.body = some body → ∃ vars table flaws, orderedVariables m.view = .ok vars ∧
        locals (variableNodes body.view) = .ok (table, flaws) ∧
        Agree body.declared vars table .repeatedVariable flaws) ∧
    ∀ a d, analyze files = .ok a →
      a.entries.defined.foldlM declare ⟨⟨[], [], []⟩, []⟩ = .ok d → d.messages = [] →
      ∀ name e g, (name, e, g) ∈ a.entries.defined →
        let tables := withBuiltins d.tables
        let typed := (checkEntry tables name e).1
        ∀ x type, (tables.scope name).variableType x = some type ↔
          ∃ slot, (Frame.ofMethod typed.params typed.vars).slot? (loadedName x) = some slot ∧
            slot.type = some type := by
  refine ⟨fun m isMethod => ?_, fun a d analysed declared clean name e g isDefined => ?_⟩
  · obtain ⟨source, isSource, inside⟩ := List.mem_flatten.mp isMethod
    obtain ⟨f, -, text, -, read⟩ := exists_of_mem_left parsed.flip isSource
    have spelled := parseSource_spelled read m inside
    exact ⟨arguments_agree spelled, fun body has => locals_agree spelled has⟩
  · have texts : ∀ f ∈ files, ∃ text, f.content = .text text := fun f isFile => by
      obtain ⟨_, -, text, content, -⟩ := exists_of_mem_left parsed isFile
      exact ⟨text, content⟩
    intro tables typed x type
    rw [(analyze_read texts analysed).slot_type declared clean isDefined x, Option.join_eq_some_iff,
      Option.map_eq_some_iff]

/-- Repeated names beside groups without names or types are reported; a variable with the name of
its function gets the type of the result. -/
theorem repeated_and_hidden_names :
    let repeated := "method f(a: int, b, a: byte) var x, y: array[] of int; : bool; z, x; begin end;"
    let hidden := "method f(a: byte): bool var f: int; begin f := a > 1; end;"
    (∃ source m params table flaws, parseSource repeated = some source ∧ m ∈ source ∧
      orderedArguments m.view = .ok params ∧ methodArguments m.view = .ok (table, flaws) ∧
      .repeatedArgument "a" ∈ flaws ∧ .repeatedArgument "b" ∉ flaws) ∧
    ∃ a d e g, analyze [⟨"a.txt", .text hidden⟩] = .ok a ∧
      a.entries.defined.foldlM declare ⟨⟨[], [], []⟩, []⟩ = .ok d ∧ d.messages = [] ∧
      ("f", e, g) ∈ a.entries.defined ∧ ∃ slot,
        (Frame.ofMethod (checkEntry (withBuiltins d.tables) "f" e).1.params
          (checkEntry (withBuiltins d.tables) "f" e).1.vars).slot? "f" = some slot ∧
        slot.type = some "bool" := by
  intro repeated hidden
  constructor
  · obtain ⟨source, parsed, m, inside, names⟩ : ∃ x ∈ parseSource repeated, ∃ m ∈ x,
        m.signature.declared.map (·.1) = ["a", "b", "a"] := by decide +kernel
    have files : List.Forall₂ (fun f source => ∃ text,
        f.content = .text text ∧ parseSource text = some source)
        [(⟨"a.txt", .text repeated⟩ : SourceFile)] [source] := .cons ⟨_, rfl, parsed⟩ .nil
    obtain ⟨params, table, flaws, list, read, agree⟩ :=
      ((declared_lists_agree files).1 m (by simpa using inside)).1
    have every : params.map (·.1) = ["a", "b", "a"] := by
      rw [agree.every, List.map_map]
      exact names
    exact ⟨source, m, params, table, flaws, parsed, inside, list, read,
      (agree.reports "a").mpr (every ▸ by decide), fun reported => absurd
        ((agree.reports "b").mp reported) (every ▸ by decide)⟩
  · obtain ⟨source, parsed, -⟩ : ∃ x ∈ parseSource hidden, x.isEmpty = false := by decide +kernel
    have files : List.Forall₂ (fun f source => ∃ text,
        f.content = .text text ∧ parseSource text = some source)
        [(⟨"a.txt", .text hidden⟩ : SourceFile)] [source] := .cons ⟨_, rfl, parsed⟩ .nil
    obtain ⟨a, typed, results, tables, found, ⟨name, e, g⟩, isDefined, rfl, type⟩ :=
      exists_typedProgram [⟨"a.txt", .text hidden⟩] (P := fun a _ _ tables =>
        ∃ p ∈ a.entries.defined, p.1 = "f" ∧
          (tables.scope p.1).variableType "f" = some "bool") (by decide +kernel)
    obtain ⟨analysed, checked, found⟩ := typedProgram_eq_some.mp found
    obtain ⟨d, declared, clean, -⟩ := checkTypes_typed checked
    rw [checkedTables, declared] at found
    cases found
    exact ⟨a, d, e, g, analysed, declared, clean, isDefined,
      ((declared_lists_agree files).2 a d analysed declared clean _ e g isDefined "f" _).mp type⟩

end MethodLang
