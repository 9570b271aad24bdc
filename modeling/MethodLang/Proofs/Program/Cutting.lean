import MethodLang.Proofs.Flow.Stopping
import MethodLang.Proofs.Grammar.Rescanning
import MethodLang.Proofs.Program.Reordering
import MethodLang.Proofs.Program.Writing

/-!
Programs cut into files. What becomes of a method depends on the methods before it, not on the file
that it stands in: a method declares the same (`Finding.read_unplaced`) and has the same graph
(`buildGraph_unplaced`) wherever it stands. So the same methods in the same order are accepted
together, and get the same code (`compile_cut`).
-/
namespace MethodLang

open TypeCheck Declaration

/-! ### Graphs -/

namespace Build

variable {α β : Type}

/-- The steps end in the same way: with the same answer and graph, or both with a fault. -/
def Alike (x y : Build α) : Prop :=
  ∀ g, (∃ a h, x.run g = (.ok a, h) ∧ y.run g = (.ok a, h)) ∨
    ∃ fault fault' h h', x.run g = (.error fault, h) ∧ y.run g = (.error fault', h')

namespace Alike

theorem refl (x : Build α) : Alike x x := by
  intro g
  rcases run : x.run g with ⟨fault | a, h⟩
  · exact .inr ⟨fault, fault, h, h, rfl, rfl⟩
  · exact .inl ⟨a, h, rfl, rfl⟩

theorem bind {x y : Build α} {f f' : α → Build β} (first : Alike x y)
    (later : ∀ a, Alike (f a) (f' a)) : Alike (x >>= f) (y >>= f') := by
  intro g
  rcases first g with ⟨a, h, runX, runY⟩ | ⟨fault, fault', h, h', runX, runY⟩
  · rcases later a h with ⟨b, k, runF, runG⟩ | ⟨fault, fault', k, k', runF, runG⟩
    · exact .inl ⟨b, k, bind_ok.mpr ⟨a, h, runX, runF⟩, bind_ok.mpr ⟨a, h, runY, runG⟩⟩
    · exact .inr ⟨fault, fault', k, k', bind_error.mpr (.inr ⟨a, h, runX, runF⟩),
        bind_error.mpr (.inr ⟨a, h, runY, runG⟩)⟩
  · exact .inr ⟨fault, fault', h, h', bind_error.mpr (.inl runX), bind_error.mpr (.inl runY)⟩

/-- After the same first step the rest may differ. -/
theorem after (x : Build α) {f f' : α → Build β} (later : ∀ a, Alike (f a) (f' a)) :
    Alike (x >>= f) (x >>= f') :=
  (refl x).bind later

end Alike

end Build

namespace Stmt

open Build

theorem statements_alike {body : List Stmt} (each : ∀ s ∈ body, ∀ before label exit,
      Alike (statement s.view before label exit) (statement s.unplaced.view before label exit))
    (before exit : Option BlockId) :
    Alike (statements body before exit) (statements (body.map unplaced) before exit) := by
  induction body generalizing before with
  | nil => exact .refl _
  | cons s rest ih =>
    obtain ⟨first, later⟩ := List.forall_mem_cons.mp each
    exact (first before none exit).bind fun next => ih later next

theorem layBlock_alike {body : List Stmt} (each : ∀ s ∈ body, ∀ before label exit,
      Alike (statement s.view before label exit) (statement s.unplaced.view before label exit))
    (before : Option BlockId) (label : Option String) (exit : Option BlockId) :
    Alike (layBlock ((blockViews body).map fun t => (t, layers t)) before label exit)
      (layBlock ((blockViews (body.map unplaced)).map fun t => (t, layers t)) before label
        exit) := by
  rw [layBlock_blockViews, layBlock_blockViews]
  exact .after _ fun _ => .after _ fun _ => .after _ fun _ =>
    (statements_alike each _ _).bind fun _ => .refl _

theorem repeat_alike {body : Stmt} (below : ∀ before label exit, Alike
      (statement body.view before label exit) (statement body.unplaced.view before label exit))
    (before : Option BlockId) (label : Option String) (back leave : String) (c : Expr) :
    Alike (repeatSteps before label back leave body c)
      (repeatSteps before label back leave body.unplaced c) :=
  .after _ fun _ => .after _ fun _ => (below _ _ _).bind fun _ => .refl _

/-- A statement is laid in the same way wherever its breaks stand. -/
theorem statement_unplaced (s : Stmt) : ∀ before label exit,
    Alike (statement s.view before label exit) (statement s.unplaced.view before label exit) := by
  induction s using Stmt.induction with
  | expr e => exact fun _ _ _ => .refl _
  | leave stop =>
    intro before label exit
    rw [unplaced, statement_leave, statement_leave]
    refine .after _ fun _ => .after _ fun _ => .after _ fun _ => ?_
    cases exit with
    | some exit => exact .refl _
    | none => exact fun g => .inr ⟨_, _, g, g, rfl, rfl⟩
  | block body ih =>
    intro before label exit
    rw [unplaced, unplacedAll_eq_map, statement_block, statement_block]
    exact layBlock_alike ih before label exit
  | ifThen c body ih =>
    intro before label exit
    rw [unplaced, statement_ifThen, statement_ifThen]
    exact .after _ fun _ => (ih _ _ _).bind fun _ => .refl _
  | ifElse c body other ihb iho =>
    intro before label exit
    rw [unplaced, statement_ifElse, statement_ifElse]
    exact .after _ fun _ => (ihb _ _ _).bind fun _ => .after _ fun _ => .after _ fun _ =>
      (iho _ _ _).bind fun _ => .refl _
  | whileDo c body ih =>
    intro before label exit
    rw [unplaced, statement_whileDo, statement_whileDo]
    exact .after _ fun _ => .after _ fun _ => (ih _ _ _).bind fun _ => .refl _
  | repeatWhile body c ih =>
    intro before label exit
    rw [unplaced, statement_repeatWhile, statement_repeatWhile]
    exact repeat_alike ih before label _ _ c
  | repeatUntil body c ih =>
    intro before label exit
    rw [unplaced, statement_repeatUntil, statement_repeatUntil]
    exact repeat_alike ih before label _ _ c

end Stmt

/-- A block is laid in the same way wherever its breaks stand. -/
theorem ofBlock_unplaced (body : List Stmt) (g : Graph) :
    Graph.ofBlock (.node "statment.block" (some .start) (blockViews (body.map Stmt.unplaced))) =
        .ok g ↔
      Graph.ofBlock (.node "statment.block" (some .start) (blockViews body)) = .ok g := by
  unfold Graph.ofBlock Build.block
  have alike := Stmt.layBlock_alike (fun s (_ : s ∈ body) => s.statement_unplaced) none none none
  rcases alike .empty with ⟨a, h, run, run'⟩ | ⟨fault, fault', h, h', run, run'⟩
  · simp only [Build.kidsOf, Tree.children_node, run, run']
  · simp only [Build.kidsOf, Tree.children_node, run, run', reduceCtorEq]

/-- A method has the same graph wherever its breaks stand. -/
theorem buildGraph_unplaced (m : Method) (g : Graph) :
    Analysis.buildGraph m.unplaced.view = .ok (some g) ↔
      Analysis.buildGraph m.view = .ok (some g) := by
  rw [buildGraph_eq, buildGraph_eq]
  cases has : m.body with
  | none => simp [Method.unplaced, has]
  | some body =>
    simp only [Method.unplaced, has, Option.map_some, Body.unplaced, Except.bind_eq_ok,
      Except.ok.injEq, Option.some.injEq, exists_eq_right, ofBlock_unplaced]

/-! ### Declarations -/

section
variable (m : Method)

theorem Method.signature?_unplaced : signature? m.unplaced.view = signature? m.view := by
  rw [Method.signature?_view, Method.signature?_view]
  rfl

theorem Method.orderedArguments_unplaced :
    orderedArguments m.unplaced.view = orderedArguments m.view := by
  rw [orderedArguments, orderedArguments, m.signature?_unplaced]

/-- The nodes of a `var` section do not tell where the breaks stand. -/
theorem Method.variableNodes_unplaced :
    (body? m.unplaced.view).map variableNodes = (body? m.view).map variableNodes := by
  rw [Method.body?_view, Method.body?_view]
  cases has : m.body with
  | none => simp [unplaced, has]
  | some body => simp [unplaced, has, Body.unplaced, Body.view, variableNodes]

theorem Method.result_unplaced :
    Declaration.result m.unplaced.view = Declaration.result m.view := by
  rw [Method.view_eq, Method.view_eq]
  rfl

theorem Method.orderedVariables_unplaced :
    orderedVariables m.unplaced.view = orderedVariables m.view := by
  have nodes := m.variableNodes_unplaced
  unfold orderedVariables
  cases first : body? m.unplaced.view <;> cases second : body? m.view <;> simp_all

/-- What a method declares does not tell where its breaks stand. -/
theorem Finding.read_unplaced (name : String) :
    Finding.read name (some m.unplaced.view) = Finding.read name (some m.view) := by
  have vars (result : Option TypeName) :
      methodVariables name result m.unplaced.view = methodVariables name result m.view := by
    have nodes := m.variableNodes_unplaced
    unfold methodVariables
    cases first : body? m.unplaced.view <;> cases second : body? m.view <;> simp_all
  have args : methodArguments m.unplaced.view = methodArguments m.view := by
    rw [methodArguments, methodArguments, m.signature?_unplaced]
  simp only [Finding.read, Bind.bind, Except.bind, m.result_unplaced, Method.structureFlaw_view,
    vars, args]

end

/-! ### Other trees -/

/-- The trees are those of one method, up to the places of its breaks. -/
def SameMethod (t u : Option View) : Prop :=
  ∃ m n : Method, m.unplaced = n.unplaced ∧ t = some m.view ∧ u = some n.view

theorem SameMethod.read {t u : Option View} (same : SameMethod t u) (name : String) :
    Finding.read name u = Finding.read name t := by
  obtain ⟨m, n, same, rfl, rfl⟩ := same
  rw [← Finding.read_unplaced n, ← same, Finding.read_unplaced]

theorem SameMethod.main {t u : Option View} (same : SameMethod t u) :
    ∃ before after, t = some before ∧ u = some after ∧
      Declaration.result after = Declaration.result before ∧
      signature? after = signature? before := by
  obtain ⟨m, n, same, rfl, rfl⟩ := same
  refine ⟨_, _, rfl, rfl, ?_, ?_⟩
  · rw [← n.result_unplaced, ← same, m.result_unplaced]
  · rw [← n.signature?_unplaced, ← same, m.signature?_unplaced]

/-- The entries with other trees, one for each name. -/
def Entries.withTrees (trees : String → Option View) (entries : Entries) : Entries :=
  entries.map fun p => (p.1, { p.2 with tree := trees p.1 })

namespace Entries

variable {trees : String → Option View} {entries : Entries}

theorem names_withTrees : (entries.withTrees trees).map (·.1) = entries.map (·.1) := by
  rw [withTrees, List.map_map]
  rfl

theorem eq_withTrees {entries' : Entries} (names : entries'.map (·.1) = entries.map (·.1))
    (each : ∀ name e e', (name, e) ∈ entries → (name, e') ∈ entries' →
      e' = { e with tree := trees name }) : entries' = entries.withTrees trees := by
  induction entries generalizing entries' with
  | nil => exact List.map_eq_nil_iff.mp names
  | cons p rest ih =>
    obtain ⟨q, rest', rfl, here, later⟩ := List.map_eq_cons_iff.mp names
    obtain ⟨name, e⟩ := p
    obtain ⟨name', e'⟩ := q
    cases here
    rw [ih later fun n x x' inside inside' =>
        each n x x' (List.mem_cons_of_mem _ inside) (List.mem_cons_of_mem _ inside'),
      each name e e' List.mem_cons_self List.mem_cons_self]
    rfl

theorem Quiet.withTrees (quiet : entries.Quiet) (trees : String → Option View) :
    (entries.withTrees trees).Quiet where
  clean := List.forall_mem_map.mpr quiet.clean
  defined := List.forall_mem_map.mpr quiet.defined
  called := by
    refine List.forall_mem_map.mpr fun p inside notFile n isCall => ?_
    refine (quiet.called p inside notFile n isCall).imp_left ?_
    rintro ⟨q, isEntry, isMethod, named⟩
    exact ⟨_, List.mem_map_of_mem isEntry, isMethod, named⟩

theorem defined_withTrees : (entries.withTrees trees).defined =
    entries.defined.map fun m => (m.1, { m.2.1 with tree := trees m.1 }, m.2.2) := by
  simp only [defined, methods, withTrees, List.filter_map, List.filterMap_map, List.map_filterMap]
  refine List.filterMap_congr fun p _ => ?_
  obtain ⟨name, e⟩ := p
  cases graph : e.graph <;> simp [graph]

theorem lookup_withTrees (name : String) :
    (entries.withTrees trees).defined.lookup name =
      (entries.defined.lookup name).map fun m => ({ m.1 with tree := trees name }, m.2) := by
  rw [defined_withTrees]
  induction entries.defined with
  | nil => rfl
  | cons m ms ih =>
    rw [List.map_cons, List.lookup_cons, List.lookup_cons, ih]
    by_cases here : name = m.1
    · simp [here]
    · simp [beq_false_of_ne here]

/-- A check writes no trees. -/
theorem checkTyped_withTrees {tables : Tables} {typed : Entries} {results : TypeTable}
    (checked : checkTyped tables entries = .typed typed results) :
    checkTyped tables (entries.withTrees trees) = .typed (typed.withTrees trees) results := by
  have step (p : String × Entry) :
      checkEntry (withBuiltins tables) p.1 { p.2 with tree := trees p.1 } =
        ({ (checkEntry (withBuiltins tables) p.1 p.2).1 with tree := trees p.1 },
          (checkEntry (withBuiltins tables) p.1 p.2).2) := by
    unfold checkEntry
    cases p.2.graph with
    | none => rfl
    | some g => cases isFile p.1 <;> rfl
  have mapped : (entries.withTrees trees).map (fun p =>
      (p.1, checkEntry (withBuiltins tables) p.1 p.2)) =
      (entries.map fun p => (p.1, checkEntry (withBuiltins tables) p.1 p.2)).map fun q =>
        (q.1, { q.2.1 with tree := trees q.1 }, q.2.2) := by
    rw [withTrees, List.map_map, List.map_map]
    exact List.map_congr_left fun p _ => Prod.ext rfl (step p)
  unfold checkTyped at checked ⊢
  simp only at checked ⊢
  rw [mapped, List.filterMap_map]
  split at checked
  · rename_i clean
    cases checked
    simp only [Function.comp_def, clean, withTrees, List.map_map]
  · cases checked

/-- The code of the methods does not depend on the trees of the entries. -/
theorem program_withTrees (results : TypeTable) :
    Code.program results (entries.withTrees trees) = Code.program results entries := by
  unfold Code.program Code.methods
  rw [defined_withTrees, List.map_map]
  rfl

section
variable (same : ∀ p ∈ entries, SameMethod p.2.tree (trees p.1))
include same

theorem findings_withTrees :
    findings (entries.withTrees trees).defined = findings entries.defined := by
  rw [defined_withTrees, findings, findings, List.mapM_map]
  refine mapM_congr fun m inside => ?_
  have read := (same _ (mem_defined.mp inside).1).read m.1
  simp only at read
  simp only [Function.comp_apply, read]

theorem mainFlaw?_withTrees : mainFlaw? (entries.withTrees trees) = mainFlaw? entries := by
  unfold mainFlaw?
  rw [lookup_withTrees]
  cases found : entries.defined.lookup "main" with
  | none => rfl
  | some m =>
    obtain ⟨before, after, isBefore, isAfter, result, signature⟩ :=
      (same _ (mem_defined.mp (mem_of_lookup found)).1).main
    simp only at isBefore isAfter
    simp only [Option.map_some, isBefore, isAfter, result, signature]

/-- A program whose methods stand elsewhere is typed in the same way. -/
theorem checkTypes_withTrees (distinct : (entries.map (·.1)).Nodup) {typed : Entries}
    {results : TypeTable} (checked : checkTypes entries = .ok (.typed typed results)) :
    checkTypes (entries.withTrees trees) = .ok (.typed (typed.withTrees trees) results) := by
  rw [checkTypes_eq distinct] at checked
  rw [checkTypes_eq (names_withTrees.symm ▸ distinct), findings_withTrees same]
  cases found : findings entries.defined with
  | error fault =>
    rw [found] at checked
    cases checked
  | ok fs =>
    rw [found] at checked
    simp only [Except.map, Except.ok.injEq] at checked ⊢
    cases judged : (Declared.of fs).judge with
    | error messages =>
      rw [judged] at checked
      cases checked
    | ok tables =>
      rw [judged] at checked
      exact checkTyped_withTrees checked

end

end Entries

/-! ### Methods that stand elsewhere -/

theorem occurrences_unplaced (ms : List Method) (f : String) :
    (occurrences ms f).map Method.unplaced = occurrences (ms.map Method.unplaced) f := by
  rw [occurrences, occurrences, List.filter_map]
  rfl

theorem firstNames_unplaced (ms : List Method) :
    firstNames (ms.map Method.unplaced) = firstNames ms := by
  rw [firstNames, firstNames, List.map_map]
  rfl

/-- Occurrences define a method wherever their breaks stand. -/
theorem Defines.unplaced {ms ms' : List Method}
    (same : ms.map Method.unplaced = ms'.map Method.unplaced) {m : Method} {g : Graph}
    (defines : Defines ms m g) : ∃ m', m.unplaced = m'.unplaced ∧ Defines ms' m' g := by
  obtain ⟨before, rfl, alike⟩ := defines.occurrences
  rw [List.map_append, List.map_singleton] at same
  obtain ⟨before', last, rfl, sameBefore, sameLast⟩ := List.map_eq_append_iff.mp same.symm
  obtain ⟨m', rfl, lastSame⟩ := List.map_eq_singleton_iff.mp sameLast
  have signatures {c d : Method} (same : c.unplaced = d.unplaced) : c.signature = d.signature :=
    (Method.mk.inj same).1
  refine ⟨m', lastSame.symm, ⟨before', rfl, fun d' inside => ?_⟩, ?_, defines.clean⟩
  · have inside : d'.unplaced ∈ before.map Method.unplaced :=
      sameBefore ▸ List.mem_map_of_mem inside
    obtain ⟨d, inside, sameD⟩ := List.mem_map.mp inside
    obtain ⟨body, isAlike⟩ := alike d inside
    have bodies : d.body.map Body.unplaced = d'.body.map Body.unplaced :=
      (Method.mk.inj sameD).2
    rw [body] at bodies
    refine ⟨Option.map_eq_none_iff.mp bodies.symm, ?_⟩
    rw [Method.Alike, ← signatures sameD, signatures lastSame]
    exact isAlike
  · rw [← buildGraph_unplaced, lastSame, buildGraph_unplaced]
    exact defines.built

theorem IsName.not_file {name : String} (named : IsName name) : Entries.isFile name = false := by
  refine Bool.eq_false_iff.mpr fun file => ?_
  obtain ⟨rest, split⟩ := List.isPrefixOf_iff_prefix.mp file
  rw [IsName, ← split] at named
  simp [Text.isIdentifier] at named

/-- Entries that tell one method, at two places, differ in their trees only. -/
theorem Entry.Tells.unplaced {e e' : Entry} {m m' : Method} {g : Graph} (tells : e.Tells m g)
    (tells' : e'.Tells m' g) (same : m.unplaced = m'.unplaced) :
    e' = { e with tree := some m'.view } := by
  have params := tells'.params
  rw [← m'.orderedArguments_unplaced, ← same, m.orderedArguments_unplaced, tells.params] at params
  have vars := tells'.vars
  rw [← m'.orderedVariables_unplaced, ← same, m.orderedVariables_unplaced, tells.vars] at vars
  obtain ⟨calls, errors, graph, tree, _, _⟩ := e'
  cases params
  cases vars
  rw [Entry.mk.injEq]
  exact ⟨tells'.calls.trans tells.calls.symm, tells'.errors.trans tells.errors.symm,
    tells'.graph.trans tells.graph.symm, tells'.tree, rfl, rfl⟩

/-- If nothing is reported on a program, the same methods at other places give the same entries, up
to their trees. -/
theorem Analysis.Tracks.withTrees {a a' : Analysis} {ms ms' : List Method} (tracks : a.Tracks ms)
    (tracks' : a'.Tracks ms') (distinct : a.Distinct) (spelled : ∀ m ∈ ms, m.Spelled)
    (same : ms.map Method.unplaced = ms'.map Method.unplaced) (quiet : a.entries.Quiet) :
    ∃ trees, a'.entries = a.entries.withTrees trees ∧
      ∀ p ∈ a.entries, SameMethod p.2.tree (trees p.1) := by
  have names : a'.entries.map (·.1) = a.entries.map (·.1) := by
    rw [tracks.names, tracks'.names, ← firstNames_unplaced, ← same, firstNames_unplaced]
  have each (name : String) (e : Entry) (inside : (name, e) ∈ a.entries) :
      ∃ m m' g e', m.unplaced = m'.unplaced ∧ e.Tells m g ∧ a'.entries.get? name = some e' ∧
        e'.Tells m' g := by
    have found : a.entries.get? name = some e := lookup_of_nodup distinct inside
    have isName : name ∈ firstNames ms := tracks.names ▸ List.mem_map_of_mem inside
    obtain ⟨d, isMethod, rfl⟩ := List.mem_map.mp (List.mem_eraseDups.mp isName)
    have graph := quiet.defined _ inside (spelled d isMethod).signature.name.not_file
    have standing := (tracks.standing d.signature.name).defined_iff
    obtain ⟨m, g, defines⟩ := standing.1.mp ⟨e, found, quiet.clean _ inside, graph⟩
    obtain ⟨e₁, found₁, tells⟩ := standing.2 m g defines
    cases found.symm.trans found₁
    have occurs : (occurrences ms d.signature.name).map Method.unplaced =
        (occurrences ms' d.signature.name).map Method.unplaced := by
      rw [occurrences_unplaced, occurrences_unplaced, same]
    obtain ⟨m', sameM, defines'⟩ := defines.unplaced occurs
    obtain ⟨e', found', tells'⟩ := (tracks'.standing d.signature.name).defined_iff.2 m' g defines'
    exact ⟨m, m', g, e', sameM, tells, found', tells'⟩
  refine ⟨fun name => (a'.entries.get? name).bind Entry.tree, ?_, fun p inside => ?_⟩
  · refine Entries.eq_withTrees names fun name e e' inside inside' => ?_
    obtain ⟨m, m', g, e₁, same, tells, found, tells'⟩ := each name e inside
    have found' : a'.entries.get? name = some e' := lookup_of_nodup (names ▸ distinct) inside'
    cases found.symm.trans found'
    rw [tells.unplaced tells' same]
    simp only [found, Option.bind_some, tells'.tree]
  · obtain ⟨m, m', g, e', same, tells, found, tells'⟩ := each p.1 p.2 inside
    refine ⟨m, m', same, tells.tree, ?_⟩
    simp only [found, Option.bind_some, tells'.tree]

/-! ### Cuts -/

/-- The file is in the language and has the given methods, with their breaks at any places. -/
def SourceFile.Holds (f : SourceFile) (ms : List Method) : Prop :=
  ∃ text source, f.content = .text text ∧ parseSource text = some source ∧
    source.map Method.unplaced = ms.map Method.unplaced

/-- The items are cut into pieces of at least one item, and each file holds one of them. -/
def CutInto (items : List Method) (files : List SourceFile) : Prop :=
  ∃ pieces : List (List Method), pieces.flatten = items ∧ (∀ piece ∈ pieces, piece ≠ []) ∧
    List.Forall₂ SourceFile.Holds files pieces

theorem CutInto.sources {items : List Method} {files : List SourceFile}
    (cut : CutInto items files) : ∃ sources : List Source,
      List.Forall₂ (fun f source => ∃ text,
        f.content = .text text ∧ parseSource text = some source) files sources ∧
      (∀ source ∈ sources, source ≠ []) ∧
      sources.flatten.map Method.unplaced = items.map Method.unplaced := by
  obtain ⟨pieces, rfl, filled, holds⟩ := cut
  induction holds with
  | nil => exact ⟨[], .nil, List.forall_mem_nil _, rfl⟩
  | cons first _ ih =>
    obtain ⟨text, source, content, parsed, same⟩ := first
    obtain ⟨nonempty, others⟩ := List.forall_mem_cons.mp filled
    obtain ⟨sources, later, filled, rest⟩ := ih others
    refine ⟨source :: sources, .cons ⟨text, content, parsed⟩ later,
      List.forall_mem_cons.mpr ⟨?_, filled⟩, ?_⟩
    · rintro rfl
      exact nonempty (List.map_eq_nil_iff.mp same.symm)
    · simp only [List.flatten_cons, List.map_append, same, rest]

/-- Files with methods in them are analysed method by method. -/
theorem CutInto.tracks {items : List Method} {files : List SourceFile} (cut : CutInto items files) :
    ∃ a ms, analyze files = .ok a ∧ a.Tracks ms ∧
      ms.map Method.unplaced = items.map Method.unplaced ∧ ∀ m ∈ ms, m.Spelled := by
  obtain ⟨sources, parsed, filled, same⟩ := cut.sources
  have spelled : ∀ m ∈ sources.flatten, m.Spelled := by
    clear cut filled same
    induction parsed with
    | nil => exact List.forall_mem_nil _
    | cons first _ ih =>
      obtain ⟨text, -, parsed⟩ := first
      exact List.forall_mem_append.mpr ⟨parseSource_spelled parsed, ih⟩
  cases parsed with
  | nil => exact ⟨.empty, [], rfl, Analysis.empty_tracks, same, spelled⟩
  | @cons f source rest sources first others =>
    obtain ⟨text, content, parsed⟩ := first
    have nonempty : source ≠ [] := filled source List.mem_cons_self
    obtain ⟨b, run, tracks⟩ :=
      (Analysis.file_tracks Analysis.empty_tracks content parsed).2 nonempty
    obtain ⟨a, runs, tracks⟩ := Analysis.files_track tracks nonempty others
    refine ⟨a, _, ?_, tracks, same, spelled⟩
    rw [analyze, List.foldlM_cons, run]
    exact runs

section
variable {items : List Method} {files files' : List SourceFile}

theorem CutInto.texts (cut : CutInto items files) :
    ∀ f ∈ files, ∃ text, f.content = .text text := by
  obtain ⟨sources, parsed, -, -⟩ := cut.sources
  clear cut
  induction parsed with
  | nil => exact List.forall_mem_nil _
  | cons first _ ih =>
    obtain ⟨text, content, -⟩ := first
    exact List.forall_mem_cons.mpr ⟨⟨text, content⟩, ih⟩

variable (cut : CutInto items files) (cut' : CutInto items files')
include cut cut'

/-- An accepted program is accepted in other files, too, and has the same code. -/
theorem Accepted.recut {a : Analysis} {typed : Entries} {results : TypeTable}
    (accepted : Accepted files a typed results) :
    ∃ a' typed', Accepted files' a' typed' results ∧
      Code.program results typed' = Code.program results typed := by
  obtain ⟨a₁, ms, analysed, tracks, sameMs, spelled⟩ := cut.tracks
  cases accepted.analysed.symm.trans analysed
  obtain ⟨a', ms', analysed', tracks', sameMs', -⟩ := cut'.tracks
  have distinct := analyze_distinct analysed
  have quiet := Entries.report?_eq_none.mp accepted.quiet
  obtain ⟨trees, entries, same⟩ :=
    tracks.withTrees tracks' distinct spelled (sameMs.trans sameMs'.symm) quiet
  refine ⟨a', typed.withTrees trees, ⟨cut'.texts, analysed', ?_, ?_, ?_⟩,
    Entries.program_withTrees results⟩
  · rw [entries]
    exact Entries.report?_eq_none.mpr (quiet.withTrees trees)
  · rw [entries]
    exact Entries.checkTypes_withTrees same distinct accepted.checked
  · rw [entries, Entries.mainFlaw?_withTrees same]
    exact accepted.main

/-- How methods are distributed over files does not matter: the code is generated from the one cut
just if it is from the other, and then it is the same, or stops with the same fault. The file with
the code is the last one written. -/
theorem compile_cut :
    ((∃ a typed results, Accepted files a typed results) ↔
      ∃ a typed results, Accepted files' a typed results) ∧
    ∀ a typed results a' typed' results', Accepted files a typed results →
      Accepted files' a' typed' results' →
      Code.program results' typed' = Code.program results typed ∧
      ∀ directory directory', (compile directory files).map (·.files.getLast?) =
        (compile directory' files').map (·.files.getLast?) := by
  refine ⟨⟨?_, ?_⟩, fun a typed results a' typed' results' accepted accepted' => ?_⟩
  · rintro ⟨a, typed, results, accepted⟩
    obtain ⟨a', typed', accepted', -⟩ := accepted.recut cut cut'
    exact ⟨a', typed', results, accepted'⟩
  · rintro ⟨a, typed, results, accepted⟩
    obtain ⟨a', typed', accepted', -⟩ := accepted.recut cut' cut
    exact ⟨a', typed', results, accepted'⟩
  · obtain ⟨a₁, typed₁, accepted₁, code⟩ := accepted.recut cut cut'
    cases accepted'.analysed.symm.trans accepted₁.analysed
    cases accepted'.checked.symm.trans accepted₁.checked
    refine ⟨code, fun directory directory' => ?_⟩
    rw [accepted.compile_eq, accepted'.compile_eq, code]
    cases (Code.program results typed).fault with
    | some fault => rfl
    | none => simp [Except.map, Outcome.addFile]

end

theorem SourceFile.holds_joined {name text : String} {ms : List Method}
    (each : ∀ m ∈ ms, m.Ordered ∧ m.Clear)
    (isText : " ".intercalate ((ms.flatMap Method.lexemes).map Lexeme.text) = text) :
    SourceFile.Holds ⟨name, .text text⟩ ms := by
  obtain ⟨source, parsed, same⟩ := parseSource_joined each
  exact ⟨text, source, rfl, isText ▸ parsed, same⟩

/-- The method `method f(): int;`. -/
def declaring : Method := ⟨⟨"f", [], some (.builtin "int")⟩, none⟩

/-- The method `method main() begin while f() > 1 do break; end;`. -/
def asking : Method :=
  ⟨⟨"main", [], none⟩, some ⟨none,
    [.whileDo (.binary (.call (.place "f") []) .gt (.literal .dec "1")) (.leave .start)]⟩⟩

/-- The method `method f(): int begin f := 2; end;`. -/
def defining : Method :=
  ⟨⟨"f", [], some (.builtin "int")⟩, some ⟨none,
    [.expr (.binary (.place "f") .assign (.literal .dec "2"))]⟩⟩

/-- A method is declared, called in a loop that a break ends, and defined: in one file, or in three
with the break at another place. -/
theorem three_files_compiled :
    let declaration := "method f ( ) : int ;"
    let caller := "method main ( ) begin while f ( ) > 1 do break ; end ;"
    let definition := "method f ( ) : int begin f := 2 ; end ;"
    let files : List SourceFile :=
      [⟨"a.txt", .text (" ".intercalate [declaration, caller, definition])⟩]
    let files' : List SourceFile :=
      [⟨"a.txt", .text declaration⟩, ⟨"b.txt", .text caller⟩, ⟨"c.txt", .text definition⟩]
    CutInto [declaring, asking, defining] files ∧ CutInto [declaring, asking, defining] files' ∧
      ∃ a typed results a' typed' results', Accepted files a typed results ∧
        Accepted files' a' typed' results' ∧
        Code.program results' typed' = Code.program results typed ∧
        (compile "out" files).map (·.files.getLast?) =
          (compile "out" files').map (·.files.getLast?) := by
  intro declaration caller definition files files'
  have named : IsFree "f" := by decide
  have result : ∀ t ∈ some (TypeRef.builtin "int"), t.Clear := by
    rintro t ⟨⟩
    exact (by decide : "int" ∈ TypeRef.builtinWords)
  have first : declaring.Ordered ∧ declaring.Clear := by
    refine ⟨?_, ⟨named, ?_, result⟩, ?_⟩ <;> rintro _ ⟨⟩
  have second : asking.Ordered ∧ asking.Clear := by
    refine ⟨?_, ⟨by decide, by rintro _ ⟨⟩, by rintro _ ⟨⟩⟩, ?_⟩ <;> rintro body ⟨⟩
    · simp [Stmt.AllOrdered, Stmt.Ordered, Expr.Ordered, Expr.AllOrdered, Expr.operator?,
        Expr.isUnary]
    · exact ⟨by rintro _ ⟨⟩, List.forall_mem_singleton.mpr
        ⟨⟨named, trivial⟩, @LiteralKind.dec_clear '1' [] (by decide)⟩⟩
  have third : defining.Ordered ∧ defining.Clear := by
    refine ⟨?_, ⟨named, by rintro _ ⟨⟩, result⟩, ?_⟩ <;> rintro body ⟨⟩
    · simp [Stmt.AllOrdered, Stmt.Ordered, Expr.Ordered, Expr.operator?]
    · exact ⟨by rintro _ ⟨⟩, List.forall_mem_singleton.mpr
        ⟨named, @LiteralKind.dec_clear '2' [] (by decide)⟩⟩
  have cut : CutInto [declaring, asking, defining] files :=
    ⟨[[declaring, asking, defining]], rfl, by simp,
      .cons (SourceFile.holds_joined (by simp [first, second, third]) (by decide)) .nil⟩
  have cut' : CutInto [declaring, asking, defining] files' :=
    ⟨[[declaring], [asking], [defining]], rfl, by simp,
      .cons (SourceFile.holds_joined (by simp [first]) (by decide))
        (.cons (SourceFile.holds_joined (by simp [second]) (by decide))
          (.cons (SourceFile.holds_joined (by simp [third]) (by decide)) .nil))⟩
  obtain ⟨a, typed, results, accepted, -⟩ := exists_accepted files (by simp [files])
    (P := fun _ _ _ => True) (by decide +kernel)
  obtain ⟨reached, same⟩ := compile_cut cut cut'
  obtain ⟨a', typed', results', accepted'⟩ := reached.mp ⟨a, typed, results, accepted⟩
  obtain ⟨code, written⟩ := same a typed results a' typed' results' accepted accepted'
  exact ⟨cut, cut', a, typed, results, a', typed', results', accepted, accepted', code,
    written "out" "out"⟩

end MethodLang
