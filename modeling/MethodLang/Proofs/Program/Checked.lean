import MethodLang.Proofs.Flow.Walk
import MethodLang.Proofs.Program.Tables
import MethodLang.Proofs.Typing.Conformance

/-!
Programs whose types were checked. Every tree in a typed graph is that of a written directive, to
which the checker gave types in a complete scope without an error (`typed_tree`).
-/
namespace MethodLang

open TypeCheck

/-! ### Trees in graphs -/

theorem Expr.block_tree {e : Expr} {succs : List Edge} {op : Operation}
    (tree : (e.block succs).tree = some op) : e.operation = .ok op := by
  unfold Expr.block at tree
  split at tree
  · rename_i lowered
    cases tree
    exact lowered
  · cases tree
  · cases tree

/-- Every tree among the blocks comes from one of the expressions. -/
def TreesFrom (es : List Expr) (bs : Blocks) : Prop :=
  ∀ p ∈ bs, ∀ op, p.2.tree = some op → ∃ e ∈ es, e.operation = .ok op

section
variable {es fs : List Expr} {bs cs : Blocks}

theorem TreesFrom.mono (trees : TreesFrom es bs) (sub : es ⊆ fs) : TreesFrom fs bs := by
  intro p inside op tree
  obtain ⟨e, isExpr, lowered⟩ := trees p inside op tree
  exact ⟨e, sub isExpr, lowered⟩

theorem TreesFrom.append (first : TreesFrom es bs) (second : TreesFrom fs cs) :
    TreesFrom (es ++ fs) (bs ++ cs) :=
  List.forall_mem_append.mpr ⟨first.mono (List.subset_append_left _ _),
    second.mono (List.subset_append_right _ _)⟩

theorem treesFrom_expr (e : Expr) (id : BlockId) (succs : List Edge) :
    TreesFrom [e] [(id, e.block succs)] :=
  List.forall_mem_singleton.mpr fun _ tree => ⟨e, List.mem_singleton_self e, Expr.block_tree tree⟩

theorem treesFrom_none (id : BlockId) (text : String) (succs : List Edge) :
    TreesFrom [] [(id, ⟨text, none, succs⟩)] :=
  List.forall_mem_singleton.mpr fun _ tree => by cases tree

end

theorem Stmt.treesFrom_all {body : List Stmt}
    (each : ∀ s ∈ body, ∀ label start next exit, TreesFrom s.exprs (s.blocks label start next exit))
    (start next : Int) (exit : Option BlockId) :
    TreesFrom (Stmt.exprsAll body) (Stmt.blocksAll start next exit body) := by
  induction body generalizing start with
  | nil => exact List.forall_mem_nil _
  | cons s ss ih =>
    have ⟨first, rest⟩ := List.forall_mem_cons.mp each
    exact (first none start _ exit).append (ih rest _)

theorem Stmt.treesFrom_repeat {body : Stmt} {c : Expr} {inner : Blocks}
    (below : TreesFrom body.exprs inner) (label : Option String) (start next : Int)
    (back leave : String) : TreesFrom (body.exprs ++ [c])
      (Stmt.repeatBlocks label start next back leave body c inner) :=
  ((treesFrom_none start _ _).append (treesFrom_none (start + 1) _ _)).append
    (below.append (treesFrom_expr c _ _))

/-- Every tree among the blocks of a statement comes from one of its expressions. -/
theorem Stmt.treesFrom_blocks (s : Stmt) : ∀ label start next exit,
    TreesFrom s.exprs (s.blocks label start next exit) := by
  induction s using Stmt.induction with
  | expr e => exact fun _ start next _ => treesFrom_expr e start [(next, none)]
  | leave stop => exact fun _ start _ _ => treesFrom_none start _ _
  | block body ih =>
    intro label start next exit
    exact ((treesFrom_none start _ _).append (treesFrom_none (start + 1) _ _)).append
      (treesFrom_all ih _ _ exit)
  | ifThen c body ih =>
    intro label start next exit
    have inner := (ih (some "True") (start + 1) (start + 1 + body.size) exit).append
      (treesFrom_none (start + 1 + body.size) "end_if" [(next, none)])
    rw [List.append_nil] at inner
    exact (treesFrom_expr c start _).append inner
  | ifElse c body other ihb iho =>
    intro label start next exit
    exact ((treesFrom_expr c start _).append (ihb _ _ _ exit)).append
      ((treesFrom_none (start + 1 + body.size) _ _).append (iho _ _ _ exit))
  | whileDo c body ih =>
    intro label start next exit
    exact (treesFrom_expr c start _).append ((treesFrom_none (start + 1) _ _).append (ih _ _ _ _))
  | repeatWhile body c ih | repeatUntil body c ih =>
    exact fun label start next _ => treesFrom_repeat (ih _ _ _ _) label start next _ _

theorem Stmt.treesFrom_body (body : List Stmt) :
    TreesFrom (Stmt.exprsAll body) (Stmt.bodyBlocks body) :=
  ((treesFrom_none 0 _ _).append (treesFrom_none 1 _ _)).append
    (treesFrom_all (fun s _ => s.treesFrom_blocks) 2 1 none)

/-- Pruning keeps the trees of the blocks that it keeps. -/
theorem prune_tree {g : Graph} {entry exit : BlockId} {p : BlockId × Block}
    (inside : p ∈ (g.prune entry exit).blocks) : ∃ q ∈ g.blocks, p.2.tree = q.2.tree := by
  obtain ⟨q, kept, rfl⟩ := List.mem_map.mp inside
  exact ⟨q, (List.mem_filter.mp kept).1, rfl⟩

/-- Every tree in the graph of an entry is that of a spelled directive. -/
theorem Entry.ReadFrom.directive {e : Entry} {m : Method} (from_ : e.ReadFrom m) {g : Graph}
    (has : e.graph = some g) {p : BlockId × Block} (inside : p ∈ g.blocks) {op : Operation}
    (tree : p.2.tree = some op) : ∃ c : Directive, c.Spelled ∧ op = c.tree := by
  obtain ⟨body, built, isBody, build, rfl, _⟩ := from_.graph g has
  obtain ⟨q, isBlock, same⟩ := prune_tree inside
  rw [same] at tree
  rw [(buildGraph_blocks isBody build).1] at isBlock
  obtain ⟨x, written, lowered⟩ := Stmt.treesFrom_body body.block q isBlock op tree
  have spelled := (from_.spelled.body body isBody).block x written
  obtain ⟨c, directive, rfl⟩ := Expr.operation_directive spelled lowered
  exact ⟨c, Expr.directive_spelled spelled directive, rfl⟩

/-! ### Defined methods -/

namespace Entries

variable {entries : Entries}

theorem mem_defined {name : String} {e : Entry} {g : Graph} :
    (name, e, g) ∈ entries.defined ↔
      (name, e) ∈ entries ∧ isFile name = false ∧ e.graph = some g := by
  simp only [defined, methods, List.mem_filterMap, List.mem_filter, Option.map_eq_some_iff]
  constructor
  · rintro ⟨⟨n, x⟩, ⟨inside, notFile⟩, g', graph, same⟩
    cases same
    exact ⟨inside, by simpa using notFile, graph⟩
  · rintro ⟨inside, notFile, graph⟩
    exact ⟨(name, e), ⟨inside, by simpa using notFile⟩, g, graph, rfl⟩

theorem defined_distinct (distinct : (entries.map (·.1)).Nodup) :
    (entries.defined.map (·.1)).Nodup := by
  refine (filterMap_names (fun x y picked => ?_) entries.methods).nodup
    ((List.filter_sublist.map _).nodup distinct)
  obtain ⟨g, -, rfl⟩ := Option.map_eq_some_iff.mp picked
  rfl

end Entries

theorem Method.structureFlaw_view (m : Method) : structureFlaw? m.view = none := by
  rw [Method.view_eq]
  rfl

theorem Analysis.Read.shaped {a : Analysis} (read : a.Read) : Shaped a.entries.defined := by
  rintro ⟨name, e, g⟩ inside
  obtain ⟨isEntry, notFile, _⟩ := Entries.mem_defined.mp inside
  obtain ⟨m, from_⟩ := read.entries _ isEntry notFile
  exact ⟨m.view, from_.tree, m.structureFlaw_view⟩

/-! ### Checking -/

theorem complainReserved_clean {d : Declared} (clean : (complainReserved d).messages = []) :
    d.messages = [] ∧ (complainReserved d).tables = d.tables := by
  unfold complainReserved at clean ⊢
  simp only at clean ⊢
  generalize ((d.tables.results.map (·.1)).filter Builtin.isBuiltin).mergeSort (· ≤ ·) = names
    at clean ⊢
  induction names generalizing d with
  | nil => exact ⟨clean, rfl⟩
  | cons name names ih =>
    obtain ⟨first, tables⟩ := ih clean
    exact ⟨(complain_clean first).1, tables.trans (complain_tables ..)⟩

/-- What it takes for a program to get its types: no method has a flaw, and no tree an error. -/
theorem checkTypes_typed {entries typed : Entries} {results : TypeTable}
    (h : checkTypes entries = .ok (.typed typed results)) :
    ∃ d, entries.defined.foldlM declare ⟨⟨[], [], []⟩, []⟩ = .ok d ∧ d.messages = [] ∧
      clashes d.tables = [] ∧ results = (withBuiltins d.tables).results ∧
      typed = entries.map (fun p => (p.1, (checkEntry (withBuiltins d.tables) p.1 p.2).1)) ∧
      ∀ p ∈ entries, (checkEntry (withBuiltins d.tables) p.1 p.2).2 = [] := by
  obtain ⟨d, declared, h⟩ := Except.bind_eq_ok.mp h
  simp only at h
  split at h
  · cases h
  rename_i quiet
  have quiet : (complainReserved d).messages = [] := by simpa using quiet
  obtain ⟨clean, same⟩ := complainReserved_clean quiet
  split at h
  · rename_i apart
    rw [same] at h apart
    refine ⟨d, declared, clean, apart, ?_⟩
    have h := Except.ok.inj h
    unfold checkTyped at h
    simp only at h
    split at h
    · rename_i quiet
      cases h
      refine ⟨rfl, by simp [List.map_map, Function.comp_def], fun p inside => ?_⟩
      rw [List.filterMap_map] at quiet
      have here := List.filterMap_eq_nil_iff.mp quiet p inside
      simpa using here
    · cases h
  · cases h

/-- The tables with which a program is checked. -/
def checkedTables (entries : Entries) : Except Fault Tables := do
  let d ← entries.defined.foldlM declare ⟨⟨[], [], []⟩, []⟩
  .ok (withBuiltins d.tables)

/-- What an accepted program is made of: its analysis, the typed entries and results, and the tables
with which it was checked. -/
def typedProgram? (files : List SourceFile) : Option (Analysis × Entries × TypeTable × Tables) :=
  match analyze files with
  | .error _ => none
  | .ok a =>
    match checkTypes a.entries, checkedTables a.entries with
    | .ok (.typed typed results), .ok tables => some (a, typed, results, tables)
    | _, _ => none

theorem typedProgram_eq_some {files : List SourceFile} {a : Analysis} {typed : Entries}
    {results : TypeTable} {tables : Tables} :
    typedProgram? files = some (a, typed, results, tables) ↔ analyze files = .ok a ∧
      checkTypes a.entries = .ok (.typed typed results) ∧ checkedTables a.entries = .ok tables := by
  unfold typedProgram?
  constructor
  · intro h
    split at h
    · cases h
    · rename_i analysed
      split at h
      · rename_i checked found
        cases h
        exact ⟨analysed, checked, found⟩
      · cases h
  · rintro ⟨analysed, checked, found⟩
    rw [analysed]
    simp only [checked, found]

/-- A property of an accepted program that can be evaluated. -/
theorem exists_typedProgram (files : List SourceFile)
    {P : Analysis → Entries → TypeTable → Tables → Prop}
    [∀ a typed results tables, Decidable (P a typed results tables)]
    (h : (typedProgram? files).any (fun x => decide (P x.1 x.2.1 x.2.2.1 x.2.2.2)) = true) :
    ∃ a typed results tables, typedProgram? files = some (a, typed, results, tables) ∧
      P a typed results tables := by
  cases found : typedProgram? files with
  | none => simp [found] at h
  | some x =>
    rw [found, Option.any_some, decide_eq_true_eq] at h
    exact ⟨x.1, x.2.1, x.2.2.1, x.2.2.2, rfl, h⟩

theorem Analysis.Read.headings_proper {a : Analysis} (read : a.Read) {hs : List Heading}
    (headings : List.Forall₂ IsHeading a.entries.defined hs) : ∀ hd ∈ hs, hd.Proper := by
  intro hd inside
  obtain ⟨⟨name, e, g⟩, isDefined, _, t, tree, of⟩ := exists_of_mem_left headings.flip inside
  obtain ⟨isEntry, notFile, _⟩ := Entries.mem_defined.mp isDefined
  obtain ⟨m, from_⟩ := read.entries _ isEntry notFile
  cases from_.tree.symm.trans tree
  exact of.proper (Method.view_typed from_.spelled)

/-- A typed method comes from one that was read, whose blocks were checked one by one. -/
structure TypedFrom (tables : Tables) (name : String) (e : Entry) (g : Graph) (e₀ : Entry)
    (g₀ : Graph) : Prop where
  untyped : e₀.graph = some g₀
  entry : e = (checkEntry tables name e₀).1
  graph : g = (checkGraph (tables.scope name) g₀).1
  quiet : ∀ p ∈ g₀.blocks, (checkBlock (tables.scope name) p.2).2 = []

theorem checkEntry_typedFrom {tables : Tables} {name : String} {e : Entry} {g : Graph}
    (notFile : Entries.isFile name = false) (graph : (checkEntry tables name e).1.graph = some g)
    (clean : (checkEntry tables name e).2 = []) :
    ∃ g₀, TypedFrom tables name (checkEntry tables name e).1 g e g₀ := by
  unfold checkEntry at graph clean
  cases has : e.graph with
  | none => simp [has] at graph
  | some g₀ =>
    simp only [has, notFile, Bool.false_eq_true, if_false] at graph clean
    refine ⟨g₀, has, rfl, (Option.some.inj graph).symm, fun p inside => ?_⟩
    simp only [checkGraph, List.flatMap_map, List.flatMap_eq_nil_iff] at clean
    exact clean p inside

theorem TypedFrom.blocks {tables : Tables} {name : String} {e e₀ : Entry} {g g₀ : Graph}
    (from_ : TypedFrom tables name e g e₀ g₀) :
    g.blocks = g₀.blocks.map fun p => (p.1, (checkBlock (tables.scope name) p.2).1) := by
  rw [from_.graph]
  simp [checkGraph]

/-- What an accepted program is made from. -/
theorem typed_method {files : List SourceFile} (texts : ∀ f ∈ files, ∃ text, f.content = .text text)
    {a : Analysis} (analysed : analyze files = .ok a) {typed : Entries} {results : TypeTable}
    (checked : checkTypes a.entries = .ok (.typed typed results)) :
    ∃ tables, checkedTables a.entries = .ok tables ∧ results = tables.results ∧
      ∀ name e g, (name, e, g) ∈ typed.defined → (tables.scope name).Complete ∧
        ∃ m e₀ g₀, (name, e₀, g₀) ∈ a.entries.defined ∧ e₀.ReadFrom m ∧
          TypedFrom tables name e g e₀ g₀ ∧
          ∃ hd : Heading, hd.name = name ∧ hd.Of m.view ∧ tables.Lists hd := by
  have read := analyze_read texts analysed
  obtain ⟨d, declared, clean, _, rfl, rfl, each⟩ := checkTypes_typed checked
  have distinct := Entries.defined_distinct read.distinct
  obtain ⟨hs, headings, tables⟩ := declared_tables read.shaped distinct declared clean
  refine ⟨withBuiltins d.tables, by rw [checkedTables, declared]; rfl, rfl,
    fun name e g inside => ⟨?_, ?_⟩⟩
  · rw [tables]
    exact Tables.scope_complete (read.headings_proper headings) name
  · obtain ⟨isTyped, notFile, graph⟩ := Entries.mem_defined.mp inside
    obtain ⟨⟨n, x⟩, isEntry, same⟩ := List.mem_map.mp isTyped
    cases same
    obtain ⟨m, from_⟩ := read.entries _ isEntry notFile
    obtain ⟨g₀, typedFrom⟩ := checkEntry_typedFrom notFile graph (each _ isEntry)
    have isDefined := Entries.mem_defined.mpr ⟨isEntry, notFile, typedFrom.untyped⟩
    obtain ⟨hd, isHeading, named, t, tree, of⟩ := exists_of_mem_left headings isDefined
    cases from_.tree.symm.trans tree
    refine ⟨m, x, g₀, isDefined, from_, typedFrom, hd, named, of, ?_⟩
    rw [tables]
    exact Tables.of_lists (headings_names headings ▸ distinct) isHeading

/-- Every tree in a typed graph is that of a spelled directive, to which types were given without an
error. -/
theorem TypedFrom.directive {tables : Tables} {name : String} {e e₀ : Entry} {g g₀ : Graph}
    (from_ : TypedFrom tables name e g e₀ g₀) {m : Method} (read : e₀.ReadFrom m)
    {p : BlockId × Block} (inside : p ∈ g.blocks) {op : Operation} (tree : p.2.tree = some op) :
    ∃ c : Directive, c.Spelled ∧ (c.fresh.assign (tables.scope name)).errors = [] ∧
      (c.fresh.assign (tables.scope name)).node.operation = op := by
  rw [from_.blocks] at inside
  obtain ⟨q, built, rfl⟩ := List.mem_map.mp inside
  have silent := from_.quiet q built
  cases before : q.2.tree with
  | none => simp [checkBlock, before] at tree
  | some op₀ =>
    obtain ⟨c, spelled, rfl⟩ := read.directive from_.untyped built before
    simp only [checkBlock, before, Option.some.injEq, List.map_eq_nil_iff] at tree silent
    exact ⟨c, spelled, silent, tree⟩

theorem typed_tree {files : List SourceFile} (texts : ∀ f ∈ files, ∃ text, f.content = .text text)
    {a : Analysis} (analysed : analyze files = .ok a) {typed : Entries} {results : TypeTable}
    (checked : checkTypes a.entries = .ok (.typed typed results)) :
    ∃ tables, checkedTables a.entries = .ok tables ∧ ∀ name e g, (name, e, g) ∈ typed.defined →
      (tables.scope name).Complete ∧ ∀ p ∈ g.blocks, ∀ op, p.2.tree = some op →
        ∃ c : Directive, c.Spelled ∧ (c.fresh.assign (tables.scope name)).errors = [] ∧
          (c.fresh.assign (tables.scope name)).node.operation = op := by
  obtain ⟨tables, found, -, each⟩ := typed_method texts analysed checked
  refine ⟨tables, found, fun name e g inside => ?_⟩
  obtain ⟨complete, m, e₀, g₀, -, read, from_, -⟩ := each name e g inside
  exact ⟨complete, fun p isBlock op tree => from_.directive read isBlock tree⟩

end MethodLang
