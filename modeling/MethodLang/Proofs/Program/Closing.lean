import Mathlib.Data.List.Induction
import MethodLang.Proofs.Program.Protocol

/-!
Frame lists of entries. A method that gets a graph gets its frame lists with it. Of the others only
the one that came up last is given its lists when a file is closed, so an entry has the lists of its
tree just if it has a graph, or a file ended with its method, or the lists are empty
(`analyze_lists`).
-/
namespace MethodLang

open Declaration

/-! ### Labels alone -/

namespace Declaration

variable {α : Type}

theorem first_bare (t : Tree α) : first t.bare = (first t).map Tree.bare := by
  unfold first
  rw [Tree.bare_children]
  cases t.children <;> rfl

theorem firstName_bare (t : Tree α) : firstName t.bare = firstName t := by
  unfold firstName
  rw [first_bare]
  cases first t with
  | error => rfl
  | ok c => simp [Except.map, Bind.bind, Except.bind, Tree.bare_label]

theorem labelled_bare (label : String) (t : Tree α) :
    labelled label t.bare = (labelled label t).map Tree.bare := by
  simp only [labelled, Tree.bare_children, List.find?_map, Function.comp_def, Tree.bare_label]

theorem lastLabelled_bare (label : String) (t : Tree α) :
    lastLabelled label t.bare = (lastLabelled label t).map Tree.bare := by
  simp only [lastLabelled, Tree.bare_children, ← List.map_reverse, List.find?_map,
    Function.comp_def, Tree.bare_label]

theorem simpleType_bare (kind : Tree α) : simpleType kind.bare = simpleType kind := by
  rw [simpleType, simpleType, Tree.bare_label, firstName_bare]

theorem arrayType_bare (kind : Tree α) : arrayType kind.bare = arrayType kind := by
  unfold arrayType
  rw [labelled_bare, Tree.bare_children, List.any_map]
  simp only [Function.comp_def, Tree.bare_label]
  cases labelled "typeRef" kind with
  | none => rfl
  | some inner =>
    simp only [Option.map_some, first_bare]
    cases first inner with
    | error => rfl
    | ok element =>
      simp only [Except.map, Bind.bind, Except.bind, Tree.bare_label, firstName_bare,
        simpleType_bare]

/-- What a type says depends on its labels alone. -/
theorem typeOf_bare (t : Tree α) : typeOf t.bare = typeOf t := by
  unfold typeOf
  rw [first_bare]
  cases first t with
  | error => rfl
  | ok kind =>
    simp only [Except.map, Bind.bind, Except.bind, Tree.bare_label, arrayType_bare,
      simpleType_bare]

theorem orderedArgument_bare (t : Tree α) : orderedArgument t.bare = orderedArgument t := by
  unfold orderedArgument
  rw [lastLabelled_bare, lastLabelled_bare]
  cases lastLabelled "identifier" t with
  | none => rfl
  | some identifier =>
    cases lastLabelled "typeRef" t with
    | none => simp only [Option.map_some, Option.map_none, firstName_bare]
    | some type => simp only [Option.map_some, firstName_bare, typeOf_bare]

/-- The arguments are read off the labels of the signature. -/
theorem orderedArguments_bare (t : Tree α) : orderedArguments t =
    match (signature? t).map Tree.bare >>= labelled "list<argDef>" with
    | none => .ok []
    | some list => (list.children.filter fun n => n.label == "argDef").mapM orderedArgument >>=
      fun args => .ok (args.filterMap id) := by
  unfold orderedArguments
  cases signature? t with
  | none => rfl
  | some signature =>
    simp only [Option.map_some, Option.bind_eq_bind, Option.bind_some, labelled_bare]
    cases labelled "list<argDef>" signature with
    | none => rfl
    | some list =>
      simp only [Option.map_some, Tree.bare_children, List.filter_map, Function.comp_def,
        Tree.bare_label, List.mapM_map, orderedArgument_bare]

end Declaration

/-- Methods with one signature have the same arguments. -/
theorem Method.Alike.arguments {m n : Method} (alike : m.Alike n) :
    orderedArguments m.view = orderedArguments n.view := by
  have same : m.signature.view.bare = n.signature.view.bare := alike
  rw [orderedArguments_bare, orderedArguments_bare, Method.signature?_view,
    Method.signature?_view, Option.map_some, Option.map_some, same]

theorem Method.orderedVariables_declaration {m : Method} (body : m.body = none) :
    orderedVariables m.view = .ok [] := by
  rw [orderedVariables, Method.body?_view, body]
  rfl

/-! ### Ends of files -/

/-- The name of the last method. -/
def lastName (ms : List Method) : Option String := ms.getLast?.map (·.signature.name)

/-- Some file ended with a method of the name, when an occurrence of the kind had come up. -/
def EndsWith (sources : List Source) (f : String) (kind : Method → Prop) : Prop :=
  ∃ before source after, sources = before ++ source :: after ∧ lastName source = some f ∧
    ∃ m ∈ occurrences (before ++ [source]).flatten f, kind m

section
variable {done : List Source} {source : Source} {f : String} {kind : Method → Prop}

theorem EndsWith.occurrence (ends : EndsWith done f kind) :
    ∃ m ∈ occurrences done.flatten f, kind m := by
  obtain ⟨before, source, after, rfl, -, m, inside, isKind⟩ := ends
  refine ⟨m, ?_, isKind⟩
  rw [List.append_cons, List.flatten_append, occurrences, List.filter_append]
  exact List.mem_append_left _ inside

theorem endsWith_concat : EndsWith (done ++ [source]) f kind ↔ EndsWith done f kind ∨
    lastName source = some f ∧ ∃ m ∈ occurrences (done ++ [source]).flatten f, kind m := by
  constructor
  · rintro ⟨before, s, after, split, ends, here⟩
    rcases List.eq_nil_or_concat after with rfl | ⟨after, last, rfl⟩
    · obtain ⟨rfl, same⟩ := List.append_inj' split rfl
      cases same
      exact .inr ⟨ends, here⟩
    · rw [List.concat_eq_append, ← List.cons_append, ← List.append_assoc] at split
      obtain ⟨rfl, -⟩ := List.append_inj' split rfl
      exact .inl ⟨before, s, after, rfl, ends, here⟩
  · rintro (⟨before, s, after, rfl, ends, here⟩ | ⟨ends, here⟩)
    · exact ⟨before, s, after ++ [source], by simp, ends, here⟩
    · exact ⟨done, source, [], rfl, ends, here⟩

theorem lastName_concat (filled : source ≠ []) :
    lastName (done ++ [source]).flatten = lastName source := by
  obtain ⟨front, m, rfl⟩ := List.eq_nil_or_concat source |>.resolve_left filled
  simp [lastName, List.getLast?_append]

/-- The method that came up last ended a file, even if there were files without methods since. -/
theorem endsWith_last (last : lastName done.flatten = some f)
    (some_ : ∃ m ∈ occurrences done.flatten f, kind m) : EndsWith done f kind := by
  induction done using List.reverseRecOn with
  | nil => cases last
  | append_singleton done source ih =>
    rw [endsWith_concat]
    by_cases filled : source = []
    · subst filled
      simp only [List.flatten_append, List.flatten_singleton, List.append_nil] at last some_
      exact .inl (ih last some_)
    · exact .inr ⟨lastName_concat filled ▸ last, some_⟩

/-- Whatever did not come up last has not ended the last file. -/
theorem endsWith_other (other : lastName (done ++ [source]).flatten ≠ some f) :
    EndsWith (done ++ [source]) f kind ↔ EndsWith done f kind := by
  rw [endsWith_concat, or_iff_left]
  rintro ⟨ends, -⟩
  have filled : source ≠ [] := by
    rintro rfl
    cases ends
  exact other (lastName_concat filled ▸ ends)

end

/-! ### Lists of an entry -/

/-- The lists of an entry were filled: with its graph, or at the end of a file. -/
def Entry.Filled (e : Entry) (done : List Source) (f : String) (kind : Method → Prop) : Prop :=
  e.graph.isSome ∨ EndsWith done f kind

/-- The entry has the tree of an occurrence, and its lists are those of the tree if they were
filled, and otherwise empty. The end of a file fills in variables only if an occurrence with a body
has come up. -/
structure Entry.Listed (e : Entry) (done : List Source) (f : String) (m : Method) : Prop where
  spelled : m.Spelled
  tree : e.tree = some m.view
  params : e.Filled done f (fun _ => True) → orderedArguments m.view = .ok e.params
  noParams : ¬ e.Filled done f (fun _ => True) → e.params = []
  vars : e.Filled done f (·.body.isSome) → orderedVariables m.view = .ok e.vars
  noVars : ¬ e.Filled done f (·.body.isSome) → e.vars = []

namespace Entry.Listed

variable {e : Entry} {done : List Source} {source : Source} {f : String} {m : Method}

/-- With a graph the lists are there to stay. -/
theorem of_graph (spelled : m.Spelled) (tree : e.tree = some m.view) (graph : e.graph.isSome)
    (params : orderedArguments m.view = .ok e.params)
    (vars : orderedVariables m.view = .ok e.vars) (done : List Source) (f : String) :
    e.Listed done f m where
  spelled := spelled
  tree := tree
  params _ := params
  noParams unfilled := absurd (.inl graph) unfilled
  vars _ := vars
  noVars unfilled := absurd (.inl graph) unfilled

theorem close_graph (listed : e.Listed done f m) (graph : e.graph.isSome) (source : Source) :
    e.Listed (done ++ [source]) f m :=
  of_graph listed.spelled listed.tree graph (listed.params (.inl graph)) (listed.vars (.inl graph))
    _ _

theorem close_other (listed : e.Listed done f m)
    (other : lastName (done ++ [source]).flatten ≠ some f) : e.Listed (done ++ [source]) f m := by
  have same (kind : Method → Prop) :
      e.Filled (done ++ [source]) f kind ↔ e.Filled done f kind :=
    or_congr_right (endsWith_other other)
  exact ⟨listed.spelled, listed.tree, fun filled => listed.params ((same _).mp filled),
    fun unfilled => listed.noParams (mt (same _).mpr unfilled),
    fun filled => listed.vars ((same _).mp filled),
    fun unfilled => listed.noVars (mt (same _).mpr unfilled)⟩

/-- The entry that came up last is given its lists. -/
theorem close_last (spelled : m.Spelled) (tree : e.tree = some m.view)
    (inside : m ∈ occurrences done.flatten f) (last : lastName done.flatten = some f)
    {params vars : TypeTable} (args : orderedArguments m.view = .ok params)
    (locals : orderedVariables m.view = .ok vars) :
    Entry.Listed { e with params := params, vars := vars } done f m where
  spelled := spelled
  tree := tree
  params _ := args
  noParams unfilled := absurd (.inr (endsWith_last last ⟨m, inside, trivial⟩)) unfilled
  vars _ := locals
  noVars unfilled := by
    cases body : m.body with
    | some _ => exact absurd (.inr (endsWith_last last ⟨m, inside, by simp [body]⟩)) unfilled
    | none =>
      rw [Method.orderedVariables_declaration body] at locals
      exact (Except.ok.inj locals).symm

/-- When the lists of an entry are those of its tree. -/
theorem exactly (listed : e.Listed done f m) : ∃ params vars,
    orderedArguments m.view = .ok params ∧ orderedVariables m.view = .ok vars ∧
      (e.params = params ↔ params = [] ∨ e.Filled done f fun _ => True) ∧
      (e.vars = vars ↔ vars = [] ∨ e.Filled done f fun n => n.body.isSome) := by
  obtain ⟨params, args⟩ := orderedArguments_total m
  obtain ⟨vars, locals⟩ := orderedVariables_total listed.spelled
  have exact_ {list own : TypeTable} {filled : Prop} {read : Except Fault TypeTable}
      (is : read = .ok list) (full : filled → read = .ok own) (unfilled : ¬ filled → own = []) :
      own = list ↔ list = [] ∨ filled := by
    by_cases has : filled
    · cases is.symm.trans (full has)
      simp [has]
    · rw [unfilled has, or_iff_left has, eq_comm]
  exact ⟨params, vars, args, locals, exact_ args listed.params listed.noParams,
    exact_ locals listed.vars listed.noVars⟩

theorem addError (listed : e.Listed done f m) (text : String) :
    (Analysis.addError e text).Listed done f m :=
  ⟨listed.spelled, listed.tree, listed.params, listed.noParams, listed.vars, listed.noVars⟩

end Entry.Listed

/-! ### Taking up a method -/

/-- What becomes of the entry of a method that comes up: it is refused, or it takes the entry's
place, with its lists if it has a graph. -/
inductive Taking (a : Analysis) (ms : List Method) (m : Method) : Entry → Prop where
  | refused {e : Entry} (known : a.entries.get? m.signature.name = some e) (text : String) :
      Taking a ms m (Analysis.addError e text)
  | taken {entry e : Entry}
      (known : (a.entries.get? m.signature.name).getD ⟨[], [], none, some m.view, [], []⟩ = entry)
      (alike : ∀ d ∈ occurrences ms m.signature.name, d.body = none ∧ d.Alike m)
      (graph : entry.graph = none) (tree : e.tree = some m.view)
      (lists : (e.graph.isSome ∧ orderedArguments m.view = .ok e.params ∧
          orderedVariables m.view = .ok e.vars) ∨
        e.graph = none ∧ e.params = entry.params ∧ e.vars = entry.vars) : Taking a ms m e

namespace Analysis

variable {a a' : Analysis} {ms : List Method} {m : Method} {path : String}

theorem define_lists {name : String} {entry : Entry} (graph : entry.graph = none)
    (run : define a path name entry m.view = .ok a') :
    ∃ e, a'.entries = a.entries.put name e ∧ a'.last = a.last ∧ e.tree = entry.tree ∧
      ((e.graph.isSome ∧ orderedArguments m.view = .ok e.params ∧
          orderedVariables m.view = .ok e.vars) ∨
        e.graph = none ∧ e.params = entry.params ∧ e.vars = entry.vars) := by
  unfold define at run
  split at run
  · split at run
    · cases run
      exact ⟨_, rfl, rfl, rfl, .inr ⟨graph, rfl, rfl⟩⟩
    · cases run
  · cases run
    exact ⟨_, rfl, rfl, rfl, .inr ⟨graph, rfl, rfl⟩⟩
  · obtain ⟨params, args, run⟩ := Except.bind_eq_ok.mp run
    obtain ⟨vars, locals, run⟩ := Except.bind_eq_ok.mp run
    cases run
    exact ⟨_, rfl, rfl, rfl, .inl ⟨rfl, args, locals⟩⟩

theorem method_takes (tracks : a.Tracks ms) (spelled : m.Spelled)
    (run : method path a m.view = .ok a') : ∃ e, a'.entries = a.entries.put m.signature.name e ∧
      a'.last = some m.signature.name ∧ Taking a ms m e := by
  cases tracks.encounter spelled path with
  | refused refuses known =>
    cases run.symm.trans refuses
    exact ⟨_, rfl, rfl, .refused known _⟩
  | fits defines entries last _ known alike graph =>
    obtain ⟨e, entries', last', tree, lists⟩ := define_lists (by exact graph) (defines.symm.trans run)
    exact ⟨e, entries ▸ entries', last'.trans last, .taken known alike graph tree lists⟩

/-! ### Runs -/

/-- The analysis has taken up the files and then the methods of one that is not yet closed. -/
structure Lists (a : Analysis) (done : List Source) (now : List Method) : Prop where
  tracks : a.Tracks (done.flatten ++ now)
  last : a.last = lastName (done.flatten ++ now)
  listed : ∀ f e, a.entries.get? f = some e →
    ∃ m ∈ occurrences (done.flatten ++ now) f, e.Listed done f m

variable {done : List Source} {now : List Method}

/-- What is taken up has the arguments of the declarations before it, and these had no
variables. -/
theorem Lists.taken (lists : a.Lists done now) (spelled : m.Spelled) {e : Entry}
    (taking : Taking a (done.flatten ++ now) m e) :
    ∃ n ∈ occurrences (done.flatten ++ now) m.signature.name ++ [m],
      e.Listed done m.signature.name n := by
  cases taking with
  | refused known text =>
    obtain ⟨n, inside, listed⟩ := lists.listed _ _ known
    exact ⟨n, List.mem_append_left _ inside, listed.addError text⟩
  | @taken entry _ known alike graph tree filled =>
    refine ⟨m, by simp, ?_⟩
    rcases filled with ⟨graph, params, vars⟩ | ⟨graph', params, vars⟩
    · exact .of_graph spelled tree graph params vars _ _
    have past {kind : Method → Prop} (ends : EndsWith done m.signature.name kind) :
        ∃ d ∈ occurrences (done.flatten ++ now) m.signature.name, kind d := by
      obtain ⟨d, inside, isKind⟩ := ends.occurrence
      refine ⟨d, ?_, isKind⟩
      rw [occurrences, List.filter_append]
      exact List.mem_append_left _ inside
    have open_ {kind : Method → Prop} (filled : e.Filled done m.signature.name kind) :
        EndsWith done m.signature.name kind := by
      simpa [Entry.Filled, graph'] using filled
    have unwritten : ¬ e.Filled done m.signature.name (·.body.isSome) := fun filled => by
      obtain ⟨d, inside, body⟩ := past (open_ filled)
      rw [(alike d inside).1] at body
      cases body
    cases found : a.entries.get? m.signature.name with
    | none =>
      rw [found, Option.getD_none] at known
      subst known
      refine ⟨spelled, tree, fun filled => ?_, fun _ => params, fun filled => absurd filled unwritten,
        fun _ => vars⟩
      obtain ⟨d, inside, -⟩ := past (open_ filled)
      have standing := lists.tracks.standing m.signature.name
      rw [found] at standing
      generalize occurrences (done.flatten ++ now) m.signature.name = ds at inside standing
      cases standing
      cases inside
    | some old =>
      rw [found, Option.getD_some] at known
      subst known
      obtain ⟨d, inside, listed⟩ := lists.listed _ _ found
      have same (kind : Method → Prop) : old.Filled done m.signature.name kind ↔
          e.Filled done m.signature.name kind := by
        rw [Entry.Filled, Entry.Filled, graph, graph']
      refine ⟨spelled, tree, fun filled => ?_, fun unfilled => ?_,
        fun filled => absurd filled unwritten, fun _ => ?_⟩
      · rw [params, ← (alike d inside).2.arguments]
        exact listed.params ((same _).mpr filled)
      · rw [params]
        exact listed.noParams (mt (same _).mp unfilled)
      · rw [vars]
        exact listed.noVars (mt (same _).mp unwritten)

theorem method_lists (lists : a.Lists done now) (spelled : m.Spelled) (path : String) :
    ∃ a', method path a m.view = .ok a' ∧ a'.Lists done (now ++ [m]) := by
  obtain ⟨a', run, tracks⟩ := method_tracks lists.tracks spelled path
  obtain ⟨e, entries, last, taking⟩ := method_takes lists.tracks spelled run
  refine ⟨a', run, by rwa [← List.append_assoc], ?_, fun f x found => ?_⟩
  · rw [last, ← List.append_assoc]
    simp [lastName]
  · rw [entries, Entries.get?_put] at found
    rw [← List.append_assoc, occurrences_append]
    by_cases same : f = m.signature.name
    · subst same
      rw [if_pos rfl] at found ⊢
      cases found
      exact lists.taken spelled taking
    · rw [if_neg same] at found
      rw [if_neg (Ne.symm same)]
      exact lists.listed f x found

theorem methods_list (lists : a.Lists done now) (path : String) {source : Source}
    (spelled : ∀ m ∈ source, m.Spelled) :
    ∃ a', (source.map Method.view).foldlM (method path) a = .ok a' ∧
      a'.Lists done (now ++ source) := by
  induction source generalizing a now with
  | nil => exact ⟨a, rfl, by simpa using lists⟩
  | cons m rest ih =>
    obtain ⟨b, run, lists⟩ := method_lists lists (spelled m List.mem_cons_self) path
    obtain ⟨c, runs, lists⟩ := ih lists fun n inside => spelled n (List.mem_cons_of_mem _ inside)
    refine ⟨c, ?_, by simpa using lists⟩
    rw [List.map_cons, List.foldlM_cons, run]
    exact runs

/-- Closing a file either leaves the entry that came up last, or gives it the lists of its tree. -/
theorem closeFile_cases {name : String} (isLast : a.last = some name)
    (run : closeFile a = .ok a') :
    (a' = a ∧ ∀ e t, a.entries.get? name = some e → e.tree = some t → e.graph.isSome) ∨
      ∃ e t params vars, a.entries.get? name = some e ∧ e.tree = some t ∧
        orderedArguments t = .ok params ∧ orderedVariables t = .ok vars ∧
        a' = a.update name { e with params := params, vars := vars } := by
  unfold closeFile at run
  simp only [isLast] at run
  split at run
  · rename_i e found
    split at run
    · rename_i t graph tree
      obtain ⟨params, args, run⟩ := Except.bind_eq_ok.mp run
      obtain ⟨vars, locals, run⟩ := Except.bind_eq_ok.mp run
      exact .inr ⟨e, t, params, vars, found, tree, args, locals, (Except.ok.inj run).symm⟩
    · rename_i other
      refine .inl ⟨(Except.ok.inj run).symm, fun e' t found' tree => ?_⟩
      cases found.symm.trans found'
      cases graph : e.graph with
      | some => rfl
      | none => exact (other t graph tree).elim
  · rename_i absent
    refine .inl ⟨(Except.ok.inj run).symm, fun e' _ found _ => ?_⟩
    cases absent.symm.trans found

/-- At the end of a file the lists of the entry that came up last are those of its tree. -/
theorem closeFile_lists {source : Source} (lists : a.Lists done source)
    (filled : done.flatten ++ source ≠ []) :
    ∃ a', closeFile a = .ok a' ∧ a'.Lists (done ++ [source]) [] := by
  obtain ⟨name, isLast⟩ := Option.ne_none_iff_exists'.mp (mt lists.tracks.last.mp filled)
  obtain ⟨a', run, tracks⟩ := closeFile_tracks lists.tracks filled
  have flat : done.flatten ++ source = (done ++ [source]).flatten := by simp
  have whole : done.flatten ++ source = (done ++ [source]).flatten ++ [] := by simp
  have last := lists.last
  have listed := lists.listed
  rw [flat] at last listed
  have others {f : String} {e : Entry} (other : f ≠ name) (found : a.entries.get? f = some e) :
      ∃ m ∈ occurrences (done ++ [source]).flatten f, e.Listed (done ++ [source]) f m := by
    obtain ⟨m, inside, listed⟩ := listed f e found
    refine ⟨m, inside, listed.close_other ?_⟩
    rw [← last, isLast]
    exact fun same => other (Option.some.inj same).symm
  refine ⟨a', run, whole ▸ tracks, ?_, fun f e found => ?_⟩
  · rw [List.append_nil, ← last]
    rcases closeFile_cases isLast run with ⟨rfl, -⟩ | ⟨_, _, _, _, -, -, -, -, rfl⟩ <;> rfl
  · rw [List.append_nil]
    rcases closeFile_cases isLast run with ⟨rfl, graph⟩ |
      ⟨e', t, params, vars, found', tree, args, locals, rfl⟩
    · by_cases same : f = name
      · subst same
        obtain ⟨m, inside, listed⟩ := listed f e found
        exact ⟨m, inside, listed.close_graph (graph e _ found listed.tree) source⟩
      · exact others same found
    · rw [update, Entries.get?_put] at found
      by_cases same : f = name
      · subst same
        rw [if_pos rfl] at found
        cases found
        obtain ⟨m, inside, listed⟩ := listed f e' found'
        cases listed.tree.symm.trans tree
        exact ⟨m, inside, .close_last listed.spelled tree inside (last.symm.trans isLast) args
          locals⟩
      · rw [if_neg same] at found
        exact others same found

theorem empty_lists : Analysis.empty.Lists [] [] :=
  ⟨empty_tracks, rfl, fun _ _ found => by cases found⟩

theorem file_lists (lists : a.Lists done []) {f : SourceFile} {text : String}
    (content : f.content = .text text) {source : Source} (parsed : parseSource text = some source)
    (filled : done.flatten ++ source ≠ []) :
    ∃ a', file a f = .ok a' ∧ a'.Lists (done ++ [source]) [] := by
  have viewed : { a with views := a.views ++ [(Pathname.stem f.path, (Source.node source).view)]
      }.Lists done [] :=
    ⟨⟨lists.tracks.seen, lists.tracks.last, lists.tracks.names, lists.tracks.standing⟩, lists.last,
      lists.listed⟩
  obtain ⟨b, run, lists⟩ := methods_list viewed f.path (parseSource_spelled parsed)
  obtain ⟨c, closed, lists⟩ := closeFile_lists lists filled
  refine ⟨c, ?_, lists⟩
  rw [file_text a content parsed, run]
  exact closed

theorem files_list (lists : a.Lists done []) (filled : done.flatten ≠ []) {files : List SourceFile}
    {sources : List Source} (parsed : List.Forall₂ (fun f source => ∃ text,
      f.content = .text text ∧ parseSource text = some source) files sources) :
    ∃ a', files.foldlM file a = .ok a' ∧ a'.Lists (done ++ sources) [] := by
  induction parsed generalizing a done with
  | nil => exact ⟨a, rfl, by simpa using lists⟩
  | cons first _ ih =>
    obtain ⟨text, content, parsed⟩ := first
    obtain ⟨b, run, lists⟩ := file_lists lists content parsed (by simp [filled])
    obtain ⟨c, runs, lists⟩ := ih lists (by simp [filled])
    refine ⟨c, ?_, by simpa using lists⟩
    rw [List.foldlM_cons, run]
    exact runs

end Analysis

/-- Files of the language are analysed if the first of them has a method. Every name that comes up
has an entry with the tree of one of its occurrences. The entry's parameters are those of the tree
just if these are none, or it has a graph, or some file ended with the method; and so are its
variables, if an occurrence with a body had come up at the end of that file. -/
theorem analyze_lists {files : List SourceFile} {sources : List Source}
    (parsed : List.Forall₂ (fun f source => ∃ text,
      f.content = .text text ∧ parseSource text = some source) files sources) :
    (sources.head? = some [] → analyze files = .error .nothingSeen) ∧
      (sources.head? ≠ some [] → ∃ a, analyze files = .ok a ∧
        a.entries.map (·.1) = firstNames sources.flatten ∧
        ∀ f e, a.entries.get? f = some e → ∃ m ∈ occurrences sources.flatten f,
          e.tree = some m.view ∧ ∃ params vars,
            orderedArguments m.view = .ok params ∧ orderedVariables m.view = .ok vars ∧
            (e.params = params ↔
              params = [] ∨ e.graph.isSome ∨ EndsWith sources f fun _ => True) ∧
            (e.vars = vars ↔
              vars = [] ∨ e.graph.isSome ∨ EndsWith sources f fun n => n.body.isSome)) := by
  cases parsed with
  | nil => exact ⟨by simp, fun _ => ⟨.empty, rfl, rfl, fun f e found => by cases found⟩⟩
  | @cons file source rest sources first others =>
    obtain ⟨text, content, parsed⟩ := first
    rw [analyze, List.foldlM_cons]
    refine ⟨fun hollow => ?_, fun solid => ?_⟩
    · rw [(Analysis.file_tracks Analysis.empty_tracks content parsed).1 (by simpa using hollow)]
      rfl
    · have filled : source ≠ [] := by simpa using solid
      obtain ⟨b, run, lists⟩ := Analysis.file_lists Analysis.empty_lists content parsed filled
      obtain ⟨a, runs, lists⟩ := Analysis.files_list lists (by simpa using filled) others
      simp only [List.nil_append, List.singleton_append] at lists
      refine ⟨a, by rw [run]; exact runs, by simpa using lists.tracks.names, fun f e found => ?_⟩
      obtain ⟨m, inside, listed⟩ := lists.listed f e found
      exact ⟨m, by simpa using inside, listed.tree, listed.exactly⟩

/-- A method with a misplaced break ends its file, and its variables are filled in; the method that
is declared before it gets its arguments with the second file. -/
theorem broken_method_listed :
    let text₁ := "method f(x: int); method g(y: byte) var v: int; begin break; end;"
    let text₂ := "method h() begin end; method f(x: int);"
    let files : List SourceFile := [⟨"a.txt", .text text₁⟩, ⟨"b.txt", .text text₂⟩]
    ∃ sources a, List.Forall₂ (fun f source => ∃ text,
        f.content = .text text ∧ parseSource text = some source) files sources ∧
      sources.head? ≠ some [] ∧ analyze files = .ok a ∧
      (∃ e t, a.entries.get? "g" = some e ∧ e.graph.isSome = false ∧ e.tree = some t ∧
        orderedVariables t = .ok e.vars ∧ e.vars = [("v", some "int")]) ∧
      ∃ e t, a.entries.get? "f" = some e ∧ e.graph.isSome = false ∧ e.tree = some t ∧
        orderedArguments t = .ok e.params ∧ e.params = [("x", some "int")] := by
  intro text₁ text₂ files
  obtain ⟨first, parsed₁, ends₁, written⟩ : ∃ x ∈ parseSource text₁, lastName x = some "g" ∧
      ∃ m ∈ occurrences x "g", m.body.isSome := by decide +kernel
  obtain ⟨second, parsed₂, ends₂, declared⟩ : ∃ x ∈ parseSource text₂, lastName x = some "f" ∧
      ∃ m ∈ occurrences x "f", True := by decide +kernel
  have parsed : List.Forall₂ (fun f source => ∃ text,
      f.content = .text text ∧ parseSource text = some source) files [first, second] :=
    .cons ⟨_, rfl, parsed₁⟩ (.cons ⟨_, rfl, parsed₂⟩ .nil)
  have head : [first, second].head? ≠ some [] := by
    rintro ⟨⟩
    cases ends₁
  have endsG : EndsWith [first, second] "g" fun n => n.body.isSome :=
    ⟨[], first, [second], rfl, ends₁, by simpa using written⟩
  have endsF : EndsWith [first, second] "f" fun _ => True := by
    obtain ⟨m, inside, -⟩ := declared
    refine ⟨[first], second, [], rfl, ends₂, m, ?_, trivial⟩
    simp only [List.singleton_append, List.flatten_cons, List.flatten_nil, List.append_nil,
      occurrences, List.filter_append]
    exact List.mem_append_right _ inside
  obtain ⟨a, analysed, ⟨g, isG, noGraphG, varsG⟩, f, isF, noGraphF, paramsF⟩ :=
    exists_analysis files (P := fun a =>
      (∃ e ∈ a.entries.get? "g", e.graph.isSome = false ∧ e.vars = [("v", some "int")]) ∧
        ∃ e ∈ a.entries.get? "f", e.graph.isSome = false ∧ e.params = [("x", some "int")])
      (by decide +kernel)
  obtain ⟨a', analysed', -, each⟩ := (analyze_lists parsed).2 head
  cases analysed.symm.trans analysed'
  obtain ⟨m, -, treeG, _, vars, -, readVars, -, exactlyG⟩ := each "g" g isG
  obtain ⟨n, -, treeF, params, _, readParams, -, exactlyF, -⟩ := each "f" f isF
  refine ⟨_, a, parsed, head, analysed, ⟨g, _, isG, noGraphG, treeG, ?_, varsG⟩,
    f, _, isF, noGraphF, treeF, ?_, paramsF⟩
  · rw [exactlyG.mpr (.inr (.inr endsG)), readVars]
  · rw [exactlyF.mpr (.inr (.inr endsF)), readParams]

/-- A method that is declared once and does not end its file has an argument in its tree and none in
its list. -/
theorem early_declaration_unlisted :
    ∃ a, analyze [⟨"a.txt", .text "method f(x: int); method g() begin end;"⟩] = .ok a ∧
      ∃ e ∈ a.entries.get? "f", e.params = [] ∧
        (e.tree.bind fun t => (orderedArguments t).toOption) = some [("x", some "int")] :=
  exists_analysis _ (by decide +kernel)

end MethodLang
