import Mathlib.Data.List.Forall2
import MethodLang.Proofs.Flow.Stopping
import MethodLang.Proofs.Grammar.Unmarked
import MethodLang.Proofs.Program.Entries
import MethodLang.Proofs.Tree.Related
import MethodLang.Proofs.Typing.Listing

/-!
Declarations and definitions. A method may come up any number of times as a declaration, and then
once with its body, always with the same signature: then its entry is told by that last occurrence
alone. Anything else is an error that stays (`analyze_protocol`). What an entry knows of its method
is kept step by step as the occurrences come up, whatever comes up between them (`Standing`).
-/
namespace MethodLang

open Declaration

/-! ### Occurrences -/

/-- The signatures of the methods are equal label for label. -/
def Method.Alike (m n : Method) : Prop := m.signature.view.bare = n.signature.view.bare

/-- The occurrences of a method define it: all but the last declare it, the last has a body of which
a graph is built without an error, and all have one signature. -/
structure Defines (ms : List Method) (m : Method) (g : Graph) : Prop where
  occurrences : ∃ before, ms = before ++ [m] ∧ ∀ d ∈ before, d.body = none ∧ d.Alike m
  built : Analysis.buildGraph m.view = .ok (some g)
  clean : g.errors = []

/-- The entry holds what one occurrence of the method tells. -/
structure Entry.Tells (e : Entry) (m : Method) (g : Graph) : Prop where
  errors : e.errors = []
  tree : e.tree = some m.view
  graph : e.graph = some (g.prune 0 1)
  calls : e.calls = Analysis.cleanCalls [] g.calls
  params : orderedArguments m.view = .ok e.params
  vars : orderedVariables m.view = .ok e.vars

/-- What the entry of a method knows once the given occurrences have come up. -/
inductive Standing : List Method → Option Entry → Prop where
  | unseen : Standing [] none
  | declared {before : List Method} {m : Method} {e : Entry} (spelled : m.Spelled)
      (alike : ∀ d ∈ before ++ [m], d.body = none ∧ d.Alike m) (tree : e.tree = some m.view)
      (graph : e.graph = none) (errors : e.errors = []) (calls : e.calls = []) :
      Standing (before ++ [m]) (some e)
  | defined {ms : List Method} {m : Method} {g : Graph} {e : Entry} (spelled : m.Spelled)
      (defines : Defines ms m g) (tells : e.Tells m g) : Standing ms (some e)
  /-- Whatever comes up later, the method will not be defined. -/
  | flawed {ms : List Method} {e : Entry} (filled : ms ≠ []) (errors : e.errors ≠ [])
      (tree : ∃ m : Method, m.Spelled ∧ e.tree = some m.view)
      (never : ∀ more m g, ¬ Defines (ms ++ more) m g) : Standing ms (some e)

theorem Defines.unique {ms : List Method} {m n : Method} {g h : Graph} (first : Defines ms m g)
    (second : Defines ms n h) : m = n ∧ g = h := by
  obtain ⟨_, rfl, -⟩ := first.occurrences
  obtain ⟨_, same, -⟩ := second.occurrences
  obtain ⟨-, same⟩ := List.append_inj' same rfl
  cases same
  have built := first.built.symm.trans second.built
  cases built
  exact ⟨rfl, rfl⟩

/-- Behind an occurrence with a body nothing defines the method. -/
theorem Defines.closed {ms more : List Method} {m n : Method} {g : Graph} (inside : n ∈ ms)
    (body : n.body.isSome) (nonempty : more ≠ []) : ¬ Defines (ms ++ more) m g := by
  rintro ⟨⟨before, same, alike⟩, -, -⟩
  obtain ⟨rest, last, rfl⟩ := List.eq_nil_or_concat more |>.resolve_left nonempty
  rw [List.concat_eq_append, ← List.append_assoc] at same
  obtain ⟨rfl, -⟩ := List.append_inj' same rfl
  rw [(alike n (List.mem_append_left _ inside)).1] at body
  cases body

/-- Two occurrences with different signatures cannot belong to one definition. -/
theorem Defines.alike {ms : List Method} {m : Method} {g : Graph} (defines : Defines ms m g)
    {c d : Method} (isC : c ∈ ms) (isD : d ∈ ms) : c.Alike d := by
  obtain ⟨before, rfl, alike⟩ := defines.occurrences
  have same : ∀ x ∈ before ++ [m], x.Alike m := by
    intro x inside
    rcases List.mem_append.mp inside with isBefore | isLast
    · exact (alike x isBefore).2
    · rw [List.mem_singleton.mp isLast]
      rfl
  exact (same c isC).trans (same d isD).symm

/-! ### Taking up an occurrence -/

/-- What taking up an occurrence makes of an entry that has no graph and no errors yet. -/
inductive TakesUp (entry : Entry) (m : Method) : Entry → Prop where
  | declaration (body : m.body = none) : TakesUp entry m entry
  | broken {e : Entry} (body : m.body.isSome) (tree : e.tree = entry.tree) (errors : e.errors ≠ [])
      (never : ∀ g, Analysis.buildGraph m.view = .ok (some g) → g.errors ≠ []) : TakesUp entry m e
  | definition {g : Graph} {params vars : TypeTable}
      (built : Analysis.buildGraph m.view = .ok (some g)) (clean : g.errors = [])
      (args : orderedArguments m.view = .ok params) (locals : orderedVariables m.view = .ok vars) :
      TakesUp entry m { entry with
        calls := Analysis.cleanCalls entry.calls g.calls
        graph := some (g.prune 0 1)
        params := params
        vars := vars }

namespace Analysis

theorem sourceFault?_misplacedBreak (stop : Position) :
    ∃ reason, sourceFault? (.misplacedBreak stop) = some reason := ⟨_, rfl⟩

theorem define_takes (a : Analysis) (path name : String) (entry : Entry) {m : Method}
    (spelled : m.Spelled) : ∃ a' e, define a path name entry m.view = .ok a' ∧
      a'.entries = a.entries.put name e ∧ a'.seen = a.seen ∧ a'.last = a.last ∧
      TakesUp entry m e := by
  unfold define
  cases built : buildGraph m.view with
  | error fault =>
    obtain ⟨body, stop, rfl⟩ := buildGraph_stops spelled built
    obtain ⟨reason, is⟩ := sourceFault?_misplacedBreak stop
    simp only [is]
    exact ⟨_, _, rfl, rfl, rfl, rfl, .broken body rfl (by simp [addError]) (by simp [built])⟩
  | ok result =>
    cases result with
    | none =>
      refine ⟨_, _, rfl, rfl, rfl, rfl, .declaration ?_⟩
      rw [buildGraph_eq] at built
      cases has : m.body with
      | none => rfl
      | some body =>
        rw [has] at built
        obtain ⟨_, -, built⟩ := Except.bind_eq_ok.mp built
        cases built
    | some g =>
      obtain ⟨params, args⟩ := orderedArguments_total m
      obtain ⟨vars, locals⟩ := orderedVariables_total spelled
      simp only [args, locals]
      refine ⟨_, _, rfl, rfl, rfl, rfl, ?_⟩
      by_cases clean : g.errors = []
      · rw [clean, List.map_nil, List.append_nil]
        exact .definition built clean args locals
      · obtain ⟨body, has⟩ := buildGraph_body built
        refine .broken (by rw [has]; rfl) rfl (by simp [clean]) fun g' same => ?_
        cases built.symm.trans same
        exact clean

theorem signature_view (m : Method) : signature m.view = .ok m.signature.view := by
  rw [Method.view_eq]
  rfl

theorem methodName_view {m : Method} (spelled : m.Spelled) :
    methodName m.view = .ok m.signature.name := by
  have name := spelled.signature.name
  have kept : Text.trim ("\"" ++ m.signature.name ++ "\"") = "\"" ++ m.signature.name ++ "\"" := by
    simp [Text.trim, Text.trimBy, Text.isBlank, String.append_assoc]
  have read : methodName m.view =
      .ok (Text.trimQuotes (Text.trim ("\"" ++ m.signature.name ++ "\""))) := by
    rw [methodName, signature_view]
    rfl
  rw [read, kept, Text.trimQuotes_quoted name]

end Analysis

namespace Standing

/-- An occurrence that fits the declarations before it is taken up. -/
theorem take {before : List Method} {m : Method} (spelled : m.Spelled) {entry e : Entry}
    (alike : ∀ d ∈ before, d.body = none ∧ d.Alike m) (tree : entry.tree = some m.view)
    (graph : entry.graph = none) (errors : entry.errors = []) (calls : entry.calls = [])
    (takes : TakesUp entry m e) : Standing (before ++ [m]) (some e) := by
  cases takes with
  | declaration body =>
    refine declared spelled (List.forall_mem_append.mpr ⟨alike, ?_⟩) tree graph errors calls
    exact List.forall_mem_singleton.mpr ⟨body, rfl⟩
  | broken body same broken never =>
    refine flawed (by simp) broken ⟨m, spelled, same.trans tree⟩ fun more n g defines => ?_
    by_cases last : more = []
    · subst last
      rw [List.append_nil] at defines
      obtain ⟨_, same, -⟩ := defines.occurrences
      obtain ⟨-, same⟩ := List.append_inj' same rfl
      cases same
      exact never g defines.built defines.clean
    · exact Defines.closed (by simp) body last defines
  | definition built clean args locals =>
    refine defined spelled ⟨⟨before, rfl, alike⟩, built, clean⟩
      ⟨errors, tree, rfl, ?_, args, locals⟩
    rw [calls]

theorem ne_nil {ms : List Method} {e : Entry} (standing : Standing ms (some e)) : ms ≠ [] := by
  cases standing with
  | declared => simp
  | defined _ defines =>
    obtain ⟨_, rfl, -⟩ := defines.occurrences
    simp
  | flawed filled => exact filled

/-- An occurrence that does not fit is an error. -/
theorem refuse {ms : List Method} {e : Entry} (standing : Standing ms (some e)) {m : Method}
    {text : String} (misfit : ∀ d ∈ ms, e.graph = none → e.errors = [] → e.tree = some d.view →
      ¬ d.Alike m) : Standing (ms ++ [m]) (some (Analysis.addError e text)) := by
  have broken : (Analysis.addError e text).errors ≠ [] := by simp [Analysis.addError]
  cases standing with
  | @declared before d _ spelled alike tree graph errors calls =>
    refine flawed (by simp) broken ⟨d, spelled, tree⟩ fun more n g defines => ?_
    exact misfit d (by simp) graph errors tree (defines.alike (by simp) (by simp))
  | @defined _ d _ _ spelled defines tells =>
    obtain ⟨body, has⟩ := Analysis.buildGraph_body defines.built
    obtain ⟨before, rfl, -⟩ := defines.occurrences
    refine flawed (by simp) broken ⟨d, spelled, tells.tree⟩ fun more n g => ?_
    rw [List.append_assoc]
    exact Defines.closed (n := d) (by simp) (by rw [has]; rfl) (by simp)
  | flawed _ _ tree never =>
    refine flawed (by simp) broken tree fun more n g defines => ?_
    rw [List.append_assoc] at defines
    exact never _ n g defines

/-- Frame lists do not matter as long as there is no graph. -/
theorem relist {ms : List Method} {e : Entry} (standing : Standing ms (some e))
    (graph : e.graph = none) (params vars : TypeTable) :
    Standing ms (some { e with params := params, vars := vars }) := by
  cases standing with
  | declared spelled alike tree _ errors calls =>
    exact declared spelled alike tree graph errors calls
  | defined _ _ tells =>
    rw [tells.graph] at graph
    cases graph
  | flawed filled errors tree never => exact flawed filled errors tree never

/-- The tree of an entry is that of a written method. -/
theorem tree {ms : List Method} {e : Entry} (standing : Standing ms (some e)) :
    ∃ m : Method, m.Spelled ∧ e.tree = some m.view := by
  cases standing with
  | declared spelled _ tree => exact ⟨_, spelled, tree⟩
  | defined spelled _ tells => exact ⟨_, spelled, tells.tree⟩
  | flawed _ _ tree => exact tree

/-- An entry has a graph and no errors just if its method is defined, and then it tells the
definition. -/
theorem defined_iff {ms : List Method} {known : Option Entry} (standing : Standing ms known) :
    ((∃ e, known = some e ∧ e.errors = [] ∧ e.graph.isSome) ↔ ∃ m g, Defines ms m g) ∧
      ∀ m g, Defines ms m g → ∃ e, known = some e ∧ e.Tells m g := by
  cases standing with
  | unseen =>
    have never (m : Method) (g : Graph) : ¬ Defines [] m g := by
      rintro ⟨⟨before, same, -⟩, -, -⟩
      simp at same
    simp [never]
  | @declared before d e spelled alike tree graph errors calls =>
    have never (m : Method) (g : Graph) : ¬ Defines (before ++ [d]) m g := by
      rintro ⟨⟨_, same, -⟩, built, -⟩
      obtain ⟨-, same⟩ := List.append_inj' same rfl
      cases same
      obtain ⟨body, has⟩ := Analysis.buildGraph_body built
      rw [(alike d (by simp)).1] at has
      cases has
    simp [never, graph]
  | @defined _ m g e spelled defines tells =>
    refine ⟨⟨fun _ => ⟨m, g, defines⟩, fun _ => ⟨e, rfl, tells.errors, ?_⟩⟩, fun n h other => ?_⟩
    · rw [tells.graph]
      rfl
    · obtain ⟨rfl, rfl⟩ := defines.unique other
      exact ⟨e, rfl, tells⟩
  | flawed _ errors _ never =>
    have never (m : Method) (g : Graph) : ¬ Defines ms m g := by
      simpa using never [] m g
    simp [never, errors]

end Standing

/-! ### Runs -/

theorem Entries.get?_put (entries : Entries) (name : String) (e : Entry) (f : String) :
    (entries.put name e).get? f = if f = name then some e else entries.get? f := by
  unfold get?
  induction entries with
  | nil =>
    by_cases same : f = name
    · simp [put, same]
    · simp [put, List.lookup_cons, same, beq_false_of_ne same]
  | cons q rest ih =>
    obtain ⟨n, x⟩ := q
    rw [put]
    split
    · rename_i here
      subst here
      by_cases same : f = n
      · simp [same]
      · simp [List.lookup_cons, same, beq_false_of_ne same]
    · rename_i other
      rw [List.lookup_cons, List.lookup_cons, ih]
      by_cases same : f = n
      · subst same
        simp [other]
      · simp [beq_false_of_ne same]

theorem Entries.names_put (entries : Entries) (name : String) (e : Entry) :
    (entries.put name e).map (·.1) =
      if name ∈ entries.map (·.1) then entries.map (·.1) else entries.map (·.1) ++ [name] := by
  induction entries with
  | nil => rfl
  | cons q rest ih =>
    obtain ⟨n, x⟩ := q
    rw [put]
    by_cases same : n = name
    · simp [same]
    · rw [if_neg same, List.map_cons, List.map_cons, ih]
      by_cases inside : name ∈ rest.map (·.1)
      · rw [if_pos inside, if_pos (List.mem_cons_of_mem _ inside)]
      · rw [if_neg inside, if_neg (by simpa [Ne.symm same] using inside), List.cons_append]

/-- The occurrences of a name among methods. -/
def occurrences (ms : List Method) (f : String) : List Method :=
  ms.filter fun m => m.signature.name == f

theorem occurrences_append (ms : List Method) (m : Method) (f : String) :
    occurrences (ms ++ [m]) f =
      if m.signature.name = f then occurrences ms f ++ [m] else occurrences ms f := by
  rw [occurrences, occurrences, List.filter_append]
  by_cases same : m.signature.name = f <;> simp [same]

/-- The names of methods, in the order in which they first come up. -/
def firstNames (ms : List Method) : List String := (ms.map (·.signature.name)).eraseDups

theorem firstNames_append (ms : List Method) (m : Method) : firstNames (ms ++ [m]) =
    if m.signature.name ∈ firstNames ms then firstNames ms
    else firstNames ms ++ [m.signature.name] := by
  unfold firstNames
  rw [List.map_append, List.eraseDups_append]
  generalize ms.map (·.signature.name) = names
  by_cases inside : m.signature.name ∈ names <;>
    simp [inside, List.removeAll, List.eraseDups_cons]

namespace Analysis

/-- The analysis has taken up the given methods, in their order. -/
structure Tracks (a : Analysis) (ms : List Method) : Prop where
  seen : ∀ f, f ∈ a.seen ↔ occurrences ms f ≠ []
  last : a.last = none ↔ ms = []
  names : a.entries.map (·.1) = firstNames ms
  standing : ∀ f, Standing (occurrences ms f) (a.entries.get? f)

variable {a : Analysis} {ms : List Method} {m : Method}

/-- Only the entry of the method that comes up changes. -/
theorem Tracks.put (tracks : a.Tracks ms) {a' : Analysis} {e : Entry}
    (entries : a'.entries = a.entries.put m.signature.name e)
    (last : a'.last = some m.signature.name)
    (seen : ∀ f, f ∈ a'.seen ↔ f ∈ a.seen ∨ f = m.signature.name)
    (standing : Standing (occurrences ms m.signature.name ++ [m]) (some e)) :
    a'.Tracks (ms ++ [m]) where
  seen := by
    intro f
    rw [seen, tracks.seen, occurrences_append]
    by_cases same : m.signature.name = f
    · simp [same]
    · simp [same, Ne.symm same]
  last := by simp [last]
  names := by rw [entries, Entries.names_put, firstNames_append, tracks.names]
  standing := by
    intro f
    rw [entries, Entries.get?_put, occurrences_append]
    by_cases same : f = m.signature.name
    · subst same
      simpa using standing
    · simpa [same, Ne.symm same] using tracks.standing f

theorem fits_declared {e : Entry} {d : Method} (graph : e.graph = none) (errors : e.errors = [])
    (tree : e.tree = some d.view) (m : Method) :
    fits e m.view = .ok (d.signature.view.same m.signature.view) := by
  unfold fits
  rw [graph, errors, tree]
  simp only [signature_view]
  rfl

theorem fits_closed {e : Entry} (closed : e.graph.isSome ∨ e.errors ≠ []) (t : View) :
    fits e t = .ok false := by
  unfold fits
  split
  · rename_i graph errors _
    rw [graph, errors] at closed
    simp at closed
  · rfl

/-- What becomes of a method that comes up: it is refused, or it takes the place of what its entry
knows. -/
inductive Encounter (a : Analysis) (ms : List Method) (m : Method) (path : String) : Prop where
  | refused {e : Entry} (run : method path a m.view = .ok ({ a with last := some m.signature.name
        }.update m.signature.name (addError e (overloadText m.signature.name path))))
      (known : a.entries.get? m.signature.name = some e) (seen : m.signature.name ∈ a.seen)
      (misfit : ∀ d ∈ occurrences ms m.signature.name, e.graph = none → e.errors = [] →
        e.tree = some d.view → ¬ d.Alike m)
  | fits {b : Analysis} {entry : Entry} (run : method path a m.view =
        define b path m.signature.name { entry with tree := some m.view } m.view)
      (entries : b.entries = a.entries) (last : b.last = some m.signature.name)
      (seen : ∀ f, f ∈ b.seen ↔ f ∈ a.seen ∨ f = m.signature.name)
      (known : (a.entries.get? m.signature.name).getD ⟨[], [], none, some m.view, [], []⟩ = entry)
      (alike : ∀ d ∈ occurrences ms m.signature.name, d.body = none ∧ d.Alike m)
      (graph : entry.graph = none) (errors : entry.errors = []) (calls : entry.calls = [])

theorem Tracks.encounter (tracks : a.Tracks ms) (spelled : m.Spelled) (path : String) :
    Encounter a ms m path := by
  have filled : m.signature.name.isEmpty = false := by
    simpa [String.isEmpty_iff] using spelled.signature.name.ne_empty
  have standing := tracks.standing m.signature.name
  have seen := tracks.seen m.signature.name
  have run : method path a m.view = method path a m.view := rfl
  conv at run =>
    rhs
    simp only [method, methodName_view spelled, Bind.bind, Except.bind, filled, Bool.false_eq_true,
      if_false]
  cases found : a.entries.get? m.signature.name with
  | none =>
    rw [found] at standing
    have own : occurrences ms m.signature.name = [] := by
      generalize occurrences ms m.signature.name = ds at standing
      cases standing
      rfl
    have new : m.signature.name ∉ a.seen := by simp [seen, own]
    rw [found, Option.getD_none, if_neg (by simpa using new)] at run
    refine .fits run rfl rfl (by simp) (by rw [found]; rfl) ?_ rfl rfl rfl
    rw [own]
    exact List.forall_mem_nil _
  | some e =>
    rw [found] at standing
    have old : m.signature.name ∈ a.seen := seen.mpr standing.ne_nil
    rw [found, Option.getD_some, if_pos (by simpa using old)] at run
    by_cases closed : e.graph.isSome ∨ e.errors ≠ []
    · rw [fits_closed closed] at run
      refine .refused run found old fun d _ graph errors => ?_
      simp [graph, errors] at closed
    · generalize own : occurrences ms m.signature.name = ds at standing
      cases standing with
      | defined _ _ tells => simp [tells.graph] at closed
      | flawed _ errors => simp [errors] at closed
      | @declared before d _ spelledD alike tree graph errors calls =>
        rw [fits_declared graph errors tree] at run
        cases isSame : d.signature.view.same m.signature.view with
        | true =>
          rw [isSame] at run
          have isAlike := (Tree.same_iff_bare _ _).mp isSame
          refine .fits run rfl rfl (fun f => ?_) (by rw [found]; rfl) (fun c inside => ?_) graph
            errors calls
          · exact ⟨.inl, fun either => either.elim id fun same => same ▸ old⟩
          · rw [own] at inside
            exact ⟨(alike c inside).1, (alike c inside).2.trans isAlike⟩
        | false =>
          rw [isSame] at run
          refine .refused run found old fun c inside _ _ _ isAlike => ?_
          rw [own] at inside
          have isAlike := (alike c inside).2.symm.trans isAlike
          rw [(Tree.same_iff_bare _ _).mpr isAlike] at isSame
          cases isSame

/-- A method that comes up is taken up under its name. -/
theorem method_tracks (tracks : a.Tracks ms) (spelled : m.Spelled) (path : String) :
    ∃ a', method path a m.view = .ok a' ∧ a'.Tracks (ms ++ [m]) := by
  cases tracks.encounter spelled path with
  | refused run known old misfit =>
    have standing := tracks.standing m.signature.name
    rw [known] at standing
    refine ⟨_, run, tracks.put rfl rfl (fun f => ?_) (standing.refuse misfit)⟩
    exact ⟨.inl, fun either => either.elim id fun same => same ▸ old⟩
  | @fits b entry run entries last seen _ alike graph errors calls =>
    obtain ⟨a', e, defined, entries', seen', last', takes⟩ :=
      define_takes b path m.signature.name { entry with tree := some m.view } spelled
    refine ⟨a', run.trans defined, tracks.put (entries ▸ entries') (last'.trans last)
      (fun f => ?_) ?_⟩
    · rw [seen', seen]
    · exact .take spelled alike (by rfl) (by exact graph) (by exact errors) (by exact calls) takes

theorem methods_track (tracks : a.Tracks ms) (path : String) {source : Source}
    (spelled : ∀ m ∈ source, m.Spelled) :
    ∃ a', (source.map Method.view).foldlM (method path) a = .ok a' ∧ a'.Tracks (ms ++ source) := by
  induction source generalizing a ms with
  | nil => exact ⟨a, rfl, by simpa using tracks⟩
  | cons m rest ih =>
    obtain ⟨b, run, tracks⟩ := method_tracks tracks (spelled m List.mem_cons_self) path
    obtain ⟨c, runs, tracks⟩ := ih tracks fun n inside => spelled n (List.mem_cons_of_mem _ inside)
    refine ⟨c, ?_, by simpa using tracks⟩
    rw [List.map_cons, List.foldlM_cons, run]
    exact runs

/-- The end of a file changes no standing. -/
theorem closeFile_tracks (tracks : a.Tracks ms) (filled : ms ≠ []) :
    ∃ a', closeFile a = .ok a' ∧ a'.Tracks ms := by
  unfold closeFile
  cases isLast : a.last with
  | none => exact absurd (tracks.last.mp isLast) filled
  | some name =>
    simp only
    cases found : a.entries.get? name with
    | none => exact ⟨a, rfl, tracks⟩
    | some e =>
      have standing := tracks.standing name
      rw [found] at standing
      obtain ⟨m, spelled, tree⟩ := standing.tree
      obtain ⟨params, args⟩ := orderedArguments_total m
      obtain ⟨vars, locals⟩ := orderedVariables_total spelled
      simp only [tree]
      cases graph : e.graph with
      | some g => exact ⟨a, rfl, tracks⟩
      | none =>
        simp only [args, locals]
        refine ⟨_, rfl, tracks.seen, ?_, ?_, fun f => ?_⟩
        · exact isLast ▸ tracks.last
        · rw [update, Entries.names_put, if_pos (List.mem_map_of_mem (mem_of_lookup found))]
          exact tracks.names
        · rw [update, Entries.get?_put]
          by_cases same : f = name
          · rw [if_pos same, same]
            simpa only [graph, tree] using standing.relist graph params vars
          · rw [if_neg same]
            exact tracks.standing f

/-- A file of the language is taken up method by method and then closed. -/
theorem file_text (a : Analysis) {f : SourceFile} {text : String} (content : f.content = .text text)
    {source : Source} (parsed : parseSource text = some source) :
    file a f = (source.map Method.view).foldlM (method f.path)
      { a with views := a.views ++ [(Pathname.stem f.path, (Source.node source).view)] } >>=
        closeFile := by
  have root : f.root = .ok (Source.node source) := by
    rw [SourceFile.root, content]
    simp only [parsed]
  have unmarked : (Source.node source).flaws.isEmpty = true := by
    rw [Source.node_unmarked source]
    rfl
  rw [file, root]
  simp only [Bind.bind, Except.bind, unmarked, if_true, source_view]

/-- If there has been no method yet, a file cannot be closed. -/
theorem file_tracks (tracks : a.Tracks ms) {f : SourceFile} {text : String}
    (content : f.content = .text text) {source : Source} (parsed : parseSource text = some source) :
    (ms ++ source = [] → file a f = .error .nothingSeen) ∧
      (ms ++ source ≠ [] → ∃ a', file a f = .ok a' ∧ a'.Tracks (ms ++ source)) := by
  have viewed : { a with views := a.views ++ [(Pathname.stem f.path, (Source.node source).view)]
      }.Tracks ms := ⟨tracks.seen, tracks.last, tracks.names, tracks.standing⟩
  obtain ⟨b, run, tracks'⟩ := methods_track viewed f.path (parseSource_spelled parsed)
  have whole : file a f = closeFile b := by
    rw [file_text a content parsed, run]
    rfl
  rw [whole]
  refine ⟨fun empty => ?_, closeFile_tracks tracks'⟩
  rw [closeFile, tracks'.last.mpr empty]

theorem files_track (tracks : a.Tracks ms) (filled : ms ≠ []) {files : List SourceFile}
    {sources : List Source} (parsed : List.Forall₂ (fun f source => ∃ text,
      f.content = .text text ∧ parseSource text = some source) files sources) :
    ∃ a', files.foldlM file a = .ok a' ∧ a'.Tracks (ms ++ sources.flatten) := by
  induction parsed generalizing a ms with
  | nil => exact ⟨a, rfl, by simpa using tracks⟩
  | cons first _ ih =>
    obtain ⟨text, content, parsed⟩ := first
    obtain ⟨b, run, tracks⟩ := (file_tracks tracks content parsed).2 (by simp [filled])
    obtain ⟨c, runs, tracks⟩ := ih tracks (by simp [filled])
    refine ⟨c, ?_, by simpa using tracks⟩
    rw [List.foldlM_cons, run]
    exact runs

end Analysis

theorem Analysis.empty_tracks : Analysis.empty.Tracks [] where
  seen := by simp [Analysis.empty, occurrences]
  last := by simp [Analysis.empty]
  names := rfl
  standing := fun _ => .unseen

/-- Files in the language are analysed if the first of them has a method, and the entry of a name
has a graph and no errors just if its occurrences define it: all but the last declare it, the last
has a body that is built without an error, and all have one signature. Then the entry holds what the
last occurrence tells. -/
theorem analyze_protocol {files : List SourceFile} {sources : List Source}
    (parsed : List.Forall₂ (fun f source => ∃ text,
      f.content = .text text ∧ parseSource text = some source) files sources) :
    (sources.head? = some [] → analyze files = .error .nothingSeen) ∧
      (sources.head? ≠ some [] → ∃ a, analyze files = .ok a ∧ ∀ f,
        ((∃ e, a.entries.get? f = some e ∧ e.errors = [] ∧ e.graph.isSome) ↔
          ∃ m g, Defines (occurrences sources.flatten f) m g) ∧
        ∀ m g, Defines (occurrences sources.flatten f) m g →
          ∃ e, a.entries.get? f = some e ∧ e.Tells m g) := by
  cases parsed with
  | nil =>
    refine ⟨by simp, fun _ => ⟨.empty, rfl, fun f => ?_⟩⟩
    exact (Analysis.empty_tracks.standing f).defined_iff
  | @cons f source rest sources first others =>
    obtain ⟨text, content, parsed⟩ := first
    obtain ⟨empty, filled⟩ := Analysis.file_tracks Analysis.empty_tracks content parsed
    rw [analyze, List.foldlM_cons]
    refine ⟨fun hollow => ?_, fun solid => ?_⟩
    · rw [empty (by simpa using hollow)]
      rfl
    · obtain ⟨b, run, tracks⟩ := filled (by simpa using solid)
      obtain ⟨a, runs, tracks⟩ := Analysis.files_track tracks (by simpa using solid) others
      refine ⟨a, ?_, fun name => (tracks.standing name).defined_iff⟩
      rw [run]
      exact runs

/-- A property of an analysis, by evaluation. -/
theorem exists_analysis (files : List SourceFile) {P : Analysis → Prop} [DecidablePred P]
    (h : (analyze files).toOption.any (fun a => decide (P a)) = true) :
    ∃ a, analyze files = .ok a ∧ P a := by
  cases analysed : analyze files with
  | error => simp [analysed, Except.toOption] at h
  | ok a => exact ⟨a, rfl, by simpa [analysed, Except.toOption] using h⟩

/-- A method is declared in the first file and defined in the second; another one is declared once
more after its definition. -/
theorem declared_then_defined :
    let text₁ := "method f(x: int); method g() begin end; method f(x: int);"
    let text₂ := "method g(); method f(x: int) begin g(); end;"
    let files : List SourceFile := [⟨"a.txt", .text text₁⟩, ⟨"b.txt", .text text₂⟩]
    ∃ sources a, List.Forall₂ (fun f source => ∃ text,
        f.content = .text text ∧ parseSource text = some source) files sources ∧
      sources.head? ≠ some [] ∧ analyze files = .ok a ∧
      (∃ m g e, Defines (occurrences sources.flatten "f") m g ∧
        a.entries.get? "f" = some e ∧ e.Tells m g) ∧
      ¬ ∃ m g, Defines (occurrences sources.flatten "g") m g := by
  intro text₁ text₂ files
  obtain ⟨first, parsed₁, filled⟩ : ∃ x ∈ parseSource text₁, x.isEmpty = false := by decide +kernel
  obtain ⟨second, parsed₂, -⟩ : ∃ x ∈ parseSource text₂, x.isEmpty = false := by decide +kernel
  have parsed : List.Forall₂ (fun f source => ∃ text,
      f.content = .text text ∧ parseSource text = some source) files [first, second] :=
    .cons ⟨_, rfl, parsed₁⟩ (.cons ⟨_, rfl, parsed₂⟩ .nil)
  have head : [first, second].head? ≠ some [] := by
    rintro ⟨⟩
    cases filled
  obtain ⟨a, analysed, ⟨e, isF, clean⟩, notG⟩ := exists_analysis files
    (P := fun a => (∃ e ∈ a.entries.get? "f", e.errors = [] ∧ e.graph.isSome) ∧
      ¬ ∃ e ∈ a.entries.get? "g", e.errors = [] ∧ e.graph.isSome) (by decide +kernel)
  obtain ⟨a', analysed', protocol⟩ := (analyze_protocol parsed).2 head
  cases analysed.symm.trans analysed'
  obtain ⟨m, g, defines⟩ := (protocol "f").1.mp ⟨e, isF, clean⟩
  obtain ⟨e, found, tells⟩ := (protocol "f").2 m g defines
  exact ⟨_, a, parsed, head, analysed, ⟨m, g, e, defines, found, tells⟩,
    fun defined => notG ((protocol "g").1.mpr defined)⟩

/-- A file without methods cannot be closed before there was a method. -/
theorem empty_file_unclosed :
    let file : SourceFile := ⟨"a.txt", .text "method f() begin end;"⟩
    analyze [⟨"e.txt", .text ""⟩, file] = .error .nothingSeen ∧
      ∃ a, analyze [file] = .ok a ∧ ∃ e ∈ a.entries.get? "f", e.errors = [] ∧ e.graph.isSome := by
  intro file
  refine ⟨?_, exists_analysis [file] (by decide +kernel)⟩
  have stops : Analysis.file .empty ⟨"e.txt", .text ""⟩ = .error .nothingSeen := by rfl
  rw [analyze, List.foldlM_cons, stops]
  rfl

end MethodLang
