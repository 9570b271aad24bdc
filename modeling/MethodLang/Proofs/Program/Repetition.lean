import MethodLang.Proofs.Program.Findings
import MethodLang.Proofs.Program.Protocol
import MethodLang.Proofs.Typing.Listing
import MethodLang.Proofs.Typing.Repeating

/-!
Checking a program twice. The first check leaves types in the trees of the program. A second check
of what it left reads the same declarations, gives the same answer, and leaves all types as they
are (`checkTypes_repeated`).
-/
namespace MethodLang

open TypeCheck Declaration

/-! ### Texts of errors -/

/-- The text of an error shows labels only. -/
theorem TypeError.text_bare {α β : Type} {t : Tree α} {u : Tree β} (same : t.bare = u.bare) :
    TypeError.text t = TypeError.text u := by
  funext e
  have drawn {γ : Type} (v : Tree γ) : e.drawn v = e.drawn v.bare := by
    rw [TypeError.drawn, TypeError.drawn, Tree.at?_bare]
    cases v.at? e.path with
    | none => rfl
    | some c => exact (c.draw_bare .box).symm
  rw [TypeError.text, TypeError.text, drawn t, drawn u, same]

/-! ### Graphs and entries -/

theorem checkBlock_again (s : Scope) (b : Block) : checkBlock s (checkBlock s b).1 = checkBlock s b := by
  cases tree : b.tree with
  | none => simp [checkBlock, tree]
  | some op =>
    obtain ⟨errors, types⟩ := assign_again s op
    have texts := TypeError.text_bare
      (t := Marked.unmarked ((Marked.unmarked op).assign s).node.operation) (u := Marked.unmarked op) (by
        rw [Marked.unmarked, Tree.bare_map, Marked.operation, Tree.bare_map, Marked.assign_bare])
    simp only [checkBlock, tree, errors, types, texts]

theorem checkGraph_again (s : Scope) (g : Graph) :
    checkGraph s (checkGraph s g).1 = checkGraph s g := by
  simp only [checkGraph, List.map_map, List.flatMap_map, Function.comp_def, checkBlock_again]

theorem checkEntry_again (tables : Tables) (name : String) (e : Entry) :
    checkEntry tables name (annotateEntry tables name e) = checkEntry tables name e := by
  unfold annotateEntry checkEntry
  cases graph : e.graph with
  | none => simp
  | some g =>
    by_cases isFile : Entries.isFile name
    · simp [isFile]
    · simp [isFile, checkGraph_again]

theorem annotate_again (tables : Tables) (entries : Entries) :
    annotate tables (annotate tables entries) = annotate tables entries := by
  rw [annotate, annotate, List.map_map]
  refine List.map_congr_left fun p _ => ?_
  simp only [Function.comp_def]
  rw [annotateEntry, checkEntry_again]
  rfl

theorem checkTyped_again (tables : Tables) (entries : Entries) :
    checkTyped tables (annotate (withBuiltins tables) entries) = checkTyped tables entries := by
  have checked : ((annotate (withBuiltins tables) entries).map fun p =>
      (p.1, checkEntry (withBuiltins tables) p.1 p.2)) =
      entries.map fun p => (p.1, checkEntry (withBuiltins tables) p.1 p.2) := by
    rw [annotate, List.map_map]
    refine List.map_congr_left fun p _ => ?_
    simp only [Function.comp_def, checkEntry_again]
  simp only [checkTyped, checked]

/-! ### Declarations -/

theorem checkEntry_graph (tables : Tables) (name : String) (e : Entry) :
    (checkEntry tables name e).1.graph.isSome = e.graph.isSome := by
  unfold checkEntry
  cases graph : e.graph with
  | none => rfl
  | some g =>
    simp only
    split <;> rfl

/-- The names and trees of the methods that have a graph. -/
theorem Entries.defined_trees (entries : Entries) :
    entries.defined.map (fun m => (m.1, m.2.1.tree)) = entries.filterMap fun p =>
      if isFile p.1 then none else if p.2.graph.isSome then some (p.1, p.2.tree) else none := by
  rw [defined, methods, List.map_filterMap, List.filterMap_filter]
  refine List.filterMap_congr fun p _ => ?_
  obtain ⟨name, e⟩ := p
  cases file : isFile name <;> cases graph : e.graph <;> simp [file, graph]

theorem findings_trees (ms : List (String × Entry × Graph)) :
    findings ms = (ms.map fun m => (m.1, m.2.1.tree)).mapM fun p =>
      (Finding.read p.1 p.2).map fun f => (p.1, f) := by
  rw [findings, List.mapM_map]
  rfl

/-- Types in the graphs change nothing of what the methods declare. -/
theorem findings_annotate (tables : Tables) (entries : Entries) :
    findings (annotate tables entries).defined = findings entries.defined := by
  have trees : (annotate tables entries).defined.map (fun m => (m.1, m.2.1.tree)) =
      entries.defined.map fun m => (m.1, m.2.1.tree) := by
    rw [Entries.defined_trees, Entries.defined_trees, annotate, List.filterMap_map]
    refine List.filterMap_congr fun p _ => ?_
    simp only [Function.comp_def, annotateEntry, checkEntry_graph]
  rw [findings_trees, findings_trees, trees]

theorem annotate_names (tables : Tables) (entries : Entries) :
    (annotate tables entries).map (·.1) = entries.map (·.1) := by
  rw [annotate, List.map_map]
  rfl

/-! ### Analysed texts -/

theorem locals_total {m : Method} (spelled : m.Spelled) {body : Body} (has : m.body = some body) :
    Total (locals (variableNodes body.view)) := by
  obtain ⟨table, ordered⟩ := orderedVariables_total spelled
  rw [orderedVariables, Method.body?_view, has] at ordered
  obtain ⟨groups, read, -⟩ := Except.bind_eq_ok.mp ordered
  exact Total.bind ⟨groups, read⟩ fun _ => .ok _

theorem methodArguments_total (m : Method) : Total (methodArguments m.view) := by
  unfold methodArguments
  rw [m.list_view]
  refine (argDefs_total argument (fun _ => ⟨_, rfl⟩) fun x t => ?_).bind fun _ => .ok _
  rw [argument_typed]
  exact (nameView_total x).bind fun _ => (typeOf_total t).bind fun _ => .ok _

theorem result_total {m : Method} (spelled : m.Spelled) : Total (Declaration.result m.view) := by
  have typed := (Method.view_typed spelled).signature m.signature.view m.signature?_view
  unfold Declaration.result
  rw [Method.view_eq]
  simp only [Tree.children_node]
  split
  · exact .ok _
  · rename_i last isLast
    split
    · exact .ok _
    · rename_i isType
      have written := typed last (List.mem_of_getLast? isLast) (Decidable.not_not.mp isType)
      refine written.typeOf_total.bind fun read => ?_
      split <;> exact .ok _

/-- What a written method declares can be read, flawed or not. -/
theorem Finding.read_total {m : Method} (spelled : m.Spelled) (name : String) :
    Total (Finding.read name (some m.view)) := by
  have locals (result : Option TypeName) : Total (methodVariables name result m.view) := by
    unfold methodVariables
    rw [Method.body?_view]
    cases has : m.body with
    | none => cases result <;> exact ⟨_, rfl⟩
    | some body =>
      refine (locals_total spelled has).bind fun _ => ?_
      cases result <;> exact .ok _
  unfold Finding.read
  refine (result_total spelled).bind fun read => ?_
  rw [m.structureFlaw_view]
  exact (locals read.1).bind fun _ => (methodArguments_total m).bind fun _ => .ok _

theorem Analysis.Read.findings_total {a : Analysis} (read : a.Read) :
    Total (findings a.entries.defined) := by
  refine Total.mapM fun x inside => ?_
  obtain ⟨isEntry, notFile, -⟩ := Entries.mem_defined.mp inside
  obtain ⟨m, from_⟩ := read.entries _ isEntry notFile
  obtain ⟨f, found⟩ := Finding.read_total from_.spelled x.1
  rw [from_.tree, found]
  exact .ok _

/-- A program may be checked again: the check of what the first one left gives the same answer, and
leaves it as it is. What it answers are the types that it left. -/
theorem checkTypes_repeated {files : List SourceFile}
    (texts : ∀ f ∈ files, ∃ text, f.content = .text text) {a : Analysis}
    (analysed : analyze files = .ok a) :
    (∃ checked, checkTypes a.entries = .ok checked ∧
      checkTypes a.entries.annotated = .ok checked) ∧
    a.entries.annotated.annotated = a.entries.annotated ∧
    ∀ typed results, checkTypes a.entries = .ok (.typed typed results) →
      typed.map (fun p => (p.1, p.2.graph)) =
        a.entries.annotated.map fun p => (p.1, p.2.graph) := by
  have read := analyze_read texts analysed
  obtain ⟨fs, found⟩ := read.findings_total
  have once : checkTypes a.entries = .ok (answer a.entries (Declared.of fs).judge) := by
    rw [checkTypes_eq read.distinct, found]
    rfl
  have annotated := annotated_eq read.distinct found
  refine and_assoc.mp ⟨?_, fun typed results => typed_annotated⟩
  cases judged : (Declared.of fs).judge with
  | error messages =>
    rw [judged] at annotated
    exact ⟨⟨_, once, by rw [annotated]; exact once⟩, by rw [annotated]; exact annotated⟩
  | ok tables =>
    rw [judged] at once annotated
    have found' : findings a.entries.annotated.defined = .ok fs := by
      rw [annotated, left, findings_annotate, found]
    have distinct' : (a.entries.annotated.map (·.1)).Nodup := by
      rw [annotated, left, annotate_names]
      exact read.distinct
    refine ⟨⟨_, once, ?_⟩, ?_⟩
    · rw [checkTypes_eq distinct', found', Except.map, judged, annotated]
      exact congrArg _ (checkTyped_again tables a.entries)
    · rw [annotated_eq distinct' found', judged, annotated]
      exact annotate_again _ a.entries

/-- The messages about a flawed program. -/
def Checked.messages : Checked → Messages
  | .flawed messages => messages
  | .typed _ _ => []

/-- A program with a type error keeps the types that the check left, and is refused again. -/
theorem flawed_checked_twice :
    let text := "method f(x: int) : int begin f = x + 1; f = 'a' + 2 * x; end;"
    let files : List SourceFile := [⟨"a.txt", .text text⟩]
    ∃ a messages, analyze files = .ok a ∧ messages.length = 1 ∧
      checkTypes a.entries = .ok (.flawed messages) ∧
      checkTypes a.entries.annotated = .ok (.flawed messages) ∧
      a.entries.annotated.annotated = a.entries.annotated := by
  intro text files
  obtain ⟨a, analysed, flawed⟩ := exists_analysis files
    (P := fun a => ((checkTypes a.entries).map (·.messages.length)).toOption = some 1)
    (by decide +kernel)
  have texts : ∀ f ∈ files, ∃ text, f.content = .text text :=
    List.forall_mem_singleton.mpr ⟨text, rfl⟩
  obtain ⟨⟨checked, once, twice⟩, stays, -⟩ := checkTypes_repeated texts analysed
  rw [once] at flawed
  cases checked with
  | flawed messages => exact ⟨a, messages, analysed, Option.some.inj flawed, once, twice, stays⟩
  | typed entries results => cases flawed

end MethodLang
