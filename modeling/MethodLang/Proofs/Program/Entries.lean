import MethodLang.Program.Analysis
import MethodLang.Proofs.Flow.Growth
import MethodLang.Proofs.Grammar.Reading
import MethodLang.Proofs.Typing.Declaring

/-!
Entries of analysed texts. Every entry of a method comes from one written method, whose graph and
frame lists it holds, and no two entries have one name (`analyze_read`).
-/
namespace MethodLang

/-! ### Putting entries -/

namespace Entries

variable {entries : Entries} {name : String} {entry : Entry}

theorem put_mem {p : String × Entry} (inside : p ∈ entries.put name entry) :
    p ∈ entries ∨ p = (name, entry) := by
  induction entries with
  | nil => exact .inr (List.mem_singleton.mp inside)
  | cons q rest ih =>
    obtain ⟨n, e⟩ := q
    rw [put] at inside
    split at inside
    · rename_i same
      subst same
      rcases List.mem_cons.mp inside with rfl | later
      · exact .inr rfl
      · exact .inl (List.mem_cons_of_mem _ later)
    · rcases List.mem_cons.mp inside with rfl | later
      · exact .inl List.mem_cons_self
      · exact (ih later).imp_left (List.mem_cons_of_mem _)

theorem put_distinct (distinct : (entries.map (·.1)).Nodup) :
    ((entries.put name entry).map (·.1)).Nodup := by
  induction entries with
  | nil => simp [put]
  | cons q rest ih =>
    obtain ⟨n, e⟩ := q
    rw [List.map_cons, List.nodup_cons] at distinct
    rw [put]
    split
    · simpa using distinct
    · rename_i other
      rw [List.map_cons, List.nodup_cons]
      refine ⟨fun inside => ?_, ih distinct.2⟩
      obtain ⟨p, isLater, same⟩ := List.mem_map.mp inside
      rcases put_mem isLater with old | rfl
      · exact distinct.1 (List.mem_map.mpr ⟨p, old, same⟩)
      · exact other same.symm

theorem mem_of_get? (found : entries.get? name = some entry) : (name, entry) ∈ entries :=
  mem_of_lookup found

end Entries

/-! ### Entries and methods -/

/-- The entry has the tree of a written method, and if it has a graph, the one that is built from
the method's body and pruned, beside the method's frame lists. -/
structure Entry.ReadFrom (e : Entry) (m : Method) : Prop where
  spelled : m.Spelled
  tree : e.tree = some m.view
  graph : ∀ g, e.graph = some g → ∃ body built, m.body = some body ∧
    Analysis.buildGraph m.view = .ok (some built) ∧ g = built.prune 0 1 ∧
    Declaration.orderedArguments m.view = .ok e.params ∧
    Declaration.orderedVariables m.view = .ok e.vars

/-- Every entry of a method was read from a written one, under a name that was seen. -/
structure Analysis.Read (a : Analysis) : Prop where
  entries : ∀ p ∈ a.entries, Entries.isFile p.1 = false → ∃ m, p.2.ReadFrom m
  seen : ∀ p ∈ a.entries, Entries.isFile p.1 = false → p.1 ∈ a.seen
  distinct : (a.entries.map (·.1)).Nodup

namespace Analysis

theorem Read.update {a : Analysis} (read : a.Read) {name : String} {entry : Entry}
    (method : Entries.isFile name = false → (∃ m, entry.ReadFrom m) ∧ name ∈ a.seen) :
    (a.update name entry).Read where
  entries := by
    intro p inside notFile
    rcases Entries.put_mem inside with old | rfl
    · exact read.entries p old notFile
    · exact (method notFile).1
  seen := by
    intro p inside notFile
    rcases Entries.put_mem inside with old | rfl
    · exact read.seen p old notFile
    · exact (method notFile).2
  distinct := Entries.put_distinct read.distinct

theorem buildGraph_body {m : Method} {g : Graph} (built : buildGraph m.view = .ok (some g)) :
    ∃ body, m.body = some body := by
  cases has : m.body with
  | some body => exact ⟨body, rfl⟩
  | none =>
    rw [Method.view_eq, has] at built
    simp [buildGraph, child, lastChild, tokenView, Bind.bind, Except.bind] at built

theorem define_read {a a' : Analysis} {path name : String} {entry : Entry} {m : Method}
    (read : a.Read) (spelled : m.Spelled)
    (method : Entries.isFile name = false →
      entry.graph = none ∧ entry.tree = some m.view ∧ name ∈ a.seen)
    (h : define a path name entry m.view = .ok a') : a'.Read := by
  have unbuilt (errors : List String) : (a.update name { entry with errors := errors }).Read := by
    refine read.update fun notFile => ?_
    obtain ⟨noGraph, tree, seen⟩ := method notFile
    exact ⟨⟨m, spelled, tree, fun g has => by cases noGraph.symm.trans has⟩, seen⟩
  unfold define at h
  split at h
  · split at h
    · cases h
      exact unbuilt _
    · cases h
  · cases h
    exact unbuilt entry.errors
  · rename_i g built
    obtain ⟨params, args, h⟩ := Except.bind_eq_ok.mp h
    obtain ⟨vars, locals, h⟩ := Except.bind_eq_ok.mp h
    cases h
    obtain ⟨body, has⟩ := buildGraph_body built
    have updated : (a.update name { entry with
        errors := entry.errors ++ g.errors.map fun r => path ++ ": " ++ r.message
        calls := cleanCalls entry.calls g.calls
        graph := some (g.prune 0 1)
        params := params
        vars := vars }).Read := by
      refine read.update fun notFile => ?_
      obtain ⟨_, tree, seen⟩ := method notFile
      refine ⟨⟨m, spelled, tree, fun g' is => ?_⟩, seen⟩
      cases is
      exact ⟨body, g, has, built, rfl, args, locals⟩
    exact ⟨updated.entries, updated.seen, updated.distinct⟩

theorem fits_graph {entry : Entry} {t : View} (h : fits entry t = .ok true) : entry.graph = none := by
  unfold fits at h
  split at h
  · assumption
  · cases h

theorem method_read {a a' : Analysis} {path : String} {m : Method} (read : a.Read)
    (spelled : m.Spelled) (h : method path a m.view = .ok a') : a'.Read := by
  obtain ⟨name, _, h⟩ := Except.bind_eq_ok.mp h
  split at h
  · cases h
    exact read
  have last (name : Option String) : Read { a with last := name } :=
    ⟨read.entries, read.seen, read.distinct⟩
  simp only at h
  split at h
  · rename_i contained
    have seen : name ∈ a.seen := by simpa using contained
    obtain ⟨fit, fitting, h⟩ := Except.bind_eq_ok.mp h
    split at h
    · rename_i fit
      subst fit
      have unbuilt := fits_graph fitting
      refine define_read (last (some name)) spelled (fun _ => ?_) h
      exact ⟨unbuilt, rfl, seen⟩
    · cases h
      refine (last (some name)).update fun notFile => ⟨?_, seen⟩
      cases found : a.entries.get? name with
      | none => exact ⟨m, spelled, rfl, fun g has => by cases has⟩
      | some entry =>
        obtain ⟨m', from_⟩ := read.entries _ (Entries.mem_of_get? found) notFile
        exact ⟨m', from_.spelled, from_.tree, from_.graph⟩
  · rename_i missing
    have unseen : name ∉ a.seen := by simpa using missing
    have widened : Read { a with last := some name, seen := a.seen ++ [name] } :=
      ⟨read.entries, fun p inside notFile => List.mem_append_left _ (read.seen p inside notFile),
        read.distinct⟩
    refine define_read widened spelled (fun notFile => ⟨?_, rfl, by simp⟩) h
    cases found : a.entries.get? name with
    | none => rfl
    | some entry => exact absurd (read.seen _ (Entries.mem_of_get? found) notFile) unseen

theorem closeFile_read {a a' : Analysis} (read : a.Read) (h : closeFile a = .ok a') : a'.Read := by
  unfold closeFile at h
  split at h
  · cases h
  rename_i name _
  split at h
  · rename_i entry found
    have inside := Entries.mem_of_get? found
    split at h
    · rename_i noGraph _
      obtain ⟨params, _, h⟩ := Except.bind_eq_ok.mp h
      obtain ⟨vars, _, h⟩ := Except.bind_eq_ok.mp h
      cases h
      refine read.update fun notFile => ⟨?_, read.seen _ inside notFile⟩
      obtain ⟨m, from_⟩ := read.entries _ inside notFile
      exact ⟨m, from_.spelled, from_.tree, fun g has => by cases noGraph.symm.trans has⟩
    · cases h
      exact read
  · cases h
    exact read

theorem isFile_fileName (stem : String) : Entries.isFile (Entries.fileName stem) = true := by
  simp [Entries.isFile, Entries.fileName, Text.startsWith]

theorem flawedFile_read {a : Analysis} (read : a.Read) (path : String) (root : Node) :
    (a.flawedFile path root).Read := by
  have updated (entry : Entry) :
      (a.update (Entries.fileName (Pathname.stem path)) entry).Read := by
    refine read.update fun notFile => ?_
    rw [isFile_fileName] at notFile
    cases notFile
  exact ⟨(updated _).entries, (updated _).seen, (updated _).distinct⟩

theorem source_view (source : Source) :
    (Source.node source).view.children = source.map Method.view := by
  cases source with
  | nil => rfl
  | cons m ms =>
    have views : (Source.node (m :: ms)).view.children = (Node.viewAll ((m :: ms).map fun m =>
        (Node.branch "sourceItem" [m.node.as "funcDef"]).as "sourceItem")).map (·.2) := rfl
    rw [views, Node.viewAll_eq_map, List.map_map, List.map_map]
    rfl

theorem file_read {a a' : Analysis} {f : SourceFile} (isText : ∃ text, f.content = .text text)
    (read : a.Read) (h : file a f = .ok a') : a'.Read := by
  obtain ⟨text, content⟩ := isText
  obtain ⟨root, parsed, h⟩ := Except.bind_eq_ok.mp h
  have isSource : ∃ source, parseSource text = some source ∧ root = Source.node source := by
    rw [SourceFile.root, content] at parsed
    simp only at parsed
    split at parsed
    · rename_i source found
      cases parsed
      exact ⟨source, found, rfl⟩
    · cases parsed
  obtain ⟨source, found, rfl⟩ := isSource
  split at h
  · obtain ⟨b, methods, h⟩ := Except.bind_eq_ok.mp h
    refine closeFile_read (foldlM_keeps (P := Read) (fun t inside b b' read step => ?_) ?_ methods) h
    · rw [source_view] at inside
      obtain ⟨m, isMethod, rfl⟩ := List.mem_map.mp inside
      exact method_read read (parseSource_spelled found m isMethod) step
    · exact ⟨read.entries, read.seen, read.distinct⟩
  · cases h
    exact flawedFile_read read f.path _

end Analysis

/-- The entries of analysed texts were read from written methods. -/
theorem analyze_read {files : List SourceFile}
    (texts : ∀ f ∈ files, ∃ text, f.content = .text text) {a : Analysis}
    (h : analyze files = .ok a) : a.Read := by
  refine foldlM_keeps (P := Analysis.Read) (fun f inside b b' read step =>
    Analysis.file_read (texts f inside) read step) ?_ h
  exact ⟨List.forall_mem_nil _, List.forall_mem_nil _, List.nodup_nil⟩

end MethodLang
