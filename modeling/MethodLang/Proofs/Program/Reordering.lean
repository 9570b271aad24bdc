import MethodLang.Proofs.Program.Findings
import MethodLang.Proofs.Program.Protocol

/-!
The order of entries. A check of types goes through the entries in their order, but all that it
asks of them is what stands under a name: tables that tell the same under every name type all
operations alike (`Marked.checker_alike`), and entries in another order give such tables
(`Declared.judge_perm`). So the order changes nothing of what is found for a method
(`checkTypes_reordered`).
-/
namespace MethodLang

open Checker TypeCheck

/-- The lists tell the same under every name. -/
def Telling {α : Type} (xs ys : List (String × α)) : Prop := ∀ name, xs.lookup name = ys.lookup name

namespace Telling

variable {α : Type} {xs ys : List (String × α)}

theorem of_perm (perm : xs.Perm ys) (distinct : (xs.map (·.1)).Nodup) : Telling xs ys := by
  intro name
  cases found : xs.lookup name with
  | some a =>
    have inside := perm.subset (mem_of_lookup found)
    exact (lookup_of_nodup ((perm.map _).nodup distinct) inside).symm
  | none =>
    symm
    rw [List.lookup_eq_none_iff] at found ⊢
    exact fun p inside => found p (perm.symm.subset inside)

theorem append_right (same : Telling xs ys) (zs : List (String × α)) :
    Telling (xs ++ zs) (ys ++ zs) := by
  intro name
  rw [List.lookup_append, List.lookup_append, same name]

theorem eq_nil (same : Telling xs ys) (empty : xs = []) : ys = [] := by
  subst empty
  cases ys with
  | nil => rfl
  | cons y ys =>
    have found := same y.1
    rw [List.lookup_cons_self] at found
    cases found

theorem symm (same : Telling xs ys) : Telling ys xs := fun name => (same name).symm

end Telling

/-! ### Scopes that tell the same -/

/-- The scopes give the same answers to all that a checker asks. -/
structure Scope.Alike (s s' : Scope) : Prop where
  named : s.variableType = s'.variableType
  results : s.resultType = s'.resultType
  parameters : s.parameters = s'.parameters
  known : s.results.has = s'.results.has

section
variable {s s' : Scope} (alike : s.Alike s') (kids : List Checker) (label : String)
include alike

theorem Checker.inferNode_alike : inferNode s kids label = inferNode s' kids label := by
  funext t
  simp only [inferNode, inferRole, inferLoad, inferCall, checkCall, inferStore, inferStoreAt,
    alike.named, alike.results, alike.parameters, alike.known]

theorem Checker.spreadNode_alike : spreadNode s kids label = spreadNode s' kids label := by
  funext type t
  simp only [spreadNode, spreadElements, alike.named, alike.parameters]

theorem Checker.node_alike : Checker.node s label kids = Checker.node s' label kids := by
  have infer := inferNode_alike alike kids label
  have spread := spreadNode_alike alike kids label
  have settle : settleNode s kids label = settleNode s' kids label := by
    funext wanted t
    simp only [settleNode, infer, spread]
  have fill : fillNode s kids label = fillNode s' kids label := by
    funext t
    simp only [fillNode, infer]
  rw [Checker.node, Checker.node, infer, settle, spread, fill]

omit kids label in
/-- A checker knows of a scope only what it asks. -/
theorem Marked.checker_alike (t : Marked) : t.checker s = t.checker s' := by
  induction t using Tree.induction with
  | node l m ts ih =>
    rw [checker_node, checker_node, List.map_congr_left ih]
    exact node_alike alike _ l

omit kids label in
theorem Marked.assign_alike (t : Marked) : t.assign s = t.assign s' := by
  have checker : Marked.checker s = Marked.checker s' := funext (checker_alike alike)
  simp only [assign, infer, checkers, checker]

omit kids label in
theorem TypeCheck.checkGraph_alike (g : Graph) : checkGraph s g = checkGraph s' g := by
  simp only [checkGraph, checkBlock, Marked.assign_alike alike]

end

/-- The tables tell the same under every name. -/
structure Tables.Alike (t t' : Tables) : Prop where
  vars : Telling t.vars t'.vars
  functions : Telling t.functions t'.functions
  results : Telling t.results t'.results

namespace Tables.Alike

variable {t t' : Tables}

theorem scope (alike : t.Alike t') (method : String) :
    (t.scope method).Alike (t'.scope method) where
  named := by
    funext name
    simp only [Scope.variableType, Tables.scope, alike.vars method, alike.functions method]
  results := by
    funext name
    simp only [Scope.resultType, Tables.scope, alike.results name]
  parameters := by
    funext name
    simp only [Scope.parameters, Tables.scope, alike.functions name]
  known := by
    funext name
    simp only [Tables.scope, TypeTable.has, ← lookup_isSome, alike.results name]

theorem withBuiltins (alike : t.Alike t') : (withBuiltins t).Alike (withBuiltins t') :=
  ⟨alike.vars, alike.functions.append_right _, alike.results.append_right _⟩

theorem checkEntry_eq (alike : t.Alike t') (name : String) (e : Entry) :
    checkEntry t name e = checkEntry t' name e := by
  simp only [checkEntry, alike.results name, checkGraph_alike (alike.scope name)]

end Tables.Alike

/-! ### Findings in another order -/

theorem findings_names {ms : List (String × Entry × Graph)} {fs : List (String × Finding)}
    (h : findings ms = .ok fs) : fs.map (·.1) = ms.map (·.1) := by
  induction ms generalizing fs with
  | nil =>
    cases h
    rfl
  | cons m ms ih =>
    obtain ⟨name, e, g⟩ := m
    rw [findings_cons] at h
    obtain ⟨f, _, h⟩ := Except.bind_eq_ok.mp h
    obtain ⟨rest, later, h⟩ := Except.bind_eq_ok.mp h
    cases h
    rw [List.map_cons, List.map_cons, ih later]

theorem Entries.defined_perm {entries entries' : Entries} (perm : entries.Perm entries') :
    entries.defined.Perm entries'.defined :=
  (perm.filter _).filterMap _

theorem Telling.filterMap {α β : Type} {xs ys : List (String × α)} (perm : xs.Perm ys)
    (distinct : (xs.map (·.1)).Nodup) {pick : String × α → Option (String × β)}
    (named : ∀ x y, pick x = some y → y.1 = x.1) :
    Telling (xs.filterMap pick) (ys.filterMap pick) :=
  .of_perm (perm.filterMap pick) ((filterMap_names named xs).nodup distinct)

theorem Telling.noted {ms ns : Messages} (same : Telling ms ns) (name : String)
    (flaws : List DeclarationFlaw) : Telling (ms.noted name flaws) (ns.noted name flaws) := by
  unfold Messages.noted
  split
  · exact same
  · intro other
    rw [Messages.lookup_add, Messages.lookup_add, same other]

/-- The methods declare the same, and the same messages are about them. -/
structure TypeCheck.Declared.Alike (d d' : Declared) : Prop where
  tables : d.tables.Alike d'.tables
  names : (d.tables.results.map (·.1)).Perm (d'.tables.results.map (·.1))
  vars : d.tables.vars.Perm d'.tables.vars
  distinct : (d.tables.vars.map (·.1)).Nodup
  messages : Telling d.messages d'.messages

theorem complainReserved_eq (d : Declared) : complainReserved d = ⟨d.tables,
    (((d.tables.results.map (·.1)).filter Builtin.isBuiltin).mergeSort (· ≤ ·)).foldl
      (fun ms name => ms.noted name [.reserved name]) d.messages⟩ := by
  unfold complainReserved
  simp only
  generalize ((d.tables.results.map (·.1)).filter Builtin.isBuiltin).mergeSort (· ≤ ·) = names
  induction names generalizing d with
  | nil => rfl
  | cons name names ih => rw [List.foldl_cons, List.foldl_cons, ih, complain_eq]

namespace TypeCheck.Declared

theorem of_perm {fs fs' : List (String × Finding)} (perm : fs.Perm fs')
    (distinct : (fs.map (·.1)).Nodup) : (Declared.of fs).Alike (Declared.of fs') := by
  have framed {α : Type} (part : TypeTable × TypeTable → α) (x : String × Finding) (y : String × α)
      (picked : (x.2.frame.map fun q => (x.1, part q)) = some y) : y.1 = x.1 := by
    obtain ⟨_, _, rfl⟩ := Option.map_eq_some_iff.mp picked
    rfl
  refine ⟨⟨.filterMap perm distinct (framed _), .filterMap perm distinct (framed _), ?_⟩, ?_,
    perm.filterMap _, (filterMap_names (framed _) fs).nodup distinct, .filterMap perm distinct ?_⟩
  · refine .of_perm (perm.map _) ?_
    simpa [Declared.of, Function.comp_def] using distinct
  · exact (perm.map _).map _
  · intro x y picked
    split at picked
    · cases picked
    · cases picked
      rfl

theorem Alike.reserved {d d' : Declared} (alike : d.Alike d') :
    Telling (complainReserved d).messages (complainReserved d').messages := by
  rw [complainReserved_eq, complainReserved_eq, ← sorted_perm (alike.names.filter _)]
  generalize ((d.tables.results.map (·.1)).filter Builtin.isBuiltin).mergeSort (· ≤ ·) = names
  have start := alike.messages
  revert start
  generalize d.messages = ms, d'.messages = ns
  intro start
  induction names generalizing ms ns with
  | nil => exact start
  | cons name names ih => exact ih _ _ (start.noted name _)

theorem Alike.clashes {d d' : Declared} (alike : d.Alike d') :
    Telling (TypeCheck.clashes d.tables) (TypeCheck.clashes d'.tables) := by
  unfold TypeCheck.clashes
  have functions := alike.tables.functions
  simp only [Telling] at functions
  simp only [functions]
  refine .filterMap alike.vars alike.distinct fun x y picked => ?_
  split at picked
  · cases picked
  · cases picked
    rfl

/-- Judgements that let the same tables pass, or give the same messages. -/
inductive SameJudgement : Except Messages Tables → Except Messages Tables → Prop where
  | passed {t t' : Tables} (alike : t.Alike t') : SameJudgement (.ok t) (.ok t')
  | flawed {ms ns : Messages} (same : Telling ms ns) : SameJudgement (.error ms) (.error ns)

theorem judge_perm {d d' : Declared} (alike : d.Alike d') : SameJudgement d.judge d'.judge := by
  have reserved := alike.reserved
  have clashes := alike.clashes
  by_cases clean : (complainReserved d).messages = []
  · have clean' := reserved.eq_nil clean
    by_cases apart : TypeCheck.clashes d.tables = []
    · rw [judge_clean clean apart, judge_clean clean' (clashes.eq_nil apart)]
      exact .passed alike.tables
    · have clashing' := fun empty => apart (clashes.symm.eq_nil empty)
      rw [judge_clashing clean apart, judge_clashing clean' clashing']
      exact .flawed clashes
  · have flawed' := fun empty => clean (reserved.symm.eq_nil empty)
    rw [judge_flawed clean, judge_flawed flawed']
    exact .flawed reserved

end TypeCheck.Declared

/-! ### Checks in another order -/

/-- Answers that agree on every name: in the messages, or in the typed entries and the results. -/
inductive Checked.Alike : Checked → Checked → Prop where
  | flawed {ms ns : Messages} (same : Telling ms ns) : Alike (.flawed ms) (.flawed ns)
  | typed {es es' : Entries} {rs rs' : TypeTable} (entries : Telling es es')
    (results : Telling rs rs') : Alike (.typed es rs) (.typed es' rs')

/-- Checks that both end with a fault, or with answers that agree. -/
inductive SameOutcome : Except Fault Checked → Except Fault Checked → Prop where
  | answered {c c' : Checked} (alike : c.Alike c') : SameOutcome (.ok c) (.ok c')
  | fault (f f' : Fault) : SameOutcome (.error f) (.error f')

section
variable {entries entries' : Entries} (perm : entries.Perm entries')
  (distinct : (entries.map (·.1)).Nodup)
include perm distinct

theorem checkTyped_perm {t t' : Tables} (alike : t.Alike t') :
    (checkTyped t entries).Alike (checkTyped t' entries') := by
  have same : checkEntry (withBuiltins t) = checkEntry (withBuiltins t') :=
    funext fun name => funext (alike.withBuiltins.checkEntry_eq name)
  have checked : ((entries.map fun p => (p.1, checkEntry (withBuiltins t') p.1 p.2)).map
      (·.1)).Nodup := by
    rwa [List.map_map]
  have perm' := perm.map fun p => (p.1, checkEntry (withBuiltins t') p.1 p.2)
  unfold checkTyped
  simp only [same]
  generalize (entries.map fun p => (p.1, checkEntry (withBuiltins t') p.1 p.2)) = ps,
    (entries'.map fun p => (p.1, checkEntry (withBuiltins t') p.1 p.2)) = qs at checked perm'
  have messages : Telling
      (ps.filterMap fun p => if p.2.2.isEmpty then none else some (p.1, p.2.2))
      (qs.filterMap fun p => if p.2.2.isEmpty then none else some (p.1, p.2.2)) := by
    refine .filterMap perm' checked fun x y picked => ?_
    split at picked
    · cases picked
    · cases picked
      rfl
  split
  · rename_i empty
    rw [messages.eq_nil empty]
    refine .typed (.of_perm (perm'.map _) ?_) alike.withBuiltins.results
    rwa [List.map_map]
  · split
    · rename_i nonempty _ empty
      exact absurd (messages.symm.eq_nil empty) nonempty
    · exact .flawed messages

theorem annotate_perm {t t' : Tables} (alike : t.Alike t') :
    Telling (annotate t entries) (annotate t' entries') := by
  have same : checkEntry t = checkEntry t' := funext fun name => funext (alike.checkEntry_eq name)
  simp only [annotate, annotateEntry, same]
  refine .of_perm (perm.map _) ?_
  rwa [List.map_map]

/-- Entries of distinct names may be checked in any order. -/
theorem checkTypes_perm : SameOutcome (checkTypes entries) (checkTypes entries') ∧
    Telling entries.annotated entries'.annotated := by
  have distinct' := (perm.map (·.1)).nodup distinct
  have defined := Entries.defined_perm perm
  rw [checkTypes_eq distinct, checkTypes_eq distinct']
  cases found : findings entries.defined with
  | ok fs =>
    obtain ⟨fs', found', perm'⟩ := mapM_perm defined found
    have found' : findings entries'.defined = .ok fs' := found'
    have named : (fs.map (·.1)).Nodup := by
      rw [findings_names found]
      exact Entries.defined_distinct distinct
    rw [found', annotated_eq distinct found, annotated_eq distinct' found']
    have judged := Declared.judge_perm (Declared.of_perm perm' named)
    simp only [Except.map]
    revert judged
    generalize (Declared.of fs).judge = j, (Declared.of fs').judge = j'
    intro judged
    cases judged with
    | passed alike =>
      exact ⟨.answered (checkTyped_perm perm distinct alike),
        annotate_perm perm distinct alike.withBuiltins⟩
    | flawed same => exact ⟨.answered (.flawed same), .of_perm perm distinct⟩
  | error fault =>
    cases found' : findings entries'.defined with
    | ok fs' =>
      obtain ⟨fs, ok, _⟩ := mapM_perm defined.symm found'
      cases found.symm.trans ok
    | error fault' =>
      rw [annotated_fault distinct found, annotated_fault distinct' found']
      exact ⟨.fault fault fault', .of_perm perm distinct⟩

end

/-! ### Analysed programs -/

namespace Analysis

/-- No two entries have one name. -/
def Distinct (a : Analysis) : Prop := (a.entries.map (·.1)).Nodup

theorem define_distinct {a a' : Analysis} {path name : String} {entry : Entry} {t : View}
    (distinct : a.Distinct) (h : define a path name entry t = .ok a') : a'.Distinct := by
  unfold define at h
  split at h
  · split at h
    · cases h
      exact Entries.put_distinct distinct
    · cases h
  · cases h
    exact Entries.put_distinct distinct
  · obtain ⟨params, _, h⟩ := Except.bind_eq_ok.mp h
    obtain ⟨vars, _, h⟩ := Except.bind_eq_ok.mp h
    cases h
    exact Entries.put_distinct distinct

theorem method_distinct {a a' : Analysis} {path : String} {t : View} (distinct : a.Distinct)
    (h : method path a t = .ok a') : a'.Distinct := by
  obtain ⟨name, _, h⟩ := Except.bind_eq_ok.mp h
  split at h
  · cases h
    exact distinct
  simp only at h
  split at h
  · obtain ⟨fit, _, h⟩ := Except.bind_eq_ok.mp h
    split at h
    · refine define_distinct ?_ h
      exact distinct
    · cases h
      exact Entries.put_distinct distinct
  · refine define_distinct ?_ h
    exact distinct

theorem closeFile_distinct {a a' : Analysis} (distinct : a.Distinct) (h : closeFile a = .ok a') :
    a'.Distinct := by
  unfold closeFile at h
  split at h
  · cases h
  split at h
  · split at h
    · obtain ⟨params, _, h⟩ := Except.bind_eq_ok.mp h
      obtain ⟨vars, _, h⟩ := Except.bind_eq_ok.mp h
      cases h
      exact Entries.put_distinct distinct
    · cases h
      exact distinct
  · cases h
    exact distinct

theorem file_distinct {a a' : Analysis} {f : SourceFile} (distinct : a.Distinct)
    (h : file a f = .ok a') : a'.Distinct := by
  obtain ⟨root, _, h⟩ := Except.bind_eq_ok.mp h
  split at h
  · obtain ⟨b, methods, h⟩ := Except.bind_eq_ok.mp h
    refine closeFile_distinct (foldlM_keeps (P := Distinct) (fun t _ b b' => method_distinct) ?_
      methods) h
    exact distinct
  · cases h
    exact Entries.put_distinct distinct

end Analysis

theorem analyze_distinct {files : List SourceFile} {a : Analysis} (h : analyze files = .ok a) :
    a.Distinct := by
  refine foldlM_keeps (P := Analysis.Distinct) (fun _ _ _ _ => Analysis.file_distinct) ?_ h
  exact List.nodup_nil

/-- The entries of an analysed program may be checked in any order: both checks fail, or both
answer the same of every name, and they leave the same types in the trees. -/
theorem checkTypes_reordered {files : List SourceFile} {a : Analysis}
    (analysed : analyze files = .ok a) {entries : Entries} (perm : a.entries.Perm entries) :
    SameOutcome (checkTypes a.entries) (checkTypes entries) ∧
      Telling a.entries.annotated entries.annotated :=
  checkTypes_perm perm (analyze_distinct analysed)

/-- Two methods of which each calls the other, and one compares an `int` to a `byte`. -/
theorem backwards_checked :
    let text := "method f(x: int) : int begin f = g(x) + 1; end; " ++
      "method g(x: int) : int begin if (x < 'a') then g = f(2); end;"
    ∃ (a : Analysis) (entries : Entries), analyze [⟨"a.txt", .text text⟩] = .ok a ∧
      a.entries.map (·.1) = ["f", "g"] ∧ entries = a.entries.reverse ∧
      SameOutcome (checkTypes a.entries) (checkTypes entries) ∧
      Telling a.entries.annotated entries.annotated := by
  intro text
  obtain ⟨a, analysed, named⟩ := exists_analysis [⟨"a.txt", .text text⟩]
    (P := fun a => a.entries.map (·.1) = ["f", "g"]) (by decide +kernel)
  exact ⟨a, _, analysed, named, rfl, checkTypes_reordered analysed (List.reverse_perm _).symm⟩

end MethodLang
