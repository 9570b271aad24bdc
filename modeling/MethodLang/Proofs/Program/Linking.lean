import MethodLang.Proofs.Flow.Pruning
import MethodLang.Proofs.Flow.Recording
import MethodLang.Proofs.Program.Protocol
import MethodLang.Proofs.Program.Sections
import MethodLang.Proofs.Program.Writing

/-!
Targets of jumps and calls. In a program that is written to its end, every function that is called
has one label, and every jump leads to one place of its own function (`accepted_linked`). Calls are
found by way of the record that the graph keeps of them, of which every name has to be known before
anything is written; the names of builtins are reserved.
-/
namespace MethodLang

/-! ### Names -/

/-- Only calls name what they call. -/
theorem Term.calledName_spelled {e : Term} (spelled : e.Spelled) :
    ∀ f ∈ Operation.calledName? e.label, IsName f := by
  have apart {label : String} (other : Text.after? "call(" label = none) :
      ∀ f ∈ Operation.calledName? label, IsName f := by simp [Operation.calledName?, other]
  cases e with
  | literal kind text | load name =>
    simp only [label, String.append_assoc]
    exact apart (by simp [Text.after?, List.isPrefixOf?])
  | call function args =>
    rw [label, Operation.calledName?_call]
    rintro _ ⟨⟩
    exact spelled.1
  | index base position => exact apart (show Text.after? "call(" "index" = none by decide)
  | binary op left right =>
    have each : ∀ op : BinaryOp, Text.after? "call(" op.text = none := by
      intro op
      cases op <;> decide
    exact apart (each op.1)
  | unary op operand =>
    have each : ∀ op : UnaryOp, Text.after? "call(" op.text = none := by
      intro op
      cases op <;> decide
    exact apart (each op)

theorem Term.calledNames_spelled {e : Term} (spelled : e.Spelled) :
    ∀ f ∈ Operation.calledNames e.tree, IsName f := by
  induction e using children_induction with
  | step e ih =>
    rw [tree_eq, Operation.make, Operation.calledNames, Operation.calledNamesAll_eq]
    refine List.forall_mem_append.mpr ⟨fun f named => ?_, ?_⟩
    · exact calledName_spelled spelled f (Option.mem_toList.mp named)
    · refine List.forall_mem_flatMap.mpr (List.forall_mem_map.mpr fun x inside => ?_)
      exact ih x inside (spelled.children x inside)

theorem Directive.calledNames_spelled {c : Directive} (spelled : c.Spelled) :
    ∀ f ∈ Operation.calledNames c.tree, IsName f := by
  have below (es : List Term) (each : ∀ e ∈ es, e.Spelled) :
      ∀ f ∈ Operation.calledNamesAll (es.map Term.tree), IsName f := by
    rw [Operation.calledNamesAll_eq]
    refine List.forall_mem_flatMap.mpr (List.forall_mem_map.mpr fun x inside => ?_)
    exact Term.calledNames_spelled (each x inside)
  cases c with
  | value e =>
    have same : (Directive.value e).tree = e.tree := e.tree_eq.symm
    rw [same]
    exact Term.calledNames_spelled spelled
  | store name right =>
    have apart : Operation.calledName? ("store(" ++ name ++ ")") = none := by
      simp [Operation.calledName?, Text.after?, List.isPrefixOf?]
    rw [tree, Operation.make, Operation.calledNames, label, apart]
    exact below _ spelled.terms
  | storeAt array indices right =>
    have apart : Operation.calledName? ("store_at(" ++ array ++ ")") = none := by
      simp [Operation.calledName?, Text.after?, List.isPrefixOf?]
    rw [tree, Operation.make, Operation.calledNames, label, apart]
    exact below _ spelled.terms

theorem Text.trimBy_kept {drop : Char → Bool} {cs : List Char} (kept : ∀ c ∈ cs, drop c = false) :
    Text.trimBy drop cs = cs := by
  have stays {ds : List Char} (kept : ∀ c ∈ ds, drop c = false) : ds.dropWhile drop = ds := by
    cases ds with
    | nil => rfl
    | cons d ds => exact List.dropWhile_cons_of_neg (by simp [kept d List.mem_cons_self])
  rw [trimBy, stays kept, stays (by simpa using kept), List.reverse_reverse]

theorem Text.isBlank_word {c : Char} (word : (c.isAlphanum || c == '_') = true) :
    Text.isBlank c = false := by
  have bounds : 48 ≤ c.toNat ∧ c.toNat ≤ 122 := by
    simp only [Char.isAlphanum, Text.isAlpha_iff, Text.isUpper_iff, Text.isLower_iff, Char.isDigit,
      Bool.or_eq_true, Bool.and_eq_true, decide_eq_true_eq, ge_iff_le, UInt32.le_iff_toNat_le,
      beq_iff_eq] at word
    rcases word with ((upper | lower) | digit) | rfl
    · exact ⟨Nat.le_trans (by decide) upper.1, Nat.le_trans upper.2 (by decide)⟩
    · exact ⟨Nat.le_trans (by decide) lower.1, Nat.le_trans lower.2 (by decide)⟩
    · exact ⟨Nat.le_trans (by decide) digit.1, Nat.le_trans digit.2 (by decide)⟩
    · decide
  simp only [Text.isBlank, Bool.or_eq_false_iff, Bool.and_eq_false_iff, decide_eq_false_iff_not,
    beq_eq_false_iff_ne]
  omega

theorem IsName.trimmed {name : String} (named : IsName name) :
    Text.trimQuotes (Text.trim name) = name := by
  have blank : ∀ c ∈ name.toList, Text.isBlank c = false := fun c inside =>
    Text.isBlank_word (named.word_char inside)
  have quote : ∀ c ∈ name.toList, (c == '"') = false := by
    intro c inside
    refine beq_eq_false_iff_ne.mpr ?_
    rintro rfl
    exact named.not_mem (by decide) inside
  rw [Text.trim, Text.trimBy_kept blank, String.ofList_toList, Text.trimQuotes,
    Text.trimBy_kept quote, String.ofList_toList]

/-- Names that are called are kept as they are. -/
theorem mem_cleanCalls {name : String} (named : IsName name) {names calls : List String}
    (inside : name ∈ calls ∨ name ∈ names) : name ∈ Analysis.cleanCalls calls names := by
  have filled : name.isEmpty = false := by
    simpa [String.isEmpty_iff] using named.ne_empty
  unfold Analysis.cleanCalls
  simp only
  induction names generalizing calls with
  | nil => simpa using inside
  | cons n rest ih =>
    rw [List.foldl_cons]
    apply ih
    rcases inside with old | new
    · left
      split
      · exact old
      · exact List.mem_append_left _ old
    rcases List.mem_cons.mp new with rfl | later
    · left
      rw [named.trimmed, filled, Bool.false_or]
      split
      · rename_i known
        simpa using known
      · simp
    · exact .inr later

/-! ### Accepted programs -/

namespace TypeCheck

/-- If no reserved name is complained about, no method has one. -/
theorem complainReserved_free {d : Declared} (clean : (complainReserved d).messages = []) :
    ∀ name ∈ d.tables.results.map (·.1), Builtin.isBuiltin name = false := by
  have empty : ((d.tables.results.map (·.1)).filter Builtin.isBuiltin).mergeSort (· ≤ ·) = [] := by
    unfold complainReserved at clean
    simp only at clean
    generalize ((d.tables.results.map (·.1)).filter Builtin.isBuiltin).mergeSort (· ≤ ·) = names
      at clean ⊢
    induction names generalizing d with
    | nil => rfl
    | cons name names ih =>
      have rest := ih clean
      subst rest
      have clean : (d.complain name [.reserved name]).messages = [] := clean
      exact absurd (complain_clean clean).2 (List.cons_ne_nil _ _)
  intro name inside
  refine Bool.eq_false_iff.mpr fun reserved => ?_
  have found : name ∈ ((d.tables.results.map (·.1)).filter Builtin.isBuiltin).mergeSort (· ≤ ·) :=
    List.mem_mergeSort.mpr (List.mem_filter.mpr ⟨inside, reserved⟩)
  rw [empty] at found
  cases found

theorem checkTypes_free {entries typed : Entries} {results : TypeTable}
    (shaped : Shaped entries.defined) (distinct : (entries.map (·.1)).Nodup)
    (checked : checkTypes entries = .ok (.typed typed results)) :
    ∀ name ∈ entries.defined.map (·.1), Builtin.isBuiltin name = false := by
  obtain ⟨d, declared, later⟩ := Except.bind_eq_ok.mp checked
  simp only at later
  split at later
  · cases later
  rename_i quiet
  have quiet : (complainReserved d).messages = [] := by simpa using quiet
  obtain ⟨hs, headings, tables⟩ := declared_tables shaped (Entries.defined_distinct distinct)
    declared (complainReserved_clean quiet).1
  have names : d.tables.results.map (·.1) = entries.defined.map (·.1) := by
    rw [tables, ← headings_names headings]
    simp [Tables.of]
  exact names ▸ complainReserved_free quiet

/-- The methods of a typed program are those of the untyped one. -/
theorem checkTypes_names {entries typed : Entries} {results : TypeTable}
    (checked : checkTypes entries = .ok (.typed typed results)) :
    typed.map (·.1) = entries.map (·.1) ∧ ∀ p ∈ entries, Entries.isFile p.1 = false →
      p.2.graph.isSome → p.1 ∈ typed.defined.map (·.1) := by
  obtain ⟨d, declared, clean, -, -, rfl, -⟩ := checkTypes_typed checked
  refine ⟨by simp, fun p inside notFile graph => ?_⟩
  obtain ⟨g, graph⟩ := Option.isSome_iff_exists.mp graph
  have typed : ((checkEntry (withBuiltins d.tables) p.1 p.2).1.graph).isSome := by
    simp [checkEntry, graph, notFile]
  obtain ⟨g', typed⟩ := Option.isSome_iff_exists.mp typed
  refine List.mem_map.mpr ⟨(p.1, (checkEntry (withBuiltins d.tables) p.1 p.2).1, g'), ?_, rfl⟩
  exact Entries.mem_defined.mpr ⟨List.mem_map_of_mem inside, notFile, typed⟩

end TypeCheck

/-- Texts that are analysed come up as methods, in some order. -/
theorem analyze_tracks {files : List SourceFile}
    (texts : ∀ f ∈ files, ∃ text, f.content = .text text) {a : Analysis}
    (analysed : analyze files = .ok a) : ∃ ms, a.Tracks ms := by
  refine foldlM_keeps (P := fun a => ∃ ms, a.Tracks ms)
    (fun f inside b b' tracked step => ?_) ⟨[], Analysis.empty_tracks⟩ analysed
  obtain ⟨ms, tracks⟩ := tracked
  obtain ⟨text, content⟩ := texts f inside
  cases parsed : parseSource text with
  | none =>
    have root : f.root = .error (.notInLanguage f.path) := by
      rw [SourceFile.root, content]
      simp only [parsed]
    rw [Analysis.file, root] at step
    cases step
  | some source =>
    obtain ⟨empty, filled⟩ := Analysis.file_tracks tracks content parsed
    by_cases nonempty : ms ++ source = []
    · rw [empty nonempty] at step
      cases step
    · obtain ⟨c, run, tracks⟩ := filled nonempty
      cases run.symm.trans step
      exact ⟨_, tracks⟩

/-- The graph of a typed method has the blocks and edges of the untyped one, each block once. -/
theorem TypedFrom.closed {tables : Tables} {name : String} {e e₀ : Entry} {g g₀ : Graph}
    (from_ : TypedFrom tables name e g e₀ g₀) {m : Method} (read : e₀.ReadFrom m) :
    (g.blocks.map (·.1)).Nodup ∧ ∀ p ∈ g.blocks, ∀ e ∈ p.2.succs, e.1 ∈ g.blocks.map (·.1) := by
  obtain ⟨body, built, has, build, rfl, -⟩ := read.graph _ from_.untyped
  have ids : g.blocks.map (·.1) = (built.prune 0 1).blocks.map (·.1) := by
    rw [from_.blocks, List.map_map]
    rfl
  have distinct : (built.blocks.map (·.1)).Nodup := by
    rw [(buildGraph_blocks has build).1, Stmt.bodyBlocks_ids]
    exact nodup_countFrom _ _
  refine ⟨ids ▸ Graph.prune_ids.nodup distinct, ?_⟩
  rw [ids, from_.blocks]
  refine List.forall_mem_map.mpr fun q inside e isEdge => ?_
  have kept : (TypeCheck.checkBlock (tables.scope name) q.2).1.succs = q.2.succs := by
    unfold TypeCheck.checkBlock
    split <;> rfl
  exact Graph.has_iff_mem.mp (built.prune_closed 0 1 q inside e (kept ▸ isEdge))

/-- A tree of a typed graph has the labels of the tree that was there before. -/
theorem TypedFrom.untyped_tree {tables : Tables} {name : String} {e e₀ : Entry} {g g₀ : Graph}
    (from_ : TypedFrom tables name e g e₀ g₀) {m : Method} (read : e₀.ReadFrom m)
    {p : BlockId × Block} (inside : p ∈ g.blocks) {op : Operation} (tree : p.2.tree = some op) :
    ∃ q ∈ g₀.blocks, ∃ c : Directive, c.Spelled ∧ q.2.tree = some c.tree ∧
      op.bare = c.tree.bare := by
  rw [from_.blocks] at inside
  obtain ⟨q, built, rfl⟩ := List.mem_map.mp inside
  cases before : q.2.tree with
  | none => simp [TypeCheck.checkBlock, before] at tree
  | some op₀ =>
    obtain ⟨c, spelled, rfl⟩ := read.directive from_.untyped built before
    simp only [TypeCheck.checkBlock, before, Option.some.injEq] at tree
    exact ⟨q, built, c, spelled, before, Directive.assign_operation_bare tree⟩

namespace Accepted

variable {files : List SourceFile} {a : Analysis} {typed : Entries} {results : TypeTable}

/-- The entries of an accepted program tell of their methods. -/
theorem tells (accepted : Accepted files a typed results) {name : String} {e : Entry} {g : Graph}
    (inside : (name, e, g) ∈ a.entries.defined) : ∃ m built, e.Tells m built ∧
      Analysis.buildGraph m.view = .ok (some built) := by
  obtain ⟨ms, tracks⟩ := analyze_tracks accepted.texts accepted.analysed
  obtain ⟨isEntry, notFile, graph⟩ := Entries.mem_defined.mp inside
  have quiet := Entries.report?_eq_none.mp accepted.quiet
  have found : a.entries.get? name = some e :=
    lookup_of_nodup (analyze_read accepted.texts accepted.analysed).distinct isEntry
  obtain ⟨whole, told⟩ := (tracks.standing name).defined_iff
  obtain ⟨m, built, defines⟩ := whole.mp ⟨e, found, quiet.clean _ isEntry, by rw [graph]; rfl⟩
  obtain ⟨e', found', tells⟩ := told m built defines
  cases found.symm.trans found'
  exact ⟨m, built, tells, defines.built⟩

/-- Whatever a tree of the program calls is a method or a builtin. -/
theorem known (accepted : Accepted files a typed results) {name : String} {e : Entry} {g : Graph}
    (inside : (name, e, g) ∈ a.entries.defined) {p : BlockId × Block} (isBlock : p ∈ g.blocks)
    {c : Directive} (spelled : c.Spelled) (tree : p.2.tree = some c.tree) :
    ∀ f ∈ Operation.calledNames c.tree,
      f ∈ Library.routines.map (·.name) ∨ f ∈ typed.defined.map (·.1) := by
  intro f called
  obtain ⟨m, built, tells, build⟩ := accepted.tells inside
  obtain ⟨isEntry, notFile, graph⟩ := Entries.mem_defined.mp inside
  cases tells.graph.symm.trans graph
  have quiet := Entries.report?_eq_none.mp accepted.quiet
  -- The block was there before pruning, when the call was put on record.
  obtain ⟨q, isBuilt, same⟩ := prune_tree isBlock
  have recorded := buildGraph_recorded build q isBuilt c.tree (same ▸ tree) called
  have kept : f ∈ e.calls := by
    rw [tells.calls]
    exact mem_cleanCalls (Directive.calledNames_spelled spelled f called) (.inr recorded)
  rcases quiet.called _ isEntry notFile f kept with ⟨q, isMethod, method, rfl⟩ | builtin
  · exact .inr ((TypeCheck.checkTypes_names accepted.checked).2 q isMethod method
      (quiet.defined q isMethod method))
  · refine .inl ((Library.routines_names f).mpr ?_)
    simpa [Builtin.isBuiltin] using builtin

/-- The names of all functions in the code of a program. -/
def functionNames (typed : Entries) : List String :=
  Library.routines.map (·.name) ++ typed.defined.map (·.1)

theorem closable (accepted : Accepted files a typed results)
    (written : (Code.program results typed).fault = none) :
    ∀ m ∈ typed.defined, Code.Closable results (functionNames typed) m.2.1 m.2.2 := by
  obtain ⟨tables, -, -, each⟩ := typed_method accepted.texts accepted.analysed accepted.checked
  rintro ⟨name, e, g⟩ inside
  obtain ⟨-, m, e₀, g₀, isDefined, read, from_, -⟩ := each name e g inside
  obtain ⟨distinct, closed⟩ := from_.closed read
  refine ⟨Code.fault_program.mp written name e g inside, fun p isBlock => ?_, distinct, closed⟩
  unfold Block.treeCode
  split
  · rename_i op tree
    obtain ⟨q, isUntyped, c, spelled, before, shape⟩ := from_.untyped_tree read isBlock tree
    refine (Directive.code_within _ spelled shape).mono
      (List.cons_subset.mpr ⟨?_, fun f called => ?_⟩)
    · exact List.mem_append_left _ (by decide +kernel)
    · rw [← Operation.calledNames_bare, shape, Operation.calledNames_bare] at called
      exact List.mem_append.mpr (accepted.known isDefined isUntyped spelled before f called)
  · exact Code.within_nothing

theorem methods_free (accepted : Accepted files a typed results) :
    ∀ name ∈ typed.defined.map (·.1), name ∉ Library.routines.map (·.name) := by
  have read := analyze_read accepted.texts accepted.analysed
  obtain ⟨tables, -, -, each⟩ := typed_method accepted.texts accepted.analysed accepted.checked
  intro name inside builtin
  obtain ⟨⟨name, e, g⟩, isTyped, rfl⟩ := List.mem_map.mp inside
  obtain ⟨-, m, e₀, g₀, isDefined, -⟩ := each name e g isTyped
  have free := TypeCheck.checkTypes_free read.shaped read.distinct accepted.checked name
    (List.mem_map_of_mem isDefined)
  have reserved : Builtin.isBuiltin name = true := by
    simpa [Builtin.isBuiltin] using (Library.routines_names name).mp builtin
  rw [free] at reserved
  cases reserved

/-- No two functions have one name. -/
theorem functionNames_nodup (accepted : Accepted files a typed results) :
    (functionNames typed).Nodup := by
  have read := analyze_read accepted.texts accepted.analysed
  have builtins : (Library.routines.map (·.name)).Nodup := by decide +kernel
  have methods : (typed.defined.map (·.1)).Nodup := by
    apply Entries.defined_distinct
    rw [(TypeCheck.checkTypes_names accepted.checked).1]
    exact read.distinct
  refine List.nodup_append.mpr ⟨builtins, methods, ?_⟩
  rintro f builtin _ method rfl
  exact accepted.methods_free f method builtin

/-- The program has a main method. -/
theorem main_defined (accepted : Accepted files a typed results) :
    "main" ∈ typed.defined.map (·.1) := by
  have flawless := accepted.main
  unfold mainFlaw? at flawless
  split at flawless
  · cases flawless
  · rename_i e g found
    have isDefined : ("main", e, g) ∈ a.entries.defined := mem_of_lookup found
    obtain ⟨isEntry, notFile, graph⟩ := Entries.mem_defined.mp isDefined
    exact (TypeCheck.checkTypes_names accepted.checked).2 _ isEntry notFile (by simp [graph])

end Accepted

/-- Lines of code that hold the builtins and the given methods, in which every target is found
once. -/
structure Code.Resolved (methods : List String) (lines : List Line) : Prop where
  labels : Line.labels lines = Library.routines.map (·.name) ++ methods
  free : ∀ name ∈ methods, name ∉ Library.routines.map (·.name)
  called : ∀ f ∈ Line.callees lines, (Line.labels lines).count f = 1
  start : Line.Closed (Line.functions lines).1
  closed : ∀ f ∈ (Line.functions lines).2, Line.Closed f.2
  exit : ∀ f ∈ (Line.functions lines).2, f.1 ∈ methods → (Line.places f.2).count .exit = 1

/-- If an accepted program is written to its end, every function that its code calls is defined once
in the file, no method has the name of a builtin, and inside each function every place that a jump
leads to is there once, and so is the exit of a method. -/
theorem accepted_linked {files : List SourceFile} {a : Analysis} {typed : Entries}
    {results : TypeTable} (accepted : Accepted files a typed results)
    (written : (Code.program results typed).fault = none) :
    (∀ directory, ∃ outcome, compile directory files = .ok outcome ∧
        (Outcome.codePath, Line.textOf (Code.program results typed).lines) ∈ outcome.files) ∧
      Code.Resolved (typed.defined.map (·.1)) (Code.program results typed).lines := by
  obtain ⟨labels, called, start, linked⟩ := Code.program_lines (accepted.closable written)
  refine ⟨fun directory => (accepted.compile_iff directory).mpr written, labels,
    accepted.methods_free, fun f isCallee => ?_, start, fun f inside => (linked f inside).closed,
    fun f inside isMethod => (linked f inside).exit (accepted.methods_free f.1 isMethod)⟩
  rw [labels]
  refine List.count_eq_one_of_mem accepted.functionNames_nodup ?_
  rcases called f isCallee with rfl | builtin | known
  · exact List.mem_append_right _ accepted.main_defined
  · exact List.mem_append_left _ builtin
  · exact known

/-- Calls of a method and of builtins, in a loop with a choice behind which nothing is reached. -/
theorem calling_choice_linked :
    let files : List SourceFile := [⟨"a.txt", .text
      ("method f(x: byte): bool begin send_byte(x); f := x > 1; end;" ++
        "method main() var s: string; begin while f(read_byte()) do " ++
        "begin if f(s[0]) then break; else break; s := \"ab\"; end; end;")⟩]
    ∃ a typed results, Accepted files a typed results ∧
      (Code.program results typed).fault = none ∧
      Code.Resolved (typed.defined.map (·.1)) (Code.program results typed).lines := by
  intro files
  obtain ⟨a, typed, results, accepted, written⟩ := exists_accepted files (by simp [files])
    (P := fun _ typed results => (Code.program results typed).fault = none) (by decide +kernel)
  exact ⟨a, typed, results, accepted, written, (accepted_linked accepted written).2⟩

end MethodLang
