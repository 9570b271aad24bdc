import MethodLang.Proofs.Program.Checked

/-!
What each method declares on its own. A check reads the trees of the methods one by one, and no
reading looks at another: with distinct names, what is known after all of them is the list of their
findings (`declare_findings`). A whole check then is a judgement of the findings, and behind it the
check of every entry (`checkTypes_eq`).
-/
namespace MethodLang

/-! ### Messages -/

namespace Messages

variable {ms ns : Messages} {name other : String} {texts more : List String}

theorem add_add : (ms.add name texts).add name more = ms.add name (texts ++ more) := by
  induction ms with
  | nil => simp [add]
  | cons m ms ih =>
    rw [add, add]
    split
    · rename_i same
      rw [add, if_pos same, List.append_assoc]
    · rename_i differ
      rw [add, if_neg differ, ih]

theorem add_new (fresh : name ∉ ms.map (·.1)) : ms.add name texts = ms ++ [(name, texts)] := by
  induction ms with
  | nil => rfl
  | cons m ms ih =>
    rw [List.map_cons, List.mem_cons, not_or] at fresh
    rw [add, if_neg (Ne.symm fresh.1), ih fresh.2, List.cons_append]

theorem lookup_add : (ms.add name texts).lookup other =
    if other = name then some ((ms.lookup other).getD [] ++ texts) else ms.lookup other := by
  induction ms with
  | nil =>
    by_cases same : other = name <;> simp [add, same]
  | cons m ms ih =>
    obtain ⟨n, ts⟩ := m
    rw [add]
    by_cases first : other = n
    · subst first
      by_cases same : other = name
      · simp [same]
      · simp [same]
    · by_cases same : n = name
      · subst same
        simp [List.lookup_cons, beq_eq_false_iff_ne.mpr first, first]
      · rw [if_neg same, List.lookup_cons, List.lookup_cons, beq_eq_false_iff_ne.mpr first]
        exact ih

end Messages

/-- The messages with the flaws of a method, if there are any. -/
def Messages.noted (ms : Messages) (name : String) (flaws : List DeclarationFlaw) : Messages :=
  if flaws.isEmpty then ms else ms.add name (flaws.map DeclarationFlaw.message)

theorem Messages.noted_noted (ms : Messages) (name : String) (flaws more : List DeclarationFlaw) :
    (ms.noted name flaws).noted name more = ms.noted name (flaws ++ more) := by
  cases flaws with
  | nil => rfl
  | cons flaw flaws =>
    cases more with
    | nil =>
      rw [List.append_nil]
      rfl
    | cons next more => simp [noted, add_add]

namespace TypeCheck

theorem complain_eq (d : Declared) (name : String) (flaws : List DeclarationFlaw) :
    d.complain name flaws = ⟨d.tables, d.messages.noted name flaws⟩ := by
  unfold Declared.complain Messages.noted
  split <;> rfl

/-! ### Findings -/

/-- What the tree of a method tells: its result, its variables and arguments if it has the shape of
a method, and the flaws in it. -/
structure Finding where
  result : Option TypeName
  frame : Option (TypeTable × TypeTable)
  flaws : List DeclarationFlaw

def Finding.read (name : String) (tree : Option View) : Except Fault Finding := do
  let t ←
    match tree with
    | some t => .ok t
    | none => .error .missingTree
  let (result, _, flaw) ← Declaration.result t
  match structureFlaw? t with
  | some broken => .ok ⟨result, none, flaw.toList ++ [broken]⟩
  | none => do
    let (vars, varFlaws) ← methodVariables name result t
    let (args, argFlaws) ← methodArguments t
    .ok ⟨result, some (vars, args), flaw.toList ++ varFlaws ++ argFlaws⟩

/-- Adds the finding of one method. -/
def Declared.enter (d : Declared) (name : String) (f : Finding) : Declared where
  tables := {
    vars := d.tables.vars ++ (f.frame.map fun p => (name, p.1)).toList
    functions := d.tables.functions ++ (f.frame.map fun p => (name, p.2)).toList
    results := d.tables.results.set name f.result }
  messages := d.messages.noted name f.flaws

theorem declare_eq (d : Declared) (name : String) (e : Entry) (g : Graph) :
    declare d (name, e, g) = (Finding.read name e.tree).map (d.enter name) := by
  unfold declare Finding.read
  cases tree : e.tree with
  | none =>
    simp only [tree]
    rfl
  | some t =>
    simp only [tree, complain_eq, Messages.noted_noted, Bind.bind, Except.bind]
    cases Declaration.result t with
    | error fault => rfl
    | ok read =>
      simp only
      cases structureFlaw? t with
      | some broken => simp [Except.map, Declared.enter]
      | none =>
        simp only
        cases methodVariables name read.1 t with
        | error fault => rfl
        | ok vars =>
          cases methodArguments t with
          | error fault => rfl
          | ok args => simp [Except.map, Declared.enter]

/-- The findings of the methods, by name. -/
def findings (ms : List (String × Entry × Graph)) : Except Fault (List (String × Finding)) :=
  ms.mapM fun m => (Finding.read m.1 m.2.1.tree).map fun f => (m.1, f)

theorem findings_cons (name : String) (e : Entry) (g : Graph) (ms : List (String × Entry × Graph)) :
    findings ((name, e, g) :: ms) = (do
      let f ← Finding.read name e.tree
      let fs ← findings ms
      .ok ((name, f) :: fs)) := by
  rw [findings, List.mapM_cons]
  cases Finding.read name e.tree <;> rfl

def Declared.of (fs : List (String × Finding)) : Declared where
  tables := {
    vars := fs.filterMap fun p => p.2.frame.map fun q => (p.1, q.1)
    functions := fs.filterMap fun p => p.2.frame.map fun q => (p.1, q.2)
    results := fs.map fun p => (p.1, p.2.result) }
  messages := fs.filterMap fun p =>
    if p.2.flaws.isEmpty then none else some (p.1, p.2.flaws.map DeclarationFlaw.message)

theorem Declared.of_enter {fs : List (String × Finding)} {name : String}
    (fresh : name ∉ fs.map (·.1)) (f : Finding) :
    (Declared.of fs).enter name f = Declared.of (fs ++ [(name, f)]) := by
  have results : name ∉ (Declared.of fs).tables.results.map (·.1) := by
    simpa [Declared.of, Function.comp_def] using fresh
  have messages : name ∉ (Declared.of fs).messages.map (·.1) := by
    intro inside
    obtain ⟨⟨n, texts⟩, noted, rfl⟩ := List.mem_map.mp inside
    obtain ⟨p, isFinding, same⟩ := List.mem_filterMap.mp noted
    split at same
    · cases same
    · cases same
      exact fresh (List.mem_map_of_mem isFinding)
  have added : (Declared.of fs).messages.noted name f.flaws =
      (Declared.of (fs ++ [(name, f)])).messages := by
    unfold Messages.noted
    split
    · simp_all [Declared.of]
    · rw [Messages.add_new messages]
      simp_all [Declared.of]
  unfold Declared.enter
  rw [added, set_new results]
  cases frame : f.frame <;> simp [Declared.of, frame]

theorem declare_from {ms : List (String × Entry × Graph)} {fs : List (String × Finding)}
    (distinct : (fs.map (·.1) ++ ms.map (·.1)).Nodup) :
    ms.foldlM declare (Declared.of fs) =
      (findings ms).map fun more => Declared.of (fs ++ more) := by
  induction ms generalizing fs with
  | nil =>
    rw [List.foldlM_nil]
    simp [findings, Except.map, pure, Except.pure]
  | cons m ms ih =>
    obtain ⟨name, e, g⟩ := m
    rw [List.foldlM_cons, declare_eq, findings_cons]
    cases Finding.read name e.tree with
    | error fault => rfl
    | ok f =>
      have fresh : name ∉ fs.map (·.1) := fun inside =>
        (List.nodup_append.mp distinct).2.2 name inside name List.mem_cons_self rfl
      have next := @ih (fs ++ [(name, f)]) (by simpa using distinct)
      simp only [Except.map, Bind.bind, Except.bind, Declared.of_enter fresh, next]
      cases findings ms with
      | error fault => rfl
      | ok more => simp

/-- What methods of distinct names declare is told by their findings. -/
theorem declare_findings {ms : List (String × Entry × Graph)} (distinct : (ms.map (·.1)).Nodup) :
    ms.foldlM declare ⟨⟨[], [], []⟩, []⟩ = (findings ms).map Declared.of :=
  @declare_from ms [] distinct

/-! ### Judging -/

/-- The tables if there is no flaw in what the methods declare, else the messages. -/
def Declared.judge (d : Declared) : Except Messages Tables :=
  let d := complainReserved d
  if !d.messages.isEmpty then .error d.messages
  else match clashes d.tables with
    | [] => .ok d.tables
    | messages => .error messages

section
variable {d : Declared}

theorem judge_flawed (flawed : (complainReserved d).messages ≠ []) :
    d.judge = .error (complainReserved d).messages := by
  rw [Declared.judge, if_pos]
  simpa using flawed

variable (clean : (complainReserved d).messages = [])
include clean

theorem judge_clashing (clashing : clashes d.tables ≠ []) :
    d.judge = .error (clashes d.tables) := by
  have tables := (complainReserved_clean clean).2
  rw [Declared.judge, if_neg (by simpa using clean), tables]
  split
  · rename_i empty
    exact absurd empty clashing
  · rfl

theorem judge_clean (apart : clashes d.tables = []) : d.judge = .ok d.tables := by
  have tables := (complainReserved_clean clean).2
  rw [Declared.judge, if_neg (by simpa using clean), tables]
  simp only [apart]

end

/-- The answer for entries whose declarations were judged. -/
def answer (entries : Entries) : Except Messages Tables → Checked
  | .ok tables => checkTyped tables entries
  | .error messages => .flawed messages

/-- The entry with the types that a check writes into the trees of its graph. -/
def annotateEntry (tables : Tables) (name : String) (e : Entry) : Entry :=
  { e with graph := (checkEntry tables name e).1.graph }

def annotate (tables : Tables) (entries : Entries) : Entries :=
  entries.map fun p => (p.1, annotateEntry tables p.1 p.2)

/-- The entries as the judgement leaves them. -/
def left (entries : Entries) : Except Messages Tables → Entries
  | .ok tables => annotate (withBuiltins tables) entries
  | .error _ => entries

end TypeCheck

open TypeCheck

/-- The entries as a check leaves them: operations are typed where they stand. They are looked at
only if the declarations are in order, and then keep their types even if there are errors. -/
def Entries.annotated (entries : Entries) : Entries :=
  match entries.defined.foldlM declare ⟨⟨[], [], []⟩, []⟩ with
  | .ok d => left entries d.judge
  | .error _ => entries

section
variable {entries : Entries}

theorem checkTypes_judge : checkTypes entries =
    (entries.defined.foldlM declare ⟨⟨[], [], []⟩, []⟩).map fun d => answer entries d.judge := by
  unfold checkTypes
  cases entries.defined.foldlM declare ⟨⟨[], [], []⟩, []⟩ with
  | error fault => rfl
  | ok d =>
    simp only [Except.map, Bind.bind, Except.bind, Declared.judge]
    split
    · rfl
    · split <;> simp_all [answer]

/-- A typed program has the graphs that the check left. -/
theorem typed_annotated {typed : Entries} {results : TypeTable}
    (h : checkTypes entries = .ok (.typed typed results)) :
    typed.map (fun p => (p.1, p.2.graph)) = entries.annotated.map fun p => (p.1, p.2.graph) := by
  rw [checkTypes_judge] at h
  unfold Entries.annotated
  cases declared : entries.defined.foldlM declare ⟨⟨[], [], []⟩, []⟩ with
  | error fault => simp [declared, Except.map] at h
  | ok d =>
    have h : answer entries d.judge = .typed typed results := by
      simpa [declared, Except.map] using h
    cases judged : d.judge with
    | error messages => simp [judged, answer] at h
    | ok tables =>
      simp only [judged, answer, checkTyped] at h
      split at h
      · cases h
        simp only [judged, left, annotate, List.map_map]
        rfl
      · cases h

variable (distinct : (entries.map (·.1)).Nodup)
include distinct

theorem checkTypes_eq : checkTypes entries =
    (findings entries.defined).map fun fs => answer entries (Declared.of fs).judge := by
  rw [checkTypes_judge, declare_findings (Entries.defined_distinct distinct)]
  cases findings entries.defined <;> rfl

theorem annotated_eq {fs : List (String × Finding)} (found : findings entries.defined = .ok fs) :
    entries.annotated = left entries (Declared.of fs).judge := by
  rw [Entries.annotated, declare_findings (Entries.defined_distinct distinct), found]
  rfl

theorem annotated_fault {fault : Fault} (found : findings entries.defined = .error fault) :
    entries.annotated = entries := by
  rw [Entries.annotated, declare_findings (Entries.defined_distinct distinct), found]
  rfl

end

end MethodLang
