import Mathlib.Data.List.Forall2
import MethodLang.Proofs.Flow.Walk
import MethodLang.Proofs.Program.Entries

/-!
Tables of declared types. If no method has a flaw, the tables list what each method declares
(`declared_tables`), and every scope that is taken from them is complete (`Tables.scope_complete`).
-/
namespace MethodLang

open TypeCheck

/-- What a method declares. -/
structure Heading where
  name : String
  vars : TypeTable
  args : TypeTable
  result : Option TypeName

/-- The heading of a method's view, in which there is no flaw. -/
structure Heading.Of (h : Heading) (t : View) : Prop where
  vars : methodVariables h.name h.result t = .ok (h.vars, [])
  args : methodArguments t = .ok (h.args, [])
  result : ∃ written, Declaration.result t = .ok (h.result, written, none)

def Tables.of (hs : List Heading) : Tables where
  vars := hs.map fun h => (h.name, h.vars)
  functions := hs.map fun h => (h.name, h.args)
  results := hs.map fun h => (h.name, h.result)

namespace TypeCheck

theorem complain_tables (d : Declared) (name : String) (flaws : List DeclarationFlaw) :
    (d.complain name flaws).tables = d.tables := by
  unfold Declared.complain
  split <;> rfl

theorem add_ne_nil (name : String) (texts : List String) (ms : Messages) :
    ms.add name texts ≠ [] := by
  cases ms with
  | nil => simp [Messages.add]
  | cons m ms =>
    rw [Messages.add]
    split <;> exact List.cons_ne_nil _ _

theorem complain_clean {d : Declared} {name : String} {flaws : List DeclarationFlaw}
    (clean : (d.complain name flaws).messages = []) : d.messages = [] ∧ flaws = [] := by
  unfold Declared.complain at clean
  split at clean
  · exact ⟨clean, List.isEmpty_iff.mp ‹_›⟩
  · exact absurd clean (add_ne_nil _ _ _)

theorem declare_clean {d d' : Declared} {name : String} {e : Entry} {g : Graph} {t : View}
    (tree : e.tree = some t) (shape : structureFlaw? t = none)
    (h : declare d (name, e, g) = .ok d') (clean : d'.messages = []) :
    d.messages = [] ∧ ∃ hd : Heading, hd.name = name ∧ hd.Of t ∧
      d'.tables = ⟨d.tables.vars ++ [(name, hd.vars)], d.tables.functions ++ [(name, hd.args)],
        d.tables.results.set name hd.result⟩ := by
  simp only [declare, tree] at h
  obtain ⟨_, same, h⟩ := Except.bind_eq_ok.mp h
  cases same
  obtain ⟨⟨result, written, flaw⟩, read, h⟩ := Except.bind_eq_ok.mp h
  simp only [shape] at h
  obtain ⟨⟨vars, varFlaws⟩, readVars, h⟩ := Except.bind_eq_ok.mp h
  obtain ⟨⟨args, argFlaws⟩, readArgs, h⟩ := Except.bind_eq_ok.mp h
  cases h
  obtain ⟨clean, argsFlawless⟩ := complain_clean clean
  obtain ⟨clean, varsFlawless⟩ := complain_clean clean
  obtain ⟨clean, flawless⟩ := complain_clean clean
  obtain rfl : argFlaws = [] := argsFlawless
  obtain rfl : varFlaws = [] := varsFlawless
  obtain rfl : flaw = none := by simpa using flawless
  refine ⟨clean, ⟨name, vars, args, result⟩, rfl, ⟨readVars, readArgs, written, read⟩, ?_⟩
  simp only [complain_tables]

theorem set_new {table : TypeTable} {name : String} {type : Option TypeName}
    (fresh : name ∉ table.map (·.1)) : table.set name type = table ++ [(name, type)] := by
  induction table with
  | nil => rfl
  | cons p rest ih =>
    obtain ⟨n, t⟩ := p
    rw [List.map_cons, List.mem_cons, not_or] at fresh
    rw [TypeTable.set, if_neg (Ne.symm fresh.1), ih fresh.2, List.cons_append]

/-- Every method has the tree of one. -/
def Shaped (ms : List (String × Entry × Graph)) : Prop :=
  ∀ m ∈ ms, ∃ t, m.2.1.tree = some t ∧ structureFlaw? t = none

theorem messages_from {ms : List (String × Entry × Graph)} (shaped : Shaped ms) {d d' : Declared}
    (h : ms.foldlM declare d = .ok d') (clean : d'.messages = []) : d.messages = [] := by
  induction ms generalizing d with
  | nil =>
    cases h
    exact clean
  | cons m ms ih =>
    have ⟨⟨t, tree, shape⟩, rest⟩ := List.forall_mem_cons.mp shaped
    rw [List.foldlM_cons] at h
    obtain ⟨d₁, step, h⟩ := Except.bind_eq_ok.mp h
    exact (declare_clean tree shape step (ih rest h)).1

/-- The heading of a method that has a tree. -/
def IsHeading (m : String × Entry × Graph) (hd : Heading) : Prop :=
  hd.name = m.1 ∧ ∃ t, m.2.1.tree = some t ∧ hd.Of t

theorem declared_from {ms : List (String × Entry × Graph)} (shaped : Shaped ms)
    {hs : List Heading} (distinct : (hs.map Heading.name ++ ms.map (·.1)).Nodup)
    {d d' : Declared} (tables : d.tables = Tables.of hs) (h : ms.foldlM declare d = .ok d')
    (clean : d'.messages = []) :
    ∃ more, List.Forall₂ IsHeading ms more ∧ d'.tables = Tables.of (hs ++ more) := by
  induction ms generalizing d hs with
  | nil =>
    cases h
    exact ⟨[], .nil, by rw [List.append_nil, tables]⟩
  | cons m ms ih =>
    have ⟨⟨t, tree, shape⟩, rest⟩ := List.forall_mem_cons.mp shaped
    rw [List.foldlM_cons] at h
    obtain ⟨d₁, step, h⟩ := Except.bind_eq_ok.mp h
    obtain ⟨_, hd, named, of, added⟩ := declare_clean tree shape step (messages_from rest h clean)
    have fresh : m.1 ∉ d.tables.results.map (·.1) := by
      have outside := (List.nodup_append.mp distinct).2.2
      rw [tables]
      intro inside
      have inside : m.1 ∈ hs.map Heading.name := by simpa [Tables.of] using inside
      exact outside m.1 inside m.1 List.mem_cons_self rfl
    have tables₁ : d₁.tables = Tables.of (hs ++ [hd]) := by
      rw [added, set_new fresh, tables]
      simp [Tables.of, named]
    obtain ⟨more, each, final⟩ := ih rest (by simpa [named] using distinct) tables₁ h
    exact ⟨hd :: more, .cons ⟨named, t, tree, of⟩ each, by simpa using final⟩

theorem headings_names {ms : List (String × Entry × Graph)} {hs : List Heading}
    (headings : List.Forall₂ IsHeading ms hs) : hs.map Heading.name = ms.map (·.1) := by
  induction headings with
  | nil => rfl
  | cons here _ ih => rw [List.map_cons, List.map_cons, here.1, ih]

/-- The tables of methods without flaws list what each method declares. -/
theorem declared_tables {ms : List (String × Entry × Graph)} (shaped : Shaped ms)
    (distinct : (ms.map (·.1)).Nodup) {d : Declared}
    (h : ms.foldlM declare ⟨⟨[], [], []⟩, []⟩ = .ok d) (clean : d.messages = []) :
    ∃ hs, List.Forall₂ IsHeading ms hs ∧ d.tables = Tables.of hs := by
  have start : (([] : List Heading).map Heading.name ++ ms.map (·.1)).Nodup := distinct
  exact declared_from shaped start rfl h clean

end TypeCheck

/-! ### Scopes -/

/-- A heading in which all types are proper. -/
structure Heading.Proper (hd : Heading) : Prop where
  vars : hd.vars.Proper
  args : hd.args.Proper
  result : ∀ u ∈ hd.result, u.Proper

theorem Heading.Of.proper {hd : Heading} {t : View} (of : hd.Of t) (typed : t.Typed) :
    hd.Proper := by
  obtain ⟨written, result⟩ := of.result
  have proper := result_proper typed result
  exact ⟨methodVariables_proper typed proper of.vars, methodArguments_proper typed of.args, proper⟩

/-- The tables list a heading under its name. -/
structure Tables.Lists (tables : Tables) (hd : Heading) : Prop where
  vars : tables.vars.lookup hd.name = some hd.vars
  args : tables.functions.lookup hd.name = some hd.args
  result : tables.results.lookup hd.name = some hd.result

theorem Tables.of_lists {hs : List Heading} (distinct : (hs.map Heading.name).Nodup) {hd : Heading}
    (inside : hd ∈ hs) : (withBuiltins (Tables.of hs)).Lists hd := by
  have first {α : Type} (part : Heading → α) (more : List (String × α)) :
      (hs.map (fun h => (h.name, part h)) ++ more).lookup hd.name = some (part hd) := by
    have found : (hs.map fun h => (h.name, part h)).lookup hd.name = some (part hd) := by
      refine lookup_of_nodup ?_ (List.mem_map_of_mem inside)
      rwa [List.map_map]
    rw [List.lookup_append, found]
    rfl
  refine ⟨?_, first Heading.args _, first Heading.result _⟩
  have vars := first Heading.vars []
  rwa [List.append_nil] at vars

theorem builtin_proper : ∀ b ∈ Builtin.signatures,
    b.2.1.Proper ∧ ∀ u ∈ b.2.2, TypeName.Proper u := by
  have conversions : ∀ c ∈ Builtin.conversions, c.source.Proper ∧ c.target.Proper := by decide
  have constructed : ∀ w ∈ Builtin.typeWords, (Builtin.constructed w).Proper := by decide +kernel
  have one {name : String} {type : TypeName} (proper : type.Proper) :
      TypeTable.Proper [(name, some type)] :=
    List.forall_mem_singleton.mpr ⟨type, rfl, proper⟩
  have typed {type : TypeName} (proper : type.Proper) : ∀ u ∈ some type, u.Proper :=
    fun u is => Option.mem_some_iff.mp is ▸ proper
  refine List.forall_mem_append.mpr ⟨List.forall_mem_append.mpr ⟨?_, ?_⟩, ?_⟩
  · refine List.forall_mem_cons.mpr ⟨⟨List.forall_mem_nil _, typed (by decide)⟩,
      List.forall_mem_singleton.mpr ⟨one (by decide), ?_⟩⟩
    intro u is
    cases is
  · refine List.forall_mem_map.mpr fun c inside => ?_
    exact ⟨one (conversions c inside).1, typed (conversions c inside).2⟩
  · refine List.forall_mem_map.mpr fun w inside => ?_
    exact ⟨one (by decide), typed (constructed w inside)⟩

section
variable {hs : List Heading} (proper : ∀ hd ∈ hs, hd.Proper)
include proper

theorem Tables.functions_proper : ∀ p ∈ (withBuiltins (Tables.of hs)).functions, p.2.Proper := by
  refine List.forall_mem_append.mpr ⟨List.forall_mem_map.mpr fun hd inside => ?_,
    List.forall_mem_map.mpr fun b inside => ?_⟩
  · exact (proper hd inside).args
  · exact (builtin_proper b inside).1

theorem Tables.vars_proper : ∀ p ∈ (withBuiltins (Tables.of hs)).vars, p.2.Proper :=
  List.forall_mem_map.mpr fun hd inside => (proper hd inside).vars

theorem Tables.results_proper :
    ∀ p ∈ (withBuiltins (Tables.of hs)).results, ∀ u ∈ p.2, TypeName.Proper u := by
  refine List.forall_mem_append.mpr ⟨List.forall_mem_map.mpr fun hd inside => ?_,
    List.forall_mem_map.mpr fun b inside => ?_⟩
  · exact (proper hd inside).result
  · exact (builtin_proper b inside).2

end

/-- Every scope that is taken from proper headings is complete. -/
theorem Tables.scope_complete {hs : List Heading} (proper : ∀ hd ∈ hs, hd.Proper) (method : String) :
    ((withBuiltins (Tables.of hs)).scope method).Complete := by
  refine ⟨Scope.proper_of_tables ?_ ?_ ?_ ?_, ?_⟩
  · exact lookup_proper (Tables.vars_proper proper) method
  · exact lookup_proper (Tables.functions_proper proper) method
  · exact Tables.functions_proper proper
  · exact Tables.results_proper proper
  · intro function
    have names : (withBuiltins (Tables.of hs)).results.map (·.1) =
        (withBuiltins (Tables.of hs)).functions.map (·.1) := by
      simp only [withBuiltins, Tables.of, List.map_append, List.map_map]
      rfl
    have any {α : Type} (table : List (String × α)) :
        (table.any fun p => p.1 == function) = (table.map (·.1)).any (· == function) := by
      rw [List.any_map]
      rfl
    simp only [Tables.scope, lookup_isSome, TypeTable.has, any, names]

end MethodLang
