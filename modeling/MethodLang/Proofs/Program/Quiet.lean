import MethodLang.Program.Report
import Mathlib.Data.List.Basic

/-!
Programs without a report. Nothing is reported just if no file and no method has errors, every
method has a graph, and every name that is called is that of a method or of a builtin.
-/
namespace MethodLang

namespace Entries

variable {entries : Entries}

/-- A part of the report is left out just if there is nothing under its title. -/
theorem part_eq_nil {title : String} {body : List String} :
    (if body.isEmpty then [] else title :: body) = [] ↔ body = [] := by
  cases body <;> simp

/-- Nothing stands under a title just if nothing is to be listed. -/
theorem listing_eq_nil {listed : String × Entry → Bool} {lines : String × Entry → List String}
    (nonempty : ∀ p, lines p ≠ []) :
    (((sortedByName entries).filter listed).flatMap lines) = [] ↔
      ∀ p ∈ entries, listed p = false := by
  simp only [List.flatMap_eq_nil_iff, nonempty, imp_false, List.mem_filter, sortedByName,
    List.mem_mergeSort, not_and, Bool.not_eq_true]

theorem fileLines_eq_nil :
    entries.fileLines = [] ↔ ∀ p ∈ entries, isFile p.1 → p.2.errors = [] := by
  rw [fileLines, part_eq_nil, listing_eq_nil fun p => List.cons_ne_nil _ _]
  simp

theorem methodLines_eq_nil : entries.methodLines = [] ↔
    ∀ p ∈ entries, isFile p.1 = false → p.2.errors = [] ∧ p.2.graph.isSome := by
  rw [methodLines, part_eq_nil, listing_eq_nil fun p => by simp]
  simp only [methods, List.mem_filter, and_imp, Bool.not_eq_true', Bool.not_eq_false',
    List.isEmpty_iff, status, List.append_eq_nil_iff]
  refine forall₃_congr fun p _ _ => and_congr ?_ ?_
  · cases p.2.errors <;> simp
  · cases p.2.graph <;> simp

/-- Nothing missing means that every name that is called can be found. -/
theorem missingLines_eq_nil : entries.missingLines = [] ↔
    ∀ p ∈ entries, isFile p.1 = false → ∀ n ∈ p.2.calls,
      (∃ q ∈ entries, isFile q.1 = false ∧ q.1 = n) ∨ Builtin.isBuiltin n := by
  have titled (missing : List String) (title : String) (line : String → String) :
      (if missing.isEmpty then [] else title :: missing.map line) = [] ↔ missing = [] := by
    cases missing <;> simp
  rw [missingLines, titled, List.filter_eq_nil_iff]
  simp only [calledNames, methods, isMethod, List.mem_mergeSort, List.mem_eraseDups,
    List.mem_flatMap, List.mem_filter, forall_exists_index, and_imp, Bool.and_eq_true, not_and,
    Bool.not_eq_true', List.any_filter, List.any_eq_false, Bool.not_eq_false]
  constructor
  · intro found p inside notFile n isCall
    by_cases known : ∃ q ∈ entries, isFile q.1 = false ∧ q.1 = n
    · exact .inl known
    · refine .inr (found n p inside notFile isCall fun q isEntry isMethod here => known ?_)
      exact ⟨q, isEntry, isMethod, by simpa using here⟩
  · intro found n p inside notFile isCall unknown
    refine (found p inside notFile n isCall).resolve_left ?_
    rintro ⟨q, isEntry, isMethod, named⟩
    exact unknown q isEntry isMethod (by simp [named])

/-- What holds of a program on which there is nothing to report. -/
structure Quiet (entries : Entries) : Prop where
  clean : ∀ p ∈ entries, p.2.errors = []
  defined : ∀ p ∈ entries, isFile p.1 = false → p.2.graph.isSome
  called : ∀ p ∈ entries, isFile p.1 = false → ∀ n ∈ p.2.calls,
    (∃ q ∈ entries, isFile q.1 = false ∧ q.1 = n) ∨ Builtin.isBuiltin n

theorem report?_eq_none : entries.report? = none ↔ entries.Quiet := by
  have lines : entries.report? = none ↔
      entries.fileLines ++ entries.methodLines ++ entries.missingLines = [] := by
    unfold report?
    split <;> simp_all
  rw [lines, List.append_eq_nil_iff, List.append_eq_nil_iff, fileLines_eq_nil, methodLines_eq_nil,
    missingLines_eq_nil]
  constructor
  · rintro ⟨⟨files, methods⟩, called⟩
    refine ⟨fun p inside => ?_, fun p inside notFile => (methods p inside notFile).2, called⟩
    cases isFile : Entries.isFile p.1 with
    | true => exact files p inside isFile
    | false => exact (methods p inside isFile).1
  · rintro ⟨clean, defined, called⟩
    exact ⟨⟨fun p inside _ => clean p inside,
      fun p inside notFile => ⟨clean p inside, defined p inside notFile⟩⟩, called⟩

instance (entries : Entries) : Decidable entries.Quiet :=
  decidable_of_iff ((∀ p ∈ entries, p.2.errors = []) ∧
    (∀ p ∈ entries, isFile p.1 = false → p.2.graph.isSome) ∧
    ∀ p ∈ entries, isFile p.1 = false → ∀ n ∈ p.2.calls,
      (∃ q ∈ entries, isFile q.1 = false ∧ q.1 = n) ∨ Builtin.isBuiltin n)
    ⟨fun h => ⟨h.1, h.2.1, h.2.2⟩, fun h => ⟨h.clean, h.defined, h.called⟩⟩

end Entries

end MethodLang
