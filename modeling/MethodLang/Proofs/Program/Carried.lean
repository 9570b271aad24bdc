import MethodLang.Proofs.Program.Findings

/-!
One checker for all methods. A session that takes up the methods of a program one after the other,
and gives types to the trees of each, gets the replies and leaves the types of a check that begins
anew with every tree (`session_checks_program`). What the methods before have settled is loosened
when the next one is taken up, and no tree belongs to two of them.
-/
namespace MethodLang

open TypeCheck

/-- The trees of the blocks. -/
def Graph.trees (g : Graph) : List Operation := g.blocks.filterMap (·.2.tree)

/-- The trees of all methods, one method after the other. -/
def Entries.trees (entries : Entries) : List Operation := entries.defined.flatMap (·.2.2.trees)

/-- What is said of a tree that has just been met. -/
def Scope.reply (s : Scope) (op : Operation) : Reply :=
  ⟨((Marked.unmarked op).assign s).type, ((Marked.unmarked op).assign s).errors⟩

def Scope.typed (s : Scope) (op : Operation) : Marked := ((Marked.unmarked op).assign s).node

/-! ### The check of each method -/

theorem checkGraph_trees (s : Scope) (g : Graph) :
    (checkGraph s g).1.trees = g.trees.map fun op => (s.typed op).operation := by
  rw [Graph.trees, Graph.trees, checkGraph, List.map_map, List.filterMap_map, List.map_filterMap]
  refine List.filterMap_congr fun p _ => ?_
  cases tree : p.2.tree <;> simp [checkBlock, tree, Scope.typed]

theorem checkGraph_texts (s : Scope) (g : Graph) : (checkGraph s g).2 =
    g.trees.flatMap fun op => (s.reply op).errors.map (TypeError.text (Marked.unmarked op)) := by
  rw [Graph.trees, List.filterMap_eq_flatMap_toList, List.flatMap_assoc]
  simp only [checkGraph, List.flatMap_map]
  refine congrArg (g.blocks.flatMap ·) (funext fun p => ?_)
  cases tree : p.2.tree <;> simp [checkBlock, tree, Scope.reply]

theorem annotate_trees (tables : Tables) (entries : Entries) : (annotate tables entries).trees =
    entries.defined.flatMap fun m => m.2.2.trees.map fun op =>
      ((tables.scope m.1).typed op).operation := by
  unfold Entries.trees Entries.defined Entries.methods annotate
  induction entries with
  | nil => rfl
  | cons p rest ih =>
    obtain ⟨name, e⟩ := p
    cases file : Entries.isFile name <;> cases graph : e.graph <;>
      simp_all [annotateEntry, checkEntry, checkGraph_trees]

/-! ### The check of a session -/

namespace Marked

theorem unsettle_unmarked (op : Operation) : (unmarked op).unsettle = unmarked op :=
  Tree.map_map ..

theorem operation_unsettle (t : Marked) : t.unsettle.operation = t.operation := Tree.map_map ..

end Marked

namespace Session

/-- Gives types to the next trees, one after the other. -/
def assignFrom (first : Nat) : Nat → Session → Option (List Reply × Session)
  | 0, s => some ([], s)
  | n + 1, s => do
    let (reply, s) ← s.ask .assign first []
    let (replies, s) ← assignFrom (first + 1) n s
    some (reply :: replies, s)

/-- Takes up one method after the other, each with the number of its trees. -/
def checkFrom (first : Nat) : List (String × Nat) → Session → Option (List (List Reply) × Session)
  | [], s => some ([], s)
  | (name, n) :: rest, s => do
    let (replies, s) ← (s.enter name).assignFrom first n
    let (others, s) ← s.checkFrom (first + n) rest
    some (replies :: others, s)

/-- One session for a whole program. -/
def checkProgram (tables : Tables) (entries : Entries) : Option (List (List Reply) × Session) :=
  checkFrom 0 (entries.defined.map fun m => (m.1, m.2.2.trees.length))
    (.start tables (entries.trees.map .unmarked))

variable (tables : Tables) (scope : Scope)

theorem assignFrom_eq (done : List Marked) (ops : List Operation) (rest : List Marked) :
    assignFrom done.length ops.length ⟨tables, scope, done ++ (ops.map .unmarked ++ rest)⟩ =
      some (ops.map scope.reply, ⟨tables, scope, done ++ (ops.map scope.typed ++ rest)⟩) := by
  induction ops generalizing done with
  | nil => rfl
  | cons op ops ih =>
    have asked : ask ⟨tables, scope, done ++ .unmarked op :: (ops.map .unmarked ++ rest)⟩ .assign
        done.length [] = some (scope.reply op,
          ⟨tables, scope, done ++ scope.typed op :: (ops.map .unmarked ++ rest)⟩) := by
      simp [ask, Tree.at?, Tree.modifyAt, Question.ask, Scope.reply, Scope.typed]
    have later := ih (done ++ [scope.typed op])
    simp only [List.length_append, List.length_singleton, List.append_assoc,
      List.singleton_append] at later
    simp [assignFrom, asked, later]

theorem checkFrom_eq (ms : List (String × List Operation)) (done : List Marked) :
    ∃ s, checkFrom done.length (ms.map fun m => (m.1, m.2.length))
        ⟨tables, scope, done ++ ms.flatMap fun m => m.2.map .unmarked⟩ =
      some (ms.map fun m => m.2.map (tables.scope m.1).reply, s) ∧
      s.trees.map Marked.operation = done.map Marked.operation ++
        ms.flatMap fun m => m.2.map fun op => ((tables.scope m.1).typed op).operation := by
  -- `done` are the trees of the methods before, which are loosened at every step
  induction ms generalizing scope done with
  | nil => exact ⟨_, rfl, by simp⟩
  | cons m ms ih =>
    obtain ⟨s, run, trees⟩ := ih (tables.scope m.1)
      (done.map .unsettle ++ m.2.map (tables.scope m.1).typed)
    have entered := assignFrom_eq tables (tables.scope m.1) (done.map .unsettle) m.2
      (ms.flatMap fun m => m.2.map .unmarked)
    rw [List.length_append, List.length_map, List.length_map, List.append_assoc] at run
    rw [List.length_map] at entered
    have loosened : (⟨tables, scope, done ++ (m :: ms).flatMap fun m => m.2.map .unmarked⟩ :
        Session).enter m.1 = ⟨tables, tables.scope m.1, done.map .unsettle ++ (m.2.map .unmarked ++
          ms.flatMap fun m => m.2.map .unmarked)⟩ := by
      simp [enter, List.map_flatMap, Function.comp_def, Marked.unsettle_unmarked]
    refine ⟨s, ?_, ?_⟩
    · rw [List.map_cons, checkFrom, loosened, entered, Option.bind_eq_bind, Option.bind_some]
      simp only [run, Option.bind_eq_bind, Option.bind_some, List.map_cons]
    · simp [trees, Marked.operation_unsettle, Function.comp_def]

end Session

/-- Of every tree the session is told what the check of its method finds, and it leaves all trees
with the types that the check leaves. -/
theorem session_checks_program (tables : Tables) (entries : Entries) :
    (∃ s, Session.checkProgram tables entries =
        some (entries.defined.map fun m => m.2.2.trees.map (tables.scope m.1).reply, s) ∧
      s.trees.map Marked.operation = (annotate tables entries).trees) ∧
    ∀ m ∈ entries.defined, (checkEntry tables m.1 m.2.1).2 = m.2.2.trees.flatMap fun op =>
      ((tables.scope m.1).reply op).errors.map (TypeError.text (Marked.unmarked op)) := by
  constructor
  · obtain ⟨s, run, trees⟩ := Session.checkFrom_eq tables ⟨[], [], tables.functions, tables.results⟩
      (entries.defined.map fun m => (m.1, m.2.2.trees)) []
    refine ⟨s, ?_, ?_⟩
    · simpa [Session.checkProgram, Session.start, Entries.trees, List.map_flatMap,
        List.flatMap_map, Function.comp_def] using run
    · rw [trees, annotate_trees]
      simp [List.flatMap_map]
  · rintro ⟨name, e, g⟩ inside
    obtain ⟨-, notFile, graph⟩ := Entries.mem_defined.mp inside
    simp [checkEntry, graph, notFile, checkGraph_texts]

/-- The program is refused just if the session is told of an error. -/
theorem checkTyped_flawed_iff {tables : Tables} {entries : Entries} {replies : List (List Reply)}
    {s : Session} (run : Session.checkProgram (withBuiltins tables) entries = some (replies, s)) :
    (∃ messages, checkTyped tables entries = .flawed messages) ↔
      ∃ rs ∈ replies, ∃ r ∈ rs, r.errors ≠ [] := by
  obtain ⟨⟨_, run', -⟩, texts⟩ := session_checks_program (withBuiltins tables) entries
  cases run.symm.trans run'
  have told : (∀ p ∈ entries, (checkEntry (withBuiltins tables) p.1 p.2).2 = []) ↔
      ∀ m ∈ entries.defined, (checkEntry (withBuiltins tables) m.1 m.2.1).2 = [] := by
    constructor
    · intro each m inside
      exact each (m.1, m.2.1) (Entries.mem_defined.mp inside).1
    · rintro each ⟨name, e⟩ inside
      -- an entry that is not a method, or has no graph, has no trees to speak of
      cases file : Entries.isFile name with
      | true => cases graph : e.graph <;> simp [checkEntry, graph, file]
      | false =>
        cases graph : e.graph with
        | none => simp [checkEntry, graph]
        | some g => exact each (name, e, g) (Entries.mem_defined.mpr ⟨inside, file, graph⟩)
  have refused : (∃ messages, checkTyped tables entries = .flawed messages) ↔
      ¬ ∀ p ∈ entries, (checkEntry (withBuiltins tables) p.1 p.2).2 = [] := by
    unfold checkTyped
    simp only
    split
    · rename_i quiet
      simpa [List.filterMap_eq_nil_iff] using quiet
    · rename_i loud
      simpa [List.filterMap_eq_nil_iff] using loud
  rw [refused, told]
  simp +contextual [texts]

end MethodLang
