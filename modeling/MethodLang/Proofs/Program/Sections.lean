import Mathlib.Data.List.Nodup
import MethodLang.Proofs.Machine.Labels
import MethodLang.Proofs.Program.Balance

/-!
Sections of a file of code. Every function stands behind its label, up to the label of the next one.
If the edges of its graph lead to blocks of the graph, the jumps of a method lead to places of its
own section (`Code.program_lines`).
-/
namespace MethodLang

/-! ### Code of methods -/

/-- Blank lines say nothing. -/
theorem Line.of_blank {lines : List Line} (isBlank : ∀ l ∈ lines, l = blank) :
    labels lines = [] ∧ places lines = [] ∧ targets lines = [] ∧ callees lines = [] := by
  rw [List.eq_replicate_of_mem isBlank]
  induction lines.length with
  | zero => exact ⟨rfl, rfl, rfl, rfl⟩
  | succ n ih => exact ih

namespace Code

variable {a b : Code}

theorem lines_append (written : a.fault = none) : (a ++ b).lines = a.lines ++ b.lines := by
  obtain ⟨lines, _ | _⟩ := a
  · rfl
  · cases written

theorem lines_join {cs : List Code} (written : ∀ c ∈ cs, c.fault = none) :
    (join cs).lines = cs.flatMap Code.lines := by
  induction cs with
  | nil => rfl
  | cons c cs ih =>
    obtain ⟨first, rest⟩ := List.forall_mem_cons.mp written
    rw [join_cons, lines_append first, ih rest, List.flatMap_cons]

theorem edgeLabelled_mem {outcome : String} {edges : List Edge} {id : BlockId}
    (found : edgeLabelled outcome edges = .ok id) : ∃ e ∈ edges, e.1 = id := by
  induction edges with
  | nil => cases found
  | cons e rest ih =>
    obtain ⟨dst, label⟩ := e
    cases label with
    | none => cases found
    | some label =>
      rw [edgeLabelled] at found
      split at found
      · cases found
        exact ⟨_, List.mem_cons_self, rfl⟩
      · obtain ⟨e, later, same⟩ := ih found
        exact ⟨e, List.mem_cons_of_mem _ later, same⟩

/-- The jumps of a block are only jumps: they lead along its edges, or out of the method. -/
theorem jumps_targets (edges : List Edge) : Line.labels (jumps edges).lines = [] ∧
    Line.places (jumps edges).lines = [] ∧ Line.callees (jumps edges).lines = [] ∧
    ∀ t ∈ Line.targets (jumps edges).lines, t = .exit ∨ ∃ e ∈ edges, t = .block e.1 := by
  have one (t : Target) : Line.targets (instr (.jump t)).lines = [t] := rfl
  unfold jumps
  split
  · exact ⟨rfl, rfl, rfl, by simp [one]⟩
  · exact ⟨rfl, rfl, rfl, by simp [one]⟩
  · split
    · exact ⟨rfl, rfl, rfl, List.forall_mem_nil _⟩
    · rename_i yes isYes
      split
      · exact ⟨rfl, rfl, rfl, List.forall_mem_nil _⟩
      · rename_i no isNo
        refine ⟨rfl, rfl, rfl, ?_⟩
        have two : Line.targets (instr (.jumpIf (.block yes)) ++ instr (.jump (.block no))).lines =
            [.block yes, .block no] := rfl
        obtain ⟨e, inside, rfl⟩ := edgeLabelled_mem isYes
        obtain ⟨e', inside', rfl⟩ := edgeLabelled_mem isNo
        rw [two]
        refine List.forall_mem_cons.mpr ⟨.inr ⟨e, inside, rfl⟩, ?_⟩
        exact List.forall_mem_singleton.mpr (.inr ⟨e', inside', rfl⟩)

/-- Lines that hold the given blocks, without labels of functions: jumps lead along the edges of the
blocks, or out of the method. -/
structure Holds (names : List String) (blocks : List (BlockId × Block)) (lines : List Line) :
    Prop where
  labels : Line.labels lines = []
  places : Line.places lines = blocks.map fun p => .block p.1
  targets : ∀ t ∈ Line.targets lines, t = .exit ∨ ∃ p ∈ blocks, ∃ e ∈ p.2.succs, t = .block e.1
  callees : Line.callees lines ⊆ names

variable {names : List String} {ctx : CodeContext}

theorem holds_simple {lines : List Line} (simple : ∀ l ∈ lines, l.Simple names) :
    Holds names [] lines := by
  obtain ⟨labels, places, targets, callees⟩ := Line.of_simple simple
  exact ⟨labels, places, by simp [targets], callees⟩

theorem Holds.append {bs cs : List (BlockId × Block)} {xs ys : List Line}
    (first : Holds names bs xs) (second : Holds names cs ys) :
    Holds names (bs ++ cs) (xs ++ ys) where
  labels := by rw [Line.labels_append, first.labels, second.labels, List.append_nil]
  places := by rw [Line.places_append, first.places, second.places, List.map_append]
  targets := by
    intro t inside
    rw [Line.targets_append] at inside
    rcases List.mem_append.mp inside with here | there
    · refine (first.targets t here).imp_right fun ⟨p, isBlock, leads⟩ => ?_
      exact ⟨p, List.mem_append_left _ isBlock, leads⟩
    · refine (second.targets t there).imp_right fun ⟨p, isBlock, leads⟩ => ?_
      exact ⟨p, List.mem_append_right _ isBlock, leads⟩
  callees := by
    rw [Line.callees_append]
    exact List.append_subset.mpr ⟨first.callees, second.callees⟩

theorem holds_block {id : BlockId} {b : Block} (within : (b.treeCode ctx).Within names)
    (written : (block ctx id b).fault = none) : Holds names [(id, b)] (block ctx id b).lines := by
  rw [Block.code_eq] at written ⊢
  obtain ⟨before, -⟩ := fault_append_iff.mp written
  have place : Holds names [(id, b)] (write [.place (.block id)]).lines :=
    ⟨rfl, rfl, List.forall_mem_nil _, List.nil_subset _⟩
  obtain ⟨labels, places, callees, targets⟩ := jumps_targets b.succs
  have tree := place.append (holds_simple within)
  rw [lines_append before, lines_append (fault_write _)]
  refine ⟨?_, ?_, fun t inside => ?_, ?_⟩
  · rw [Line.labels_append, tree.labels, labels, List.append_nil]
  · rw [Line.places_append, tree.places, places]
    rfl
  · rw [Line.targets_append] at inside
    rcases List.mem_append.mp inside with here | there
    · exact tree.targets t here
    · exact (targets t there).imp_right fun leads => ⟨_, List.mem_singleton_self _, leads⟩
  · rw [Line.callees_append, callees, List.append_nil]
    exact tree.callees

theorem holds_blocks {blocks : List (BlockId × Block)}
    (each : ∀ p ∈ blocks, (p.2.treeCode ctx).Within names ∧ (block ctx p.1 p.2).fault = none) :
    Holds names blocks (join (blocks.map fun p => block ctx p.1 p.2)).lines := by
  induction blocks with
  | nil => exact holds_simple (List.forall_mem_nil _)
  | cons p rest ih =>
    obtain ⟨⟨within, written⟩, later⟩ := List.forall_mem_cons.mp each
    rw [List.map_cons, join_cons, lines_append written]
    exact (holds_block within written).append (ih later)

theorem holds_blank {lines : List Line} (blank : ∀ l ∈ lines, l = Line.blank) :
    Holds names [] lines := by
  obtain ⟨labels, places, targets, callees⟩ := Line.of_blank blank
  exact ⟨labels, places, by simp [targets], by simp [callees]⟩

/-- With the place of its exit, the code of a closed graph is closed. -/
theorem Holds.closed {blocks : List (BlockId × Block)} {xs ys : List Line}
    (inner : Holds names blocks xs) (last : Holds names [] ys)
    (distinct : (blocks.map (·.1)).Nodup)
    (closed : ∀ p ∈ blocks, ∀ e ∈ p.2.succs, e.1 ∈ blocks.map (·.1)) :
    Line.Closed (xs ++ .place .exit :: ys) ∧
      (Line.places (xs ++ .place .exit :: ys)).count .exit = 1 := by
  have places : Line.places (xs ++ .place .exit :: ys) =
      (blocks.map (·.1)).map Target.block ++ [.exit] := by
    have here : Line.places (.place .exit :: ys) = .exit :: Line.places ys := rfl
    rw [Line.places_append, here, inner.places, last.places, List.map_map]
    rfl
  have targets : Line.targets (xs ++ .place .exit :: ys) = Line.targets xs ++ Line.targets ys := by
    rw [Line.targets_append]
    rfl
  have once : ((blocks.map (·.1)).map Target.block ++ [Target.exit]).Nodup := by
    have ids : ((blocks.map (·.1)).map Target.block).Nodup :=
      distinct.map fun _ _ same => by injection same
    refine List.nodup_append.mpr ⟨ids, List.nodup_singleton _, fun t isBlock u isExit => ?_⟩
    obtain ⟨id, -, rfl⟩ := List.mem_map.mp isBlock
    rw [List.mem_singleton.mp isExit]
    exact nofun
  have exit : (Line.places (xs ++ .place .exit :: ys)).count .exit = 1 := by
    rw [places]
    exact List.count_eq_one_of_mem once (by simp)
  refine ⟨fun t inside => ?_, exit⟩
  rw [targets] at inside
  have leads : t = .exit ∨ ∃ p ∈ blocks, ∃ e ∈ p.2.succs, t = .block e.1 := by
    rcases List.mem_append.mp inside with here | there
    · exact inner.targets t here
    · exact (last.targets t there).imp_right fun ⟨p, isBlock, _⟩ => nomatch isBlock
  rcases leads with rfl | ⟨p, isBlock, e, isEdge, rfl⟩
  · exact exit
  · rw [places]
    refine List.count_eq_one_of_mem once (List.mem_append_left _ ?_)
    exact List.mem_map_of_mem (closed p isBlock e isEdge)

/-- The lines of a method: its label, its blocks, and its exit. -/
theorem method_lines {results : TypeTable} (name : String) {e : Entry} {g : Graph}
    (each : ∀ p ∈ g.blocks, (p.2.treeCode (e.context results)).Within names ∧
      (block (e.context results) p.1 p.2).fault = none) :
    (method results name e g).fault = none ∧ ∃ xs ys, (method results name e g).lines =
        .blank :: .function name :: (xs ++ .place .exit :: ys) ∧
      Holds names g.blocks xs ∧ Holds names [] ys := by
  have blocks := holds_blocks each
  have vars : Holds names [] (e.vars.map fun p => Line.noted (.push (.decimal 0)) 4 p.1) :=
    holds_simple (List.forall_mem_map.mpr fun p _ =>
      Line.simple_noted.mpr ⟨rfl, by simp [Instr.callee?]⟩)
  have last (lines : List Line) (simple : ∀ l ∈ lines, l.Simple names) :
      Holds names [] (lines ++ [Line.code .ret]) :=
    (holds_simple simple).append (holds_simple (List.forall_mem_singleton.mpr
      (Line.simple_code.mpr ⟨rfl, by simp [Instr.callee?]⟩)))
  have moves : ∀ l ∈ (if (results.lookup name).join.isSome then
      result (Frame.ofMethod e.params e.vars) name else []), l.Simple names := by
    split
    · unfold result
      split
      · simp [Line.simple_noted, Instr.target?, Instr.callee?]
      · exact List.forall_mem_nil _
    · exact List.forall_mem_nil _
  have written : (join (g.blocks.map fun p => block (e.context results) p.1 p.2)).fault = none :=
    fault_join.mpr (List.forall_mem_map.mpr fun p inside => (each p inside).2)
  have whole : method results name e g =
      write (.blank :: .function name :: e.vars.map fun p => .noted (.push (.decimal 0)) 4 p.1) ++
        join (g.blocks.map fun p => block (e.context results) p.1 p.2) ++
        write ([.place .exit] ++ (if (results.lookup name).join.isSome then
          result (Frame.ofMethod e.params e.vars) name else []) ++ [.code .ret]) := rfl
  refine ⟨?_, _, _, ?_, vars.append blocks, last _ moves⟩
  · rw [whole, fault_append_iff, fault_append_iff]
    exact ⟨⟨fault_write _, written⟩, fault_write _⟩
  rw [whole, lines_append (fault_append_iff.mpr ⟨fault_write _, written⟩),
    lines_append (fault_write _)]
  simp [write]

end Code

/-! ### Files -/

namespace Line

variable {P : String → List Line → Prop} {lines : List Line}

/-- Every function among the lines has the property; in front of the first are blank lines only. -/
structure Tidy (P : String → List Line → Prop) (lines : List Line) : Prop where
  before : ∀ l ∈ (functions lines).1, l = blank
  each : ∀ f ∈ (functions lines).2, P f.1 f.2

/-- The blank lines in front of the next function count to the one before. -/
theorem Tidy.function (tidy : Tidy P lines) {head : Line} {name : String}
    (labelled : head.statement = .function name) {body : List Line} (unlabelled : labels body = [])
    (holds : ∀ after, (∀ l ∈ after, l = blank) → P name (body ++ after)) :
    Tidy P (blank :: head :: (body ++ lines)) := by
  have split : functions (blank :: head :: (body ++ lines)) =
      ([blank], (name, body ++ (functions lines).1) :: (functions lines).2) := by
    have blanks : labels [blank] = [] := rfl
    have front := functions_append blanks (head :: (body ++ lines))
    rw [functions_label labelled, functions_append unlabelled] at front
    exact front
  constructor
  · rw [split]
    exact List.forall_mem_singleton.mpr rfl
  · rw [split]
    exact List.forall_mem_cons.mpr ⟨holds _ tidy.before, tidy.each⟩

end Line

namespace Code

variable {P : String → List Line → Prop} {results : TypeTable} {names : List String}

/-- What it takes for a method's code to be closed. -/
structure Closable (results : TypeTable) (names : List String) (e : Entry) (g : Graph) : Prop where
  written : ∀ p ∈ g.blocks, (block (e.context results) p.1 p.2).fault = none
  within : ∀ p ∈ g.blocks, (p.2.treeCode (e.context results)).Within names
  distinct : (g.blocks.map (·.1)).Nodup
  closed : ∀ p ∈ g.blocks, ∀ e ∈ p.2.succs, e.1 ∈ g.blocks.map (·.1)

theorem methods_tidy {ms : List (String × Entry × Graph)}
    (each : ∀ m ∈ ms, Closable results names m.2.1 m.2.2)
    (holds : ∀ name body, Line.Closed body → (Line.places body).count .exit = 1 → P name body) :
    let lines := (join (ms.map fun m => method results m.1 m.2.1 m.2.2)).lines
    Line.Tidy P lines ∧ Line.labels lines = ms.map (·.1) ∧ Line.callees lines ⊆ names := by
  induction ms with
  | nil => exact ⟨⟨List.forall_mem_nil _, List.forall_mem_nil _⟩, rfl, List.nil_subset _⟩
  | cons m rest ih =>
    obtain ⟨closable, later⟩ := List.forall_mem_cons.mp each
    obtain ⟨tidy, labels, callees⟩ := ih later
    obtain ⟨written, xs, ys, lines, inner, last⟩ := method_lines m.1 fun p inside =>
      ⟨closable.within p inside, closable.written p inside⟩
    have unlabelled : Line.labels (xs ++ .place .exit :: ys) = [] := by
      have here : Line.labels (.place .exit :: ys) = Line.labels ys := rfl
      rw [Line.labels_append, here, inner.labels, last.labels, List.append_nil]
    have called : Line.callees (xs ++ .place .exit :: ys) ⊆ names := by
      have here : Line.callees (.place .exit :: ys) = Line.callees ys := rfl
      rw [Line.callees_append, here]
      exact List.append_subset.mpr ⟨inner.callees, last.callees⟩
    simp only [List.map_cons, join_cons, lines_append written, lines, List.cons_append]
    refine ⟨tidy.function rfl unlabelled fun after blank => ?_, ?_, ?_⟩
    · rw [List.append_assoc, List.cons_append]
      obtain ⟨closed, exit⟩ := inner.closed (last.append (holds_blank blank)) closable.distinct
        closable.closed
      exact holds _ _ closed exit
    · have here (ls : List Line) : Line.labels (.blank :: .function m.1 :: ls) =
          m.1 :: Line.labels ls := rfl
      rw [here, Line.labels_append, unlabelled, labels]
      rfl
    · have here (ls : List Line) : Line.callees (.blank :: .function m.1 :: ls) =
          Line.callees ls := rfl
      rw [here, Line.callees_append]
      exact List.append_subset.mpr ⟨called, callees⟩

/-- A function in a file: its jumps lead to places of its own, and if it is a method, it has one
exit. -/
structure Linked (name : String) (body : List Line) : Prop where
  closed : Line.Closed body
  exit : name ∉ Library.routines.map (·.name) → (Line.places body).count .exit = 1

/-- Builtins do not jump. -/
theorem routines_tidy {rs : List Library.Routine} (builtin : ∀ r ∈ rs, r ∈ Library.routines)
    {lines : List Line} (tidy : Line.Tidy Linked lines) :
    Line.Tidy Linked (rs.flatMap Library.Routine.lines ++ lines) := by
  have straight : ∀ r ∈ Library.routines, Line.labels (r.lines.drop 2) = [] ∧
      Line.targets (r.lines.drop 2) = [] := by decide +kernel
  induction rs with
  | nil => exact tidy
  | cons r rest ih =>
    obtain ⟨isBuiltin, later⟩ := List.forall_mem_cons.mp builtin
    obtain ⟨labels, targets⟩ := straight r isBuiltin
    have head : r.head.statement = .function r.name := by
      unfold Library.Routine.head
      split <;> rfl
    have split : r.lines = .blank :: r.head :: r.lines.drop 2 := rfl
    rw [List.flatMap_cons, List.append_assoc, split, List.cons_append, List.cons_append]
    refine (ih later).function head labels fun after blank => ⟨fun t inside => ?_, fun other => ?_⟩
    · rw [Line.targets_append, targets, (Line.of_blank blank).2.2.1] at inside
      cases inside
    · exact absurd (List.mem_map_of_mem isBuiltin) other

/-- The lines of a program whose methods can be closed. -/
theorem program_lines {entries : Entries}
    (each : ∀ m ∈ entries.defined, Closable results names m.2.1 m.2.2) :
    let lines := (program results entries).lines
    Line.labels lines = Library.routines.map (·.name) ++ entries.defined.map (·.1) ∧
      (∀ f ∈ Line.callees lines,
        f = "main" ∨ f ∈ Library.routines.map (·.name) ∨ f ∈ names) ∧
      Line.Closed (Line.functions lines).1 ∧ ∀ f ∈ (Line.functions lines).2, Linked f.1 f.2 := by
  obtain ⟨tidy, labels, callees⟩ := methods_tidy each fun name body closed exit =>
    (⟨closed, fun _ => exit⟩ : Linked name body)
  have tidy := routines_tidy (fun r inside => inside) tidy
  have whole : (program results entries).lines = Library.start ++
      (Library.routines.flatMap Library.Routine.lines ++
        (join (entries.defined.map fun m => method results m.1 m.2.1 m.2.2)).lines) := by
    rw [program, lines_append (fault_write _)]
    exact List.append_assoc _ _ _
  have opening : Line.labels (Library.routines.flatMap Library.Routine.lines) =
      Library.routines.map (·.name) := by decide +kernel
  have started : ∀ f ∈ Line.callees Library.start, f = "main" := by decide +kernel
  have builtin : ∀ f ∈ Line.callees (Library.routines.flatMap Library.Routine.lines),
      f ∈ Library.routines.map (·.name) := by decide +kernel
  have front : Line.labels Library.start = [] := by decide +kernel
  have straight : Line.targets Library.start = [] := by decide +kernel
  simp only [whole, Line.labels_append, Line.callees_append, front, opening, labels,
    Line.functions_append front, List.nil_append, true_and]
  refine ⟨fun f called => ?_, fun t inside => ?_, tidy.each⟩
  · rcases List.mem_append.mp called with isStart | later
    · exact .inl (started f isStart)
    · rcases List.mem_append.mp later with isBuiltin | isMethod
      · exact .inr (.inl (builtin f isBuiltin))
      · exact .inr (.inr (callees isMethod))
  · rw [Line.targets_append, straight, (Line.of_blank tidy.before).2.2.1] at inside
    cases inside

end Code

end MethodLang
