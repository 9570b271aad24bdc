import MethodLang.Proofs.Flow.Stopping
import MethodLang.Proofs.Flow.Telling

/-!
Refused expressions. A graph keeps an error for every expression that was refused, and a block that
shows it (`buildGraph_outcome`); so a graph without errors has a tree for every expression, and a
choice in none of its other blocks (`prune_choice`).
-/
namespace MethodLang

/-! ### Blocks of refused expressions -/

/-- A block that stands for a refused expression: it shows the reason in place of a tree. -/
def Block.isRefusal (b : Block) : Bool := b.tree.isNone && Text.startsWith "ERROR: " b.label

/-- What the block of the expression shows if it is refused. -/
def Expr.shown? (e : Expr) : Option String :=
  e.refusal?.map fun reason => "ERROR: " ++ reason.message

/-- What the blocks of refused expressions show. -/
def Blocks.refusals (bs : Blocks) : List String := (bs.filter (·.2.isRefusal)).map (·.2.label)

namespace Blocks

variable {id : BlockId} {bs cs : Blocks}

theorem refusals_nil : refusals [] = [] := rfl

theorem refusals_append : refusals (bs ++ cs) = refusals bs ++ refusals cs := by
  rw [refusals, List.filter_append, List.map_append, refusals, refusals]

theorem refusals_plain {text : String} {succs : List Edge}
    (plain : text ∈ ["begin", "end", "end_if", "end_while", "start_repeat", "end_repeat", "break"]) :
    refusals ((id, ⟨text, none, succs⟩) :: bs) = refusals bs := by
  have other : Text.startsWith "ERROR: " text = false := by
    simp only [List.mem_cons, List.not_mem_nil, or_false] at plain
    rcases plain with rfl | rfl | rfl | rfl | rfl | rfl | rfl <;> decide
  rw [refusals, List.filter_cons_of_neg (by simp [Block.isRefusal, other]), refusals]

theorem refusals_expr (e : Expr) (succs : List Edge) :
    refusals ((id, e.block succs) :: bs) = [e].filterMap Expr.shown? ++ refusals bs := by
  cases is : e.operation with
  | ok op =>
    rw [e.block_of_ok is]
    simp [refusals, Block.isRefusal, Expr.shown?, Expr.refusal?, is]
  | error fault =>
    unfold Expr.block Expr.shown? Expr.refusal?
    cases fault <;> simp [refusals, Block.isRefusal, is, Text.startsWith]

end Blocks

namespace Stmt

open Blocks

/-- The expressions of the statement that are refused are shown one by one. -/
def Shows (s : Stmt) : Prop := ∀ label start next exit,
  refusals (s.blocks label start next exit) = s.exprs.filterMap Expr.shown?

theorem refusals_blocksAll {body : List Stmt} (each : ∀ s ∈ body, s.Shows) (start next : Int)
    (exit : Option BlockId) :
    refusals (blocksAll start next exit body) = (exprsAll body).filterMap Expr.shown? := by
  induction body generalizing start with
  | nil => rfl
  | cons s ss ih =>
    obtain ⟨first, rest⟩ := List.forall_mem_cons.mp each
    rw [blocksAll, refusals_append, first, ih rest, exprsAll, List.filterMap_append]

theorem refusals_repeatBlocks {label : Option String} {start next : Int} {back leave : String}
    {body : Stmt} {c : Expr} {inner : Blocks}
    (below : refusals inner = body.exprs.filterMap Expr.shown?) :
    refusals (repeatBlocks label start next back leave body c inner) =
      (body.exprs ++ [c]).filterMap Expr.shown? := by
  rw [repeatBlocks, List.cons_append, List.cons_append, refusals_plain (by simp),
    refusals_plain (by simp), refusals_append, below, refusals_expr, refusals_nil, List.append_nil,
    List.filterMap_append]

theorem shows_blocks (s : Stmt) : s.Shows := by
  induction s using Stmt.induction with
  | expr e =>
    intro label start next exit
    rw [blocks, refusals_expr, refusals_nil, List.append_nil, exprs]
  | leave stop =>
    intro label start next exit
    rw [blocks, refusals_plain (by simp), refusals_nil, exprs, List.filterMap_nil]
  | block body ih =>
    intro label start next exit
    rw [blocks, refusals_plain (by simp), refusals_plain (by simp), refusals_blocksAll ih, exprs]
  | ifThen c body ih =>
    intro label start next exit
    rw [blocks, List.cons_append, refusals_expr, refusals_append, ih, refusals_plain (by simp),
      refusals_nil, List.append_nil, ← List.filterMap_append, List.singleton_append, exprs]
  | ifElse c body other ihb iho =>
    intro label start next exit
    rw [blocks, List.cons_append, refusals_expr, refusals_append, ihb, refusals_plain (by simp), iho,
      ← List.filterMap_append, ← List.filterMap_append, List.singleton_append, exprs,
      List.cons_append]
  | whileDo c body ih =>
    intro label start next exit
    rw [blocks, refusals_expr, refusals_plain (by simp), ih, ← List.filterMap_append,
      List.singleton_append, exprs]
  | repeatWhile body c ih | repeatUntil body c ih =>
    intro label start next exit
    exact refusals_repeatBlocks (ih _ _ _ _)

theorem refusals_bodyBlocks (body : List Stmt) :
    refusals (bodyBlocks body) = (exprsAll body).filterMap Expr.shown? := by
  rw [bodyBlocks, refusals_plain (by simp), refusals_plain (by simp),
    refusals_blocksAll fun s _ => s.shows_blocks]

end Stmt

/-! ### Errors -/

/-- An expression that is not refused and has no other fault is lowered. -/
theorem Expr.lowers_of_none {e : Expr} (sound : e.fault? = none) (kept : e.refusal? = none) :
    ∃ op, e.operation = .ok op := by
  unfold Expr.fault? at sound
  unfold Expr.refusal? at kept
  cases is : e.operation with
  | ok op => exact ⟨op, rfl⟩
  | error fault =>
    rw [is] at sound kept
    cases fault <;> simp at sound kept

/-- Building the graph of a written method fails at a break outside every loop, if there is one, and
for no other reason. Else the graph has an error for each expression that is refused, in source
order, and for each error a block of its own that shows it and has no tree. -/
theorem buildGraph_outcome {m : Method} {body : Body} (spelled : m.Spelled)
    (has : m.body = some body) :
    ((∃ stop, Analysis.buildGraph m.view = .error (.misplacedBreak stop)) ↔
      Stmt.straysAll body.block ≠ []) ∧
    (∀ fault, Analysis.buildGraph m.view = .error fault →
      ∃ stop ∈ Stmt.straysAll body.block, fault = .misplacedBreak stop) ∧
    (Stmt.straysAll body.block = [] → ∃ g, Analysis.buildGraph m.view = .ok (some g) ∧
      g.errors = (Stmt.exprsAll body.block).filterMap Expr.refusal? ∧
      (g.blocks.filter (·.2.isRefusal)).map (·.2.label) =
        g.errors.map fun reason => "ERROR: " ++ reason.message) := by
  obtain ⟨stops, ends⟩ := buildGraph_reports has
  have faults : ∀ fault, Analysis.buildGraph m.view = .error fault →
      ∃ stop ∈ Stmt.straysAll body.block, fault = .misplacedBreak stop := by
    intro fault failed
    refine (stops fault failed).resolve_right ?_
    rintro ⟨e, inside, is⟩
    rw [Expr.fault?_spelled ((spelled.body body has).block e inside)] at is
    cases is
  refine ⟨⟨?_, fun strays => ?_⟩, faults, fun strayless => ?_⟩
  · rintro ⟨_, failed⟩ strayless
    obtain ⟨stop, inside, _⟩ := faults _ failed
    rw [strayless] at inside
    cases inside
  · cases built : Analysis.buildGraph m.view with
    | error fault =>
      obtain ⟨stop, _, rfl⟩ := faults fault built
      exact ⟨stop, rfl⟩
    | ok graph =>
      obtain ⟨g, _, strayless, _⟩ := ends graph built
      exact absurd strayless strays
  · cases built : Analysis.buildGraph m.view with
    | error fault =>
      obtain ⟨stop, inside, _⟩ := faults fault built
      rw [strayless] at inside
      cases inside
    | ok graph =>
      obtain ⟨g, rfl, _, _, errors⟩ := ends graph built
      refine ⟨g, rfl, errors, ?_⟩
      have shown := Stmt.refusals_bodyBlocks body.block
      rw [← (buildGraph_blocks has built).1] at shown
      rw [errors, List.map_filterMap]
      exact shown

/-- A loop with a refused condition is left before a refused call; behind the same loop a break in a
branch is misplaced. -/
theorem refused_loop_outcome :
    let loop : Stmt := .whileDo (.unary .not (.binary (.place "x") .assign (.place "y")))
      (.block [.leave .start, .expr (.call (.call (.place "f") []) [.place "x"])])
    let m : Method := ⟨⟨"main", [], none⟩, some ⟨none, [loop]⟩⟩
    let n : Method :=
      ⟨⟨"main", [], none⟩, some ⟨none, [loop, .ifThen (.place "x") (.leave .start)]⟩⟩
    m.Spelled ∧ n.Spelled ∧
    (∃ g, Analysis.buildGraph m.view = .ok (some g) ∧
      g.errors = [.nestedAssignment, .notVariable "Имя функции в вызове" "call"] ∧
      (g.blocks.filter (·.2.isRefusal)).map (·.2.label) =
        g.errors.map fun reason => "ERROR: " ++ reason.message) ∧
    ∃ stop, Analysis.buildGraph n.view = .error (.misplacedBreak stop) := by
  intro loop m n
  have signature : Signature.Spelled ⟨"main", [], none⟩ := ⟨rfl, List.forall_mem_nil _, nofun⟩
  have exprs : ∀ e ∈ loop.exprs, e.Spelled :=
    List.forall_mem_cons.mpr
      ⟨⟨rfl, rfl⟩, List.forall_mem_singleton.mpr ⟨⟨rfl, trivial⟩, rfl, trivial⟩⟩
  have spelled : m.Spelled := by
    refine ⟨signature, ?_⟩
    rintro _ ⟨⟩
    exact ⟨nofun, exprs⟩
  have spelled' : n.Spelled := by
    refine ⟨signature, ?_⟩
    rintro _ ⟨⟩
    exact ⟨nofun, List.forall_mem_append.mpr ⟨exprs, List.forall_mem_singleton.mpr rfl⟩⟩
  obtain ⟨g, built, errors, blocks⟩ := (buildGraph_outcome spelled rfl).2.2 rfl
  exact ⟨spelled, spelled', ⟨g, built, errors, blocks⟩,
    (buildGraph_outcome spelled' rfl).1.mpr (List.cons_ne_nil _ _)⟩

/-- In a graph without errors every expression of the method was lowered. -/
theorem buildGraph_lowers {m : Method} {body : Body} {g : Graph} (has : m.body = some body)
    (built : Analysis.buildGraph m.view = .ok (some g)) (quiet : g.errors = []) :
    ∀ e ∈ Stmt.exprsAll body.block, ∃ op, e.operation = .ok op := by
  obtain ⟨_, ⟨⟩, _, sound, errors⟩ := (buildGraph_reports has).2 _ built
  rw [quiet, eq_comm, List.filterMap_eq_nil_iff] at errors
  exact fun e inside => Expr.lowers_of_none (sound e inside) (errors e inside)

/-- In a graph without errors only a block with a tree has a choice to make, also after pruning. -/
theorem prune_choice {m : Method} {body : Body} {g : Graph} (has : m.body = some body)
    (built : Analysis.buildGraph m.view = .ok (some g)) (quiet : g.errors = [])
    {p : BlockId × Block} (inside : p ∈ (g.prune 0 1).blocks) (plain : p.2.tree = none) :
    p.2.succs.length ≤ 1 := by
  obtain ⟨q, kept, rfl⟩ := List.mem_map.mp inside
  have telling := Stmt.telling_bodyBlocks (buildGraph_blocks has built).1
    (buildGraph_lowers has built quiet) q (List.mem_filter.mp kept).1
  cases telling with
  | plain few => exact Nat.le_trans (List.length_filter_le _ _) few
  | choice condition =>
    have absent : q.2.tree = none := plain
    rw [absent] at condition
    cases condition

end MethodLang
