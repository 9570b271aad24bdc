import MethodLang.Machine.Method
import MethodLang.Proofs.Flow.Growth

/-!
The labels of branches. Code for a choice looks for one edge that is named true and one that is
named false. Every choice of a method's graph has them if and only if no repetition stands
directly as a branch of an `if` or as the body of a `while`: a repetition gives the label meant
for the edge into it to an edge of its own.
-/
namespace MethodLang

/-- A block that leaves a choice has two edges, named true and false in whichever order. -/
def Block.Decided (b : Block) : Prop :=
  1 < b.succs.length → b.succs.map (fun e => e.2.map Text.lower) ∈
    [[some "true", some "false"], [some "false", some "true"]]

instance (b : Block) : Decidable b.Decided :=
  inferInstanceAs (Decidable (_ → _))

theorem lower_outcomes : Text.lower "True" = "true" ∧ Text.lower "False" = "false" ∧
    Text.lower "true" = "true" ∧ Text.lower "false" = "false" := by decide

@[simp] theorem Expr.block_succs (e : Expr) (succs : List Edge) : (e.block succs).succs = succs := by
  unfold Expr.block
  split <;> rfl

namespace Stmt

def isRepeat : Stmt → Bool
  | .repeatWhile _ _ | .repeatUntil _ _ => true
  | _ => false

mutual
/-- No repetition stands directly as a branch of an `if` or as the body of a `while`. -/
def sheltered : Stmt → Bool
  | .expr _ | .leave _ => true
  | .block body => shelteredAll body
  | .ifThen _ body | .whileDo _ body => !body.isRepeat && body.sheltered
  | .ifElse _ body other =>
    !body.isRepeat && !other.isRepeat && (body.sheltered && other.sheltered)
  | .repeatWhile body _ | .repeatUntil body _ => body.sheltered

def shelteredAll : List Stmt → Bool
  | [] => true
  | s :: ss => s.sheltered && shelteredAll ss
end

theorem entryLabel_some (s : Stmt) (label : String) :
    s.entryLabel (some label) = if s.isRepeat then none else some label := by
  cases s <;> rfl

end Stmt

/-- Blocks that all decide. -/
def Blocks.Decided (bs : Blocks) : Prop := ∀ p ∈ bs, p.2.Decided

namespace Blocks

variable {id : BlockId} {b : Block} {bs cs : Blocks}

theorem decided_nil : Decided [] := fun _ hp => nomatch hp

theorem decided_cons : Decided ((id, b) :: bs) ↔ b.Decided ∧ Decided bs := List.forall_mem_cons

theorem decided_append : Decided (bs ++ cs) ↔ Decided bs ∧ Decided cs := List.forall_mem_append

/-- With at most one edge there is nothing to decide. -/
theorem decided_of_le (few : b.succs.length ≤ 1) : b.Decided := fun more => by omega

theorem decided_single {text : String} {e : Edge} : (⟨text, none, [e]⟩ : Block).Decided :=
  decided_of_le (Nat.le_refl 1)

theorem decided_choice {c : Expr} {yes no : BlockId} {onTrue onFalse : Option String} :
    (c.block [(yes, onTrue), (no, onFalse)]).Decided ↔
      [onTrue.map Text.lower, onFalse.map Text.lower] ∈
        [[some "true", some "false"], [some "false", some "true"]] := by
  simp [Block.Decided]

end Blocks

open Blocks

theorem Stmt.decided_blocksAll {body : List Stmt}
    (each : ∀ s ∈ body, ∀ label start next exit,
      Decided (s.blocks label start next exit) ↔ s.sheltered = true)
    (start next : Int) (exit : Option BlockId) :
    Decided (blocksAll start next exit body) ↔ shelteredAll body = true := by
  induction body generalizing start with
  | nil => exact iff_of_true decided_nil rfl
  | cons s ss ih =>
    rw [blocksAll, decided_append, each s List.mem_cons_self,
      ih fun t ht => each t (List.mem_cons_of_mem s ht), shelteredAll, Bool.and_eq_true]

theorem Stmt.decided_repeatBlocks {label : Option String} {start next : Int} {back leave : String}
    {body : Stmt} {c : Expr} {inner : Blocks}
    (named : [some (Text.lower back), some (Text.lower leave)] ∈
      [[some "true", some "false"], [some "false", some "true"]]) :
    Decided (repeatBlocks label start next back leave body c inner) ↔ Decided inner := by
  have condition : (c.block [(start, some back), ((start + 1 : Int), some leave)]).Decided :=
    decided_choice.mpr named
  simp only [repeatBlocks, decided_cons, decided_append, List.cons_append, condition, decided_nil,
    decided_single, and_true, true_and]

/-- The blocks of a statement all decide just if the statement shelters its repetitions. -/
theorem Stmt.decided_blocks (s : Stmt) : ∀ label start next exit,
    Decided (s.blocks label start next exit) ↔ s.sheltered = true := by
  obtain ⟨lowerTrue, lowerFalse, lower_true, lower_false⟩ := lower_outcomes
  induction s using Stmt.induction with
  | expr e =>
    intro label start next exit
    refine iff_of_true (decided_cons.mpr ⟨decided_of_le ?_, decided_nil⟩) rfl
    simp
  | leave stop =>
    intro label start next exit
    refine iff_of_true (decided_cons.mpr ⟨decided_of_le ?_, decided_nil⟩) rfl
    cases exit <;> simp
  | block body ih =>
    intro label start next exit
    simp only [blocks, decided_cons, decided_single, true_and, decided_blocksAll ih, sheltered]
  | ifThen c body ih =>
    intro label start next exit
    simp only [blocks, List.cons_append, decided_cons, decided_append, decided_choice,
      decided_single, decided_nil, and_true, ih, sheltered, entryLabel_some]
    cases body.isRepeat <;> simp [lowerTrue, lowerFalse]
  | ifElse c body other ihb iho =>
    intro label start next exit
    simp only [blocks, List.cons_append, decided_cons, decided_append, decided_choice,
      decided_single, true_and, ihb, iho, sheltered, entryLabel_some]
    cases body.isRepeat <;> cases other.isRepeat <;> simp [lowerTrue, lowerFalse]
  | whileDo c body ih =>
    intro label start next exit
    simp only [blocks, decided_cons, decided_choice, decided_single, true_and, ih, sheltered,
      entryLabel_some]
    cases body.isRepeat <;> simp [lowerTrue, lower_false]
  | repeatWhile body c ih | repeatUntil body c ih =>
    intro label start next exit
    rw [blocks, decided_repeatBlocks (by simp [lower_true, lower_false]), ih, sheltered]

/-- The choices of a method's graph have one edge for each outcome if and only if the method
shelters its repetitions. -/
theorem buildGraph_decided_iff {m : Method} {body : Body} {g : Graph} (has : m.body = some body)
    (built : Analysis.buildGraph m.view = .ok (some g)) :
    (∀ p ∈ g.blocks, p.2.Decided) ↔ Stmt.shelteredAll body.block = true := by
  have exit : (⟨"end", none, []⟩ : Block).Decided := decided_of_le (Nat.zero_le 1)
  rw [(buildGraph_blocks has built).1]
  change Decided (Stmt.bodyBlocks body.block) ↔ _
  rw [Stmt.bodyBlocks, decided_cons, decided_cons,
    Stmt.decided_blocksAll fun s _ => s.decided_blocks]
  exact ⟨fun all => all.2.2, fun all => ⟨decided_single, exit, all⟩⟩

/-! ### Numbers of edges -/

/-- Blocks with at most two edges each. -/
def Blocks.Narrow (bs : Blocks) : Prop := ∀ p ∈ bs, p.2.succs.length ≤ 2

namespace Blocks

theorem narrow_nil : Narrow [] := fun _ inside => nomatch inside

theorem narrow_cons {id : BlockId} {b : Block} {bs : Blocks} :
    Narrow ((id, b) :: bs) ↔ b.succs.length ≤ 2 ∧ Narrow bs := List.forall_mem_cons

theorem narrow_append {bs cs : Blocks} : Narrow (bs ++ cs) ↔ Narrow bs ∧ Narrow cs :=
  List.forall_mem_append

end Blocks

theorem Stmt.narrow_blocksAll {body : List Stmt}
    (each : ∀ s ∈ body, ∀ label start next exit, Narrow (s.blocks label start next exit))
    (start next : Int) (exit : Option BlockId) : Narrow (blocksAll start next exit body) := by
  induction body generalizing start with
  | nil => exact narrow_nil
  | cons s ss ih =>
    obtain ⟨first, rest⟩ := List.forall_mem_cons.mp each
    exact narrow_append.mpr ⟨first none start _ exit, ih rest _⟩

/-- No block of a statement has more than two edges. -/
theorem Stmt.narrow_blocks (s : Stmt) : ∀ label start next exit,
    Narrow (s.blocks label start next exit) := by
  induction s using Stmt.induction with
  | expr e => simp [blocks, narrow_cons, narrow_nil]
  | leave stop =>
    intro label start next exit
    cases exit <;> simp [blocks, narrow_cons, narrow_nil]
  | block body ih => simp [blocks, narrow_cons, narrow_blocksAll ih]
  | ifThen c body ih => simp [blocks, narrow_cons, narrow_append, narrow_nil, ih]
  | ifElse c body other ihb iho => simp [blocks, narrow_cons, narrow_append, ihb, iho]
  | whileDo c body ih => simp [blocks, narrow_cons, ih]
  | repeatWhile body c ih | repeatUntil body c ih =>
    simp [blocks, repeatBlocks, narrow_cons, narrow_append, narrow_nil, ih]

theorem buildGraph_narrow {m : Method} {body : Body} {g : Graph} (has : m.body = some body)
    (built : Analysis.buildGraph m.view = .ok (some g)) : Narrow g.blocks := by
  rw [(buildGraph_blocks has built).1, Stmt.bodyBlocks]
  simp [narrow_cons, Stmt.narrow_blocksAll fun s _ => s.narrow_blocks]

/-- A block around the repetition is enough for every choice to be decided. -/
theorem blocked_repeat_decided :
    ∃ g, Analysis.buildGraph (Method.view ⟨⟨"main", [], none⟩, some ⟨none,
        [.ifThen (.literal .bool "true")
          (.block [.repeatUntil (.block []) (.literal .bool "true")])]⟩⟩) = .ok (some g) ∧
      ∀ p ∈ g.blocks, p.2.Decided := by
  refine Exists.imp (fun g built => ⟨built, ?_⟩) ⟨_, rfl⟩
  exact (buildGraph_decided_iff rfl built).mpr (by decide)

/-- A repetition that is itself the branch leaves the choice above it undecided. -/
theorem bare_repeat_undecided :
    ∃ g, Analysis.buildGraph (Method.view ⟨⟨"main", [], none⟩, some ⟨none,
        [.ifThen (.literal .bool "true")
          (.repeatUntil (.block []) (.literal .bool "true"))]⟩⟩) = .ok (some g) ∧
      ¬ ∀ p ∈ g.blocks, p.2.Decided := by
  refine ⟨_, rfl, ?_⟩
  decide

end MethodLang
