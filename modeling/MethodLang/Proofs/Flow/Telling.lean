import MethodLang.Proofs.Flow.Execution

/-!
What a method's graph tells about its walks. Every block has at most one edge or is a condition
with an edge for each outcome, so a walk can be recovered from what it evaluates
(`Graph.walk_unique`); and every edge leads to a block.
-/
namespace MethodLang

open Blocks

/-- An edge stands for an outcome, and its label, if it has one, says so. -/
def Tells (succs : List Edge) (e : Edge) (o : Bool) : Prop :=
  outcomeOf succs e = some o ∧ ∀ label, e.2 = some label → Text.lower label = outcomeWord o

/-- A block leads on without a choice, or its two edges tell the outcomes of its condition. -/
inductive Block.Telling (b : Block) : Prop where
  | plain (few : b.succs.length ≤ 1) (unlabelled : b.tree.isSome → ∀ e ∈ b.succs, e.2 = none)
  | choice {e f : Edge} {o : Bool} (condition : b.tree.isSome) (edges : b.succs = [e, f])
      (first : Tells [e, f] e o) (second : Tells [e, f] f !o)

theorem tells_labelled {e f : Edge} (dst : BlockId) {label : String} {o : Bool}
    (spells : Text.lower label = outcomeWord o) : Tells [e, f] (dst, some label) o := by
  refine ⟨outcomeOf_labelled spells, ?_⟩
  rintro _ ⟨⟩
  exact spells

theorem Stmt.eq_of_entryLabel {s : Stmt} {label kept : String}
    (entry : s.entryLabel (some label) = some kept) : kept = label := by
  rw [s.entryLabel_some] at entry
  split at entry
  · cases entry
  · exact (Option.some.inj entry).symm

theorem tells_yes (s : Stmt) (dst : BlockId) (f : Edge) :
    Tells [(dst, s.entryLabel (some "True")), f] (dst, s.entryLabel (some "True")) true := by
  refine ⟨outcomeOf_yes s dst f, fun kept entry => ?_⟩
  rw [s.eq_of_entryLabel entry]
  exact lower_outcomes.1

theorem tells_no (s : Stmt) {first dst : Int} {label : Option String} (other : first ≠ dst) :
    Tells [(first, label), (dst, s.entryLabel (some "False"))]
      (dst, s.entryLabel (some "False")) false := by
  refine ⟨outcomeOf_no s other, fun kept entry => ?_⟩
  rw [s.eq_of_entryLabel entry]
  exact lower_outcomes.2.1

theorem telling_plain {text : String} {e : Edge} : (⟨text, none, [e]⟩ : Block).Telling :=
  .plain (Nat.le_refl 1) fun tree => nomatch tree

theorem telling_choice {c : Expr} {op : Operation} {e f : Edge} {o : Bool}
    (lowers : c.operation = .ok op) (first : Tells [e, f] e o) (second : Tells [e, f] f !o) :
    (c.block [e, f]).Telling := by
  rw [Expr.block_of_ok _ lowers]
  exact .choice rfl rfl first second

/-- Blocks that all tell. -/
def Blocks.Telling (bs : Blocks) : Prop := ∀ p ∈ bs, p.2.Telling

theorem telling_cons {id : BlockId} {b : Block} {bs : Blocks} :
    Blocks.Telling ((id, b) :: bs) ↔ b.Telling ∧ Blocks.Telling bs := List.forall_mem_cons

theorem telling_append {bs cs : Blocks} :
    Blocks.Telling (bs ++ cs) ↔ Blocks.Telling bs ∧ Blocks.Telling cs := List.forall_mem_append

theorem telling_nil : Blocks.Telling [] := fun _ hp => nomatch hp

namespace Stmt

theorem telling_blocksAll {body : List Stmt}
    (each : ∀ s ∈ body, (∀ e ∈ s.exprs, ∃ op, e.operation = .ok op) →
      ∀ label start next exit, Blocks.Telling (s.blocks label start next exit))
    (lowers : ∀ e ∈ exprsAll body, ∃ op, e.operation = .ok op) (start next : Int)
    (exit : Option BlockId) : Blocks.Telling (blocksAll start next exit body) := by
  induction body generalizing start with
  | nil => exact telling_nil
  | cons s ss ih =>
    obtain ⟨first, others⟩ := List.forall_mem_append.mp lowers
    exact telling_append.mpr ⟨each s List.mem_cons_self first _ _ _ _,
      ih (fun t ht => each t (List.mem_cons_of_mem s ht)) others _⟩

theorem telling_repetition {s body : Stmt} {c : Expr} {back : Bool}
    (loop : s.repetition? = some (body, c, back)) (lowers : ∃ op, c.operation = .ok op)
    (inner : ∀ label start next exit, Blocks.Telling (body.blocks label start next exit))
    (label : Option String) (start next : Int) (exit : Option BlockId) :
    Blocks.Telling (s.blocks label start next exit) := by
  obtain ⟨op, lowers⟩ := lowers
  have condition := telling_choice (e := (start, some (outcomeWord back)))
    (f := ((start + 1 : Int), some (outcomeWord !back))) lowers
    (tells_labelled _ (lower_outcomeWord back)) (tells_labelled _ (lower_outcomeWord !back))
  rw [blocks_repetition loop, repeatBlocks]
  exact telling_append.mpr ⟨telling_cons.mpr ⟨telling_plain,
    telling_cons.mpr ⟨telling_plain, inner _ _ _ _⟩⟩, telling_cons.mpr ⟨condition, telling_nil⟩⟩

/-- The blocks of a statement whose expressions can be lowered all tell. -/
theorem telling_blocks (s : Stmt) : (∀ e ∈ s.exprs, ∃ op, e.operation = .ok op) →
    ∀ label start next exit, Blocks.Telling (s.blocks label start next exit) := by
  induction s using Stmt.induction with
  | expr e =>
    intro lowers label start next exit
    refine telling_cons.mpr ⟨.plain ?_ ?_, telling_nil⟩
    · simp
    · simp
  | leave stop =>
    intro lowers label start next exit
    refine telling_cons.mpr ⟨.plain ?_ (fun tree => nomatch tree), telling_nil⟩
    cases exit <;> simp
  | block body ih =>
    intro lowers label start next exit
    exact telling_cons.mpr ⟨telling_plain, telling_cons.mpr ⟨telling_plain,
      telling_blocksAll ih lowers _ _ _⟩⟩
  | ifThen c body ih =>
    intro lowers label start next exit
    obtain ⟨⟨op, lowered⟩, inner⟩ := List.forall_mem_cons.mp lowers
    have condition := telling_choice lowered (tells_yes body (start + 1 : Int) _)
      (tells_labelled (start + 1 + body.size : Int) (o := false) lower_outcomes.2.1)
    rw [blocks]
    exact telling_append.mpr ⟨telling_cons.mpr ⟨condition, ih inner _ _ _ _⟩,
      telling_cons.mpr ⟨telling_plain, telling_nil⟩⟩
  | ifElse c body other ihb iho =>
    intro lowers label start next exit
    obtain ⟨⟨op, lowered⟩, inner⟩ := List.forall_mem_cons.mp lowers
    obtain ⟨inner, inner'⟩ := List.forall_mem_append.mp inner
    have apart : (start + 1 : Int) ≠ start + 2 + body.size := by omega
    have condition := telling_choice lowered (tells_yes body (start + 1 : Int) _)
      (tells_no other apart)
    rw [blocks]
    exact telling_append.mpr ⟨telling_cons.mpr ⟨condition, ihb inner _ _ _ _⟩,
      telling_cons.mpr ⟨telling_plain, iho inner' _ _ _ _⟩⟩
  | whileDo c body ih =>
    intro lowers label start next exit
    obtain ⟨⟨op, lowered⟩, inner⟩ := List.forall_mem_cons.mp lowers
    have condition := telling_choice lowered (tells_yes body (start + 2 : Int) _)
      (tells_labelled (start + 1 : Int) (o := false) lower_outcomes.2.2.2)
    exact telling_cons.mpr ⟨condition, telling_cons.mpr ⟨telling_plain, ih inner _ _ _ _⟩⟩
  | repeatWhile body c ih | repeatUntil body c ih =>
    intro lowers
    obtain ⟨inner, condition⟩ := List.forall_mem_append.mp lowers
    exact telling_repetition rfl (condition c List.mem_cons_self) (ih inner)

/-- A place in a numbered run of blocks, or where control goes on, or out of the loop. -/
def Leads (start next : Int) (exit : Option BlockId) (size : Nat) (dst : Int) : Prop :=
  (start ≤ dst ∧ dst < start + size) ∨ dst = next ∨ exit = some dst

def Inside (start next : Int) (exit : Option BlockId) (size : Nat) (bs : Blocks) : Prop :=
  ∀ p ∈ bs, ∀ e ∈ p.2.succs, Leads start next exit size e.1

section Inside

variable {start start' next next' : Int} {exit exit' : Option BlockId} {size size' : Nat}
  {id : BlockId} {b : Block} {bs cs : Blocks}

theorem inside_nil : Inside start next exit size [] := fun _ hp => nomatch hp

theorem inside_cons : Inside start next exit size ((id, b) :: bs) ↔
    (∀ e ∈ b.succs, Leads start next exit size e.1) ∧ Inside start next exit size bs :=
  List.forall_mem_cons

theorem inside_append : Inside start next exit size (bs ++ cs) ↔
    Inside start next exit size bs ∧ Inside start next exit size cs := List.forall_mem_append

theorem Leads.within {dst : Int} (low : start ≤ dst) (high : dst < start + size) :
    Leads start next exit size dst := .inl ⟨low, high⟩

theorem Leads.on : Leads start next exit size next := .inr (.inl rfl)

/-- What stays in a part of the construct stays in the construct. -/
theorem Inside.mono (inside : Inside start' next' exit' size' bs) (low : start ≤ start')
    (high : start' + size' ≤ start + size) (on : Leads start next exit size next')
    (out : ∀ i : Int, exit' = some i → Leads start next exit size i) :
    Inside start next exit size bs := by
  intro p hp e he
  rcases inside p hp e he with ⟨above, below⟩ | same | broke
  · exact .within (Int.le_trans low above) (Int.lt_of_lt_of_le below high)
  · exact same ▸ on
  · exact out e.1 broke

theorem size_pos (s : Stmt) : 0 < s.size := by
  cases s <;> simp only [size] <;> omega

theorem inside_blocksAll {body : List Stmt}
    (each : ∀ s ∈ body, ∀ label start next exit,
      Inside start next exit s.size (s.blocks label start next exit)) :
    ∀ start : Int, Inside start next exit (sizeAll body) (blocksAll start next exit body) := by
  induction body with
  | nil => exact fun _ => inside_nil
  | cons s ss ih =>
    intro start
    have first := each s List.mem_cons_self none start (entryAll (start + s.size) next ss) exit
    have others := ih (fun t ht => each t (List.mem_cons_of_mem s ht)) (start + s.size)
    have entry : Leads start next exit (sizeAll (s :: ss)) (entryAll (start + s.size) next ss) := by
      cases ss with
      | nil => exact .on
      | cons t ts =>
        have positive := t.size_pos
        refine .within (by simp only [entryAll]; omega) ?_
        simp only [entryAll, sizeAll]
        omega
    refine inside_append.mpr ⟨first.mono (by omega) ?_ entry fun i hi => .inr (.inr hi),
      others.mono (by omega) ?_ .on fun i hi => .inr (.inr hi)⟩
    · simp only [sizeAll]
      omega
    · simp only [sizeAll]
      omega

theorem inside_one (text : String) {dst : Int} {label : Option String}
    (leads : Leads start next exit size dst) :
    ∀ e ∈ (⟨text, none, [(dst, label)]⟩ : Block).succs, Leads start next exit size e.1 :=
  List.forall_mem_singleton.mpr leads

theorem inside_choice {c : Expr} {yes no : Int} {onTrue onFalse : Option String}
    (first : Leads start next exit size yes) (second : Leads start next exit size no) :
    ∀ e ∈ (c.block [(yes, onTrue), (no, onFalse)]).succs, Leads start next exit size e.1 := by
  rw [Expr.block_succs]
  exact List.forall_mem_cons.mpr ⟨first, List.forall_mem_singleton.mpr second⟩

theorem inside_repetition {s body : Stmt} {c : Expr} {back : Bool}
    (loop : s.repetition? = some (body, c, back)) (count : s.size = 3 + body.size)
    (ih : ∀ label start next exit,
      Inside start next exit body.size (body.blocks label start next exit))
    (label : Option String) (start next : Int) (exit : Option BlockId) :
    Inside start next exit s.size (s.blocks label start next exit) := by
  have inner := ih label (start + 2) (start + 2 + body.size) (some (start + 1 : Int))
  rw [blocks_repetition loop, repeatBlocks, count]
  refine inside_append.mpr ⟨inside_cons.mpr ⟨inside_one _ (.within ?_ ?_),
    inside_cons.mpr ⟨inside_one _ .on, inner.mono ?_ ?_ (.within ?_ ?_) ?_⟩⟩,
    inside_cons.mpr ⟨inside_choice (.within ?_ ?_) (.within ?_ ?_), inside_nil⟩⟩
  case refine_7 =>
    rintro _ ⟨⟩
    exact .within (by omega) (by omega)
  all_goals omega

end Inside

/-- The edges of a statement's blocks lead to its blocks, on, or out of the loop. -/
theorem inside_blocks (s : Stmt) : ∀ label start next exit,
    Inside start next exit s.size (s.blocks label start next exit) := by
  induction s using Stmt.induction with
  | expr e =>
    intro label start next exit
    refine inside_cons.mpr ⟨?_, inside_nil⟩
    rw [Expr.block_succs]
    exact List.forall_mem_singleton.mpr .on
  | leave stop =>
    intro label start next exit
    refine inside_cons.mpr ⟨fun e he => ?_, inside_nil⟩
    obtain ⟨i, hi, rfl⟩ := List.mem_map.mp he
    exact .inr (.inr (Option.mem_toList.mp hi))
  | block body ih =>
    intro label start next exit
    have inner : Inside (start + 2) (start + 1) exit (sizeAll body) _ := inside_blocksAll ih _
    rw [blocks, size]
    refine inside_cons.mpr ⟨inside_one _ ?_, inside_cons.mpr ⟨inside_one _ .on,
      inner.mono (by omega) (by omega) (.within (by omega) (by omega)) fun i hi => .inr (.inr hi)⟩⟩
    cases body with
    | nil => exact .within (by simp only [entryAll]; omega) (by simp only [entryAll]; omega)
    | cons s ss =>
      have positive := s.size_pos
      refine .within ?_ ?_ <;> simp only [entryAll, sizeAll] <;> omega
  | ifThen c body ih =>
    intro label start next exit
    have positive := body.size_pos
    have inner := ih (.some "True") (start + 1) (start + 1 + body.size) exit
    rw [blocks, size]
    refine inside_append.mpr ⟨inside_cons.mpr ⟨inside_choice (.within ?_ ?_) (.within ?_ ?_),
      inner.mono ?_ ?_ (.within ?_ ?_) fun i hi => .inr (.inr hi)⟩,
      inside_cons.mpr ⟨inside_one _ .on, inside_nil⟩⟩
    all_goals omega
  | ifElse c body other ihb iho =>
    intro label start next exit
    have positive := body.size_pos
    have positive' := other.size_pos
    have inner := ihb (.some "True") (start + 1) (start + 1 + body.size) exit
    have inner' := iho (.some "False") (start + 2 + body.size) (start + 1 + body.size) exit
    rw [blocks, size]
    refine inside_append.mpr ⟨inside_cons.mpr ⟨inside_choice (.within ?_ ?_) (.within ?_ ?_),
      inner.mono ?_ ?_ (.within ?_ ?_) fun i hi => .inr (.inr hi)⟩,
      inside_cons.mpr ⟨inside_one _ .on,
        inner'.mono ?_ ?_ (.within ?_ ?_) fun i hi => .inr (.inr hi)⟩⟩
    all_goals omega
  | whileDo c body ih =>
    intro label start next exit
    have positive := body.size_pos
    have inner := ih (.some "True") (start + 2) start (.some (start + 1 : Int))
    rw [blocks, size]
    refine inside_cons.mpr ⟨inside_choice (.within ?_ ?_) (.within ?_ ?_),
      inside_cons.mpr ⟨inside_one _ .on, inner.mono ?_ ?_ (.within ?_ ?_) ?_⟩⟩
    case refine_9 =>
      rintro _ ⟨⟩
      exact .within (by omega) (by omega)
    all_goals omega
  | repeatWhile body c ih => exact inside_repetition rfl rfl ih
  | repeatUntil body c ih => exact inside_repetition rfl rfl ih

end Stmt

namespace Graph

variable {g : Graph}

/-- Nothing leads on from the last block, so a walk there has arrived. -/
theorem walk_nil_of_final {stop : BlockId} {b : Block} {p : List Step} (walk : g.Walk stop p stop)
    (final : g.block? stop = some b) (empty : b.succs = []) : p = [] := by
  cases walk with
  | nil => rfl
  | cons here taken _ =>
    rw [final] at here
    cases here
    rw [empty] at taken
    cases taken

theorem edge_unique {succs : List Edge} {e f : Edge} (few : succs.length ≤ 1) (he : e ∈ succs)
    (hf : f ∈ succs) : e = f := by
  cases succs with
  | nil => cases he
  | cons x xs =>
    rw [List.length_cons] at few
    obtain rfl : xs = [] := List.eq_nil_of_length_eq_zero (by omega)
    rw [List.mem_singleton.mp he, List.mem_singleton.mp hf]

/-- The outcomes tell which edge was taken. -/
theorem step_unique {a : BlockId} {b : Block} {e f : Edge} {p q : List Step} (telling : b.Telling)
    (here : g.block? a = some b) (he : e ∈ b.succs) (hf : f ∈ b.succs)
    (same : g.trace (⟨a, e⟩ :: p) = g.trace (⟨a, f⟩ :: q)) : e = f ∧ g.trace p = g.trace q := by
  obtain ⟨text, tree, succs⟩ := b
  cases tree with
  | none =>
    rw [trace_pass here, trace_pass here] at same
    cases telling with
    | plain few _ => exact ⟨edge_unique few he hf, same⟩
    | choice condition => cases condition
  | some op =>
    rw [trace_evaluate here, trace_evaluate here, List.cons.injEq, Event.mk.injEq] at same
    obtain ⟨⟨_, outcomes⟩, rest⟩ := same
    refine ⟨?_, rest⟩
    cases telling with
    | plain few _ => exact edge_unique few he hf
    | @choice x y o _ edges first second =>
      replace edges : succs = [x, y] := edges
      subst edges
      simp only [List.mem_cons, List.not_mem_nil, or_false] at he hf
      have apart : outcomeOf [x, y] x ≠ outcomeOf [x, y] y := by
        rw [first.1, second.1]
        cases o <;> simp
      rcases he with rfl | rfl <;> rcases hf with rfl | rfl
      · rfl
      · exact absurd outcomes apart
      · exact absurd outcomes.symm apart
      · rfl

/-- Two walks to the last block that evaluate the same with the same outcomes are the same. -/
theorem walk_unique {a stop : BlockId} {b : Block} {p q : List Step} (telling : Telling g.blocks)
    (final : g.block? stop = some b) (empty : b.succs = []) (first : g.Walk a p stop)
    (second : g.Walk a q stop) (same : g.trace p = g.trace q) : p = q := by
  induction first generalizing q with
  | nil => exact (walk_nil_of_final second final empty).symm
  | cons here taken rest ih =>
    cases second with
    | nil =>
      rw [final] at here
      cases here
      rw [empty] at taken
      cases taken
    | cons here' taken' rest' =>
      rw [here] at here'
      cases here'
      obtain ⟨rfl, onward⟩ := step_unique (telling _ (mem_of_block? here)) here taken taken' same
      rw [ih final rest' onward]

end Graph

namespace Stmt

variable {g : Graph} {body : List Stmt}

theorem bodyBlocks_ids (body : List Stmt) :
    (bodyBlocks body).map (·.1) = countFrom 0 (2 + sizeAll body) := by
  rw [bodyBlocks, List.map_cons, List.map_cons, blocksAll_ids body fun s _ => blocks_ids s,
    countFrom_add]
  rfl

theorem holds_bodyBlocks (built : g.blocks = bodyBlocks body) : g.Holds (bodyBlocks body) := by
  intro p hp
  rw [Graph.block?, built]
  refine lookup_of_nodup ?_ hp
  rw [bodyBlocks_ids]
  exact nodup_countFrom 0 _

theorem closed_bodyBlocks (built : g.blocks = bodyBlocks body) : g.Closed := by
  have holds := holds_bodyBlocks built
  have inner : Inside 2 1 none (sizeAll body) _ := inside_blocksAll (fun s _ => s.inside_blocks) _
  have all : Inside 0 1 none (2 + sizeAll body) (bodyBlocks body) := by
    have last : ∀ e ∈ (⟨"end", none, []⟩ : Block).succs, Leads 0 1 none (2 + sizeAll body) e.1 :=
      List.forall_mem_nil _
    rw [bodyBlocks]
    refine inside_cons.mpr ⟨inside_one _ ?_, inside_cons.mpr ⟨last,
      inner.mono (by omega) (by omega) .on fun i hi => .inr (.inr hi)⟩⟩
    cases body with
    | nil => exact .on
    | cons s ss =>
      have positive := s.size_pos
      refine .within ?_ ?_ <;> simp only [entryAll, sizeAll] <;> omega
  intro p hp e he
  rw [built] at hp
  have target : e.1 ∈ (bodyBlocks body).map (·.1) := by
    rw [bodyBlocks_ids, mem_countFrom]
    rcases all p hp e he with within | same | broke
    · exact within
    · rw [same]
      omega
    · cases broke
  obtain ⟨q, hq, same⟩ := List.mem_map.mp target
  rw [← same, holds q hq]
  rfl

theorem telling_bodyBlocks (built : g.blocks = bodyBlocks body)
    (lowers : ∀ e ∈ exprsAll body, ∃ op, e.operation = .ok op) : Telling g.blocks := by
  rw [built, bodyBlocks]
  refine telling_cons.mpr ⟨telling_plain, telling_cons.mpr ⟨.plain (Nat.zero_le 1) ?_,
    telling_blocksAll (fun s _ => s.telling_blocks) lowers _ _ _⟩⟩
  exact fun _ => List.forall_mem_nil _

end Stmt

end MethodLang
