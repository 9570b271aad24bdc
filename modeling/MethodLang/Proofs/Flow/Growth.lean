import MethodLang.Program.Analysis
import MethodLang.Proofs.Flow.Fragment

/-!
Building leaves the blocks that `Stmt.blocks` describes. A statement adds its blocks behind those
that are there, and one edge to the block it comes after; nothing else changes.
-/
namespace MethodLang

namespace Blocks

/-- All ids are less than a given one. -/
def Below (n : Int) (bs : Blocks) : Prop := ∀ i : Int, i ∈ bs.map (·.1) → i < n

variable {src : Option BlockId} {e : Edge} {bs cs : Blocks} {m n : Int}

theorem Below.link (below : Below n bs) : Below n (link src e bs) := by
  rw [Below, link_map_fst]
  exact below

/-- An edge from a later block changes nothing. -/
theorem Below.link_eq (below : Below n bs) (later : ∀ i : Int, src = some i → n ≤ i) :
    Blocks.link src e bs = bs := by
  apply link_of_forall_ne
  intro p hp same
  have less := below p.1 (List.mem_map_of_mem hp)
  have more := later p.1 same
  omega

end Blocks

open Blocks Build

/-- Every block of the graph was made by it. -/
def Graph.Counted (g : Graph) : Prop := Below g.nextId g.blocks

theorem Graph.addEdge_blocks (g : Graph) (src : Option BlockId) (dst : BlockId)
    (label : Option String) :
    (g.addEdge src (some dst) label).blocks = link src (dst, label) g.blocks := by
  cases src <;> rfl

theorem Graph.addEdge_nextId (g : Graph) (src dst : Option BlockId) (label : Option String) :
    (g.addEdge src dst label).nextId = g.nextId := by
  cases src <;> cases dst <;> rfl

theorem Expr.block_snoc (e : Expr) (succs : List Edge) (edge : Edge) :
    { e.block succs with succs := (e.block succs).succs ++ [edge] } =
      e.block (succs ++ [edge]) := by
  unfold Expr.block
  split <;> rfl

/-- A new block behind another, after a step that touches no block. -/
theorem newBlock_blocks {f : Graph → Graph} {text : String} {tree : Option Operation}
    {before : Option BlockId} {label : Option String} {g g' : Graph} {id : BlockId}
    (run : (do
      modify f
      let id ← newBlock text tree
      edge before (some id) label
      pure id : Build BlockId).run g = (.ok id, g'))
    (blocks : (f g).blocks = g.blocks) (nextId : (f g).nextId = g.nextId)
    (earlier : ∀ i : Int, before = some i → i < g.nextId) :
    id = g.nextId ∧ g'.nextId = g.nextId + 1 ∧
      g'.blocks = link before (id, label) g.blocks ++ [(id, ⟨text, tree, []⟩)] := by
  simp only [bind_ok, modify_ok, newBlock_ok, edge_ok, pure_ok] at run
  obtain ⟨_, _, rfl, _, _, ⟨rfl, rfl⟩, _, _, rfl, rfl, rfl⟩ := run
  refine ⟨by rw [nextId], ?_, ?_⟩
  · rw [Graph.addEdge_nextId]
    exact congrArg (· + 1) nextId
  · have other : before ≠ some ((f g).nextId : BlockId) := by
      intro same
      have := earlier _ same
      omega
    rw [Graph.addEdge_blocks]
    simp only [Graph.addBlock, link_append, blocks, link_cons_of_ne other, link_nil]

theorem Expr.block_of_ok (e : Expr) {op : Operation} {succs : List Edge}
    (lowers : e.operation = .ok op) : e.block succs = ⟨op.draw .box, some op, succs⟩ := by
  rw [Expr.block, lowers]

theorem Expr.block_of_refused (e : Expr) {reason : Refusal} {succs : List Edge}
    (refused : e.operation = .error (.refused reason)) :
    e.block succs = ⟨"ERROR: " ++ reason.message, none, succs⟩ := by
  rw [Expr.block, refused]

/-- What laying an expression leaves. -/
theorem expression_blocks {e : Expr} {before : Option BlockId} {label : Option String}
    {g g' : Graph} {id : BlockId} (run : (expression e.view before label).run g = (.ok id, g'))
    (earlier : ∀ i : Int, before = some i → i < g.nextId) :
    id = g.nextId ∧ g'.nextId = g.nextId + 1 ∧
      g'.blocks = link before (id, label) g.blocks ++ [(id, e.block [])] := by
  unfold expression at run
  simp only [e.view_label, if_true] at run
  split at run
  · rename_i op lowered
    rw [e.block_of_ok lowered]
    exact newBlock_blocks run rfl rfl earlier
  · rename_i reason refused
    rw [e.block_of_refused refused]
    exact newBlock_blocks run rfl rfl earlier
  · exact absurd run throw_ok

mutual
/-- Whether a break of the statement leads out of it. -/
def Stmt.escapes : Stmt → Bool
  | .leave _ => true
  | .block body => Stmt.escapesAny body
  | .ifThen _ body => body.escapes
  | .ifElse _ body other => body.escapes || other.escapes
  | _ => false

def Stmt.escapesAny : List Stmt → Bool
  | [] => false
  | s :: ss => s.escapes || Stmt.escapesAny ss
end

/-- What laying a statement leaves: `before` has one edge more, and the new blocks are those of
the statement as soon as control goes on somewhere. Where a break has nowhere to go, there is
none. -/
structure Lays (s : Stmt) (before : Option BlockId) (label : Option String)
    (exit : Option BlockId) (g : Graph) (reached : Option BlockId) (g' : Graph) : Prop where
  nextId : g'.nextId = g.nextId + s.size
  ends : reached = s.last? g.nextId
  blocks : ∀ next : Int, link reached (next, none) g'.blocks =
    link before (g.nextId, s.entryLabel label) g.blocks ++ s.blocks label g.nextId next exit
  contained : exit = none → s.escapes = false

theorem Lays.counted {s : Stmt} {before : Option BlockId} {label : Option String}
    {exit : Option BlockId} {g g' : Graph} {reached : Option BlockId}
    (lays : Lays s before label exit g reached g') (counted : g.Counted) : g'.Counted := by
  have ids := congrArg (List.map (·.1)) (lays.blocks 0)
  rw [link_map_fst, List.map_append, link_map_fst, Stmt.blocks_ids] at ids
  intro i hi
  rw [ids, List.mem_append] at hi
  rw [lays.nextId]
  rcases hi with old | new
  · have := counted i old
    omega
  · have := mem_countFrom.mp new
    omega

/-- Wherever it is laid, the statement lays what it should. -/
def Stmt.LaysWell (s : Stmt) : Prop :=
  ∀ ⦃before label exit g reached g'⦄,
    (statement s.view before label exit).run g = (.ok reached, g') → g.Counted →
    (∀ i : Int, before = some i → i < g.nextId) → Lays s before label exit g reached g'

theorem Stmt.last?_inside {s : Stmt} {start i : Int} (last : s.last? start = some i) :
    start ≤ i ∧ i < start + s.size := by
  cases s <;> simp only [Stmt.last?, Option.some.injEq, reduceCtorEq] at last <;> subst last <;>
    simp only [Stmt.size] <;> omega

theorem Lays.reached_lt {s : Stmt} {before : Option BlockId} {label : Option String}
    {exit : Option BlockId} {g g' : Graph} {reached : Option BlockId}
    (lays : Lays s before label exit g reached g') (i : Int) (at_i : reached = some i) :
    g.nextId ≤ i ∧ i < g'.nextId := by
  have inside := Stmt.last?_inside (lays.ends ▸ at_i)
  have size := lays.nextId
  omega

theorem Stmt.entryLabel_none (s : Stmt) : s.entryLabel none = none := by cases s <;> rfl

/-- What laying the statements of a block leaves. -/
theorem statements_blocks {body : List Stmt} {exit : Option BlockId}
    (each : ∀ s ∈ body, s.LaysWell)
    {before reached : Option BlockId} {g g' : Graph}
    (run : (statements body before exit).run g = (.ok reached, g')) (counted : g.Counted)
    (earlier : ∀ i : Int, before = some i → i < g.nextId) :
    g'.nextId = g.nextId + Stmt.sizeAll body ∧
      (∀ i : Int, reached = some i → i < g'.nextId) ∧
      (∀ next : Int, link reached (next, none) g'.blocks =
        link before (Stmt.entryAll g.nextId next body, none) g.blocks ++
          Stmt.blocksAll g.nextId next exit body) ∧
      (exit = none → Stmt.escapesAny body = false) := by
  induction body generalizing before g with
  | nil =>
    simp only [statements, List.map_nil, Build.sequence, pure_ok] at run
    obtain ⟨rfl, rfl⟩ := run
    exact ⟨rfl, earlier, fun next => by simp [Stmt.entryAll, Stmt.blocksAll], fun _ => rfl⟩
  | cons s ss ih =>
    simp only [statements, List.map_cons, Build.sequence, bind_ok] at run
    obtain ⟨between, h, first, rest⟩ := run
    have lays := each s List.mem_cons_self first counted earlier
    obtain ⟨size, inside, blocks, contained⟩ :=
      ih (fun t ht => each t (List.mem_cons_of_mem s ht)) rest (lays.counted counted)
        (fun i hi => (lays.reached_lt i hi).2)
    have start : (h.nextId : Int) = g.nextId + s.size := by
      rw [lays.nextId]
      push_cast
      rfl
    refine ⟨by rw [size, lays.nextId, Stmt.sizeAll]; omega, inside, fun next => ?_, fun absent => by
      rw [Stmt.escapesAny, lays.contained absent, contained absent, Bool.or_false]⟩
    rw [blocks next, lays.blocks, s.entryLabel_none, start, List.append_assoc]
    rfl

variable {before : Option BlockId} {label : Option String} {exit : Option BlockId}
  {g g' : Graph} {reached : Option BlockId}

theorem Blocks.link_cons_ne {i id : Int} {e : Edge} {b : Block} {bs : Blocks} (ne : i ≠ id) :
    link (some i) e ((id, b) :: bs) = (id, b) :: link (some i) e bs :=
  link_cons_of_ne fun same => ne (Option.some.inj same)

theorem Stmt.link_blocks {i start next : Int} {e : Edge} {s : Stmt} {label : Option String}
    {exit : Option BlockId} (outside : i < start ∨ start + s.size ≤ i) :
    link (some i) e (s.blocks label start next exit) = s.blocks label start next exit :=
  link_of_ids (blocks_ids s label start next exit) (by rintro _ ⟨⟩; exact outside)

theorem Stmt.link_blocksAll {i start next : Int} {e : Edge} {body : List Stmt}
    {exit : Option BlockId} (outside : i < start ∨ start + sizeAll body ≤ i) :
    link (some i) e (blocksAll start next exit body) = blocksAll start next exit body :=
  link_of_ids (blocksAll_ids body (fun s _ => blocks_ids s) start next exit)
    (by rintro _ ⟨⟩; exact outside)

theorem Graph.Counted.addBlock {text : String} {tree : Option Operation} (counted : g.Counted) :
    (g.addBlock text tree).Counted := by
  intro i hi
  rw [Graph.addBlock, List.map_append, List.mem_append] at hi
  have last : (g.addBlock text tree).nextId = g.nextId + 1 := rfl
  rcases hi with old | new
  · have := counted i old
    omega
  · have : i = g.nextId := List.mem_singleton.mp new
    omega

theorem Graph.Counted.addEdge {src : Option BlockId} {dst : BlockId} (counted : g.Counted) :
    (g.addEdge src (some dst) label).Counted := by
  rw [Graph.Counted, Graph.addEdge_nextId, Graph.addEdge_blocks]
  exact Below.link counted

theorem expression_counted {e : Expr} {id : BlockId}
    (run : (expression e.view before label).run g = (.ok id, g'))
    (counted : g.Counted) (earlier : ∀ i : Int, before = some i → i < g.nextId) : g'.Counted := by
  obtain ⟨rfl, nextId, blocks⟩ := expression_blocks run earlier
  intro i hi
  rw [blocks, List.map_append, link_map_fst, List.mem_append] at hi
  rw [nextId]
  rcases hi with old | new
  · have := counted i old
    omega
  · have : i = g.nextId := List.mem_singleton.mp new
    omega

/-- The blocks that were there have no edge from a later one. -/
theorem Graph.Counted.untouched (counted : g.Counted) {i : Int} {e : Edge} (later : g.nextId ≤ i) :
    link (some i) e g.blocks = g.blocks :=
  Below.link_eq counted (by rintro _ ⟨⟩; exact later)

theorem Graph.Counted.link_eq (counted : g.Counted) {i : Int} {e f : Edge} (later : g.nextId ≤ i) :
    link (some i) e (link before f g.blocks) = link before f g.blocks :=
  (Below.link counted).link_eq (by rintro _ ⟨⟩; exact later)

theorem laysWell_ifThen {c : Expr} {body : Stmt} (ih : body.LaysWell) :
    (Stmt.ifThen c body).LaysWell := by
  intro before label exit g reached g' run counted earlier
  simp only [statement_ifThen, bind_ok, newBlock_ok, edge_ok, pure_ok] at run
  obtain ⟨id, g₁, condition, r, g₂, inner, _, _, ⟨rfl, rfl⟩, _, _, rfl, _, _, rfl, rfl, rfl⟩ := run
  have counted₁ := expression_counted condition counted earlier
  obtain ⟨rfl, next₁, blocks₁⟩ := expression_blocks condition earlier
  have lays := ih inner counted₁ (by rintro _ ⟨⟩; omega)
  have start₁ : (g₁.nextId : Int) = g.nextId + 1 := by omega
  have start₂ : (g₂.nextId : Int) = g.nextId + 1 + body.size := by rw [lays.nextId]; omega
  have apart : r ≠ some (g₂.nextId : Int) := by
    intro same
    have := (lays.reached_lt _ same).2
    omega
  constructor
  · simp only [Graph.addEdge_nextId, Graph.addBlock, Stmt.size]
    omega
  · simp only [Stmt.last?, start₂]
  · intro next
    simp only [Graph.addEdge_blocks, Graph.addBlock, link_append, lays.blocks,
      link_cons_of_ne apart, link_nil, blocks₁]
    simp (disch := omega) only [start₂, start₁, link_cons_self, link_cons_ne, link_nil,
      counted.link_eq, Stmt.link_blocks, Expr.block_snoc, Stmt.blocks, List.nil_append,
      List.cons_append, List.append_assoc]
    rfl
  · exact lays.contained

theorem laysWell_ifElse {c : Expr} {body other : Stmt} (ihb : body.LaysWell)
    (iho : other.LaysWell) : (Stmt.ifElse c body other).LaysWell := by
  intro before label exit g reached g' run counted earlier
  simp only [statement_ifElse, bind_ok, newBlock_ok, edge_ok, pure_ok] at run
  obtain ⟨id, g₁, condition, r, g₂, inner, _, _, ⟨rfl, rfl⟩, _, _, rfl, r', g₃, second, _, _, rfl,
    rfl, rfl⟩ := run
  have counted₁ := expression_counted condition counted earlier
  obtain ⟨rfl, next₁, blocks₁⟩ := expression_blocks condition earlier
  have lays := ihb inner counted₁ (by rintro _ ⟨⟩; omega)
  have lays' := iho second (lays.counted counted₁).addBlock.addEdge (by
    rintro _ ⟨⟩
    simp only [Graph.addEdge_nextId, Graph.addBlock, lays.nextId]
    omega)
  have start₁ : (g₁.nextId : Int) = g.nextId + 1 := by omega
  have start₂ : (g₂.nextId : Int) = g.nextId + 1 + body.size := by rw [lays.nextId]; omega
  have apart : r ≠ some (g₂.nextId : Int) := by
    intro same
    have := (lays.reached_lt _ same).2
    omega
  have next₃ := lays'.nextId
  simp only [Graph.addEdge_nextId, Graph.addBlock] at next₃
  constructor
  · simp only [Graph.addEdge_nextId, Stmt.size]
    omega
  · simp only [Stmt.last?, start₂]
  · intro next
    simp only [Graph.addEdge_blocks, lays'.blocks, Graph.addEdge_nextId, Graph.addBlock,
      link_append, lays.blocks, link_cons_of_ne apart, link_nil, blocks₁]
    push_cast
    have start₃ : (g.nextId : Int) + 1 + body.size + 1 = g.nextId + 2 + body.size := by omega
    simp (disch := omega) only [start₂, start₁, start₃, link_cons_self, link_cons_ne, link_nil,
      counted.link_eq, Stmt.link_blocks, Expr.block_snoc, Stmt.blocks, List.nil_append,
      List.cons_append, List.append_assoc]
    rfl
  · intro absent
    rw [Stmt.escapes, lays.contained absent, lays'.contained absent, Bool.or_false]

theorem laysWell_whileDo {c : Expr} {body : Stmt} (ih : body.LaysWell) :
    (Stmt.whileDo c body).LaysWell := by
  intro before label exit g reached g' run counted earlier
  simp only [statement_whileDo, bind_ok, newBlock_ok, edge_ok, pure_ok] at run
  obtain ⟨id, g₁, condition, _, _, ⟨rfl, rfl⟩, r, g₂, inner, _, _, rfl, _, _, rfl, rfl, rfl⟩ := run
  have counted₁ := expression_counted condition counted earlier
  obtain ⟨rfl, next₁, blocks₁⟩ := expression_blocks condition earlier
  have lays := ih inner counted₁.addBlock (by
    rintro _ ⟨⟩
    simp only [Graph.addBlock]
    omega)
  have start₁ : (g₁.nextId : Int) = g.nextId + 1 := by omega
  have next₂ := lays.nextId
  simp only [Graph.addBlock] at next₂
  constructor
  · simp only [Graph.addEdge_nextId, Stmt.size]
    omega
  · simp only [Stmt.last?, start₁]
  · intro next
    simp only [Graph.addEdge_blocks, lays.blocks, Graph.addBlock, link_append, blocks₁]
    push_cast
    have start₂ : (g.nextId : Int) + 1 + 1 = g.nextId + 2 := by omega
    simp (disch := omega) only [start₁, start₂, link_cons_self, link_cons_ne, link_nil,
      counted.link_eq, Stmt.link_blocks, Expr.block_snoc, Stmt.blocks, List.nil_append,
      List.cons_append, List.append_assoc]
    rfl
  · intro _
    rfl

/-- Both repetitions at once: they differ only in the outcomes that the condition's edges name. -/
theorem repeat_blocks {back leave : String} {body : Stmt} {c : Expr} (ih : body.LaysWell)
    (run : (repeatSteps before label back leave body c).run g = (.ok reached, g'))
    (counted : g.Counted) (earlier : ∀ i : Int, before = some i → i < g.nextId) :
    g'.nextId = g.nextId + (3 + body.size) ∧ reached = some (g.nextId + 1 : Int) ∧
      ∀ next : Int, link reached (next, none) g'.blocks =
        link before (g.nextId, none) g.blocks ++
          Stmt.repeatBlocks label g.nextId next back leave body c
            (body.blocks label (g.nextId + 2) (g.nextId + 2 + body.size)
              (some (g.nextId + 1 : Int))) := by
  simp only [repeatSteps, bind_ok, newBlock_ok, edge_ok, pure_ok] at run
  obtain ⟨_, _, ⟨rfl, rfl⟩, _, _, ⟨rfl, rfl⟩, r, g₁, inner, id, g₂, condition, _, _, rfl, _, _, rfl,
    _, _, rfl, rfl, rfl⟩ := run
  have lays := ih inner counted.addBlock.addBlock (by
    rintro _ ⟨⟩
    simp only [Graph.addBlock]
    omega)
  have next₁ := lays.nextId
  obtain ⟨rfl, next₂, blocks₂⟩ :=
    expression_blocks condition fun i hi => (lays.reached_lt i hi).2
  simp only [Graph.addBlock] at next₁
  have start₁ : (g₁.nextId : Int) = g.nextId + 2 + body.size := by omega
  refine ⟨by simp only [Graph.addEdge_nextId]; omega, rfl, fun next => ?_⟩
  have fromOutside : ∀ (e : Edge) (id : Int) (b : Block) (bs : Blocks), g.nextId ≤ id →
      link before e ((id, b) :: bs) = (id, b) :: link before e bs := by
    intro e id b bs later
    apply link_cons_of_ne
    intro same
    have := earlier _ same
    omega
  have bodyBlocks : ∀ e : Edge, link before e
      (body.blocks label (g.nextId + 2) (g.nextId + 2 + body.size) (some (g.nextId + 1 : Int))) =
      body.blocks label (g.nextId + 2) (g.nextId + 2 + body.size) (some (g.nextId + 1 : Int)) := by
    intro e
    apply link_of_ids (Stmt.blocks_ids body _ _ _ _)
    intro i hi
    have := earlier i hi
    omega
  simp only [Graph.addEdge_blocks, blocks₂, lays.blocks, Graph.addBlock, link_append]
  push_cast
  have start₂ : (g.nextId : Int) + 1 + 1 = g.nextId + 2 := by omega
  simp (disch := omega) only [start₁, start₂, link_cons_self, link_cons_ne, link_nil,
    counted.link_eq, counted.untouched, fromOutside, bodyBlocks, Stmt.link_blocks,
    Expr.block_snoc, List.nil_append, List.cons_append, List.append_assoc]
  simp only [Stmt.repeatBlocks, List.cons_append]

theorem laysWell_leave (stop : Position) : (Stmt.leave stop).LaysWell := by
  intro before label exit g reached g' run counted earlier
  simp only [statement_leave, bind_ok, newBlock_ok, edge_ok] at run
  obtain ⟨_, _, ⟨rfl, rfl⟩, _, _, rfl, _, _, rfl, run⟩ := run
  cases exit with
  | none => exact absurd run throw_ok
  | some exit =>
    obtain ⟨rfl, rfl⟩ := pure_ok.mp run
    have apart : before ≠ some (g.nextId : Int) := by
      intro same
      have := earlier _ same
      omega
    refine ⟨by simp only [Graph.addEdge_nextId, Graph.addBlock, Stmt.size], rfl, fun next => ?_,
      fun absent => nomatch absent⟩
    simp only [Graph.addEdge_blocks, Graph.addBlock, link_append, link_cons_self,
      counted.untouched (Int.le_refl _), link_cons_of_ne apart, link_nil]
    rfl

theorem laysWell_expr (e : Expr) : (Stmt.expr e).LaysWell := by
  intro before label exit g reached g' run counted earlier
  simp only [statement_expr, map_eq_pure_bind, bind_ok, pure_ok] at run
  obtain ⟨id, h, expr, rfl, rfl⟩ := run
  obtain ⟨rfl, nextId, blocks⟩ := expression_blocks expr earlier
  refine ⟨nextId, rfl, fun next => ?_, fun _ => rfl⟩
  simp (disch := omega) only [blocks, link_append, link_cons_self, link_nil, counted.link_eq,
    Expr.block_snoc]
  rfl

theorem laysWell_block {body : List Stmt} (ih : ∀ s ∈ body, s.LaysWell) :
    (Stmt.block body).LaysWell := by
  intro before label exit g reached g' run counted earlier
  simp only [statement_block, layBlock_blockViews, bind_ok, newBlock_ok, edge_ok, pure_ok] at run
  obtain ⟨_, _, ⟨rfl, rfl⟩, _, _, ⟨rfl, rfl⟩, _, _, rfl, r, g₁, inner, _, _, rfl, rfl, rfl⟩ := run
  obtain ⟨size, _, blocks, contained⟩ := statements_blocks ih inner counted.addBlock.addBlock.addEdge (by
    rintro _ ⟨⟩
    simp only [Graph.addEdge_nextId, Graph.addBlock]
    omega)
  simp only [Graph.addEdge_nextId, Graph.addBlock] at size
  have first : before ≠ some (g.nextId : Int) := by
    intro same
    have := earlier _ same
    omega
  have second : before ≠ some ((g.nextId + 1 : Nat) : Int) := by
    intro same
    have := earlier _ same
    omega
  constructor
  · simp only [Graph.addEdge_nextId, Stmt.size]
    omega
  · simp only [Stmt.last?, Graph.addBlock]
    push_cast
    rfl
  · intro next
    have start₂ : (g.nextId : Int) + 1 + 1 = g.nextId + 2 := by omega
    simp only [Graph.addEdge_blocks, blocks, Graph.addEdge_nextId, Graph.addBlock, link_append,
      link_cons_of_ne first, link_cons_of_ne second, link_nil]
    push_cast
    simp (disch := omega) only [start₂, link_cons_self, link_cons_ne, link_nil, counted.link_eq,
      Stmt.link_blocksAll, Stmt.blocks, List.nil_append, List.cons_append, List.append_assoc]
    rfl
  · exact contained

/-- Wherever a statement is laid, it lays what it should. -/
theorem laysWell (s : Stmt) : s.LaysWell := by
  induction s using Stmt.induction with
  | expr e => exact laysWell_expr e
  | leave stop => exact laysWell_leave stop
  | block body ih => exact laysWell_block ih
  | ifThen c body ih => exact laysWell_ifThen ih
  | ifElse c body other ihb iho => exact laysWell_ifElse ihb iho
  | whileDo c body ih => exact laysWell_whileDo ih
  | repeatWhile body c ih | repeatUntil body c ih =>
    intro before label exit g reached g' run counted earlier
    obtain ⟨nextId, ends, blocks⟩ := repeat_blocks ih run counted earlier
    exact ⟨nextId, ends, blocks, fun _ => rfl⟩

/-- The blocks of a method's body, entry and exit first. -/
def Stmt.bodyBlocks (body : List Stmt) : Blocks :=
  (0, ⟨"begin", none, [(entryAll 2 1 body, none)]⟩) :: (1, ⟨"end", none, []⟩) ::
    blocksAll 2 1 none body

/-- Building the graph of a method lays its body behind nothing. -/
theorem buildGraph_run {m : Method} {body : Body} {g : Graph} (has : m.body = some body)
    (built : Analysis.buildGraph m.view = .ok (some g)) :
    ∃ reached, (layBlock ((blockViews body.block).map fun t => (t, layers t)) none none none).run
      .empty = (.ok reached, g) := by
  obtain ⟨first, signature, before, view⟩ := Method.view_body has
  have unfolded : Analysis.buildGraph m.view = (do
      let g ← Graph.ofBlock (.node "statment.block" (some .start) (blockViews body.block))
      .ok (some g)) := by
    rw [view]
    simp [Analysis.buildGraph, Analysis.child, Analysis.lastChild, Bind.bind, Except.bind]
  rw [unfolded] at built
  cases laid : Graph.ofBlock (.node "statment.block" (some .start) (blockViews body.block)) with
  | error fault =>
    rw [laid] at built
    cases built
  | ok g' =>
    rw [laid] at built
    cases built
    unfold Graph.ofBlock at laid
    split at laid
    next reached g' run =>
      cases laid
      exact ⟨reached, run⟩
    next => cases laid

/-- What building a method's graph leaves, if nothing stops it: no break leads out of the method. -/
theorem buildGraph_blocks {m : Method} {body : Body} {g : Graph} (has : m.body = some body)
    (built : Analysis.buildGraph m.view = .ok (some g)) :
    g.blocks = Stmt.bodyBlocks body.block ∧ Stmt.escapesAny body.block = false := by
  obtain ⟨reached, run⟩ := buildGraph_run has built
  simp only [layBlock_blockViews, bind_ok, newBlock_ok, edge_ok, pure_ok] at run
  obtain ⟨_, _, ⟨rfl, rfl⟩, _, _, ⟨rfl, rfl⟩, _, _, rfl, r, g₁, inner, _, _, rfl, rfl, rfl⟩ := run
  have counted : Graph.empty.Counted := fun i hi => nomatch hi
  obtain ⟨_, _, blocks, contained⟩ :=
    statements_blocks (fun s _ => laysWell s) inner counted.addBlock.addBlock (by
      rintro _ ⟨⟩
      simp only [Graph.addEdge_nextId, Graph.addBlock, Graph.empty]
      omega)
  rw [Graph.addEdge_blocks]
  exact ⟨blocks 1, contained rfl⟩

end MethodLang
