import MethodLang.Proofs.Flow.Laying

/-!
The blocks of a statement in closed form. Building grows one graph step by step and adds an edge
when both of its ends are known; what it leaves behind depends only on where a statement starts,
where control goes on, and where a break leads. `Stmt.blocks` says what that is, by recursion on
the statement, and `statement_blocks` that building leaves exactly that.
-/
namespace MethodLang

abbrev Blocks := List (BlockId × Block)

namespace Blocks

/-- Adds an edge to the block it starts from, if there is one. -/
def link (src : Option BlockId) (e : Edge) (blocks : Blocks) : Blocks :=
  match src with
  | none => blocks
  | some src => blocks.map fun (id, b) =>
      (id, if id = src then { b with succs := b.succs ++ [e] } else b)

variable {src : Option BlockId} {e : Edge} {id : BlockId} {b : Block} {bs cs : Blocks}

@[simp] theorem link_nil : link src e [] = [] := by cases src <;> rfl

@[simp] theorem link_append : link src e (bs ++ cs) = link src e bs ++ link src e cs := by
  cases src <;> simp [link]

@[simp] theorem link_cons_self :
    link (some id) e ((id, b) :: bs) =
      (id, { b with succs := b.succs ++ [e] }) :: link (some id) e bs := by
  simp [link]

theorem link_cons_of_ne (other : src ≠ some id) :
    link src e ((id, b) :: bs) = (id, b) :: link src e bs := by
  cases src with
  | none => rfl
  | some i =>
    have different : id ≠ i := fun h => other (h ▸ rfl)
    simp [link, different]

/-- An edge from elsewhere changes nothing. -/
theorem link_of_forall_ne (other : ∀ p ∈ bs, src ≠ some p.1) : link src e bs = bs := by
  induction bs with
  | nil => exact link_nil
  | cons p ps ih =>
    rw [link_cons_of_ne (other p List.mem_cons_self),
      ih fun q hq => other q (List.mem_cons_of_mem p hq)]

theorem link_map_fst : (link src e bs).map (·.1) = bs.map (·.1) := by
  cases src <;> simp [link, Function.comp_def]

end Blocks

/-- The operation that an expression is lowered to, or why it is not. -/
def Expr.operation (e : Expr) : Except Fault Operation := Operation.ofExpr e.view

/-- The block of an expression. One that is refused shows the reason. -/
def Expr.block (e : Expr) (succs : List Edge) : Block :=
  match e.operation with
  | .ok op => ⟨op.draw .box, some op, succs⟩
  | .error (.refused reason) => ⟨"ERROR: " ++ reason.message, none, succs⟩
  | .error _ => ⟨"", none, succs⟩

namespace Stmt

mutual
/-- The number of blocks of a statement. -/
def size : Stmt → Nat
  | .expr _ | .leave _ => 1
  | .block body => 2 + sizeAll body
  | .ifThen _ body | .whileDo _ body => 2 + body.size
  | .ifElse _ body other => 2 + body.size + other.size
  | .repeatWhile body _ | .repeatUntil body _ => 3 + body.size

def sizeAll : List Stmt → Nat
  | [] => 0
  | s :: ss => s.size + sizeAll ss
end

/-- The label of the edge into a statement. A repetition keeps none and hands it to its body. -/
def entryLabel (label : Option String) : Stmt → Option String
  | .repeatWhile _ _ | .repeatUntil _ _ => none
  | _ => label

/-- Where control comes to statements that start at a block and lead to another. -/
def entryAll (start next : Int) : List Stmt → Int
  | [] => next
  | _ :: _ => start

/-- Where control goes on from a statement that starts at a block, if it does. -/
def last? (start : Int) : Stmt → Option BlockId
  | .expr _ => some start
  | .leave _ => none
  | .block _ | .whileDo _ _ | .repeatWhile _ _ | .repeatUntil _ _ => some (start + 1)
  | .ifThen _ body | .ifElse _ body _ => some (start + 1 + body.size : Int)

/-- The blocks of a repetition around those of its body; `back` is the outcome that repeats. -/
def repeatBlocks (label : Option String) (start next : Int) (back leave : String)
    (body : Stmt) (c : Expr) (inner : Blocks) : Blocks :=
  (start, ⟨"start_repeat", none, [((start + 2 : Int), body.entryLabel label)]⟩) ::
    (start + 1, ⟨"end_repeat", none, [(next, none)]⟩) :: inner ++
    [(start + 2 + body.size, c.block [(start, some back), ((start + 1 : Int), some leave)])]

mutual
/-- The blocks of a statement that starts at `start`. Control goes on to `next`, a break goes to
`exit`, and `label` is meant for the edge into the statement. -/
def blocks (label : Option String) (start next : Int) (exit : Option BlockId) :
    Stmt → Blocks
  | .expr e => [(start, e.block [(next, none)])]
  | .leave _ => [(start, ⟨"break", none, exit.toList.map (·, none)⟩)]
  | .block body =>
    (start, ⟨"begin", none, [(entryAll (start + 2) (start + 1) body, none)]⟩) ::
      (start + 1, ⟨"end", none, [(next, none)]⟩) ::
      blocksAll (start + 2) (start + 1) exit body
  | .ifThen c body =>
    (start, c.block [((start + 1 : Int), body.entryLabel (some "True")),
        ((start + 1 + body.size : Int), some "False")]) ::
      body.blocks (some "True") (start + 1) (start + 1 + body.size) exit ++
      [(start + 1 + body.size, ⟨"end_if", none, [(next, none)]⟩)]
  | .ifElse c body other =>
    (start, c.block [((start + 1 : Int), body.entryLabel (some "True")),
        ((start + 2 + body.size : Int), other.entryLabel (some "False"))]) ::
      body.blocks (some "True") (start + 1) (start + 1 + body.size) exit ++
      (start + 1 + body.size, ⟨"end_if", none, [(next, none)]⟩) ::
      other.blocks (some "False") (start + 2 + body.size) (start + 1 + body.size) exit
  | .whileDo c body =>
    (start, c.block [((start + 2 : Int), body.entryLabel (some "True")),
        ((start + 1 : Int), some "false")]) ::
      (start + 1, ⟨"end_while", none, [(next, none)]⟩) ::
      body.blocks (some "True") (start + 2) start (some (start + 1 : Int))
  | .repeatWhile body c =>
    repeatBlocks label start next "true" "false" body c
      (body.blocks label (start + 2) (start + 2 + body.size) (some (start + 1 : Int)))
  | .repeatUntil body c =>
    repeatBlocks label start next "false" "true" body c
      (body.blocks label (start + 2) (start + 2 + body.size) (some (start + 1 : Int)))

/-- The blocks of statements one behind the other. -/
def blocksAll (start next : Int) (exit : Option BlockId) : List Stmt → Blocks
  | [] => []
  | s :: ss =>
    s.blocks none start (entryAll (start + s.size) next ss) exit ++
      blocksAll (start + s.size) next exit ss
end

end Stmt

/-- The given number of ids, one behind the other. -/
def countFrom (start : Int) : Nat → List BlockId
  | 0 => []
  | n + 1 => start :: countFrom (start + 1) n

theorem countFrom_add (start : Int) (m n : Nat) :
    countFrom start (m + n) = countFrom start m ++ countFrom (start + m) n := by
  induction m generalizing start with
  | zero => simp [countFrom]
  | succ m ih =>
    rw [Nat.succ_add, countFrom, countFrom, ih, List.cons_append]
    congr 3
    push_cast
    omega

theorem countFrom_succ (start : Int) (n : Nat) :
    countFrom start (n + 1) = countFrom start n ++ [start + n] :=
  countFrom_add start n 1

theorem length_countFrom (start : Int) (n : Nat) : (countFrom start n).length = n := by
  induction n generalizing start with
  | zero => rfl
  | succ n ih => rw [countFrom, List.length_cons, ih]

theorem mem_countFrom {start i : Int} {n : Nat} :
    i ∈ countFrom start n ↔ start ≤ i ∧ i < start + n := by
  induction n generalizing start with
  | zero => simp [countFrom]
  | succ n ih => rw [countFrom, List.mem_cons, ih]; omega

theorem nodup_countFrom (start : Int) (n : Nat) : (countFrom start n).Nodup := by
  induction n generalizing start with
  | zero => exact List.nodup_nil
  | succ n ih =>
    rw [countFrom, List.nodup_cons, mem_countFrom]
    exact ⟨by omega, ih _⟩

namespace Stmt

theorem blocksAll_ids (body : List Stmt)
    (ih : ∀ s ∈ body, ∀ label start next exit,
      (s.blocks label start next exit).map (·.1) = countFrom start s.size)
    (start next : Int) (exit : Option BlockId) :
    (blocksAll start next exit body).map (·.1) = countFrom start (sizeAll body) := by
  induction body generalizing start with
  | nil => rfl
  | cons s ss rest =>
    rw [blocksAll, List.map_append, ih s List.mem_cons_self, sizeAll, countFrom_add,
      rest fun t ht => ih t (List.mem_cons_of_mem s ht)]

theorem repeatBlocks_ids {label : Option String} {start next : Int} {back leave : String}
    {body : Stmt} {c : Expr} {inner : Blocks}
    (ih : inner.map (·.1) = countFrom (start + 2) body.size) :
    (repeatBlocks label start next back leave body c inner).map (·.1) =
      countFrom start (3 + body.size) := by
  have count : 3 + body.size = body.size + 1 + 1 + 1 := by omega
  have third : start + 1 + 1 = start + 2 := by omega
  rw [count, countFrom, countFrom, third, countFrom_succ, ← ih]
  simp [repeatBlocks]

/-- The blocks of a statement are numbered from its start on, without a gap. -/
theorem blocks_ids (s : Stmt) : ∀ label start next exit,
    (s.blocks label start next exit).map (·.1) = countFrom start s.size := by
  induction s using Stmt.induction with
  | expr e => intro label start next exit; rfl
  | leave stop => intro label start next exit; rfl
  | block body ih =>
    intro label start next exit
    rw [blocks, List.map_cons, List.map_cons, blocksAll_ids body ih, size, countFrom_add]
    rfl
  | ifThen c body ih =>
    intro label start next exit
    have count : size (.ifThen c body) = body.size + 1 + 1 := by simp only [size]; omega
    rw [count, countFrom, countFrom_succ, ← ih (some "True") (start + 1) (start + 1 + body.size) exit]
    simp [blocks]
  | ifElse c body other ihb iho =>
    intro label start next exit
    have count : size (.ifElse c body other) = body.size + (other.size + 1) + 1 := by
      simp only [size]; omega
    have second : start + 1 + body.size + 1 = start + 2 + body.size := by omega
    rw [count, countFrom, countFrom_add, countFrom, second,
      ← ihb (some "True") (start + 1) (start + 1 + body.size) exit,
      ← iho (some "False") (start + 2 + body.size) (start + 1 + body.size) exit]
    simp [blocks]
  | whileDo c body ih =>
    intro label start next exit
    rw [blocks, List.map_cons, List.map_cons, ih, size, countFrom_add]
    rfl
  | repeatWhile body c ih | repeatUntil body c ih =>
    intro label start next exit
    exact repeatBlocks_ids (ih _ _ _ _)

end Stmt

/-- An edge from outside a numbered run of blocks starts in none of them. -/
theorem Blocks.link_of_ids {src : Option BlockId} {e : Edge} {bs : Blocks} {start : Int} {n : Nat}
    (ids : bs.map (·.1) = countFrom start n)
    (outside : ∀ i : Int, src = some i → i < start ∨ start + n ≤ i) : link src e bs = bs := by
  apply link_of_forall_ne
  intro p hp same
  have inside : p.1 ∈ countFrom start n := by
    rw [← ids]
    exact List.mem_map_of_mem hp
  have within := mem_countFrom.mp inside
  have apart := outside p.1 same
  omega

end MethodLang
