import MethodLang.Fault
import MethodLang.Operation.Basic

/-!
Flow graphs. Blocks are numbered in the order in which they are made and keep that order; an edge
may carry a label, such as the outcome of a condition. Pruning keeps the blocks that the entry
reaches, and the exit.
-/
namespace MethodLang

/-- Blocks made by a graph count from zero; a graph that is given may use any numbers. -/
abbrev BlockId := Int

abbrev Edge := BlockId × Option String

structure Block where
  label : String
  tree : Option Operation
  succs : List Edge
  deriving Repr, Inhabited

/-- `errors` are the expressions that were refused, `calls` the names called, each once. -/
structure Graph where
  blocks : List (BlockId × Block)
  nextId : Nat
  errors : List Refusal
  calls : List String
  deriving Repr, Inhabited

namespace Graph

def empty : Graph := ⟨[], 0, [], []⟩

def block? (g : Graph) (id : BlockId) : Option Block := g.blocks.lookup id

def has (g : Graph) (id : BlockId) : Bool := (g.block? id).isSome

def addBlock (g : Graph) (label : String) (tree : Option Operation) : Graph :=
  { g with blocks := g.blocks ++ [((g.nextId : BlockId), ⟨label, tree, []⟩)], nextId := g.nextId + 1 }

/-- Adds an edge without asking whether its end is a block. -/
def addSucc (g : Graph) (src dst : BlockId) (label : Option String) : Graph :=
  { g with blocks := g.blocks.map fun (id, b) =>
      (id, if id = src then { b with succs := b.succs ++ [(dst, label)] } else b) }

/-- Adds an edge if both of its ends are there. -/
def addEdge (g : Graph) (src dst : Option BlockId) (label : Option String) : Graph :=
  match src, dst with
  | some src, some dst => g.addSucc src dst label
  | _, _ => g

def addCalls (g : Graph) (names : List String) : Graph :=
  let add (calls : List String) (name : String) :=
    if calls.contains name then calls else calls ++ [name]
  { g with calls := names.foldl add g.calls }

def addError (g : Graph) (reason : Refusal) : Graph := { g with errors := g.errors ++ [reason] }

/-- Blocks reached by following edges from those still to visit, added to those already seen. -/
def visit (g : Graph) : Nat → (todo seen : List BlockId) → List BlockId
  | 0, _, seen => seen
  | _, [], seen => seen
  | fuel + 1, id :: todo, seen =>
    if seen.contains id then g.visit fuel todo seen
    else match g.block? id with
      | none => g.visit fuel todo seen
      | some b => g.visit fuel (b.succs.map (·.1) ++ todo) (id :: seen)

/-- Every edge is put on the list of visits at most once, so their number bounds the visits. -/
def reached (g : Graph) (entry : BlockId) : List BlockId :=
  g.visit ((g.blocks.flatMap fun p => p.2.succs).length + 1) [entry] []

def prune (g : Graph) (entry exit : BlockId) : Graph :=
  let reached := g.reached entry
  let kept := g.blocks.filter fun (id, _) => reached.contains id || id == exit
  let ids := kept.map (·.1)
  { g with blocks := kept.map fun (id, b) =>
      (id, { b with succs := b.succs.filter fun (dst, _) => ids.contains dst }) }

end Graph

end MethodLang
