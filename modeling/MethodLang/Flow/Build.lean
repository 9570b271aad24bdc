import MethodLang.Flow.Graph
import MethodLang.Operation.Lowering
import MethodLang.Tree.Drawing

/-!
Flow graphs of statements. What was built before a fault stays built.
-/
namespace MethodLang

/-- A step of building: the graph so far is kept even if the step stops. -/
abbrev Build := ExceptT Fault (StateM Graph)

namespace Build

def newBlock (label : String) (tree : Option Operation) : Build BlockId := do
  let g ← get
  set (g.addBlock label tree)
  pure g.nextId

def edge (src dst : Option BlockId) (label : Option String) : Build Unit :=
  modify fun g => g.addEdge src dst label

variable {α : Type}

/-- A block for an expression. A refused expression gets a block that shows the reason. -/
def expression (t : Tree α) (before : Option BlockId) (label : Option String) : Build BlockId := do
  let op :=
    if t.label = "expr" then Operation.ofExpr t
    else match t.children with
      | [] => .error .missingChild
      | c :: _ => Operation.ofExpr c
  let id ←
    match op with
    | .ok op => do
      modify fun g => g.addCalls (Operation.calledNames op)
      newBlock (op.draw .box) (some op)
    | .error (.refused reason) => do
      modify fun g => g.addError reason
      newBlock ("ERROR: " ++ reason.message) none
    | .error fault => throw fault
  edge before (some id) label
  pure id

/-- Lays a statement behind a block, reached by an edge with the given label; a break goes to
`exit`. Answers the block from which control goes on, if it goes on. -/
abbrev Layer := (before : Option BlockId) → (label : Option String) → (exit : Option BlockId) →
  Build (Option BlockId)

/-- The ways in which one node can be laid, of which its parent chooses. -/
structure Layers where
  /-- As a statement: the construct below it. -/
  statement : Layer
  /-- As the construct that its label names. -/
  construct : Layer

abbrev Kids (α : Type) := List (Tree α × Layers)

def child (kids : Kids α) (i : Nat) : Build (Tree α × Layers) :=
  match kids[i]? with
  | some kid => pure kid
  | none => throw .missingChild

/-- Statements one behind the other. -/
def sequence : List Layers → (before exit : Option BlockId) → Build (Option BlockId)
  | [], before, _ => pure before
  | s :: rest, before, exit => do
    let next ← s.statement before none exit
    sequence rest next exit

/-- The children between the first and the last two are the statements of a block. -/
def layBlock (kids : Kids α) : Layer := fun before label exit => do
  let first ← newBlock "begin" none
  let last ← newBlock "end" none
  edge before (some first) label
  let statements := (kids.take (kids.length - 2)).drop 1
  let reached ← sequence (statements.map (·.2)) (some first) exit
  edge reached (some last) none
  pure (some last)

def layIf (kids : Kids α) : Layer := fun before label exit => do
  let (condition, _) ← child kids 1
  let condition ← expression condition before label
  let (_, body) ← child kids 3
  let reached ← body.statement (some condition) (some "True") exit
  let last ← newBlock "end_if" none
  edge reached (some last) none
  if kids.length = 4 then edge (some condition) (some last) (some "False")
  else do
    let (_, other) ← child kids 5
    let reached ← other.statement (some condition) (some "False") exit
    edge reached (some last) none
  pure (some last)

def layWhile (kids : Kids α) : Layer := fun before label _ => do
  let (condition, _) ← child kids 1
  let condition ← expression condition before label
  let last ← newBlock "end_while" none
  let (_, body) ← child kids 3
  let reached ← body.statement (some condition) (some "True") (some last)
  edge reached (some condition) none
  edge (some condition) (some last) (some "false")
  pure (some last)

def layRepeat (kids : Kids α) : Layer := fun before label _ => do
  let first ← newBlock "start_repeat" none
  let last ← newBlock "end_repeat" none
  let (_, body) ← child kids 1
  let reached ← body.statement (some first) label (some last)
  let (condition, _) ← child kids 3
  let condition ← expression condition reached none
  edge before (some first) none
  let (word, _) ← child kids 2
  let onTrue := word.label = "\"while\""
  edge (some condition) (some first) (some (if onTrue then "true" else "false"))
  edge (some condition) (some last) (some (if onTrue then "false" else "true"))
  pure (some last)

def layBreak (stop : Option Position) : Layer := fun before label exit => do
  let id ← newBlock "break" none
  edge (some id) exit none
  edge before (some id) label
  match exit, stop with
  | some _, _ => pure none
  | none, some stop => throw (.misplacedBreak stop)
  | none, none => throw .unplacedBreak

/-- A node whose note is the position of its end, if that is known. -/
def layNode (label : String) (stop : Option Position)
    (kids : Kids (Option Position)) : Layers where
  statement := fun before edgeLabel exit => do
    let (_, inner) ← child kids 0
    inner.construct before edgeLabel exit
  construct :=
    if label = "block" then layBlock kids
    else if label = "expression" then fun before edgeLabel _ =>
      some <$> expression (.node label stop (kids.map (·.1))) before edgeLabel
    else if label = "if" then layIf kids
    else if label = "while" then layWhile kids
    else if label = "do" then layRepeat kids
    else if label = "break" then layBreak stop
    else fun _ _ _ => throw (.unknownStatement label)

def layers (t : View) : Layers := t.compute layNode

def kidsOf (t : View) : Kids (Option Position) := t.children.map fun c => (c, layers c)

def block (t : View) : Layer := layBlock (kidsOf t)

def branch (t : View) : Layer := layIf (kidsOf t)

def whileLoop (t : View) : Layer := layWhile (kidsOf t)

def repeatLoop (t : View) : Layer := layRepeat (kidsOf t)

def statement (t : View) : Layer := (layers t).statement

end Build

/-- The graph of a method's block, and the outcome of building it. -/
def Graph.ofBlock (t : View) : Except Fault Graph :=
  match (Build.block t none none none).run .empty with
  | (.ok _, g) => .ok g
  | (.error fault, _) => .error fault

end MethodLang
