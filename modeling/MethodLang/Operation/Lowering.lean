import MethodLang.Fault
import MethodLang.Operation.Basic
import MethodLang.View

/-!
Lowering of viewed expressions to operation trees. Parentheses leave no trace. An assignment is
the root of its tree; anywhere deeper it is refused.
-/
namespace MethodLang

namespace Operation

variable {α : Type}

/-- The variable that an expression consists of. -/
def variableOf (role : String) (t : Tree α) : Except Fault String :=
  if t.label ≠ "expr" then .error (.refused (.notExpression role t.label))
  else match t.children with
    | [] => .error (.refused (.emptyExpression role))
    | inner :: _ =>
      if inner.label ≠ "place" then .error (.refused (.notVariable role inner.label))
      else match inner.children with
        | [] => .error (.refused (.emptyVariable role))
        | name :: _ => .ok (Text.unquote name.label)

/-- The operation itself, unless an assignment stands in it. -/
def withoutStore (op : Operation) : Except Fault Operation :=
  if hasStore op then .error (.refused .nestedAssignment) else .ok op

def allWithoutStore (ops : List Operation) : Except Fault (List Operation) :=
  if ops.any hasStore then .error (.refused .nestedAssignment) else .ok ops

/-- The ways in which one node can be read, of which its parent chooses. -/
structure Reading where
  /-- As an expression: the form below it. -/
  expr : Except Fault Operation
  /-- As the form inside an expression. -/
  form : Except Fault Operation
  /-- As a list of expressions. -/
  items : Except Fault (List Operation)
  /-- As the left side of an assignment of the given value. -/
  target : Operation → Except Fault Operation
  /-- As the form inside the left side of an assignment. -/
  targetForm : Operation → Except Fault Operation

abbrev Readings (α : Type) := List (Tree α × Reading)

def child (kids : Readings α) (i : Nat) : Except Fault (Tree α × Reading) :=
  match kids[i]? with
  | some kid => .ok kid
  | none => .error .missingChild

/-- The text of a node's first child, without quotes. -/
def firstText (t : Tree α) : Except Fault String :=
  match t.children with
  | [] => .error .missingChild
  | c :: _ => .ok (Text.unquote c.label)

def lowerPlace (kids : Readings α) : Except Fault Operation := do
  let (name, _) ← child kids 0
  .ok (leaf ("load(" ++ Text.unquote name.label ++ ")"))

def lowerLiteral (kids : Readings α) : Except Fault Operation := do
  let (kind, _) ← child kids 0
  let text ← firstText kind
  .ok (leaf ("const(" ++ kind.label ++ "(" ++ text ++ "))"))

def lowerBraces (kids : Readings α) : Except Fault Operation := do
  let (_, inner) ← child kids 1
  inner.expr

def lowerUnary (kids : Readings α) : Except Fault Operation := do
  let (sign, _) ← child kids 0
  let op ← firstText sign
  let (_, operand) ← child kids 1
  let operand ← operand.expr
  let operand ← withoutStore operand
  .ok (make op [operand])

def lowerBinary (kids : Readings α) : Except Fault Operation := do
  let (_, left) ← child kids 0
  let (sign, _) ← child kids 1
  let (_, right) ← child kids 2
  let op ← firstText sign
  if op = ":=" then do
    let value ← right.expr
    let value ← withoutStore value
    left.target value
  else do
    let l ← left.expr
    let r ← right.expr
    let l ← withoutStore l
    let r ← withoutStore r
    .ok (make op [l, r])

/-- Each index is applied to the result of those before it. -/
def indexed (name : String) (indices : List Operation) : Operation :=
  indices.foldl (fun base i => make "index" [base, i]) (leaf ("load(" ++ name ++ "[])"))

def lowerIndexer (kids : Readings α) : Except Fault Operation := do
  let (base, _) ← child kids 0
  let (_, list) ← child kids 2
  let name ← variableOf "База индексатора" base
  let indices ← list.items
  let indices ← allWithoutStore indices
  .ok (indexed name indices)

def lowerCall (kids : Readings α) : Except Fault Operation := do
  let (callee, _) ← child kids 0
  let (_, list) ← child kids 2
  let name ← variableOf "Имя функции в вызове" callee
  let args ← list.items
  let args ← allWithoutStore args
  .ok (make ("call(" ++ name ++ ")") args)

def lowerForm (label : String) (kids : Readings α) : Except Fault Operation :=
  if label = "place" then lowerPlace kids
  else if label = "literal" then lowerLiteral kids
  else if label = "braces" then lowerBraces kids
  else if label = "unary" then lowerUnary kids
  else if label = "binary" then lowerBinary kids
  else if label = "indexer" then lowerIndexer kids
  else if label = "call" then lowerCall kids
  else .error (.unknownExpression label)

/-- The expressions among the children, in order; anything else is passed over. -/
def lowerItems (label : String) (kids : Readings α) : Except Fault (List Operation) :=
  if Text.occursIn "(empty)".toList label.toList then .ok []
  else (kids.filter fun (t, _) => t.label == "expr").mapM fun (_, reading) => reading.expr

def lowerTargetIndexer (kids : Readings α) (value : Operation) : Except Fault Operation := do
  let (base, _) ← child kids 0
  let (_, list) ← child kids 2
  let name ← variableOf "База индексатора в присваивании" base
  let indices ← list.items
  if indices.isEmpty then .error (.refused .noIndices)
  else do
    let indices ← allWithoutStore indices
    .ok (make ("store_at(" ++ name ++ ")") (indices ++ [value]))

def lowerTargetForm (label : String) (kids : Readings α) (value : Operation) :
    Except Fault Operation :=
  if label = "place" then do
    let (name, _) ← child kids 0
    .ok (make ("store(" ++ Text.unquote name.label ++ ")") [value])
  else if label = "indexer" then lowerTargetIndexer kids value
  else .error (.refused (.notAssignable label))

def lowerTarget (label : String) (kids : Readings α) (value : Operation) :
    Except Fault Operation :=
  match kids with
  | [] => .error (.refused .targetNotExpression)
  | (_, inner) :: _ =>
    if label ≠ "expr" then .error (.refused .targetNotExpression) else inner.targetForm value

def readNode (label : String) (_ : α) (kids : Readings α) : Reading where
  expr := do
    let (_, inner) ← child kids 0
    inner.form
  form := lowerForm label kids
  items := lowerItems label kids
  target := lowerTarget label kids
  targetForm := lowerTargetForm label kids

def reading (t : Tree α) : Reading := t.compute readNode

/-- The operation of a viewed expression. -/
def ofExpr (t : Tree α) : Except Fault Operation := (reading t).expr

/-- The operations of a viewed list of expressions. -/
def ofList (t : Tree α) : Except Fault (List Operation) := (reading t).items

end Operation

end MethodLang
