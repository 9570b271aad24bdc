import MethodLang.Grammar.Node
import MethodLang.Tree.Basic

/-!
The view of a parse node: a labelled tree whose notes are positions. A node is labelled with the
field it fills or else its kind; a token's text stands in double quotes. Argument lists that the
source leaves empty get a node of their own, so a call, an indexer and a signature always have
one.
-/
namespace MethodLang

/-- A node of a view knows where its parse node stops; an inserted list has no parse node. -/
abbrev View := Tree (Option Position)

namespace Node

/-- Fields that the view shows under another name. -/
def shownField (name : String) : String :=
  if name = "list_argDef" then "list<argDef>"
  else if name = "list_identifier" then "list<identifier>"
  else if name = "statment_block" then "statment.block"
  else if name = "listExpr" then "list<expr>"
  else name

/-- Kinds of leaves that keep a node of their own above the text. -/
def tokenKinds : List String :=
  ["identifier", "bin_op", "str", "char", "hex", "bits", "dec", "un_op", "builtin"]

/-- The list that a kind of node must have, and the sign behind which it stands. -/
def requiredList (kind : String) : Option (String × String) :=
  if kind = "funcSignature" then some ("list_argDef", "(")
  else if kind = "call_expression" then some ("listExpr", "(")
  else if kind = "indexer" then some ("listExpr", "[")
  else none

def heading (isRoot : Bool) (n : Node) : String :=
  match n.field with
  | some name => if isRoot || name.isEmpty then shownField n.kind else shownField name
  | none => shownField n.kind

def quotedText (n : Node) : String := "\"" ++ n.text.getD "None" ++ "\""

/-- The sign behind which an empty list goes, if the node needs one and has none. -/
def emptyList? (kind : String) (children : List Node) : Option (String × String) :=
  match requiredList kind with
  | none => none
  | some (field, sign) =>
    if children.any (fun c => c.field == some field) then none else some (shownField field, sign)

/-- Views of children, with an empty list put behind the first child of the given kind. -/
def withEmptyList (list : Option (String × String)) : List (Node × View) → List View
  | [] => []
  | (child, view) :: rest =>
    match list with
    | some (label, sign) =>
      if child.kind = sign then view :: .node label none [] :: rest.map (·.2)
      else view :: withEmptyList list rest
    | none => view :: rest.map (·.2)

mutual
def viewIn (isRoot : Bool) : Node → View
  | .mk kind field text missing error stop [] =>
    let n := Node.mk kind field text missing error stop []
    if kind ∈ tokenKinds then
      .node (n.heading isRoot) (some stop) [.node n.quotedText (some stop) []]
    else if isRoot then .node (n.heading isRoot) (some stop) []
    else .node n.quotedText (some stop) []
  | .mk kind field text missing error stop (c :: cs) =>
    let n := Node.mk kind field text missing error stop []
    .node (n.heading isRoot) (some stop)
      (withEmptyList (emptyList? kind (c :: cs)) (viewAll (c :: cs)))

def viewAll : List Node → List (Node × View)
  | [] => []
  | n :: ns => (n, n.viewIn false) :: viewAll ns
end

def view (n : Node) : View := n.viewIn true

inductive Flaw where
  | missing (kind : String) (stop : Position)
  | error (stop : Position)
  deriving DecidableEq, Repr

def Flaw.message : Flaw → String
  | .missing kind stop =>
    "Error: missing element \"" ++ kind ++ "\" in end point " ++ stop.text
  | .error stop => "Error: incorrect in end point " ++ stop.text

mutual
/-- The marks of a node and of those below it, in reading order. -/
def flaws : Node → List Flaw
  | .mk kind _ _ missing error stop children =>
    (if missing then [.missing kind stop] else []) ++ (if error then [.error stop] else []) ++
      flawsAll children

def flawsAll : List Node → List Flaw
  | [] => []
  | n :: ns => n.flaws ++ flawsAll ns
end

end Node

end MethodLang
