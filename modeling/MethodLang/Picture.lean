import MethodLang.Text.Identifier

/-!
Pictures of graphs: boxes and arrows in the order in which they are drawn, and their text in the
DOT language.
-/
namespace MethodLang

structure Picture where
  name : String
  /-- Box names and the labels in them. -/
  boxes : List (String × String)
  /-- From, to, and a label that may be missing. -/
  arrows : List (String × String × Option String)
  deriving DecidableEq, Repr

namespace Picture

/-- Words of the DOT language, which stand in quotes when they are names. -/
def reservedWords : List String := ["node", "edge", "graph", "digraph", "subgraph", "strict"]

/-- Digits with at most one point among them, behind an optional minus sign. -/
def isNumeral (cs : List Char) : Bool :=
  let unsigned := match cs with
    | '-' :: rest => rest
    | rest => rest
  let whole := unsigned.takeWhile Char.isDigit
  match unsigned.dropWhile Char.isDigit with
  | [] => !whole.isEmpty
  | '.' :: places => places.all Char.isDigit && !(whole.isEmpty && places.isEmpty)
  | _ => false

/-- A name or label, bare where the language allows it. Inside quotes only the quote itself is
changed. -/
def dotText (s : String) : String :=
  let cs := s.toList
  if (Text.isIdentifier cs && !reservedWords.contains (String.ofList (cs.map Char.toLower))) ||
      isNumeral cs then s
  else "\"" ++ String.ofList (cs.flatMap fun c => if c == '"' then ['\\', '"'] else [c]) ++ "\""

def dotBox (box : String × String) : String :=
  "\t" ++ dotText box.1 ++ " [label=" ++ dotText box.2 ++ "]\n"

def dotArrow (arrow : String × String × Option String) : String :=
  let label := match arrow.2.2 with
    | some label => " [label=" ++ dotText label ++ "]"
    | none => ""
  "\t" ++ dotText arrow.1 ++ " -> " ++ dotText arrow.2.1 ++ label ++ "\n"

def dot (p : Picture) : String :=
  "digraph " ++ p.name ++ " \x7b\n\tnode [shape=box]\n" ++
    String.join (p.boxes.map dotBox) ++ String.join (p.arrows.map dotArrow) ++ "\x7d\n"

end Picture

end MethodLang
