import MethodLang.Flow.Graph
import MethodLang.Picture
import MethodLang.Text.Lines
import MethodLang.Tree.Drawing

/-!
Pictures of flow graphs, plain and with types.
-/
namespace MethodLang

/-- An operation drawn with its types, a line for each node and no line feed at the end. A missing
or empty type is not shown. -/
def Operation.drawTyped (op : Operation) : String :=
  let text (label : String) (type : Option TypeName) :=
    match type with
    | some t => if t.isEmpty then label else label ++ " : " ++ t
    | none => label
  "\n".intercalate (op.lines .box text "" Branches.box.gap)

namespace Graph

/-- A text whose lines are set flush left. -/
def flushLeft (line : String → String) (text : String) : String :=
  String.join ((Text.lines text).map fun l => line l ++ "\\l")

def escapeLine (line : String) : String :=
  String.ofList (line.toList.flatMap fun c => if c == '\\' || c == '"' then ['\\', c] else [c])

def plainLabel (b : Block) : String :=
  match b.tree with
  | some _ => flushLeft id b.label
  | none => b.label

def typedLabel (b : Block) : String :=
  match b.tree with
  | some op => flushLeft escapeLine op.drawTyped
  | none => b.label

/-- All blocks first, then the edges that end in a block. -/
def pictureWith (name : String) (label : Block → String) (g : Graph) : Picture where
  name := name
  boxes := g.blocks.map fun (id, b) => (toString id, label b)
  arrows := g.blocks.flatMap fun (id, b) =>
    (b.succs.filter fun (dst, _) => g.has dst).map fun (dst, edgeLabel) =>
      (toString id, toString dst, edgeLabel)

def picture (g : Graph) : Picture := g.pictureWith "CFG" plainLabel

def typedPicture (g : Graph) : Picture := g.pictureWith "TypedCFG" typedLabel

end Graph

end MethodLang
