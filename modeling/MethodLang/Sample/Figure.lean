import MethodLang.Loader.Library
import MethodLang.Operation.Lowering
import MethodLang.Program.Compile
import MethodLang.Sample.Tree

/-!
Figures of the sample programs: what each part of the compiler makes of them, in numbers and
texts. The size of a sample is a parameter.
-/
namespace MethodLang

inductive Figure where
  | nothing
  | count (n : Nat)
  | flag (b : Bool)
  | text (s : String)
  | row (items : List Figure)
  | table (rows : List (String × Figure))
  deriving Repr, Inhabited

namespace Figure

def optional (s : Option String) : Figure :=
  match s with
  | some s => .text s
  | none => .nothing

end Figure

namespace Sample

mutual
/-- The nodes of a view with a given label, each before those below it. -/
def labelled (label : String) : View → List View
  | .node l note children =>
    (if l = label then [.node l note children] else []) ++ labelledAll label children

def labelledAll (label : String) : List View → List View
  | [] => []
  | t :: ts => labelled label t ++ labelledAll label ts
end

/-- The label that an expression gets when it is lowered; a refused one has none. -/
def loweredLabel (e : View) : Figure :=
  match Operation.ofExpr e with
  | .ok op => .text op.label
  | .error _ => .nothing

/-- The first `n` items of a list that is repeated without end. -/
def cycle {α : Type} (n : Nat) (items : List α) : List α :=
  (List.range n).filterMap fun i => items[i % items.length]?

/-- How the first `n` expressions of the full program are lowered, then all of the broken one. -/
def expressions (n : Nat) : Figure :=
  let full := labelled "expr" (fullTree 2).view
  let broken := labelled "expr" syntaxErrorsTree.view
  .row ((cycle n full ++ broken).map loweredLabel ++
    [.text (Text.unquote "\"hello\""), .text (Text.unquote "plain"),
      .flag (Operation.hasStore (Operation.leaf "load(x)"))])

/-- The full program as a file. -/
def file (path : String) (root : Node) : SourceFile := ⟨path, .node root⟩

/-- The entries of files; a fault leaves none. -/
def entriesOf (files : List SourceFile) : Entries :=
  match analyze files with
  | .ok a => a.entries
  | .error _ => []

/-- Length of the code of a program that is free of flaws. -/
def codeLength (entries : Entries) : Nat :=
  match checkTypes entries with
  | .ok (.typed typed results) => (Code.program results typed).text.length
  | _ => 0

/-- The number of methods with errors of types. -/
def flawedMethods (entries : Entries) : Nat :=
  match checkTypes entries with
  | .ok (.flawed messages) => messages.length
  | _ => 0

/-- The length of the full program's code, and the masks of some types. -/
def code (n : Nat) : Figure :=
  let mask (type : TypeName) : Figure := (TypeName.mask? type).elim .nothing .count
  .row [.count (codeLength (entriesOf [file "full" (fullTree n)])),
    .row (["int", "long", "ulong", "array[] of int"].map mask)]

/-- The statements of a method that cannot be lowered. -/
def refusals (m : Method) : Nat :=
  let blocks := labelled "statment.block" m.node.view
  match blocks with
  | block :: _ =>
    match Graph.ofBlock block with
    | .ok g => g.errors.length
    | .error _ => 0
  | [] => 0

/-- All parts of the compiler on all samples. -/
def pipeline (n : Nat) : Figure :=
  let full := entriesOf [file "full" (fullTree n)]
  let broken := entriesOf [file "broken" syntaxErrorsTree]
  .row [
    .count (codeLength full),
    .count (flawedMethods full),
    .count (flawedMethods (entriesOf [file "types" (typeErrorsTree 2)])),
    .count (flawedMethods (entriesOf [file "declarations" structuralErrorsTree])),
    .count broken.length,
    .flag broken.report?.isSome,
    .count full.callPicture.dot.length,
    .count broken.callPicture.dot.length,
    .count (refusals misplacedAssignments)]

/-- The blocks of an entry's graph; without a graph, its lines in a report. -/
def weight (e : Entry) : Nat :=
  match e.graph with
  | some g => g.blocks.length
  | none => e.errors.length + 1

/-- The full program `n` times and the broken one, as one program. -/
def manyFiles (n : Nat) : Figure :=
  let copies := (List.range n).map fun k => file ("file" ++ toString k) (fullTree 3)
  let entries := entriesOf (copies ++ [file "broken" syntaxErrorsTree])
  .row [
    .count entries.length,
    .flag entries.report?.isSome,
    .count (entries.foldl (fun n (_, e) => n + e.errors.length) 0),
    .count (entries.foldl (fun n (_, e) => n + weight e) 0)]

namespace Corner

def tree (label : String) (children : List View) : View := .node label none children

def leaf (label : String) : View := tree label []

/-- A scope in which nothing is declared. -/
def bare : Scope := ⟨[], [], [], []⟩

/-- The type inferred for an operation, and the number of errors. -/
def inferred (label : String) : Figure :=
  let r := (Marked.unmarked (Operation.leaf label)).infer bare
  .row [.optional r.type, .count r.errors.length]

/-- The type assigned to an operation, and its errors. -/
def assigned (label : String) : Figure :=
  let r := (Marked.unmarked (Operation.leaf label)).assign bare
  .row [.optional r.type, .row (r.errors.map fun e => .text e.cause.message)]

/-- A mark if the lowering stops, else what it gives. -/
def marked {α : Type} (mark : String) (r : Except Fault α) : Figure :=
  match r with
  | .error _ => .text mark
  | .ok _ => .nothing

/-- Forms of expressions that are not known, and variables that are none. -/
def lowering : List Figure := [
  marked "syn" (Operation.ofExpr (tree "expr" [leaf "strange"])),
  marked "v1" (Operation.variableOf "place" (leaf "literal")),
  marked "v2" (Operation.variableOf "place" (leaf "expr")),
  marked "v3" (Operation.variableOf "place" (tree "expr" [leaf "literal"])),
  .row (match Operation.ofList (leaf "list<expr>") with
    | .ok ops => ops.map fun op => .text op.label
    | .error _ => [.nothing]),
  marked "v5" (Operation.ofExpr (tree "expr" [tree "binary"
    [tree "expr" [tree "literal" [leaf "dec"]], tree "binOp" [leaf "\":=\""], leaf "expr"]]))]

def typeOf (kind : View) : Figure :=
  match Declaration.typeOf (tree "typeRef" [kind]) with
  | .ok (type, flaw) => .row [.optional type, .optional (flaw.map TypeFlaw.message)]
  | .error _ => .nothing

/-- A type that may be missing, beside a declaring node that is not kept. -/
def typeRow (type : Option TypeName) : Figure := .row [.optional type, .nothing]

def resultOf (t : View) : Figure :=
  match Declaration.result t with
  | .ok (type, _, flaw) => .row [typeRow type, .optional (flaw.map DeclarationFlaw.message)]
  | .error _ => .nothing

def declared (r : Except Fault (TypeTable × List DeclarationFlaw)) : Figure :=
  match r with
  | .ok (table, flaws) =>
    .row [.table (table.map fun (name, type) => (name, typeRow type)),
      .row (flaws.map fun flaw => .text flaw.message)]
  | .error _ => .nothing

def names (r : Except Fault TypeTable) : Figure :=
  match r with
  | .ok table => .row (table.map fun (name, _) => .text name)
  | .error _ => .nothing

def identifier (name : String) : View := tree "identifier" [leaf ("\"" ++ name ++ "\"")]

/-- Trees that are too small for a method. -/
def stumps : List View := [
  leaf "sourceItem",
  tree "sourceItem" [leaf "funcDef"],
  tree "sourceItem" [tree "funcDef" [leaf "\"method\"", leaf "funcSignature"]]]

def declarations : List Figure :=
  [typeOf (leaf "mystery"), typeOf (tree "custom" [leaf "\"Foo\""])] ++
    stumps.map resultOf ++
    [declared (Declaration.locals
      [tree "list<identifier>" [identifier "q"], leaf "\":\"", leaf "\"int\"", leaf "\";\""]),
      declared (Declaration.arguments
        [tree "argDef" [identifier "p", leaf "\":\"", leaf "\"int\""]])] ++
    stumps.map (fun t => names (Declaration.orderedArguments t)) ++
    stumps.map (fun t => names (Declaration.orderedVariables t))

/-- An identifier below `n` other nodes. -/
def nested (n : Nat) : Node :=
  (List.replicate n "statement").foldr (fun kind inner => Node.branch kind [inner])
    (identifierNode "x")

end Corner

open Corner in
/-- Forms that no text of the language has, at every part of the compiler. -/
def corners (n : Nat) : Figure :=
  .row ([.text (Source.node []).view.label] ++
    ["const(", "load(", "call(", "index", "+", "|", "!", "~", "strange", "store(", "store_at("].map
      inferred ++
    [.optional (bare.variableType "x")] ++ lowering ++ declarations ++
    [.flag ((leaf "a").same (leaf "b")),
      assigned "const(char('a'))", assigned "const(dec(1))",
      (TypeName.mask? "long").elim .nothing .count,
      .text (Operation.code ⟨⟨[], []⟩, []⟩ (Operation.leaf "call(read_byte)")).text,
      .text (identifierNode "x").view.label,
      .count ((nested (n + 2)).view.lines .box (fun label _ => label) "" "").length])

end Sample

end MethodLang
