import MethodLang.Grammar.Source

/-!
Parse nodes: the form in which a source is handed on, with every token a leaf. A node has a kind,
the name of the field it fills in its parent, and a text; it may be marked as missing or as an
error. A written source gives nodes without such marks.
-/
namespace MethodLang

inductive Node where
  | mk (kind : String) (field text : Option String) (missing error : Bool) (stop : Position)
    (children : List Node)
  deriving Repr, Inhabited

namespace Node

def kind : Node → String
  | .mk kind .. => kind

def field : Node → Option String
  | .mk _ field .. => field

def text : Node → Option String
  | .mk _ _ text .. => text

def missing : Node → Bool
  | .mk _ _ _ missing .. => missing

def error : Node → Bool
  | .mk _ _ _ _ error .. => error

def stop : Node → Position
  | .mk _ _ _ _ _ stop _ => stop

def children : Node → List Node
  | .mk _ _ _ _ _ _ children => children

/-- The node as the filler of a field. -/
def as (name : String) : Node → Node
  | .mk kind _ text missing error stop children =>
    .mk kind (some name) text missing error stop children

def stoppingAt (stop : Position) : Node → Node
  | .mk kind field text missing error _ children =>
    .mk kind field text missing error stop children

def leaf (kind text : String) : Node := .mk kind none (some text) false false .start []

/-- A keyword or sign is its own kind. -/
def token (text : String) : Node := leaf text text

def branch (kind : String) (children : List Node) : Node :=
  .mk kind none (some "") false false .start children

/-- Items with a comma token before each but the first. -/
def commaSeparated : List Node → List Node
  | [] => []
  | [n] => [n]
  | n :: ns => n :: token "," :: commaSeparated ns

end Node

open Node

def identifierNode (name : String) : Node := leaf "identifier" name

def literalNode (kind : LiteralKind) (text : String) : Node :=
  match kind with
  | .bool => branch "literal" [branch "bool" [token text]]
  | kind => branch "literal" [leaf kind.name text]

/-- The list of a call or indexer; an empty one has no node. -/
def exprListNodes : List Node → List Node
  | [] => []
  | n :: ns => [(branch "list_expr" (commaSeparated (n :: ns))).as "listExpr"]

mutual
def Expr.node : Expr → Node
  | .unary op operand =>
    branch "expression" [(branch "unary_expression"
      [(leaf "un_op" op.text).as "unOp", operand.node.as "expr"]).as "unary"]
  | .binary left op right =>
    branch "expression" [(branch "binary_expression"
      [left.node.as "expr", (leaf "bin_op" op.text).as "binOp", right.node.as "expr"]).as "binary"]
  | .braces inner =>
    branch "expression" [(branch "braces_expression"
      [token "(", inner.node.as "expr", token ")"]).as "braces"]
  | .call callee args =>
    branch "expression" [(branch "call_expression"
      (callee.node.as "expr" :: token "(" :: exprListNodes (Expr.nodes args) ++
        [token ")"])).as "call"]
  | .indexer base indices =>
    branch "expression" [(branch "indexer"
      (base.node.as "expr" :: token "[" :: exprListNodes (Expr.nodes indices) ++
        [token "]"])).as "indexer"]
  | .place name => branch "expression" [(identifierNode name).as "place"]
  | .literal kind text => branch "expression" [(literalNode kind text).as "literal"]

def Expr.nodes : List Expr → List Node
  | [] => []
  | e :: es => e.node.as "expr" :: Expr.nodes es
end

def TypeRef.node : TypeRef → Node
  | .builtin word => branch "typeRef" [leaf "builtin" word]
  | .custom name => branch "typeRef" [(identifierNode name).as "custom"]
  | .array commas element =>
    branch "typeRef" [(branch "array"
      (token "array" :: token "[" :: List.replicate commas (token ",") ++
        [token "]", token "of", element.node])).as "array"]

def typeClauseNodes : Option TypeRef → List Node
  | none => []
  | some type => [token ":", type.node.as "typeRef"]

/-- A block around the nodes of its statements. -/
def blockAround (statements : List Node) : Node :=
  branch "block_content" (token "begin" :: statements ++ [token "end", token ";"])

mutual
def Stmt.node : Stmt → Node
  | .ifThen condition body =>
    branch "statement" [(branch "if_statement"
      [token "if", condition.node.as "expr", token "then", body.node.as "statement"]).as "if"]
  | .ifElse condition body other =>
    branch "statement" [(branch "if_statement"
      [token "if", condition.node.as "expr", token "then", body.node.as "statement",
        token "else", other.node.as "statement"]).as "if"]
  | .block body => branch "statement" [(blockAround (Stmt.nodes body)).as "block"]
  | .whileDo condition body =>
    branch "statement" [(branch "while_content"
      [token "while", condition.node.as "expr", token "do", body.node.as "statement"]).as "while"]
  | .repeatWhile body condition =>
    branch "statement" [(branch "do_content"
      [token "repeat", body.node.as "statement", token "while", condition.node.as "expr",
        token ";"]).as "do"]
  | .repeatUntil body condition =>
    branch "statement" [(branch "do_content"
      [token "repeat", body.node.as "statement", token "until", condition.node.as "expr",
        token ";"]).as "do"]
  | .leave stop =>
    branch "statement"
      [((branch "break_content" [token "break", token ";"]).stoppingAt stop).as "break"]
  | .expr e =>
    branch "statement"
      [(branch "expression_content" [e.node.as "expr", (token ";").as "expr"]).as "expression"]

def Stmt.nodes : List Stmt → List Node
  | [] => []
  | s :: ss => s.node.as "statement" :: Stmt.nodes ss
end

def blockNode (body : List Stmt) : Node := blockAround (Stmt.nodes body)

def VarGroup.nodes (group : VarGroup) : List Node :=
  let names :=
    if group.names.isEmpty then []
    else [(branch "list_identifier"
      (commaSeparated (group.names.map fun n => (identifierNode n).as "identifier"))).as
        "list_identifier"]
  names ++ typeClauseNodes group.type ++ [token ";"]

def ArgDef.node (arg : ArgDef) : Node :=
  branch "argDef" ((identifierNode arg.name).as "identifier" :: typeClauseNodes arg.type)

def Signature.node (s : Signature) : Node :=
  let args :=
    if s.args.isEmpty then []
    else [(branch "list_argDef"
      (commaSeparated (s.args.map fun a => a.node.as "argDef"))).as "list_argDef"]
  branch "funcSignature"
    ((identifierNode s.name).as "identifier" :: token "(" :: args ++ token ")" ::
      typeClauseNodes s.result)

def Body.node (body : Body) : Node :=
  let vars :=
    match body.vars with
    | none => []
    | some groups => token "var" :: groups.flatMap VarGroup.nodes
  branch "body" (vars ++ [(blockNode body.block).as "statment_block"])

def Method.node (m : Method) : Node :=
  let last :=
    match m.body with
    | some body => body.node.as "body"
    | none => token ";"
  branch "funcDef" [token "method", m.signature.node.as "funcSignature", last]

def Source.node (source : Source) : Node :=
  branch "source" (source.map fun m =>
    (branch "sourceItem" [m.node.as "funcDef"]).as "sourceItem")

end MethodLang
