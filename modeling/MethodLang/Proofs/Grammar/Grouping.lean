import MethodLang.Grammar.Parser

/-!
Syntax trees as lexemes. Every tree can be written, but not every written tree is read back as it
was: without parentheses operators group by their levels, and an `else` belongs to the nearest `if`.
-/
namespace MethodLang

/-! ### Writing -/

/-- Items with a comma before each but the first. -/
def commas : List (List Lexeme) → List Lexeme
  | [] => []
  | [item] => item
  | item :: items => item ++ .sign .comma :: commas items

theorem commas_cons {item : List Lexeme} {items : List (List Lexeme)} (more : items ≠ []) :
    commas (item :: items) = item ++ .sign .comma :: commas items := by
  cases items with
  | nil => exact absurd rfl more
  | cons => rfl

mutual
def Expr.lexemes : Expr → List Lexeme
  | .unary op operand => .sign (.unary op) :: operand.lexemes
  | .binary left op right => left.lexemes ++ .sign (.binary op) :: right.lexemes
  | .braces inner => .sign .openParen :: inner.lexemes ++ [.sign .closeParen]
  | .call callee args =>
    callee.lexemes ++ .sign .openParen :: (commas (Expr.lexemesAll args) ++ [.sign .closeParen])
  | .indexer base indices =>
    base.lexemes ++
      .sign .openBracket :: (commas (Expr.lexemesAll indices) ++ [.sign .closeBracket])
  | .place name => [.word name]
  | .literal .bool text => [.word text]
  | .literal kind text => [.literal kind text]

def Expr.lexemesAll : List Expr → List (List Lexeme)
  | [] => []
  | e :: es => e.lexemes :: Expr.lexemesAll es
end

def TypeRef.lexemes : TypeRef → List Lexeme
  | .builtin word => [.word word]
  | .custom name => [.word name]
  | .array n element =>
    .word "array" :: .sign .openBracket :: List.replicate n (.sign .comma) ++
      .sign .closeBracket :: .word "of" :: element.lexemes

def typeClauseLexemes : Option TypeRef → List Lexeme
  | none => []
  | some type => .sign .colon :: type.lexemes

mutual
def Stmt.lexemes : Stmt → List Lexeme
  | .ifThen condition body => .word "if" :: condition.lexemes ++ .word "then" :: body.lexemes
  | .ifElse condition body other =>
    .word "if" :: condition.lexemes ++
      .word "then" :: (body.lexemes ++ .word "else" :: other.lexemes)
  | .block body => .word "begin" :: Stmt.lexemesAll body ++ [.word "end", .sign .semicolon]
  | .whileDo condition body => .word "while" :: condition.lexemes ++ .word "do" :: body.lexemes
  | .repeatWhile body condition =>
    .word "repeat" :: body.lexemes ++ .word "while" :: (condition.lexemes ++ [.sign .semicolon])
  | .repeatUntil body condition =>
    .word "repeat" :: body.lexemes ++ .word "until" :: (condition.lexemes ++ [.sign .semicolon])
  | .leave _ => [.word "break", .sign .semicolon]
  | .expr e => e.lexemes ++ [.sign .semicolon]

def Stmt.lexemesAll : List Stmt → List Lexeme
  | [] => []
  | s :: ss => s.lexemes ++ Stmt.lexemesAll ss
end

def VarGroup.lexemes (group : VarGroup) : List Lexeme :=
  commas (group.names.map fun name => [.word name]) ++
    (typeClauseLexemes group.type ++ [.sign .semicolon])

def ArgDef.lexemes (arg : ArgDef) : List Lexeme := .word arg.name :: typeClauseLexemes arg.type

def Signature.lexemes (s : Signature) : List Lexeme :=
  .word s.name :: .sign .openParen :: commas (s.args.map ArgDef.lexemes) ++
    .sign .closeParen :: typeClauseLexemes s.result

def Body.lexemes (body : Body) : List Lexeme :=
  (body.vars.elim [] fun groups => .word "var" :: groups.flatMap VarGroup.lexemes) ++
    (Stmt.block body.block).lexemes

def Method.lexemes (m : Method) : List Lexeme :=
  .word "method" :: m.signature.lexemes ++ m.body.elim [.sign .semicolon] Body.lexemes

/-! ### Grouping -/

/-- The operator of a binary expression. -/
def Expr.operator? : Expr → Option BinaryOp
  | .binary _ op _ => some op
  | _ => none

def Expr.isUnary : Expr → Bool
  | .unary _ _ => true
  | _ => false

mutual
/-- Operands without parentheses bind as tightly as their places want. -/
def Expr.Ordered : Expr → Prop
  | .unary _ operand => operand.operator? = none ∧ operand.Ordered
  | .binary left op right =>
    ((∀ o ∈ left.operator?, op.level < o.rightLevel) ∧ left.Ordered) ∧
      (∀ o ∈ right.operator?, op.rightLevel ≤ o.level) ∧ right.Ordered
  | .braces inner => inner.Ordered
  | .call callee args =>
    ((callee.operator? = none ∧ callee.isUnary = false) ∧ callee.Ordered) ∧ Expr.AllOrdered args
  | .indexer base indices =>
    ((base.operator? = none ∧ base.isUnary = false) ∧ base.Ordered) ∧ Expr.AllOrdered indices
  | .place _ => True
  | .literal _ _ => True

def Expr.AllOrdered : List Expr → Prop
  | [] => True
  | e :: es => e.Ordered ∧ Expr.AllOrdered es
end

/-- The statement ends in an `if` that could still take an `else`. -/
def Stmt.endsOpen : Stmt → Bool
  | .ifThen _ _ => true
  | .ifElse _ _ other => other.endsOpen
  | .whileDo _ body => body.endsOpen
  | _ => false

mutual
/-- Expressions are grouped by level, and an `else` belongs to the nearest `if`. -/
def Stmt.Ordered : Stmt → Prop
  | .ifThen condition body => condition.Ordered ∧ body.Ordered
  | .ifElse condition body other =>
    condition.Ordered ∧ (body.endsOpen = false ∧ body.Ordered) ∧ other.Ordered
  | .block body => Stmt.AllOrdered body
  | .whileDo condition body => condition.Ordered ∧ body.Ordered
  | .repeatWhile body condition => body.Ordered ∧ condition.Ordered
  | .repeatUntil body condition => body.Ordered ∧ condition.Ordered
  | .leave _ => True
  | .expr e => e.Ordered

def Stmt.AllOrdered : List Stmt → Prop
  | [] => True
  | s :: ss => s.Ordered ∧ Stmt.AllOrdered ss
end

def Method.Ordered (m : Method) : Prop := ∀ body ∈ m.body, Stmt.AllOrdered body.block

end MethodLang
