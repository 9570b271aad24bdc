import MethodLang.Grammar.Source
import MethodLang.Grammar.Token

/-!
Reading sources. No word is reserved: a word is a keyword where the grammar allows that keyword at
its place, and an identifier anywhere else.
-/
namespace MethodLang

/-- The tokens behind the given lexeme, if it comes first. -/
def expect (lexeme : Lexeme) : List Token → Option (List Token)
  | [] => none
  | t :: rest => if t.lexeme = lexeme then some rest else none

def readWord : List Token → Option (String × List Token)
  | ⟨.word text, _⟩ :: rest => some (text, rest)
  | _ => none

mutual
/-- An expression whose unparenthesised operators have at least the given level. -/
def Expr.read : Nat → Nat → List Token → Option (Expr × List Token)
  | 0, _, _ => none
  | _, _, [] => none
  | fuel + 1, level, t :: rest =>
    match t.lexeme with
    | .word text =>
      if text = "true" ∨ text = "false" then Expr.extend fuel level (.literal .bool text) rest
      else Expr.extend fuel level (.place text) rest
    | .literal kind text => Expr.extend fuel level (.literal kind text) rest
    | .sign (.unary op) => do
      let (operand, rest) ← Expr.read fuel UnaryOp.level rest
      Expr.extend fuel level (.unary op operand) rest
    | .sign .openParen => do
      let (inner, rest) ← Expr.read fuel 0 rest
      let rest ← expect (.sign .closeParen) rest
      Expr.extend fuel level (.braces inner) rest
    | .sign _ => none

/-- Continues an expression with calls, indexers, and operators of at least the given level. -/
def Expr.extend : Nat → Nat → Expr → List Token → Option (Expr × List Token)
  | 0, _, _, _ => none
  | _, _, left, [] => some (left, [])
  | fuel + 1, level, left, t :: rest =>
    match t.lexeme with
    | .sign .openParen => do
      let (args, rest) ← Expr.readList fuel .closeParen rest
      Expr.extend fuel level (.call left args) rest
    | .sign .openBracket => do
      let (indices, rest) ← Expr.readList fuel .closeBracket rest
      Expr.extend fuel level (.indexer left indices) rest
    | .sign (.binary op) =>
      if level ≤ op.level then do
        let (right, rest) ← Expr.read fuel op.rightLevel rest
        Expr.extend fuel level (.binary left op right) rest
      else some (left, t :: rest)
    | _ => some (left, t :: rest)

/-- Expressions between commas, up to and including the closing sign. -/
def Expr.readList : Nat → Sign → List Token → Option (List Expr × List Token)
  | 0, _, _ => none
  | fuel + 1, close, tokens =>
    match expect (.sign close) tokens with
    | some rest => some ([], rest)
    | none => Expr.readItems fuel close tokens

def Expr.readItems : Nat → Sign → List Token → Option (List Expr × List Token)
  | 0, _, _ => none
  | fuel + 1, close, tokens => do
    let (e, rest) ← Expr.read fuel 0 tokens
    match expect (.sign close) rest with
    | some rest => some ([e], rest)
    | none => do
      let rest ← expect (.sign .comma) rest
      let (es, rest) ← Expr.readItems fuel close rest
      some (e :: es, rest)
end

/-- Every third call takes a token, so this is fuel enough for any expression at the front. -/
def parseExpr (tokens : List Token) : Option (Expr × List Token) := Expr.read (3 * tokens.length + 3) 0 tokens

mutual
def Stmt.read : Nat → List Token → Option (Stmt × List Token)
  | 0, _ => none
  | _, [] => none
  | fuel + 1, t :: rest =>
    if t.lexeme = .word "if" then do
      let (condition, rest) ← parseExpr rest
      let rest ← expect (.word "then") rest
      let (body, rest) ← Stmt.read fuel rest
      match expect (.word "else") rest with
      | some rest => do
        let (other, rest) ← Stmt.read fuel rest
        some (.ifElse condition body other, rest)
      | none => some (.ifThen condition body, rest)
    else if t.lexeme = .word "begin" then do
      let (body, rest) ← Stmt.readBlock fuel rest
      some (.block body, rest)
    else if t.lexeme = .word "while" then do
      let (condition, rest) ← parseExpr rest
      let rest ← expect (.word "do") rest
      let (body, rest) ← Stmt.read fuel rest
      some (.whileDo condition body, rest)
    else if t.lexeme = .word "repeat" then do
      let (body, rest) ← Stmt.read fuel rest
      match expect (.word "while") rest with
      | some rest => do
        let (condition, rest) ← parseExpr rest
        let rest ← expect (.sign .semicolon) rest
        some (.repeatWhile body condition, rest)
      | none => do
        let rest ← expect (.word "until") rest
        let (condition, rest) ← parseExpr rest
        let rest ← expect (.sign .semicolon) rest
        some (.repeatUntil body condition, rest)
    else if t.lexeme = .word "break" then
      match rest with
      | ⟨.sign .semicolon, stop⟩ :: rest => some (.leave stop, rest)
      | _ => none
    else do
      let (e, rest) ← parseExpr (t :: rest)
      let rest ← expect (.sign .semicolon) rest
      some (.expr e, rest)

/-- Statements behind `begin`, up to and including the closing `end;`. -/
def Stmt.readBlock : Nat → List Token → Option (List Stmt × List Token)
  | 0, _ => none
  | fuel + 1, tokens =>
    match expect (.word "end") tokens with
    | some rest => do
      let rest ← expect (.sign .semicolon) rest
      some ([], rest)
    | none => do
      let (s, rest) ← Stmt.read fuel tokens
      let (ss, rest) ← Stmt.readBlock fuel rest
      some (s :: ss, rest)
end

/-- Every second call takes a token, so this is fuel enough for any block at the front. -/
def parseBlock (tokens : List Token) : Option (List Stmt × List Token) := do
  let rest ← expect (.word "begin") tokens
  Stmt.readBlock (2 * rest.length + 2) rest

/-- Skips commas and counts them. -/
def skipCommas : List Token → Nat × List Token
  | [] => (0, [])
  | t :: rest =>
    if t.lexeme = .sign .comma then
      let (n, rest) := skipCommas rest
      (n + 1, rest)
    else (0, t :: rest)

def TypeRef.read : Nat → List Token → Option (TypeRef × List Token)
  | 0, _ => none
  | fuel + 1, tokens => do
    let (text, rest) ← readWord tokens
    if text = "array" then do
      let rest ← expect (.sign .openBracket) rest
      let (commas, rest) := skipCommas rest
      let rest ← expect (.sign .closeBracket) rest
      let rest ← expect (.word "of") rest
      let (element, rest) ← TypeRef.read fuel rest
      some (.array commas element, rest)
    else if text ∈ TypeRef.builtinWords then some (.builtin text, rest)
    else some (.custom text, rest)

def parseType (tokens : List Token) : Option (TypeRef × List Token) := TypeRef.read tokens.length tokens

/-- A type behind a colon, which may both be missing. -/
def parseTypeClause (tokens : List Token) : Option (Option TypeRef × List Token) :=
  match expect (.sign .colon) tokens with
  | some rest => do
    let (type, rest) ← parseType rest
    some (some type, rest)
  | none => some (none, tokens)

/-- Further names, each behind a comma. -/
def parseNames : List Token → Option (List String × List Token)
  | [] => some ([], [])
  | t :: rest =>
    if t.lexeme = .sign .comma then
      match rest with
      | ⟨.word name, _⟩ :: rest => do
        let (names, rest) ← parseNames rest
        some (name :: names, rest)
      | _ => none
    else some ([], t :: rest)

def parseVarGroup (tokens : List Token) : Option (VarGroup × List Token) := do
  let (names, rest) ←
    match readWord tokens with
    | some (name, rest) => do
      let (names, rest) ← parseNames rest
      some (name :: names, rest)
    | none => some ([], tokens)
  let (type, rest) ← parseTypeClause rest
  let rest ← expect (.sign .semicolon) rest
  some (⟨names, type⟩, rest)

/-- Groups behind `var`, up to the `begin` of the block. -/
def VarGroup.readAll : Nat → List Token → Option (List VarGroup × List Token)
  | 0, _ => none
  | fuel + 1, tokens =>
    match expect (.word "begin") tokens with
    | some _ => some ([], tokens)
    | none => do
      let (group, rest) ← parseVarGroup tokens
      let (groups, rest) ← VarGroup.readAll fuel rest
      some (group :: groups, rest)

def parseBody (tokens : List Token) : Option (Body × List Token) :=
  match expect (.word "var") tokens with
  | some rest => do
    let (groups, rest) ← VarGroup.readAll (rest.length + 1) rest
    let (block, rest) ← parseBlock rest
    some (⟨some groups, block⟩, rest)
  | none => do
    let (block, rest) ← parseBlock tokens
    some (⟨none, block⟩, rest)

def parseArgDef (tokens : List Token) : Option (ArgDef × List Token) := do
  let (name, rest) ← readWord tokens
  let (type, rest) ← parseTypeClause rest
  some (⟨name, type⟩, rest)

/-- Argument definitions between commas, up to and including the closing parenthesis. -/
def ArgDef.readAll : Nat → List Token → Option (List ArgDef × List Token)
  | 0, _ => none
  | fuel + 1, tokens => do
    let (arg, rest) ← parseArgDef tokens
    match expect (.sign .closeParen) rest with
    | some rest => some ([arg], rest)
    | none => do
      let rest ← expect (.sign .comma) rest
      let (args, rest) ← ArgDef.readAll fuel rest
      some (arg :: args, rest)

def parseSignature (tokens : List Token) : Option (Signature × List Token) := do
  let (name, rest) ← readWord tokens
  let rest ← expect (.sign .openParen) rest
  let (args, rest) ←
    match expect (.sign .closeParen) rest with
    | some rest => some ([], rest)
    | none => ArgDef.readAll rest.length rest
  let (result, rest) ← parseTypeClause rest
  some (⟨name, args, result⟩, rest)

def parseMethod (tokens : List Token) : Option (Method × List Token) := do
  let rest ← expect (.word "method") tokens
  let (signature, rest) ← parseSignature rest
  match expect (.sign .semicolon) rest with
  | some rest => some (⟨signature, none⟩, rest)
  | none => do
    let (body, rest) ← parseBody rest
    some (⟨signature, some body⟩, rest)

def Source.readAll : Nat → List Token → Option Source
  | _, [] => some []
  | 0, _ :: _ => none
  | fuel + 1, tokens => do
    let (method, rest) ← parseMethod tokens
    let methods ← Source.readAll fuel rest
    some (method :: methods)

/-- The source that a text writes, if the text is in the language. -/
def parseSource (text : String) : Option Source := do
  let tokens ← Token.scan text
  Source.readAll tokens.length tokens

end MethodLang
