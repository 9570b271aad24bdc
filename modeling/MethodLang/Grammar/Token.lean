import MethodLang.Grammar.Expr

/-!
Tokens. The longest token that starts at a character is taken. A word is not yet a keyword or an
identifier: that depends on what the grammar allows at its place.
-/
namespace MethodLang

inductive Sign where
  | semicolon | colon | comma
  | openParen | closeParen | openBracket | closeBracket
  | unary (op : UnaryOp)
  | binary (op : BinaryOp)
  deriving DecidableEq, Repr

def Sign.text : Sign → String
  | .semicolon => ";"
  | .colon => ":"
  | .comma => ","
  | .openParen => "("
  | .closeParen => ")"
  | .openBracket => "["
  | .closeBracket => "]"
  | .unary op => op.text
  | .binary op => op.text

/-- A literal lexeme is of any kind but `bool`, whose two literals are words. -/
inductive Lexeme where
  | word (text : String)
  | literal (kind : LiteralKind) (text : String)
  | sign (s : Sign)
  deriving DecidableEq, Repr

def Lexeme.text : Lexeme → String
  | .word text => text
  | .literal _ text => text
  | .sign s => s.text

/-- A lexeme and the position behind it. -/
structure Token where
  lexeme : Lexeme
  stop : Position
  deriving DecidableEq, Repr

namespace Token

def isSpace (c : Char) : Bool := (9 ≤ c.toNat && c.toNat ≤ 13) || c == ' '

def startsWord (c : Char) : Bool := c.isAlpha || c == '_'

def continuesWord (c : Char) : Bool := c.isAlphanum || c == '_'

def isHexDigit (c : Char) : Bool :=
  c.isDigit || ('a' ≤ c && c ≤ 'f') || ('A' ≤ c && c ≤ 'F')

def isBit (c : Char) : Bool := c == '0' || c == '1'

/-- The null character is part of no token. -/
def isNull (c : Char) : Bool := c.toNat == 0

/-- The rest of a number that starts with the given digit, and its kind. -/
def readNumber (first : Char) (cs : List Char) : LiteralKind × List Char × List Char :=
  match cs with
  | m :: d :: rest =>
    if first == '0' && (m == 'x' || m == 'X') && isHexDigit d then
      (.hex, first :: m :: d :: rest.takeWhile isHexDigit, rest.dropWhile isHexDigit)
    else if first == '0' && (m == 'b' || m == 'B') && isBit d then
      (.bits, first :: m :: d :: rest.takeWhile isBit, rest.dropWhile isBit)
    else (.dec, first :: cs.takeWhile Char.isDigit, cs.dropWhile Char.isDigit)
  | _ => (.dec, first :: cs.takeWhile Char.isDigit, cs.dropWhile Char.isDigit)

/-- A string up to and including its closing quote. A backslash takes the next character with it,
which must not be a line feed. -/
def readString : List Char → Option (List Char × List Char)
  | [] => none
  | '"' :: cs => some (['"'], cs)
  | '\\' :: c :: cs =>
    if c == '\n' || isNull c then none
    else (readString cs).map fun (body, rest) => ('\\' :: c :: body, rest)
  | c :: cs =>
    if c == '\\' || isNull c then none
    else (readString cs).map fun (body, rest) => (c :: body, rest)

def readSign : List Char → Option (Sign × List Char)
  | ':' :: '=' :: cs => some (.binary .assign, cs)
  | '!' :: '=' :: cs => some (.binary .ne, cs)
  | '<' :: '<' :: cs => some (.binary .shl, cs)
  | '<' :: '=' :: cs => some (.binary .le, cs)
  | '>' :: '>' :: cs => some (.binary .shr, cs)
  | '>' :: '=' :: cs => some (.binary .ge, cs)
  | '|' :: '|' :: cs => some (.binary .or, cs)
  | '&' :: '&' :: cs => some (.binary .and, cs)
  | ';' :: cs => some (.semicolon, cs)
  | ':' :: cs => some (.colon, cs)
  | ',' :: cs => some (.comma, cs)
  | '(' :: cs => some (.openParen, cs)
  | ')' :: cs => some (.closeParen, cs)
  | '[' :: cs => some (.openBracket, cs)
  | ']' :: cs => some (.closeBracket, cs)
  | '!' :: cs => some (.unary .not, cs)
  | '~' :: cs => some (.unary .invert, cs)
  | '+' :: cs => some (.binary .add, cs)
  | '-' :: cs => some (.binary .sub, cs)
  | '*' :: cs => some (.binary .mul, cs)
  | '/' :: cs => some (.binary .div, cs)
  | '%' :: cs => some (.binary .mod, cs)
  | '|' :: cs => some (.binary .bitOr, cs)
  | '^' :: cs => some (.binary .bitXor, cs)
  | '&' :: cs => some (.binary .bitAnd, cs)
  | '=' :: cs => some (.binary .eq, cs)
  | '>' :: cs => some (.binary .gt, cs)
  | '<' :: cs => some (.binary .lt, cs)
  | _ => none

/-- The lexeme at the start of a text that does not start with a space, and the text behind it. -/
def readLexeme : List Char → Option (Lexeme × List Char)
  | [] => none
  | c :: cs =>
    if startsWord c then
      some (.word (String.ofList (c :: cs.takeWhile continuesWord)), cs.dropWhile continuesWord)
    else if c.isDigit then
      let (kind, text, rest) := readNumber c cs
      some (.literal kind (String.ofList text), rest)
    else if c == '"' then
      (readString cs).map fun (body, rest) => (.literal .str (String.ofList (c :: body)), rest)
    else if c == '\'' then
      match cs with
      | d :: '\'' :: rest =>
        if d == '\'' || isNull d then none
        else some (.literal .char (String.ofList [c, d, '\'']), rest)
      | _ => none
    else (readSign (c :: cs)).map fun (s, rest) => (.sign s, rest)

/-- Reads tokens to the end of the text; every step takes at least one character, so a text's
length is fuel enough. -/
def scanFrom : Nat → Position → List Char → Option (List Token)
  | _, _, [] => some []
  | 0, _, _ :: _ => none
  | fuel + 1, p, c :: cs =>
    if isSpace c then scanFrom fuel (p.after c) cs
    else
      match readLexeme (c :: cs) with
      | none => none
      | some (lexeme, rest) =>
        let stop := lexeme.text.toList.foldl Position.after p
        (scanFrom fuel stop rest).map fun tokens => ⟨lexeme, stop⟩ :: tokens

/-- The mark that may open a file. -/
def byteOrderMark : Char := Char.ofNat 0xFEFF

/-- All tokens of a text, if it consists of tokens and white space after an optional mark. -/
def scan (text : String) : Option (List Token) :=
  match text.toList with
  | [] => some []
  | c :: cs =>
    if c == byteOrderMark then scanFrom cs.length (Position.start.after c) cs
    else scanFrom (cs.length + 1) .start (c :: cs)

end Token

end MethodLang
