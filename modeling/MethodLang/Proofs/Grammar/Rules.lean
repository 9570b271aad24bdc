import MethodLang.Grammar.Node
import MethodLang.Grammar.Token

/-!
The grammar as a table. A rule says which nodes may stand below a node of a kind, a pattern how the
text of a leaf is spelled, and the operators have precedences. None of this says how to read a text:
that a tree obeys the grammar is seen from its nodes (`Node.Instance`, `Node.Ordered`), and that it
belongs to a text from its leaves (`Laid`).
-/
namespace MethodLang

/-! ### Rules -/

/-- What may stand below a node. -/
inductive Rule where
  /-- A keyword or sign. -/
  | word (text : String)
  /-- A keyword or sign out of some, under a kind of its own. -/
  | alias (texts : List String) (kind : String)
  | symbol (kind : String)
  /-- All nodes of the rule fill the field. -/
  | field (name : String) (rule : Rule)
  | seq (rules : List Rule)
  | choice (rules : List Rule)
  | many (rule : Rule)

def Rule.optional (rule : Rule) : Rule := .choice [.seq [], rule]

mutual
/-- The keywords and signs in a rule. -/
def Rule.words : Rule → List String
  | .word text => [text]
  | .alias texts _ => texts
  | .symbol _ => []
  | .field _ rule => rule.words
  | .seq rules => Rule.wordsAll rules
  | .choice rules => Rule.wordsAll rules
  | .many rule => rule.words

def Rule.wordsAll : List Rule → List String
  | [] => []
  | rule :: rules => rule.words ++ Rule.wordsAll rules
end

/-! ### Patterns -/

/-- How the characters of a text may follow each other. -/
inductive Pattern where
  | one (isIn : Char → Bool)
  | seq (patterns : List Pattern)
  | many (pattern : Pattern)

namespace Pattern

inductive Matches : Pattern → List Char → Prop where
  | one {isIn : Char → Bool} {c : Char} (inside : isIn c) : Matches (.one isIn) [c]
  | nil : Matches (.seq []) []
  | cons {p : Pattern} {ps : List Pattern} {xs ys : List Char} (first : Matches p xs)
      (later : Matches (.seq ps) ys) : Matches (.seq (p :: ps)) (xs ++ ys)
  | done {p : Pattern} : Matches (.many p) []
  | more {p : Pattern} {xs ys : List Char} (first : Matches p xs) (later : Matches (.many p) ys) :
      Matches (.many p) (xs ++ ys)

def char (c : Char) : Pattern := .one (· == c)

/-- A character of the class, and any number of further ones. -/
def plus (isIn : Char → Bool) : Pattern := .seq [.one isIn, .many (.one isIn)]

end Pattern

namespace Grammar

/-- Characters of a string that stand for themselves. -/
def isPlain (c : Char) : Bool := c != '"' && c != '\\'

def between (low high : Char) (c : Char) : Bool := low ≤ c && c ≤ high

def isLetter (c : Char) : Bool := between 'a' 'z' c || between 'A' 'Z' c || c == '_'

def isHex (c : Char) : Bool := between '0' '9' c || between 'A' 'F' c || between 'a' 'f' c

/-- How leaves with a text of their own are spelled, by their kind. -/
def patterns : List (String × Pattern) := [
  ("identifier", .seq [.one isLetter, .many (.one fun c => isLetter c || between '0' '9' c)]),
  ("str", .seq [.char '"', .many (.one isPlain),
    .many (.seq [.char '\\', .one (· != '\n'), .many (.one isPlain)]), .char '"']),
  ("char", .seq [.char '\'', .one (· != '\''), .char '\'']),
  ("hex", .seq [.char '0', .one fun c => c == 'x' || c == 'X', .plus isHex]),
  ("bits", .seq [.char '0', .one fun c => c == 'b' || c == 'B',
    .plus fun c => c == '0' || c == '1']),
  ("dec", .plus (between '0' '9'))]

/-- A text is spelled as a leaf of a kind must be. -/
def Spells (kind text : String) : Prop :=
  ∃ pattern, patterns.lookup kind = some pattern ∧ pattern.Matches text.toList

/-! ### The table -/

inductive Side where
  | left | right
  deriving DecidableEq, Repr

/-- The precedence of an operator: a higher one binds tighter. The side is where an operator of the
same precedence may stand. -/
def operators : List (String × Int × Side) := [
  (":=", -2, .right),
  ("+", 10, .left), ("-", 10, .left),
  ("*", 11, .left), ("/", 11, .left), ("%", 11, .left),
  ("||", 1, .left), ("&&", 2, .left),
  ("|", 3, .left), ("^", 4, .left), ("&", 5, .left),
  ("=", 6, .left), ("!=", 6, .left),
  (">", 7, .left), (">=", 7, .left), ("<=", 7, .left), ("<", 7, .left),
  ("<<", 9, .left), (">>", 9, .left)]

/-- Items with commas between them. -/
def list (item : Rule) : Rule := .seq [item, .many (.seq [.word ",", item])]

def filled (name kind : String) : Rule := .field name (.symbol kind)

def typeClause : Rule := .optional (.seq [.word ":", filled "typeRef" "typeRef"])

def varGroup : Rule :=
  .seq [.optional (filled "list_identifier" "list_identifier"), typeClause, .word ";"]

/-- A call or an indexer: an expression, and a list in brackets. -/
def applied (opening closing : String) : Rule :=
  .seq [filled "expr" "expression",
    .seq [.word opening, .optional (filled "listExpr" "list_expr"), .word closing]]

def binary (operator : String) : Rule :=
  .seq [filled "expr" "expression", .field "binOp" (.alias [operator] "bin_op"),
    filled "expr" "expression"]

/-- The rules of the kinds that are no leaves. -/
def rules : List (String × Rule) := [
  ("source", .many (filled "sourceItem" "sourceItem")),
  ("sourceItem", filled "funcDef" "funcDef"),
  ("funcDef", .seq [.word "method", filled "funcSignature" "funcSignature",
    .choice [filled "body" "body", .word ";"]]),
  ("body", .seq [.optional (.seq [.word "var", .many varGroup]),
    filled "statment_block" "block_content"]),
  ("list_identifier", list (filled "identifier" "identifier")),
  ("funcSignature", .seq [filled "identifier" "identifier", .word "(",
    .optional (filled "list_argDef" "list_argDef"), .word ")", typeClause]),
  ("list_argDef", list (filled "argDef" "argDef")),
  ("argDef", .seq [filled "identifier" "identifier", typeClause]),
  ("typeRef", .choice [
    .alias ["bool", "byte", "int", "uint", "long", "ulong", "char", "string"] "builtin",
    filled "custom" "identifier", filled "array" "array"]),
  ("array", .seq [.word "array", .word "[", .many (.word ","), .word "]", .word "of",
    .symbol "typeRef"]),
  ("statement", .choice [filled "if" "if_statement", filled "block" "block_content",
    filled "while" "while_content", filled "do" "do_content", filled "break" "break_content",
    filled "expression" "expression_content"]),
  ("break_content", .seq [.word "break", .word ";"]),
  ("expression_content", .field "expr" (.seq [.symbol "expression", .word ";"])),
  ("do_content", .seq [.word "repeat", filled "statement" "statement",
    .choice [.word "while", .word "until"], filled "expr" "expression", .word ";"]),
  ("while_content", .seq [.word "while", filled "expr" "expression", .word "do",
    filled "statement" "statement"]),
  ("block_content", .seq [.word "begin", .many (filled "statement" "statement"), .word "end",
    .word ";"]),
  ("if_statement", .seq [.word "if", filled "expr" "expression", .word "then",
    filled "statement" "statement",
    .optional (.seq [.word "else", filled "statement" "statement"])]),
  ("expression", .choice [filled "unary" "unary_expression", filled "binary" "binary_expression",
    filled "braces" "braces_expression", filled "call" "call_expression",
    filled "indexer" "indexer", filled "place" "identifier", filled "literal" "literal"]),
  ("braces_expression", .seq [.word "(", filled "expr" "expression", .word ")"]),
  ("literal", .choice [.symbol "bool", .symbol "str", .symbol "char", .symbol "hex",
    .symbol "bits", .symbol "dec"]),
  ("indexer", applied "[" "]"),
  ("call_expression", applied "(" ")"),
  ("list_expr", list (filled "expr" "expression")),
  ("unary_expression", .seq [.field "unOp" (.alias ["!", "~"] "un_op"),
    filled "expr" "expression"]),
  ("binary_expression", .choice (operators.map fun o => binary o.1)),
  ("bool", .choice [.word "true", .word "false"])]

/-- The keywords, the words of types and the signs of the grammar. -/
def words : List String := rules.flatMap fun r => r.2.words

/-- An operator may stand unparenthesised on a side of another: it binds tighter, or equally tight
on the side to which that one groups. -/
def Binds (side : Side) (parent child : String) : Prop :=
  ∃ p q, operators.lookup parent = some p ∧ operators.lookup child = some q ∧
    (p.1 < q.1 ∨ p.1 = q.1 ∧ p.2 = side)

end Grammar

/-! ### Instances -/

mutual
/-- A rule takes nodes from the front of a list; what it leaves is the second list. -/
inductive Rule.Derives : Rule → Option String → List Node → List Node → Prop where
  | word {text : String} {field : Option String} {n : Node} {rest : List Node}
      (kind : n.kind = text) (written : n.text = some text) (leaf : n.children = [])
      (fills : n.field = field) : Rule.Derives (.word text) field (n :: rest) rest
  | alias {text : String} {texts : List String} {kind : String} {field : Option String} {n : Node}
      {rest : List Node} (inside : text ∈ texts) (named : n.kind = kind)
      (written : n.text = some text) (leaf : n.children = []) (fills : n.field = field) :
      Rule.Derives (.alias texts kind) field (n :: rest) rest
  | symbol {kind : String} {field : Option String} {n : Node} {rest : List Node}
      (named : n.kind = kind) (fills : n.field = field) (built : Node.Instance n) :
      Rule.Derives (.symbol kind) field (n :: rest) rest
  | field {name : String} {rule : Rule} {field : Option String} {ns rest : List Node}
      (inner : Rule.Derives rule (some name) ns rest) :
      Rule.Derives (.field name rule) field ns rest
  | nil {field : Option String} {ns : List Node} : Rule.Derives (.seq []) field ns ns
  | cons {rule : Rule} {rules : List Rule} {field : Option String} {ns ms rest : List Node}
      (first : Rule.Derives rule field ns ms) (later : Rule.Derives (.seq rules) field ms rest) :
      Rule.Derives (.seq (rule :: rules)) field ns rest
  | choice {rule : Rule} {rules : List Rule} {field : Option String} {ns rest : List Node}
      (inside : rule ∈ rules) (taken : Rule.Derives rule field ns rest) :
      Rule.Derives (.choice rules) field ns rest
  | done {rule : Rule} {field : Option String} {ns : List Node} :
      Rule.Derives (.many rule) field ns ns
  | more {rule : Rule} {field : Option String} {ns ms rest : List Node}
      (first : Rule.Derives rule field ns ms) (later : Rule.Derives (.many rule) field ms rest) :
      Rule.Derives (.many rule) field ns rest

/-- The node's children instantiate the rule of its kind, and so do those of the nodes below; a leaf
is spelled as its kind says. -/
inductive Node.Instance : Node → Prop where
  | branch {n : Node} {rule : Rule} (found : Grammar.rules.lookup n.kind = some rule)
      (derived : Rule.Derives rule none n.children []) : Node.Instance n
  | leaf {n : Node} {text : String} (written : n.text = some text) (leaf : n.children = [])
      (spelled : Grammar.Spells n.kind text) : Node.Instance n
end

/-! ### Trees -/

namespace Node

mutual
/-- All nodes of a tree. -/
def subnodes : Node → List Node
  | .mk kind field text missing error stop children =>
    .mk kind field text missing error stop children :: subnodesAll children

def subnodesAll : List Node → List Node
  | [] => []
  | n :: ns => n.subnodes ++ subnodesAll ns
end

mutual
/-- The texts of the nodes without children, from left to right. -/
def leafTexts : Node → List String
  | .mk _ _ text _ _ _ [] => text.toList
  | .mk _ _ _ _ _ _ (c :: cs) => c.leafTexts ++ leafTextsAll cs

def leafTextsAll : List Node → List String
  | [] => []
  | n :: ns => n.leafTexts ++ leafTextsAll ns
end

/-- The operator of an expression that is an unparenthesised binary one. -/
def operator? (n : Node) : Option String :=
  match n.children with
  | [c] => if c.kind = "binary_expression" then c.children[1]? >>= text else none
  | _ => none

/-- Whether an expression is an unparenthesised unary one. -/
def isUnary (n : Node) : Bool :=
  match n.children with
  | [c] => c.kind == "unary_expression"
  | _ => false

/-- A statement ends in an `if` without `else`, through bodies of `while` and through `else`. -/
inductive EndsOpen : Node → Prop where
  | choice {n c : Node} (inner : n.children = [c]) (kind : c.kind = "if_statement")
      (open_ : ∀ k ∈ c.children, k.kind ≠ "else") : EndsOpen n
  | other {n c last : Node} (inner : n.children = [c]) (kind : c.kind = "if_statement")
      (closed : ∃ k ∈ c.children, k.kind = "else") (ends : c.children.getLast? = some last)
      (open_ : EndsOpen last) : EndsOpen n
  | loop {n c last : Node} (inner : n.children = [c]) (kind : c.kind = "while_content")
      (ends : c.children.getLast? = some last) (open_ : EndsOpen last) : EndsOpen n

/-- The node obeys the precedences: operators bind as they must, operands of unary operators and
bases of calls and indexers are as simple as they must be, and an `else` belongs to the nearest
`if`. -/
structure Ordered (n : Node) : Prop where
  binary : n.kind = "binary_expression" → ∀ left sign right operator,
    n.children = [left, sign, right] → sign.text = some operator →
      (∀ o, left.operator? = some o → Grammar.Binds .left operator o) ∧
      ∀ o, right.operator? = some o → Grammar.Binds .right operator o
  unary : n.kind = "unary_expression" → ∀ c ∈ n.children, c.operator? = none
  base : n.kind = "call_expression" ∨ n.kind = "indexer" → ∀ c ∈ n.children.head?,
    c.operator? = none ∧ c.isUnary = false
  choice : n.kind = "if_statement" → (∃ k ∈ n.children, k.kind = "else") →
    ∀ body ∈ n.children[3]?, ¬ body.EndsOpen

end Node

/-! ### Layout -/

/-- The white space of the language. -/
def Grammar.whiteSpace : List Char := ['\t', '\n', '\x0b', '\x0c', '\r', ' ']

/-- The characters are the texts in order, with nothing but white space before, between and behind
them. -/
inductive Laid : List String → List Char → Prop where
  | nil {blanks : List Char} (white : ∀ c ∈ blanks, c ∈ Grammar.whiteSpace) : Laid [] blanks
  | cons {blanks rest : List Char} {text : String} {texts : List String}
      (white : ∀ c ∈ blanks, c ∈ Grammar.whiteSpace) (later : Laid texts rest) :
      Laid (text :: texts) (blanks ++ text.toList ++ rest)

/-- The characters are the texts in order, with some white space between any two neighbours. -/
inductive Spaced : List String → List Char → Prop where
  | nil : Spaced [] []
  | one (text : String) : Spaced [text] text.toList
  | cons {gap rest : List Char} {text next : String} {texts : List String} (inhabited : gap ≠ [])
      (white : ∀ c ∈ gap, c ∈ Grammar.whiteSpace) (later : Spaced (next :: texts) rest) :
      Spaced (text :: next :: texts) (text.toList ++ gap ++ rest)

end MethodLang
