import MethodLang.Grammar.Node

/-!
Sample programs. The full program uses every construct of the language; the others hold errors of
one kind each. They are written as trees and not as texts, so that they may group expressions as
no text does.
-/
namespace MethodLang.Sample

namespace Term

def number (n : Nat) : Expr := .literal .dec (toString n)

def name (n : String) : Expr := .place n

def truth (b : Bool) : Expr := .literal .bool (if b then "true" else "false")

def binary (op : BinaryOp) (left right : Expr) : Expr := .binary left op right

def call (function : String) (args : List Expr) : Expr := .call (name function) args

def item (array : String) (index : Expr) : Expr := .indexer (name array) [index]

def assign (target value : Expr) : Expr := .binary target .assign value

end Term

open Term

/-- The statement that assigns a value. -/
def put (target value : Expr) : Stmt := .expr (assign target value)

def int : TypeRef := .builtin "int"

def arrayOf (element : String) : TypeRef := .array 0 (.builtin element)

def group (n : String) (type : TypeRef) : VarGroup := ⟨[n], some type⟩

def arg (n : String) (type : TypeRef) : ArgDef := ⟨n, some type⟩

def method (n : String) (args : List ArgDef) (result : Option TypeRef)
    (vars : Option (List VarGroup)) (block : List Stmt) : Method :=
  ⟨⟨n, args, result⟩, some ⟨vars, block⟩⟩

/-- A method without arguments and result. -/
def procedure (n : String) (vars : Option (List VarGroup)) (block : List Stmt) : Method :=
  method n [] none vars block

def sendByte (e : Expr) : Expr := call "send_byte" [e]

/-- Arrays, all loops, a break, all operators and branches. -/
def helper : Method :=
  let i := name "i"
  let u := name "u"
  let a := name "a"
  let b := name "b"
  method "helper" [arg "a" int, arg "b" int] (some int)
    (some [group "i" int, group "u" (.builtin "uint"), group "arr" (arrayOf "int"),
      group "barr" (arrayOf "byte"), group "larr" (arrayOf "long")]) [
    put (name "arr") (call "int" [number 4]),
    put (name "barr") (call "byte" [number 4]),
    put (name "larr") (call "long" [number 2]),
    put (item "arr" (number 0)) (binary .add a (number 1)),
    put (item "barr" (number 0)) (.literal .hex "0x7F"),
    put (item "larr" (number 0)) (call "int_to_long" [number 1]),
    put i (number 0),
    .whileDo (binary .lt i (number 3)) (.block [
      put i (binary .add i (number 1)),
      .ifThen (binary .ge i b) (.leave .start)]),
    .repeatUntil (put i (binary .sub i (number 1))) (binary .le i (number 0)),
    .repeatWhile (put i (binary .mul i (number 2))) (binary .lt i (number 2)),
    put u (binary .bitOr (binary .bitAnd u (.literal .hex "0x0F"))
      (binary .bitXor u (.literal .bits "0b1010"))),
    put u (binary .shl (.unary .invert u) (number 1)),
    .ifElse (binary .and (binary .or (binary .eq a b) (binary .ne a (number 0)))
        (.unary .not (truth false)))
      (put (name "helper") (.braces (binary .div (binary .mod a (number 7)) (number 2))))
      (put (name "helper") (binary .shr (item "arr" i) (number 1))),
    .ifThen (binary .gt u (number 0)) (.expr (sendByte (call "int_to_byte" [a])))]

/-- Arguments that are set and read. -/
def arguments : Method :=
  let p := name "p"
  method "param_fn" [arg "p" int, arg "pu" (.builtin "uint"), arg "pa" (arrayOf "int")] none none [
    put p (binary .add p (number 1)),
    put (item "pa" (number 0)) p,
    .ifThen (binary .gt (name "pu") (number 0))
      (.expr (sendByte (call "int_to_byte" [item "pa" (number 0)])))]

/-- Strings and characters. -/
def strings : Method :=
  procedure "str_fn" (some [group "s" (.builtin "string"), group "c" (.builtin "char")]) [
    put (name "s") (.literal .str "\"hi!\""),
    put (name "c") (.literal .char "'A'"),
    .expr (sendByte (item "s" (number 0)))]

def extraName (k : Nat) : String := "fx" ++ toString k

/-- A small function, one of any number. -/
def extra (k : Nat) : Method :=
  method (extraName k) [arg "p" int] (some int) (some [group "t" int]) [
    put (name "t") (binary .add (name "p") (number k)),
    put (name (extraName k)) (name "t")]

/-- The most small functions that the main method calls. -/
def extraCalls : Nat := 8

def fullMain (n : Nat) : Method :=
  let r := name "r"
  procedure "main" (some [group "r" int, group "b" (.builtin "byte")]) ([
    put r (call "helper" [number 1, number 2]),
    .expr (call "str_fn" []),
    put (name "b") (call "read_byte" [])] ++
    (List.range (min n extraCalls)).map fun k => put r (call (extraName k) [r]))

/-- A program without errors, with `n` small functions. -/
def full (n : Nat) : Source :=
  [helper, arguments, strings] ++ (List.range n).map extra ++ [fullMain n]

/-- One error of types in each statement. -/
def illTyped : Method :=
  let a := name "a"
  let u := name "u"
  let x := name "x"
  let bo := name "bo"
  let send := sendByte (number 1)
  method "bad" [arg "a" int, arg "u" (.builtin "uint")] none
    (some [group "x" int, group "bo" (.builtin "bool"), group "arr" (arrayOf "int")]) [
    put x (binary .add a u),
    put (name "zz") (number 1),
    put x (item "a" (number 0)),
    put x (item "arr" (truth true)),
    put (item "arr" (truth true)) (truth false),
    put (item "a" (number 0)) (number 1),
    put bo (binary .and a u),
    put bo (.unary .not a),
    put x (.unary .invert bo),
    .expr (call "nosuch" [a]),
    .expr (call "send_byte" []),
    .expr (sendByte (truth true)),
    put x send,
    .expr (binary .add send (number 2)),
    put x (item "arr" send),
    put (item "arr" send) send,
    .expr (.unary .not send),
    .expr (.unary .invert send),
    put x (truth true),
    put (item "zz" (number 0)) (number 1)]

/-- A method with an addition of two types. -/
def mixedSum (k : Nat) : Method :=
  method ("e" ++ toString k) [arg "a" int, arg "u" (.builtin "uint")] none none
    [.expr (binary .add (name "a") (name "u"))]

/-- Errors of types in `n + 1` methods. -/
def typeErrors (n : Nat) : Source :=
  [illTyped, procedure "main" none [.expr (call "bad" [number 1, number 2])]] ++
    (List.range n).map mixedSum

/-- Declarations that the checker does not take. -/
def structuralErrors : Source :=
  let holding (n : String) (type : TypeRef) : Method :=
    procedure n (some [group "m" type]) []
  [method "cst" [] (some (.custom "MyType")) none [],
    holding "mda" (.array 2 int),
    holding "aoa" (.array 0 (arrayOf "int")),
    holding "aos" (arrayOf "string"),
    holding "aoc" (.array 0 (.custom "Foo")),
    procedure "nvt" (some [⟨["q"], none⟩]) [],
    procedure "dupv" (some [⟨["d", "d"], some int⟩]) [],
    method "dupa" [arg "p" int, arg "p" int, ⟨"q", none⟩] none none [],
    procedure "send_byte" none [],
    procedure "main" none []]

/-- Assignments where none may stand. -/
def misplacedAssignments : Method :=
  let x := name "x"
  let nested := assign x (number 1)
  procedure "badassign" none [
    put (number 1) (number 2),
    put (.indexer (number 1) [number 0]) (number 2),
    .expr (binary .add (number 1) nested),
    .expr (.unary .not nested),
    .expr (call "foo" [nested]),
    .expr (item "arr" nested),
    put x (assign (name "y") (number 1)),
    put (item "arr" nested) (number 2)]

/-- The methods of the broken program. -/
def brokenMethods : Source :=
  [procedure "oops" none [.leave .start],
    misplacedAssignments,
    ⟨⟨"decl_only", [arg "a" int], some int⟩, none⟩,
    procedure "caller" none [.expr (call "missing_fn" []), .expr (sendByte (number 1))],
    procedure "main" none []]

end MethodLang.Sample
