import MethodLang.Grammar.Expr

/-!
Statements, declarations and whole sources as the grammar writes them.
-/
namespace MethodLang

/-- A written type. An array may carry commas between its brackets. -/
inductive TypeRef where
  | builtin (word : String)
  | custom (name : String)
  | array (commas : Nat) (element : TypeRef)
  deriving DecidableEq, Repr

/-- The words that name built-in types. -/
def TypeRef.builtinWords : List String :=
  ["bool", "byte", "int", "uint", "long", "ulong", "char", "string"]

/-- A break (`leave`) remembers where it stops, for the message about one outside any loop. -/
inductive Stmt where
  | ifThen (condition : Expr) (body : Stmt)
  | ifElse (condition : Expr) (body other : Stmt)
  | block (body : List Stmt)
  | whileDo (condition : Expr) (body : Stmt)
  | repeatWhile (body : Stmt) (condition : Expr)
  | repeatUntil (body : Stmt) (condition : Expr)
  | leave (stop : Position)
  | expr (e : Expr)
  deriving Repr, Inhabited

structure ArgDef where
  name : String
  type : Option TypeRef
  deriving DecidableEq, Repr

/-- One group of a `var` section; names and type may both be left out. -/
structure VarGroup where
  names : List String
  type : Option TypeRef
  deriving DecidableEq, Repr

structure Signature where
  name : String
  args : List ArgDef
  result : Option TypeRef
  deriving DecidableEq, Repr

/-- No `var` section is not the same as an empty one. -/
structure Body where
  vars : Option (List VarGroup)
  block : List Stmt
  deriving Repr

/-- A declaration has no body. -/
structure Method where
  signature : Signature
  body : Option Body
  deriving Repr

abbrev Source := List Method

end MethodLang
