import MethodLang.Position

/-!
Expressions as the grammar writes them, parentheses included.
-/
namespace MethodLang

inductive LiteralKind where
  | bool | str | char | hex | bits | dec
  deriving DecidableEq, Repr

/-- The kind's name in trees. -/
def LiteralKind.name : LiteralKind → String
  | .bool => "bool"
  | .str => "str"
  | .char => "char"
  | .hex => "hex"
  | .bits => "bits"
  | .dec => "dec"

inductive UnaryOp where
  | not | invert
  deriving DecidableEq, Repr

def UnaryOp.text : UnaryOp → String
  | .not => "!"
  | .invert => "~"

inductive BinaryOp where
  | assign
  | add | sub | mul | div | mod
  | or | and
  | bitOr | bitXor | bitAnd
  | eq | ne | gt | ge | le | lt
  | shl | shr
  deriving DecidableEq, Repr

namespace BinaryOp

def text : BinaryOp → String
  | .assign => ":="
  | .add => "+"
  | .sub => "-"
  | .mul => "*"
  | .div => "/"
  | .mod => "%"
  | .or => "||"
  | .and => "&&"
  | .bitOr => "|"
  | .bitXor => "^"
  | .bitAnd => "&"
  | .eq => "="
  | .ne => "!="
  | .gt => ">"
  | .ge => ">="
  | .le => "<="
  | .lt => "<"
  | .shl => "<<"
  | .shr => ">>"

/-- How tightly an operator binds; a higher level binds tighter. -/
def level : BinaryOp → Nat
  | .assign => 0
  | .or => 1
  | .and => 2
  | .bitOr => 3
  | .bitXor => 4
  | .bitAnd => 5
  | .eq | .ne => 6
  | .gt | .ge | .le | .lt => 7
  | .shl | .shr => 8
  | .add | .sub => 9
  | .mul | .div | .mod => 10

/-- The least level of an unparenthesised operator in the right operand. Assignment groups to the
right, all else to the left. -/
def rightLevel : BinaryOp → Nat
  | .assign => 0
  | op => op.level + 1

end BinaryOp

/-- The least level in the operand of a unary operator: no binary operator reaches it. -/
def UnaryOp.level : Nat := 11

theorem BinaryOp.level_lt_unary (op : BinaryOp) : op.level < UnaryOp.level := by
  cases op <;> decide

inductive Expr where
  | unary (op : UnaryOp) (operand : Expr)
  | binary (left : Expr) (op : BinaryOp) (right : Expr)
  | braces (inner : Expr)
  | call (callee : Expr) (args : List Expr)
  | indexer (base : Expr) (indices : List Expr)
  | place (name : String)
  | literal (kind : LiteralKind) (text : String)
  deriving Repr, Inhabited

end MethodLang
