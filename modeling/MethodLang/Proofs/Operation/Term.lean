import MethodLang.Proofs.Flow.Fragment
import MethodLang.Proofs.Grammar.Spelling

/-!
Operation trees as terms. Lowering gives only trees of a few forms: a term for a value, and a
directive for the root of a tree, which may also assign. The labels are read back from a term's
names, so that proofs about operations follow the term and never cut texts apart.
-/
namespace MethodLang

open Operation

def LiteralKind.isNumber : LiteralKind → Bool
  | .hex | .bits | .dec => true
  | .bool | .str | .char => false

/-- An operator that works out a value: any but the assignment. -/
abbrev Operator := { op : BinaryOp // op ≠ .assign }

/-- An operation that gives a value. The array in front of an index is loaded under its name with
empty brackets. -/
inductive Term where
  | literal (kind : LiteralKind) (text : String)
  | load (name : String)
  | call (function : String) (args : List Term)
  | index (base position : Term)
  | binary (op : Operator) (left right : Term)
  | unary (op : UnaryOp) (operand : Term)

/-- The operation of a whole tree. -/
inductive Directive where
  | value (e : Term)
  | store (name : String) (value : Term)
  | storeAt (array : String) (indices : List Term) (value : Term)

/-- Induction over terms, with the hypothesis for every argument of a call. -/
@[elab_as_elim]
theorem Term.induction {P : Term → Prop}
    (literal : ∀ kind text, P (.literal kind text)) (load : ∀ name, P (.load name))
    (call : ∀ function args, (∀ e ∈ args, P e) → P (.call function args))
    (index : ∀ base position, P base → P position → P (.index base position))
    (binary : ∀ op left right, P left → P right → P (.binary op left right))
    (unary : ∀ op operand, P operand → P (.unary op operand)) (e : Term) : P e :=
  @Term.rec P (fun args => ∀ e ∈ args, P e) literal load call index binary unary
    (List.forall_mem_nil _)
    (fun _ _ first rest => List.forall_mem_cons.mpr ⟨first, rest⟩)
    e

namespace Term

def label : Term → String
  | .literal kind text => "const(" ++ kind.name ++ "(" ++ text ++ "))"
  | .load name => "load(" ++ name ++ ")"
  | .call function _ => "call(" ++ function ++ ")"
  | .index _ _ => "index"
  | .binary op _ _ => op.1.text
  | .unary op _ => op.text

def children : Term → List Term
  | .literal _ _ | .load _ => []
  | .call _ args => args
  | .index base position => [base, position]
  | .binary _ left right => [left, right]
  | .unary _ operand => [operand]

mutual
def tree : Term → Operation
  | .literal kind text => leaf (label (.literal kind text))
  | .load name => leaf (label (.load name))
  | .call function args => make (label (.call function args)) (trees args)
  | .index base position => make "index" [base.tree, position.tree]
  | .binary op left right => make op.1.text [left.tree, right.tree]
  | .unary op operand => make op.text [operand.tree]

def trees : List Term → List Operation
  | [] => []
  | e :: es => e.tree :: trees es
end

theorem trees_eq_map (es : List Term) : trees es = es.map tree := by
  induction es with
  | nil => rfl
  | cons e es ih => rw [trees, ih, List.map_cons]

theorem tree_eq (e : Term) : e.tree = make e.label (e.children.map tree) := by
  cases e <;> simp [tree, children, trees_eq_map, label, leaf]

/-- Whether a term can stand in front of an index. -/
def isPlace : Term → Bool
  | .load _ | .index _ _ => true
  | _ => false

mutual
/-- The names and literals in the labels of a term are those of a source, and only places are
indexed. -/
def Spelled : Term → Prop
  | .literal kind text => kind.Spells text
  | .load name => ∃ x, IsName x ∧ (name = x ∨ name = x ++ "[]")
  | .call function args => IsName function ∧ AllSpelled args
  | .index base position => base.isPlace ∧ base.Spelled ∧ position.Spelled
  | .binary _ left right => left.Spelled ∧ right.Spelled
  | .unary _ operand => operand.Spelled

def AllSpelled : List Term → Prop
  | [] => True
  | e :: es => e.Spelled ∧ AllSpelled es
end

theorem allSpelled_iff {es : List Term} : AllSpelled es ↔ ∀ e ∈ es, e.Spelled := by
  induction es with
  | nil => simp [AllSpelled]
  | cons e es ih => simp [AllSpelled, ih]

theorem Spelled.children {e : Term} (spelled : e.Spelled) : ∀ x ∈ e.children, x.Spelled := by
  cases e with
  | literal | load => exact List.forall_mem_nil _
  | call function args => exact allSpelled_iff.mp spelled.2
  | index base position => simpa [Term.children, Spelled] using spelled.2
  | binary op left right | unary op operand => simpa [Term.children, Spelled] using spelled

/-- Induction over terms by their children. -/
theorem children_induction {P : Term → Prop} (step : ∀ e, (∀ x ∈ e.children, P x) → P e)
    (e : Term) : P e := by
  induction e using Term.induction with
  | literal kind text | load name => exact step _ (List.forall_mem_nil _)
  | call function args ih => exact step _ ih
  | index base position ihb ihp => exact step _ (by simp [Term.children, ihb, ihp])
  | binary op left right ihl ihr => exact step _ (by simp [Term.children, ihl, ihr])
  | unary op operand ih => exact step _ (by simp [Term.children, ih])

end Term

namespace Directive

def label : Directive → String
  | .value e => e.label
  | .store name _ => "store(" ++ name ++ ")"
  | .storeAt array _ _ => "store_at(" ++ array ++ ")"

/-- The terms right below the root. -/
def children : Directive → List Term
  | .value e => e.children
  | .store _ right => [right]
  | .storeAt _ indices right => indices ++ [right]

def tree (c : Directive) : Operation := make c.label (c.children.map Term.tree)

def Spelled : Directive → Prop
  | .value e => e.Spelled
  | .store name right => IsName name ∧ right.Spelled
  | .storeAt array indices right => IsName array ∧ (∀ e ∈ indices, e.Spelled) ∧ right.Spelled

end Directive

/-! ### Lowering -/

/-- The terms of the indices, each applied to the result of those before it. -/
def Term.indexed (array : String) (indices : List Term) : Term :=
  indices.foldl .index (.load (array ++ "[]"))

theorem Term.indexed_tree (array : String) (indices : List Term) :
    (Term.indexed array indices).tree = Operation.indexed array (indices.map Term.tree) := by
  suffices step : ∀ base : Term, (indices.foldl .index base).tree =
      (indices.map Term.tree).foldl (fun base i => make "index" [base, i]) base.tree by
    have base : (Term.load (array ++ "[]")).tree = leaf ("load(" ++ array ++ "[])") := by
      simp [tree, label, leaf, String.append_assoc]
    rw [indexed, step, base]
    rfl
  induction indices with
  | nil => exact fun _ => rfl
  | cons i is ih => exact fun base => ih (.index base i)

/-- The variable that an expression consists of. -/
def Expr.place? : Expr → Option String
  | .place name => some name
  | _ => none

mutual
/-- The term of an expression that assigns nothing. -/
def Expr.term? : Expr → Option Term
  | .literal kind text => some (.literal kind text)
  | .place name => some (.load name)
  | .braces inner => inner.term?
  | .unary op operand => operand.term?.map (.unary op)
  | .binary left op right =>
    if h : op = .assign then none
    else do
      let l ← left.term?
      let r ← right.term?
      some (.binary ⟨op, h⟩ l r)
  | .call callee args => do
    let function ← callee.place?
    (Expr.terms? args).map (.call function)
  | .indexer base indices => do
    let array ← base.place?
    (Expr.terms? indices).map (Term.indexed array)

def Expr.terms? : List Expr → Option (List Term)
  | [] => some []
  | e :: es => do
    let t ← e.term?
    let ts ← Expr.terms? es
    some (t :: ts)
end

/-- The directive of an expression: an assignment may stand at its root only. -/
def Expr.directive? : Expr → Option Directive
  | .braces inner => inner.directive?
  | .binary left .assign right => do
    let value ← right.term?
    match left with
    | .place name => some (.store name value)
    | .indexer base indices => do
      let array ← base.place?
      let indices ← Expr.terms? indices
      some (.storeAt array indices value)
    | _ => none
  | e => e.term?.map .value

end MethodLang
