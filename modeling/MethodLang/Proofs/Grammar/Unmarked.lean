import MethodLang.Proofs.Operation.Lowering

/-!
Nodes of written sources carry no marks: nothing in them is missing and nothing is an error
(`Source.node_unmarked`).
-/
namespace MethodLang

open Node

namespace Node

/-- Neither the node nor any below it is marked. -/
def Unmarked (n : Node) : Prop := n.flaws = []

theorem flawsAll_eq_flatMap (ns : List Node) : flawsAll ns = ns.flatMap flaws := by
  induction ns with
  | nil => rfl
  | cons n ns ih => rw [flawsAll, ih, List.flatMap_cons]

@[simp] theorem unmarked_branch (kind : String) (ns : List Node) :
    (branch kind ns).Unmarked ↔ ∀ n ∈ ns, n.Unmarked := by
  simp [Unmarked, branch, flaws, flawsAll_eq_flatMap]

@[simp] theorem unmarked_as (field : String) (n : Node) : (n.as field).Unmarked ↔ n.Unmarked := by
  cases n
  exact Iff.rfl

@[simp] theorem unmarked_leaf (kind text : String) : (leaf kind text).Unmarked := rfl

@[simp] theorem unmarked_token (text : String) : (token text).Unmarked := rfl

@[simp] theorem unmarked_commaSeparated (ns : List Node) :
    (∀ n ∈ commaSeparated ns, n.Unmarked) ↔ ∀ n ∈ ns, n.Unmarked := by
  fun_induction commaSeparated ns with
  | case1 => rfl
  | case2 => rfl
  | case3 n ns _ ih => simp [ih]

end Node

theorem Expr.node_unmarked (e : Expr) : e.node.Unmarked := by
  have list {es : List Expr} (each : ∀ e ∈ es, e.node.Unmarked) :
      ∀ n ∈ exprListNodes (Expr.nodes es), n.Unmarked := by
    cases es with
    | nil => exact List.forall_mem_nil _
    | cons e es => simpa [Expr.nodes_eq_map, exprListNodes] using each
  induction e using Expr.induction with
  | place name => simp [Expr.node, identifierNode]
  | literal kind text => cases kind <;> simp [Expr.node, literalNode]
  | unary op operand ih => simp [Expr.node, ih]
  | binary left op right ihl ihr => simp [Expr.node, ihl, ihr]
  | braces inner ih => simp [Expr.node, ih]
  | call callee args ihc iha => simpa [Expr.node, ihc, or_imp, forall_and] using list iha
  | indexer base indices ihb ihi => simpa [Expr.node, ihb, or_imp, forall_and] using list ihi

theorem TypeRef.node_unmarked (t : TypeRef) : t.node.Unmarked := by
  induction t with
  | builtin word => simp [TypeRef.node]
  | custom name => simp [TypeRef.node, identifierNode]
  | array commas element ih => simp [TypeRef.node, ih, or_imp, forall_and]

theorem typeClause_unmarked (type : Option TypeRef) : ∀ n ∈ typeClauseNodes type, n.Unmarked := by
  cases type with
  | none => exact List.forall_mem_nil _
  | some t => simp [typeClauseNodes, t.node_unmarked]

theorem blockNode_unmarked {body : List Stmt} (each : ∀ s ∈ body, s.node.Unmarked) :
    (blockNode body).Unmarked := by
  simpa [blockNode, blockAround, Stmt.nodes_eq_map, or_imp, forall_and] using each

theorem Stmt.node_unmarked (s : Stmt) : s.node.Unmarked := by
  induction s using Stmt.induction with
  | expr e => simp [Stmt.node, e.node_unmarked]
  | leave stop => rfl
  | block body ih => simpa [Stmt.node, blockNode] using blockNode_unmarked ih
  | ifThen c body ih => simp [Stmt.node, c.node_unmarked, ih]
  | ifElse c body other ihb iho => simp [Stmt.node, c.node_unmarked, ihb, iho]
  | whileDo c body ih | repeatWhile body c ih | repeatUntil body c ih =>
    simp [Stmt.node, c.node_unmarked, ih]

theorem VarGroup.nodes_unmarked (group : VarGroup) : ∀ n ∈ group.nodes, n.Unmarked := by
  have clause := typeClause_unmarked group.type
  unfold VarGroup.nodes
  split <;> simpa [or_imp, forall_and, identifierNode] using clause

theorem Signature.node_unmarked (s : Signature) : s.node.Unmarked := by
  have clause := typeClause_unmarked s.result
  have args : ∀ arg : ArgDef, arg.node.Unmarked := fun arg => by
    simpa [ArgDef.node, identifierNode] using typeClause_unmarked arg.type
  unfold Signature.node
  split <;> simpa [or_imp, forall_and, identifierNode, args] using clause

theorem Body.node_unmarked (body : Body) : body.node.Unmarked := by
  have block := blockNode_unmarked fun s (_ : s ∈ body.block) => s.node_unmarked
  unfold Body.node
  cases body.vars with
  | none => simpa using block
  | some groups =>
    have vars := fun n group (_ : group ∈ groups) => VarGroup.nodes_unmarked group n
    simpa [or_imp, forall_and, block] using vars

theorem Method.node_unmarked (m : Method) : m.node.Unmarked := by
  unfold Method.node
  cases m.body <;> simp [Signature.node_unmarked, Body.node_unmarked]

/-- A written source has no marks. -/
theorem Source.node_unmarked (source : Source) : (Source.node source).Unmarked := by
  simp [Source.node, Method.node_unmarked]

end MethodLang
