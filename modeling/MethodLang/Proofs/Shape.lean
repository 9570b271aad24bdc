import MethodLang.View

/-!
Views of written syntax. The view of a construct is put together from the views of its parts, so
that proofs about what is done with views follow the syntax and never look at parse nodes.
-/
namespace MethodLang

open Node

/-- Induction over statements, with the hypothesis for every statement of a block. -/
@[elab_as_elim]
theorem Stmt.induction {P : Stmt → Prop}
    (expr : ∀ e, P (.expr e)) (leave : ∀ stop, P (.leave stop))
    (block : ∀ body, (∀ s ∈ body, P s) → P (.block body))
    (ifThen : ∀ c body, P body → P (.ifThen c body))
    (ifElse : ∀ c body other, P body → P other → P (.ifElse c body other))
    (whileDo : ∀ c body, P body → P (.whileDo c body))
    (repeatWhile : ∀ body c, P body → P (.repeatWhile body c))
    (repeatUntil : ∀ body c, P body → P (.repeatUntil body c)) (s : Stmt) : P s :=
  @Stmt.rec P (fun body => ∀ s ∈ body, P s)
    ifThen ifElse block whileDo repeatWhile repeatUntil leave expr
    (fun _ h => nomatch h)
    (fun s body first rest t ht => by
      rcases List.mem_cons.mp ht with rfl | later
      · exact first
      · exact rest t later)
    s

namespace Stmt

mutual
/-- The expressions of a statement. -/
def exprs : Stmt → List Expr
  | .expr e => [e]
  | .leave _ => []
  | .block body => exprsAll body
  | .ifThen c body | .whileDo c body => c :: body.exprs
  | .ifElse c body other => c :: body.exprs ++ other.exprs
  | .repeatWhile body c | .repeatUntil body c => body.exprs ++ [c]

def exprsAll : List Stmt → List Expr
  | [] => []
  | s :: ss => s.exprs ++ exprsAll ss
end

end Stmt

/-- The view of a keyword or sign. -/
def tokenView (text : String) : View := .node ("\"" ++ text ++ "\"") (some .start) []

/-- The view of an expression, in whichever place it stands. -/
def Expr.view (e : Expr) : View := (e.node.as "expr").viewIn false

/-- The view of a statement, in whichever place it stands. -/
def Stmt.view (s : Stmt) : View := (s.node.as "statement").viewIn false

/-- The view of a method among the items of a source. -/
def Method.view (m : Method) : View :=
  ((branch "sourceItem" [m.node.as "funcDef"]).as "sourceItem").viewIn false

/-- An expression has the same label in all its places. -/
theorem Expr.view_label (e : Expr) : e.view.label = "expr" := by cases e <;> rfl

theorem Node.viewAll_eq_map (ns : List Node) :
    viewAll ns = ns.map fun n => (n, n.viewIn false) := by
  induction ns with
  | nil => rfl
  | cons n ns ih => rw [viewAll, ih, List.map_cons]

theorem Stmt.nodes_eq_map (body : List Stmt) :
    Stmt.nodes body = body.map fun s => s.node.as "statement" := by
  induction body with
  | nil => rfl
  | cons s ss ih => rw [Stmt.nodes, ih, List.map_cons]

/-- The children of a block's view. -/
def blockViews (body : List Stmt) : List View :=
  tokenView "begin" :: body.map Stmt.view ++ [tokenView "end", tokenView ";"]

/-- A node that needs no list has the views of its children. -/
theorem Node.view_branch {kind field : String} {children : List Node}
    (plain : requiredList kind = none) (named : field.isEmpty = false) (inner : children ≠ []) :
    ((branch kind children).as field).viewIn false =
      .node (shownField field) (some .start) (children.map (viewIn false)) := by
  obtain ⟨c, cs, rfl⟩ := List.exists_cons_of_ne_nil inner
  have shown : ((branch kind (c :: cs)).as field).viewIn false =
      .node (if field.isEmpty then shownField kind else shownField field) (some .start)
        (withEmptyList (emptyList? kind (c :: cs)) (viewAll (c :: cs))) := rfl
  have unlisted : emptyList? kind (c :: cs) = none := by simp only [emptyList?, plain]
  rw [shown, unlisted, viewAll_eq_map, named]
  simp [withEmptyList]

theorem blockNode_view (field : String) (named : field.isEmpty = false) (body : List Stmt) :
    ((blockNode body).as field).viewIn false =
      .node (shownField field) (some .start) (blockViews body) := by
  have views : (token "begin" :: Stmt.nodes body ++ [token "end", token ";"]).map (viewIn false) =
      blockViews body := by
    rw [Stmt.nodes_eq_map, List.map_append, List.map_cons, List.map_map]
    rfl
  rw [blockNode, blockAround, view_branch rfl named (by simp), views]

/-- The view of a method with a body ends in the view of the body, and that in its block. -/
theorem Method.view_body {m : Method} {body : Body} (has : m.body = some body) :
    ∃ first signature before, m.view = .node "sourceItem" (some .start)
      [.node "funcDef" (some .start) [first, signature, .node "body" (some .start)
        (before ++ [.node "statment.block" (some .start) (blockViews body.block)])]] := by
  have block := blockNode_view "statment_block" rfl body.block
  have inner : (body.node.as "body").viewIn false = .node "body" (some .start) _ :=
    view_branch rfl rfl (by simp)
  have outer : m.view = .node "sourceItem" (some .start)
      [.node "funcDef" (some .start) [(token "method").viewIn false,
        (m.signature.node.as "funcSignature").viewIn false,
        (body.node.as "body").viewIn false]] := by
    unfold Method.view Method.node
    rw [has]
    rfl
  rw [inner, List.map_append, List.map_singleton, block] at outer
  exact ⟨_, _, _, outer⟩

/-- A statement's view holds the view of the construct that it consists of. -/
theorem Stmt.view_block (body : List Stmt) :
    (Stmt.block body).view = .node "statement" (some .start)
      [.node "block" (some .start) (blockViews body)] :=
  congrArg (fun inner => Tree.node "statement" (some Position.start) [inner])
    (blockNode_view "block" rfl body)

end MethodLang
