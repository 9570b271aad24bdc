import MethodLang.Proofs.Operation.Lowering

/-!
Views of declarations. The view of a method is put together from the views of its signature and
its body, down to the types they write.
-/
namespace MethodLang

open Node

/-- The view of a written type. -/
def TypeRef.view (t : TypeRef) : View := (t.node.as "typeRef").viewIn false

theorem TypeRef.view_builtin (word : String) : (TypeRef.builtin word).view =
    .node "typeRef" (some .start) [.node "builtin" (some .start) [tokenView word]] := rfl

theorem TypeRef.view_custom (name : String) : (TypeRef.custom name).view =
    .node "typeRef" (some .start) [.node "custom" (some .start) [tokenView name]] := rfl

/-- A type inside another is not a field of it, but has the same label. -/
theorem TypeRef.node_viewIn (t : TypeRef) : t.node.viewIn false = t.view := by cases t <;> rfl

theorem TypeRef.view_array (commas : Nat) (element : TypeRef) :
    (TypeRef.array commas element).view = .node "typeRef" (some .start)
      [.node "array" (some .start) (tokenView "array" :: tokenView "[" ::
        List.replicate commas (tokenView ",") ++
          [tokenView "]", tokenView "of", element.view])] := by
  have inner : ((branch "array" (token "array" :: token "[" :: List.replicate commas (token ",") ++
      [token "]", token "of", element.node])).as "array").viewIn false =
        .node "array" (some .start) _ := view_branch rfl rfl (by simp)
  have outer : (TypeRef.array commas element).view = .node "typeRef" (some .start)
      [((branch "array" (token "array" :: token "[" :: List.replicate commas (token ",") ++
        [token "]", token "of", element.node])).as "array").viewIn false] := rfl
  rw [outer, inner, List.map_append, List.map_cons, List.map_cons, List.map_replicate]
  simp only [List.map_cons, List.map_nil, element.node_viewIn]
  rfl

/-- The views of a type clause. -/
def clauseViews : Option TypeRef → List View
  | none => []
  | some type => [tokenView ":", type.view]

theorem viewIn_clause (type : Option TypeRef) :
    (typeClauseNodes type).map (viewIn false) = clauseViews type := by
  cases type <;> rfl

/-- The view of a list with commas. -/
theorem viewIn_list (kind field : String) (plain : requiredList kind = none)
    (named : field.isEmpty = false) (n : Node) (ns : List Node) :
    ((branch kind (commaSeparated (n :: ns))).as field).viewIn false =
      .node (shownField field) (some .start) (commaViews ((n :: ns).map (viewIn false))) := by
  have inner : commaSeparated (n :: ns) ≠ [] := by cases ns <;> simp [commaSeparated]
  rw [view_branch plain named inner, viewIn_commaSeparated]

/-- The view of a declared name. -/
def nameView (name : String) : View := .node "identifier" (some .start) [tokenView name]

def ArgDef.view (arg : ArgDef) : View :=
  .node "argDef" (some .start) (nameView arg.name :: clauseViews arg.type)

theorem ArgDef.node_viewIn (arg : ArgDef) : (arg.node.as "argDef").viewIn false = arg.view := by
  rw [ArgDef.node, view_branch rfl rfl (List.cons_ne_nil _ _), List.map_cons, viewIn_clause]
  rfl

/-- The view of the list of arguments, which may be empty. -/
def argsView : List ArgDef → View
  | [] => .node "list<argDef>" none []
  | a :: as => .node "list<argDef>" (some .start) (commaViews ((a :: as).map ArgDef.view))

def Signature.view (s : Signature) : View :=
  .node "funcSignature" (some .start) (nameView s.name :: tokenView "(" :: argsView s.args ::
    tokenView ")" :: clauseViews s.result)

theorem Signature.node_viewIn (s : Signature) :
    (s.node.as "funcSignature").viewIn false = s.view := by
  obtain ⟨name, args, result⟩ := s
  cases args with
  | nil =>
    cases result with
    | none => rfl
    | some type => cases type <;> rfl
  | cons a as =>
    have list := viewIn_list "list_argDef" "list_argDef" rfl rfl (a.node.as "argDef")
      (as.map fun a => a.node.as "argDef")
    have items : (a.node.as "argDef" :: as.map fun a => a.node.as "argDef").map (viewIn false) =
        (a :: as).map ArgDef.view := by
      rw [List.map_cons, List.map_map, a.node_viewIn, List.map_cons]
      exact congrArg (a.view :: ·) (List.map_congr_left fun a _ => a.node_viewIn)
    rw [items] at list
    rw [Signature.view, argsView, ← show shownField "list_argDef" = "list<argDef>" from rfl, ← list]
    cases result with
    | none => rfl
    | some type => cases type <;> rfl

/-- The views of one group of a `var` section. -/
def VarGroup.views (group : VarGroup) : List View :=
  (if group.names.isEmpty then []
    else [.node "list<identifier>" (some .start) (commaViews (group.names.map nameView))]) ++
    clauseViews group.type ++ [tokenView ";"]

theorem VarGroup.nodes_viewIn (group : VarGroup) :
    group.nodes.map (viewIn false) = group.views := by
  obtain ⟨names, type⟩ := group
  unfold VarGroup.nodes VarGroup.views
  rw [List.map_append, List.map_append, viewIn_clause]
  cases names with
  | nil => rfl
  | cons n ns =>
    have list := viewIn_list "list_identifier" "list_identifier" rfl rfl
      ((identifierNode n).as "identifier") (ns.map fun n => (identifierNode n).as "identifier")
    rw [List.map_cons, List.map_map] at list
    exact congrArg (fun views => [views] ++ clauseViews type ++ [tokenView ";"]) list

/-- The views in front of a body's block. -/
def varViews : Option (List VarGroup) → List View
  | none => []
  | some groups => tokenView "var" :: groups.flatMap VarGroup.views

def Body.view (body : Body) : View :=
  .node "body" (some .start)
    (varViews body.vars ++ [.node "statment.block" (some .start) (blockViews body.block)])

theorem Body.node_viewIn (body : Body) : (body.node.as "body").viewIn false = body.view := by
  have block := blockNode_view "statment_block" rfl body.block
  have groups (groups : List VarGroup) : (groups.flatMap VarGroup.nodes).map (viewIn false) =
      groups.flatMap VarGroup.views := by
    rw [List.map_flatMap]
    exact congrArg (groups.flatMap ·) (funext VarGroup.nodes_viewIn)
  rw [Body.node, view_branch rfl rfl (by simp), List.map_append, List.map_singleton, block]
  rw [Body.view]
  cases body.vars with
  | none => rfl
  | some gs =>
    rw [List.map_cons, groups]
    rfl

theorem Method.view_eq (m : Method) : m.view = .node "sourceItem" (some .start)
    [.node "funcDef" (some .start) [tokenView "method", m.signature.view,
      match m.body with
      | some body => body.view
      | none => tokenView ";"]] := by
  have outer : m.view = .node "sourceItem" (some .start) [(m.node.as "funcDef").viewIn false] := rfl
  rw [outer, Method.node, view_branch rfl rfl (by simp), List.map_cons, List.map_cons,
    m.signature.node_viewIn]
  cases m.body with
  | none => rfl
  | some body => simp only [List.map_cons, List.map_nil, body.node_viewIn]; rfl

end MethodLang
