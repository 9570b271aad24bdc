import MethodLang.Proofs.Grammar.Inversion

/-!
Completeness of parsing. A tree that instantiates the grammar, obeys its precedences and quotes no
null character is parsed back from its leaves with single spaces between them
(`parseSource_complete`). A null character may be quoted by the rules, but is never scanned
(`null_quoted_refused`).
-/
namespace MethodLang

open Node

/-! ### Trees without positions -/

namespace Node

@[simp] theorem kind_unplaced (n : Node) : n.unplaced.kind = n.kind := by
  cases n
  rfl

@[simp] theorem text_unplaced (n : Node) : n.unplaced.text = n.text := by
  cases n
  rfl

@[simp] theorem children_unplaced (n : Node) : n.unplaced.children = n.children.map unplaced := by
  rw [unplaced_eq]
  rfl

@[simp] theorem unplaced_leaf (kind text : String) : (leaf kind text).unplaced = leaf kind text :=
  rfl

@[simp] theorem unplaced_token (text : String) : (token text).unplaced = token text := rfl

@[simp] theorem unplaced_as (name : String) (n : Node) :
    (n.as name).unplaced = n.unplaced.as name := by
  cases n
  rfl

@[simp] theorem unplaced_stoppingAt (stop : Position) (n : Node) :
    (n.stoppingAt stop).unplaced = n.unplaced := by
  cases n
  rfl

@[simp] theorem unplaced_branch (kind : String) (ns : List Node) :
    (branch kind ns).unplaced = branch kind (ns.map unplaced) := by
  rw [unplaced_eq]
  rfl

@[simp] theorem map_unplaced_commaSeparated (ns : List Node) :
    (commaSeparated ns).map unplaced = commaSeparated (ns.map unplaced) := by
  fun_induction commaSeparated ns with
  | case1 => rfl
  | case2 => rfl
  | case3 n ns more ih =>
    cases ns with
    | nil => exact absurd rfl more
    | cons next ns => simpa [commaSeparated] using ih

theorem unplaced_unplaced (n : Node) : n.unplaced.unplaced = n.unplaced := by
  induction n using Node.induction with | step n ih =>
  have below : n.children.map (unplaced ∘ unplaced) = n.children.map unplaced :=
    List.map_congr_left fun c inside => ih c (sizeOf_child inside)
  cases n
  simp only [unplaced, unplacedAll_eq_map, List.map_map]
  exact congrArg _ below

theorem leafTexts_unplaced (n : Node) : n.unplaced.leafTexts = n.leafTexts := by
  induction n using Node.induction with | step n ih =>
  have each : ∀ c ∈ n.children, c.unplaced.leafTexts = c.leafTexts :=
    fun c inside => ih c (sizeOf_child inside)
  have all {ns : List Node} (each : ∀ c ∈ ns, c.unplaced.leafTexts = c.leafTexts) :
      leafTextsAll (ns.map unplaced) = leafTextsAll ns := by
    induction ns with
    | nil => rfl
    | cons c cs ih =>
      obtain ⟨first, later⟩ := List.forall_mem_cons.mp each
      rw [List.map_cons, leafTextsAll, leafTextsAll, first, ih later]
  rcases n with ⟨_, _, _, _, _, _, _ | ⟨c, cs⟩⟩
  · rfl
  · rw [unplaced, unplacedAll_eq_map]
    exact all each

theorem operator?_unplaced (n : Node) : n.unplaced.operator? = n.operator? := by
  unfold operator?
  rw [children_unplaced]
  rcases n.children with _ | ⟨c, _ | ⟨d, cs⟩⟩
  · rfl
  · cases second : c.children[1]? <;> simp [second]
  · rfl

theorem isUnary_unplaced (n : Node) : n.unplaced.isUnary = n.isUnary := by
  unfold isUnary
  rw [children_unplaced]
  rcases n.children with _ | ⟨c, _ | ⟨d, cs⟩⟩
  · rfl
  · simp
  · rfl

/-- A child of the tree without positions is one of the tree. -/
theorem children_of_unplaced {n c : Node} (h : n.unplaced.children = [c]) :
    ∃ d, n.children = [d] ∧ c = d.unplaced := by
  rw [children_unplaced] at h
  obtain ⟨d, children, is⟩ := List.map_eq_singleton_iff.mp h
  exact ⟨d, children, is.symm⟩

theorem exists_kind_of_unplaced {ns : List Node} {kind : String}
    (h : ∃ k ∈ ns.map unplaced, k.kind = kind) : ∃ k ∈ ns, k.kind = kind := by
  obtain ⟨_, mapped, is⟩ := h
  obtain ⟨k, inside, rfl⟩ := List.mem_map.mp mapped
  exact ⟨k, inside, k.kind_unplaced ▸ is⟩

theorem EndsOpen.of_unplaced {n : Node} (h : n.unplaced.EndsOpen) : n.EndsOpen := by
  generalize same : n.unplaced = m at h
  induction h generalizing n with
  | choice inner kind open_ =>
    subst same
    obtain ⟨d, children, rfl⟩ := children_of_unplaced inner
    refine .choice children (d.kind_unplaced ▸ kind) fun k inside => ?_
    simpa using open_ k.unplaced (by simpa using ⟨k, inside, rfl⟩)
  | other inner kind closed ends _ ih =>
    subst same
    obtain ⟨d, children, rfl⟩ := children_of_unplaced inner
    rw [children_unplaced, List.getLast?_map] at ends
    obtain ⟨last, isLast, rfl⟩ := Option.map_eq_some_iff.mp ends
    refine .other children (d.kind_unplaced ▸ kind) ?_ isLast (ih rfl)
    rw [children_unplaced] at closed
    exact exists_kind_of_unplaced closed
  | loop inner kind ends _ ih =>
    subst same
    obtain ⟨d, children, rfl⟩ := children_of_unplaced inner
    rw [children_unplaced, List.getLast?_map] at ends
    obtain ⟨last, isLast, rfl⟩ := Option.map_eq_some_iff.mp ends
    exact .loop children (d.kind_unplaced ▸ kind) isLast (ih rfl)

theorem Ordered.unplaced {n : Node} (h : n.Ordered) : n.unplaced.Ordered := by
  have named (kind : String) : n.unplaced.kind = kind → n.kind = kind := n.kind_unplaced ▸ id
  refine ⟨fun is left sign right operator children written => ?_, fun is => ?_, fun is => ?_,
    fun is withElse => ?_⟩
  · rw [children_unplaced, List.map_eq_cons_iff] at children
    obtain ⟨left, _, children, rfl, later⟩ := children
    obtain ⟨sign, _, rfl, rfl, last⟩ := List.map_eq_cons_iff.mp later
    obtain ⟨right, rfl, rfl⟩ := List.map_eq_singleton_iff.mp last
    rw [text_unplaced] at written
    simpa [operator?_unplaced] using h.binary (named _ is) left sign right operator children written
  · rw [children_unplaced]
    refine List.forall_mem_map.mpr fun c inside => ?_
    rw [operator?_unplaced]
    exact h.unary (named _ is) c inside
  · rw [children_unplaced, List.head?_map]
    intro c first
    obtain ⟨base, isBase, rfl⟩ := Option.map_eq_some_iff.mp first
    rw [operator?_unplaced, isUnary_unplaced]
    exact h.base (is.imp (named _) (named _)) base isBase
  · rw [children_unplaced] at withElse ⊢
    rw [List.getElem?_map]
    intro b third opens
    obtain ⟨body, isBody, rfl⟩ := Option.map_eq_some_iff.mp third
    exact h.choice (named _ is) (exists_kind_of_unplaced withElse) body isBody opens.of_unplaced

theorem InOrder.unplaced {n : Node} (h : n.InOrder) : n.unplaced.InOrder := by
  induction n using Node.induction with | step n ih =>
  obtain ⟨root, below⟩ := (inOrder_iff n).mp h
  refine (inOrder_iff _).mpr ⟨root.unplaced, ?_⟩
  rw [children_unplaced]
  exact List.forall_mem_map.mpr fun c inside => ih c (sizeOf_child inside) (below c inside)

end Node

/-! ### The trees of sources -/

theorem Expr.node_unplaced (e : Expr) : e.node.unplaced = e.node := by
  have list {es : List Expr} (each : ∀ e ∈ es, e.node.unplaced = e.node) :
      (exprListNodes (Expr.nodes es)).map Node.unplaced = exprListNodes (Expr.nodes es) := by
    have same : (Expr.nodes es).map Node.unplaced = Expr.nodes es := by
      rw [Expr.nodes_eq_map, List.map_map]
      exact List.map_congr_left fun e inside => by simp [each e inside]
    cases es with
    | nil => rfl
    | cons e es =>
      rw [Expr.nodes] at same ⊢
      simp only [exprListNodes, List.map_singleton, unplaced_as, unplaced_branch,
        map_unplaced_commaSeparated, same]
  induction e using Expr.induction with
  | place name => simp [Expr.node, identifierNode]
  | literal kind text => cases kind <;> simp [Expr.node, literalNode]
  | unary op operand ih => simp [Expr.node, ih]
  | binary left op right ihl ihr => simp [Expr.node, ihl, ihr]
  | braces inner ih => simp [Expr.node, ih]
  | call callee args ihc iha => simp [Expr.node, ihc, list iha]
  | indexer base indices ihb ihi => simp [Expr.node, ihb, list ihi]

theorem TypeRef.node_unplaced (t : TypeRef) : t.node.unplaced = t.node := by
  induction t with
  | builtin word => simp [TypeRef.node]
  | custom name => simp [TypeRef.node, identifierNode]
  | array commas element ih => simp [TypeRef.node, ih]

theorem typeClause_unplaced (type : Option TypeRef) :
    (typeClauseNodes type).map Node.unplaced = typeClauseNodes type := by
  cases type with
  | none => rfl
  | some t => simp [typeClauseNodes, t.node_unplaced]

theorem block_unplaced {body : List Stmt} (each : ∀ s ∈ body, s.node.unplaced = s.unplaced.node) :
    (blockNode body).unplaced = blockNode (body.map Stmt.unplaced) := by
  have same : (Stmt.nodes body).map Node.unplaced = Stmt.nodes (body.map Stmt.unplaced) := by
    rw [Stmt.nodes_eq_map, Stmt.nodes_eq_map, List.map_map, List.map_map]
    exact List.map_congr_left fun s inside => by simp [each s inside]
  simp [blockNode, blockAround, same]

theorem Stmt.node_unplaced (s : Stmt) : s.node.unplaced = s.unplaced.node := by
  induction s using Stmt.induction with
  | expr e => simp [Stmt.node, Stmt.unplaced, e.node_unplaced]
  | leave stop =>
    simp only [Stmt.node, Stmt.unplaced, unplaced_branch, List.map_singleton, unplaced_as,
      unplaced_stoppingAt]
    rfl
  | block body ih =>
    have same : (blockAround (Stmt.nodes body)).unplaced = _ := block_unplaced ih
    simp [Stmt.node, Stmt.unplaced, unplacedAll_eq_map, same, blockNode]
  | ifThen c body ih => simp [Stmt.node, Stmt.unplaced, c.node_unplaced, ih]
  | ifElse c body other ihb iho => simp [Stmt.node, Stmt.unplaced, c.node_unplaced, ihb, iho]
  | whileDo c body ih | repeatWhile body c ih =>
    simp [Stmt.node, Stmt.unplaced, c.node_unplaced, ih]
  | repeatUntil body c ih => simp [Stmt.node, Stmt.unplaced, c.node_unplaced, ih]

theorem VarGroup.nodes_unplaced (group : VarGroup) :
    group.nodes.map Node.unplaced = group.nodes := by
  unfold VarGroup.nodes
  split <;> simp [typeClause_unplaced, identifierNode, Function.comp_def]

theorem Signature.node_unplaced (s : Signature) : s.node.unplaced = s.node := by
  have args : s.args.map (Node.unplaced ∘ fun arg => arg.node.as "argDef") =
      s.args.map fun arg => arg.node.as "argDef" :=
    List.map_congr_left fun arg _ => by
      simp [ArgDef.node, typeClause_unplaced, identifierNode]
  unfold Signature.node
  split <;> simp [typeClause_unplaced, identifierNode, args]

theorem Body.node_unplaced (body : Body) : body.node.unplaced = body.unplaced.node := by
  have block := block_unplaced fun s (_ : s ∈ body.block) => s.node_unplaced
  have groups (gs : List VarGroup) :
      (gs.flatMap VarGroup.nodes).map Node.unplaced = gs.flatMap VarGroup.nodes := by
    simp [List.map_flatMap, VarGroup.nodes_unplaced]
  unfold Body.node Body.unplaced
  cases body.vars with
  | none => simp [block]
  | some gs => simp [block, groups]

theorem Method.node_unplaced (m : Method) : m.node.unplaced = m.unplaced.node := by
  unfold Method.node Method.unplaced
  cases m.body with
  | none => simp [Signature.node_unplaced]
  | some body => simp [Signature.node_unplaced, Body.node_unplaced]

theorem Source.node_unplaced (source : Source) :
    (Source.node source).unplaced = Source.node (source.map Method.unplaced) := by
  simp [Source.node, Method.node_unplaced, Function.comp_def]

/-! ### Trees in order -/

namespace BinaryOp

theorem level_lt {op o : BinaryOp} (tighter : op.precedence < o.precedence) :
    op.level < o.level := by
  unfold precedence at tighter
  split at tighter <;> split at tighter <;> omega

theorem level_eq {op o : BinaryOp} (same : op.precedence = o.precedence) : op.level = o.level := by
  unfold precedence at same
  split at same <;> split at same <;> omega

theorem binds_cases {side : Grammar.Side} {op o : BinaryOp}
    (h : Grammar.Binds side op.text o.text) :
    op.level < o.level ∨ op.level = o.level ∧ op.side = side := by
  obtain ⟨p, q, isP, isQ, h⟩ := h
  rw [operators_lookup] at isP isQ
  cases isP
  cases isQ
  exact h.imp level_lt fun ⟨same, isSide⟩ => ⟨level_eq same, isSide⟩

theorem lt_of_binds_left {op o : BinaryOp} (h : Grammar.Binds .left op.text o.text) :
    op.level < o.rightLevel := by
  rcases binds_cases h with tighter | ⟨same, leftward⟩
  · exact level_le_rightLevel tighter
  · have notAssign : 0 < o.level := by
      rw [← same]
      cases op <;> first | decide | cases leftward
    cases o <;> simp only [rightLevel, level] at same notAssign ⊢ <;> omega

theorem le_of_binds_right {op o : BinaryOp} (h : Grammar.Binds .right op.text o.text) :
    op.rightLevel ≤ o.level := by
  rcases binds_cases h with tighter | ⟨same, rightward⟩
  · cases op <;> simp only [rightLevel, level] at tighter ⊢ <;> omega
  · have isAssign : op.rightLevel = 0 := by cases op <;> first | rfl | cases rightward
    omega

end BinaryOp

namespace Expr

/-- The base of a call or an indexer, and the list behind it. -/
theorem ordered_of_applied {base : Expr} {es : List Expr} {kind opening closing : String}
    (isBase : kind = "call_expression" ∨ kind = "indexer")
    (h : (branch kind (base.node.as "expr" :: token opening ::
      exprListNodes (Expr.nodes es) ++ [token closing])).InOrder)
    (ih : base.node.InOrder → base.Ordered) (each : ∀ e ∈ es, e.node.InOrder → e.Ordered) :
    ((base.operator? = none ∧ base.isUnary = false) ∧ base.Ordered) ∧ AllOrdered es := by
  obtain ⟨ordered, below⟩ := (inOrder_iff _).mp h
  have simple := ordered.base isBase (base.node.as "expr") rfl
  simp only [branch, children, List.cons_append, List.forall_mem_cons,
    List.forall_mem_append, inOrder_as] at below
  obtain ⟨inBase, -, inList, -⟩ := below
  refine ⟨⟨by simpa using simple, ih inBase⟩, allOrdered_iff.mpr fun e inside => each e inside ?_⟩
  cases es with
  | nil => cases inside
  | cons first es =>
    have items : ∀ n ∈ Expr.nodes (first :: es), n.InOrder := by
      simpa [exprListNodes, Expr.nodes] using inList
    rw [Expr.nodes_eq_map] at items
    simpa using items _ (List.mem_map_of_mem inside)

theorem ordered_of_node (e : Expr) (h : e.node.InOrder) : e.Ordered := by
  -- the nodes below an expression
  have inner {kind : String} {ns : List Node} {field : String}
      (h : (branch "expression" [(branch kind ns).as field]).InOrder) :
      (branch kind ns).InOrder := by
    rw [inOrder_plain (by decide)] at h
    exact (inOrder_as _ _).mp (h _ List.mem_cons_self)
  induction e using Expr.induction with
  | place name => trivial
  | literal kind text => trivial
  | unary op operand ih =>
    obtain ⟨ordered, below⟩ := (inOrder_iff _).mp (inner h)
    simp only [branch, children, List.forall_mem_cons, inOrder_as] at below
    have simple := ordered.unary rfl (operand.node.as "expr") (by simp [branch, children])
    exact ⟨by simpa using simple, ih below.2.1⟩
  | binary left op right ihl ihr =>
    obtain ⟨ordered, below⟩ := (inOrder_iff _).mp (inner h)
    simp only [branch, children, List.forall_mem_cons, inOrder_as] at below
    obtain ⟨bindsL, bindsR⟩ := ordered.binary rfl _ _ _ op.text rfl rfl
    refine ⟨⟨fun o is => BinaryOp.lt_of_binds_left (bindsL o.text ?_), ihl below.1⟩,
      fun o is => BinaryOp.le_of_binds_right (bindsR o.text ?_), ihr below.2.2.1⟩
    · simp [Option.mem_def.mp is]
    · simp [Option.mem_def.mp is]
  | braces e ih =>
    have below := ((inOrder_iff _).mp (inner h)).2
    simp only [branch, children, List.forall_mem_cons, inOrder_as] at below
    exact ih below.2.1
  | call callee args ihc iha => exact ordered_of_applied (.inl rfl) (inner h) ihc iha
  | indexer base indices ihb ihi => exact ordered_of_applied (.inr rfl) (inner h) ihb ihi

end Expr

namespace Stmt

/-- What ends open among the statements does so among the nodes. -/
theorem node_endsOpen (s : Stmt) (h : s.endsOpen) {n : Node}
    (same : n.children = s.node.children) : n.EndsOpen := by
  induction s using Stmt.induction generalizing n with
  | ifThen c body ih =>
    refine .choice same rfl ?_
    rw [children_as]
    simp [branch, children]
  | ifElse c body other ihb iho =>
    refine .other same rfl ⟨token "else", by simp [branch, Node.as, children], rfl⟩ rfl ?_
    exact iho h (children_as _ _)
  | whileDo c body ih => exact .loop same rfl rfl (ih h (children_as _ _))
  | _ => cases h

theorem ordered_of_node (s : Stmt) (h : s.node.InOrder) : s.Ordered := by
  -- the nodes below an `if`
  have choice {ns : List Node}
      (h : (branch "statement" [(branch "if_statement" ns).as "if"]).InOrder) :
      (branch "if_statement" ns).Ordered ∧ ∀ n ∈ ns, n.InOrder := by
    rw [inOrder_plain (by decide)] at h
    exact (inOrder_iff _).mp ((inOrder_as _ _).mp (h _ List.mem_cons_self))
  induction s using Stmt.induction with
  | expr e => exact e.ordered_of_node (by simpa [Stmt.node] using h)
  | leave stop => trivial
  | block body ih =>
    have each : ∀ s ∈ body, s.node.InOrder := by
      simpa [Stmt.node, blockAround, Stmt.nodes_eq_map, or_imp, forall_and] using h
    exact allOrdered_iff.mpr fun s inside => ih s inside (each s inside)
  | ifThen c body ih =>
    obtain ⟨-, below⟩ := choice h
    simp only [List.forall_mem_cons, inOrder_as] at below
    exact ⟨c.ordered_of_node below.2.1, ih below.2.2.2.1⟩
  | ifElse c body other ihb iho =>
    obtain ⟨ordered, below⟩ := choice h
    simp only [List.forall_mem_cons, inOrder_as] at below
    obtain ⟨-, inC, -, inB, -, inO, -⟩ := below
    have closed := ordered.choice rfl ⟨token "else", by simp [branch, children], rfl⟩
      (body.node.as "statement") rfl
    have ends : body.endsOpen = false :=
      Bool.eq_false_iff.mpr fun opens => closed (body.node_endsOpen opens (children_as _ _))
    exact ⟨c.ordered_of_node inC, ⟨ends, ihb inB⟩, iho inO⟩
  | whileDo c body ih =>
    obtain ⟨inC, inB⟩ : c.node.InOrder ∧ body.node.InOrder := by simpa [Stmt.node] using h
    exact ⟨c.ordered_of_node inC, ih inB⟩
  | repeatWhile body c ih | repeatUntil body c ih =>
    obtain ⟨inB, inC⟩ : body.node.InOrder ∧ c.node.InOrder := by simpa [Stmt.node] using h
    exact ⟨ih inB, c.ordered_of_node inC⟩

end Stmt

theorem Source.node_inOrder {source : Source} (each : ∀ m ∈ source, m.Ordered) :
    (Source.node source).InOrder := by
  simpa [Source.node] using fun m inside => Method.node_inOrder (each m inside)

theorem Method.ordered_of_node {m : Method} (h : m.node.InOrder) : m.Ordered := by
  intro body given
  have inBody : body.node.InOrder := by
    unfold Method.node at h
    rw [Option.mem_def.mp given] at h
    simpa [Signature.node_inOrder] using h
  have block : (blockNode body.block).InOrder := by
    rw [Body.node, inOrder_plain (by decide)] at inBody
    exact (inOrder_as _ _).mp (inBody _ (List.mem_append_right _ List.mem_cons_self))
  exact Stmt.ordered_of_node (.block body.block) (by simpa [Stmt.node, blockNode] using block)

/-! ### Completeness -/

/-- For every tree of a source that instantiates the grammar and obeys its precedences, without
marks, with texts only at its tokens, and with no identifier that is a keyword or a word of a type:
if no null character is quoted, its leaves with single spaces between them are a text that the
parser accepts, and the parsed tree is that tree, but for the positions. -/
theorem parseSource_complete {n : Node} (isSource : n.kind = "source") (isRoot : n.field = none)
    (built : n.Instance) (ordered : ∀ m ∈ n.subnodes, m.Ordered)
    (regular : ∀ m ∈ n.subnodes, m.Regular) (nullFree : ∀ m ∈ n.subnodes, m.NullFree) :
    ∃ source, parseSource (" ".intercalate n.leafTexts) = some source ∧
      (Source.node source).unplaced = n.unplaced := by
  have allRegular : n.AllRegular := fun m inside => ⟨regular m inside, nullFree m inside⟩
  obtain ⟨source, same, clear⟩ := Source.exists_node ⟨isSource, isRoot, built⟩ allRegular
  have inOrder : (Source.node source).InOrder := same ▸ InOrder.unplaced ordered
  have each : ∀ m ∈ source, m.Ordered ∧ m.Clear := by
    refine fun m inside => ⟨Method.ordered_of_node ?_, clear m inside⟩
    have items : ∀ m ∈ source, m.node.InOrder := by simpa [Source.node] using inOrder
    exact items m inside
  have texts : " ".intercalate n.leafTexts =
      " ".intercalate ((source.flatMap Method.lexemes).map Lexeme.text) := by
    rw [← leafTexts_unplaced, same, Source.leafTexts]
    split
    · rename_i empty
      rw [empty]
      rfl
    · rfl
  obtain ⟨parsed, read, alike⟩ := parseSource_joined each
  refine ⟨parsed, texts ▸ read, ?_⟩
  rw [Source.node_unplaced, alike, ← Source.node_unplaced, ← same, unplaced_unplaced]

/-- A source with a loop, a choice and operators of four levels. -/
def choosing : Source :=
  [⟨⟨"f", [⟨"a", some (.builtin "int")⟩], none⟩, some ⟨none,
    [.whileDo (.binary (.place "a") .lt (.literal .dec "10"))
      (.ifElse (.unary .not (.place "a")) (.leave .start)
        (.expr (.binary (.place "x") .assign (.binary (.place "y") .assign
          (.binary (.literal .dec "1") .add (.binary (.place "a") .mul (.literal .dec "2")))))))]⟩⟩]

theorem choosing_parsed_back : ∃ source, parseSource
      ("method f ( a : int ) begin while a < 10 do if ! a then break ; else " ++
        "x := y := 1 + a * 2 ; end ;") = some source ∧
    (Source.node source).unplaced = (Source.node choosing).unplaced := by
  have a : IsFree "a" := by decide
  have one := @LiteralKind.dec_clear '1' [] (by decide)
  have two := @LiteralKind.dec_clear '2' [] (by decide)
  have ten := @LiteralKind.dec_clear '1' ['0'] (by decide)
  have clear : ∀ m ∈ choosing, m.Clear := by
    refine List.forall_mem_singleton.mpr
      ⟨⟨by decide, List.forall_mem_singleton.mpr ⟨a, ?_⟩, nofun⟩, ?_⟩
    · rintro t ⟨⟩
      exact (by decide : "int" ∈ TypeRef.builtinWords)
    · rintro body ⟨⟩
      refine ⟨nofun, ?_⟩
      simp only [Stmt.exprsAll, Stmt.exprs, List.cons_append, List.nil_append, List.append_nil,
        List.forall_mem_cons]
      exact ⟨⟨a, ten⟩, a, ⟨(by decide : IsFree "x"), (by decide : IsFree "y"), one, a, two⟩,
        List.forall_mem_nil _⟩
  have ordered : (Source.node choosing).InOrder := by
    refine Source.node_inOrder (List.forall_mem_singleton.mpr ?_)
    rintro body ⟨⟩
    simp [Stmt.AllOrdered, Stmt.Ordered, Expr.Ordered, Expr.operator?, Stmt.endsOpen,
      BinaryOp.level, BinaryOp.rightLevel]
  exact parseSource_complete (n := Source.node choosing) rfl rfl (Source.instance_of_clear clear)
    ordered (by decide) (by decide)

/-- The source of `method f() begin x := '\0'; end;`, with a null character between the quotes. -/
def nullQuoting : Source :=
  [⟨⟨"f", [], none⟩, some ⟨none,
    [.expr (.binary (.place "x") .assign (.literal .char (String.ofList ['\'', '\x00', '\''])))]⟩⟩]

theorem null_quoted_refused : (Source.node nullQuoting).kind = "source" ∧
    (Source.node nullQuoting).field = none ∧ (Source.node nullQuoting).Instance ∧
    (∀ m ∈ (Source.node nullQuoting).subnodes, m.Ordered) ∧
    (∀ m ∈ (Source.node nullQuoting).subnodes, m.Regular) ∧
    parseSource (" ".intercalate (Source.node nullQuoting).leafTexts) = none := by
  refine ⟨rfl, rfl, ?_, ?_, by decide, by decide⟩
  · have literal : Grammar.Spells "char" (String.ofList ['\'', '\x00', '\'']) :=
      ⟨_, rfl, .cons (.one rfl) (.cons (.one rfl) (Pattern.matches_last (.one rfl)))⟩
    have word {text : String} (isName : IsName text) := Token.spells_word isName
    refine Source.node_instance (List.forall_mem_singleton.mpr ⟨⟨by decide, nofun, nofun⟩, ?_⟩) ?_
    · rintro body ⟨⟩
      exact ⟨nofun, List.forall_mem_singleton.mpr ⟨(by decide : IsName "x"), '\x00', rfl⟩⟩
    · have lexemes : nullQuoting.flatMap Method.lexemes = [.word "method", .word "f",
          .sign .openParen, .sign .closeParen, .word "begin", .word "x", .sign (.binary .assign),
          .literal .char (String.ofList ['\'', '\x00', '\'']), .sign .semicolon, .word "end",
          .sign .semicolon] := by decide
      simp only [lexemes, List.forall_mem_cons]
      exact ⟨word (by decide), word (by decide), trivial, trivial, word (by decide),
        word (by decide), trivial, literal, trivial, word (by decide), trivial,
        List.forall_mem_nil _⟩
  · refine Source.node_inOrder (List.forall_mem_singleton.mpr ?_)
    rintro body ⟨⟩
    simp [Stmt.AllOrdered, Stmt.Ordered, Expr.Ordered, Expr.operator?]

end MethodLang
