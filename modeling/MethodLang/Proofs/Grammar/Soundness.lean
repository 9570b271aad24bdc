import MethodLang.Proofs.Grammar.Instances

/-!
Soundness of parsing. The tree of an accepted text is spelled by the text, is an instance of the
grammar and obeys the precedences of the grammar (`parseSource_sound`).
-/
namespace MethodLang

open Node

/-! ### Precedences -/

namespace BinaryOp

/-- The operator's precedence in the grammar: no operator has one of those between the levels. -/
def precedence (op : BinaryOp) : Int :=
  if op.level = 0 then -2 else if op.level ≤ 7 then op.level else op.level + 1

def side : BinaryOp → Grammar.Side
  | .assign => .right
  | _ => .left

theorem operators_lookup (op : BinaryOp) :
    Grammar.operators.lookup op.text = some (op.precedence, op.side) := by
  cases op <;> decide

theorem precedence_lt {op o : BinaryOp} (tighter : op.level < o.level) :
    op.precedence < o.precedence := by
  unfold precedence
  split <;> split <;> omega

theorem precedence_eq {op o : BinaryOp} (same : op.level = o.level) :
    op.precedence = o.precedence := by
  rw [precedence, precedence, same]

theorem binds_left {op o : BinaryOp} (h : op.level < o.rightLevel) :
    Grammar.Binds .left op.text o.text := by
  refine ⟨_, _, op.operators_lookup, o.operators_lookup, ?_⟩
  by_cases tighter : op.level < o.level
  · exact .inl (precedence_lt tighter)
  · have leftward : op.level = o.level ∧ 0 < o.level := by
      cases o <;> simp only [rightLevel, level] at h tighter ⊢ <;> omega
    refine .inr ⟨precedence_eq leftward.1, ?_⟩
    rw [← leftward.1] at leftward
    cases op <;> first | rfl | exact absurd leftward.2 (by decide)

theorem binds_right {op o : BinaryOp} (h : op.rightLevel ≤ o.level) :
    Grammar.Binds .right op.text o.text := by
  refine ⟨_, _, op.operators_lookup, o.operators_lookup, ?_⟩
  by_cases tighter : op.level < o.level
  · exact .inl (precedence_lt tighter)
  · have rightward : op = .assign := by
      cases op <;> simp only [rightLevel, level] at h tighter ⊢ <;> omega
    subst rightward
    have same : assign.level = o.level := by
      simp only [level] at tighter ⊢
      omega
    exact .inr ⟨precedence_eq same, rfl⟩

end BinaryOp

/-! ### Nodes in order -/

namespace Node

@[simp] theorem children_as (field : String) (n : Node) : (n.as field).children = n.children := by
  cases n
  rfl

/-- All nodes of the tree obey the precedences. -/
def InOrder (n : Node) : Prop := ∀ m ∈ n.subnodes, m.Ordered

theorem mem_subnodesAll {m : Node} {ns : List Node} :
    m ∈ subnodesAll ns ↔ ∃ n ∈ ns, m ∈ n.subnodes := by
  induction ns with
  | nil => simp [subnodesAll]
  | cons n ns ih => simp [subnodesAll, ih]

/-- What holds of all nodes of a tree holds of its root and of all nodes below. -/
theorem forall_subnodes_iff {P : Node → Prop} (n : Node) :
    (∀ m ∈ n.subnodes, P m) ↔ P n ∧ ∀ c ∈ n.children, ∀ m ∈ c.subnodes, P m := by
  cases n
  simp only [subnodes, children, List.forall_mem_cons, mem_subnodesAll]
  refine and_congr_right fun _ => ?_
  refine ⟨fun h c isIn m inside => h m ⟨c, isIn, inside⟩, fun h m below => ?_⟩
  obtain ⟨c, isIn, inside⟩ := below
  exact h c isIn m inside

theorem inOrder_iff (n : Node) : n.InOrder ↔ n.Ordered ∧ ∀ c ∈ n.children, c.InOrder :=
  forall_subnodes_iff n

/-- The kinds on which the precedences bear. -/
@[simp] def precedenceKinds : List String :=
  ["binary_expression", "unary_expression", "call_expression", "indexer", "if_statement"]

theorem ordered_of_kind {n : Node} (plain : n.kind ∉ precedenceKinds) : n.Ordered := by
  simp only [precedenceKinds, List.mem_cons, not_or] at plain
  obtain ⟨binary, unary, call, indexer, choice, -⟩ := plain
  exact ⟨fun h => absurd h binary, fun h => absurd h unary,
    fun h => (h.elim call indexer).elim, fun h => absurd h choice⟩

theorem ordered_as {n : Node} (field : String) : (n.as field).Ordered ↔ n.Ordered := by
  cases n
  exact ⟨fun ⟨b, u, a, c⟩ => ⟨b, u, a, c⟩, fun ⟨b, u, a, c⟩ => ⟨b, u, a, c⟩⟩

@[simp] theorem inOrder_as (field : String) (n : Node) : (n.as field).InOrder ↔ n.InOrder := by
  rw [inOrder_iff, inOrder_iff n, ordered_as]
  cases n
  rfl

@[simp] theorem inOrder_stoppingAt (stop : Position) (n : Node) :
    (n.stoppingAt stop).InOrder ↔ n.InOrder := by
  have same : (n.stoppingAt stop).Ordered ↔ n.Ordered := by
    cases n
    exact ⟨fun ⟨b, u, a, c⟩ => ⟨b, u, a, c⟩, fun ⟨b, u, a, c⟩ => ⟨b, u, a, c⟩⟩
  rw [inOrder_iff, inOrder_iff n, same]
  cases n
  rfl

@[simp] theorem inOrder_leaf (kind text : String) : (leaf kind text).InOrder := by
  refine (inOrder_iff _).mpr ⟨⟨?_, ?_, ?_, ?_⟩, nofun⟩ <;> simp [leaf, children]

@[simp] theorem inOrder_token (text : String) : (token text).InOrder := inOrder_leaf text text

@[simp] theorem inOrder_plain {kind : String} {ns : List Node} (plain : kind ∉ precedenceKinds) :
    (branch kind ns).InOrder ↔ ∀ n ∈ ns, n.InOrder := by
  rw [inOrder_iff]
  exact and_iff_right (ordered_of_kind plain)

@[simp] theorem inOrder_commaSeparated (ns : List Node) :
    (∀ n ∈ commaSeparated ns, n.InOrder) ↔ ∀ n ∈ ns, n.InOrder := by
  fun_induction commaSeparated ns with
  | case1 => rfl
  | case2 => rfl
  | case3 n ns _ ih => simp [ih]

@[simp] theorem operator?_as (field : String) (n : Node) :
    (n.as field).operator? = n.operator? := by
  cases n
  rfl

@[simp] theorem isUnary_as (field : String) (n : Node) : (n.as field).isUnary = n.isUnary := by
  cases n
  rfl

end Node

namespace Expr

@[simp] theorem node_operator? (e : Expr) : e.node.operator? = e.operator?.map BinaryOp.text := by
  cases e with
  | literal kind text => cases kind <;> rfl
  | _ => rfl

@[simp] theorem node_isUnary (e : Expr) : e.node.isUnary = e.isUnary := by
  cases e with
  | literal kind text => cases kind <;> rfl
  | _ => rfl

theorem allOrdered_iff {es : List Expr} : AllOrdered es ↔ ∀ e ∈ es, e.Ordered := by
  induction es with
  | nil => simp [AllOrdered]
  | cons e es ih => simp [AllOrdered, ih]

theorem binary_ordered {left right : Expr} {op : BinaryOp}
    (ordered : (binary left op right).Ordered) :
    (branch "binary_expression" [left.node.as "expr", (leaf "bin_op" op.text).as "binOp",
      right.node.as "expr"]).Ordered := by
  refine ⟨fun _ l sign r operator children written => ?_, by simp [branch, kind],
    by simp [branch, kind], by simp [branch, kind]⟩
  cases children
  cases written
  simp only [operator?_as, node_operator?, Option.map_eq_some_iff]
  refine ⟨?_, ?_⟩
  · rintro _ ⟨o, is, rfl⟩
    exact BinaryOp.binds_left (ordered.1.1 o is)
  · rintro _ ⟨o, is, rfl⟩
    exact BinaryOp.binds_right (ordered.2.1 o is)

theorem unary_ordered {operand : Expr} {op : UnaryOp} (simple : operand.operator? = none) :
    (branch "unary_expression" [(leaf "un_op" op.text).as "unOp",
      operand.node.as "expr"]).Ordered := by
  refine ⟨by simp [branch, kind], fun _ => ?_, by simp [branch, kind], by simp [branch, kind]⟩
  simp only [branch, children, List.forall_mem_cons, operator?_as, node_operator?, simple]
  exact ⟨rfl, rfl, List.forall_mem_nil _⟩

theorem base_ordered {base : Expr} {kind : String} {ns : List Node}
    (isBase : kind = "call_expression" ∨ kind = "indexer")
    (simple : base.operator? = none ∧ base.isUnary = false) :
    (branch kind (base.node.as "expr" :: ns)).Ordered := by
  refine ⟨?_, ?_, fun _ c first => ?_, ?_⟩
  · rcases isBase with rfl | rfl <;> simp [branch, Node.kind]
  · rcases isBase with rfl | rfl <;> simp [branch, Node.kind]
  · cases first
    simp [simple]
  · rcases isBase with rfl | rfl <;> simp [branch, Node.kind]

theorem node_inOrder (e : Expr) (ordered : e.Ordered) : e.node.InOrder := by
  have list {es : List Expr} (all : AllOrdered es) (each : ∀ e ∈ es, e.Ordered → e.node.InOrder) :
      ∀ n ∈ exprListNodes (Expr.nodes es), n.InOrder := by
    cases es with
    | nil => exact List.forall_mem_nil _
    | cons e es =>
      have each := fun e isIn => each e isIn (allOrdered_iff.mp all e isIn)
      simpa [Expr.nodes_eq_map, exprListNodes] using each
  have wrap {n : Node} {field : String} (inner : n.InOrder) :
      (branch "expression" [n.as field]).InOrder := by simpa using inner
  induction e using Expr.induction with
  | place name => simp [Expr.node, identifierNode]
  | literal kind text => cases kind <;> simp [Expr.node, literalNode]
  | unary op operand ih =>
    refine wrap ((inOrder_iff _).mpr ⟨unary_ordered ordered.1, ?_⟩)
    simpa [branch, children] using ih ordered.2
  | binary left op right ihl ihr =>
    refine wrap ((inOrder_iff _).mpr ⟨binary_ordered ordered, ?_⟩)
    simpa [branch, children] using ⟨ihl ordered.1.2, ihr ordered.2.2⟩
  | braces inner ih => exact wrap (by simpa using ih ordered)
  | call callee args ihc iha =>
    refine wrap ((inOrder_iff _).mpr ⟨base_ordered (.inl rfl) ordered.1.1, ?_⟩)
    simpa [branch, children, or_imp, forall_and] using ⟨ihc ordered.1.2, list ordered.2 iha⟩
  | indexer base indices ihb ihi =>
    refine wrap ((inOrder_iff _).mpr ⟨base_ordered (.inr rfl) ordered.1.1, ?_⟩)
    simpa [branch, children, or_imp, forall_and] using ⟨ihb ordered.1.2, list ordered.2 ihi⟩

end Expr

theorem TypeRef.node_inOrder (t : TypeRef) : t.node.InOrder := by
  induction t with
  | builtin word => simp [TypeRef.node]
  | custom name => simp [TypeRef.node, identifierNode]
  | array commas element ih => simp [TypeRef.node, ih, or_imp, forall_and]

theorem typeClause_inOrder (type : Option TypeRef) : ∀ n ∈ typeClauseNodes type, n.InOrder := by
  cases type with
  | none => exact List.forall_mem_nil _
  | some t => simp [typeClauseNodes, t.node_inOrder]

/-- What a statement node is that ends open. -/
theorem Node.EndsOpen.inner {n c : Node} (h : n.EndsOpen) (child : n.children = [c]) :
    c.kind = "if_statement" ∧ (∀ k ∈ c.children, k.kind ≠ "else") ∨
      (c.kind = "if_statement" ∨ c.kind = "while_content") ∧
        ∃ last, c.children.getLast? = some last ∧ last.EndsOpen := by
  cases h with
  | choice inner kind open_ =>
    cases child.symm.trans inner
    exact .inl ⟨kind, open_⟩
  | other inner kind _ ends open_ =>
    cases child.symm.trans inner
    exact .inr ⟨.inl kind, _, ends, open_⟩
  | loop inner kind ends open_ =>
    cases child.symm.trans inner
    exact .inr ⟨.inr kind, _, ends, open_⟩

namespace Stmt

theorem allOrdered_iff {ss : List Stmt} : AllOrdered ss ↔ ∀ s ∈ ss, s.Ordered := by
  induction ss with
  | nil => simp [AllOrdered]
  | cons s ss ih => simp [AllOrdered, ih]

/-- What ends open among the nodes does so among the statements. -/
theorem endsOpen_of_node (s : Stmt) {n : Node} (same : n.children = s.node.children)
    (h : n.EndsOpen) : s.endsOpen := by
  induction s using Stmt.induction generalizing n with
  | ifThen c body ih => rfl
  | ifElse c body other ihb iho =>
    rcases h.inner same with ⟨-, noElse⟩ | ⟨-, last, ends, open_⟩
    · exact absurd rfl (noElse (token "else") (by simp [branch, Node.as, children]))
    · cases ends
      exact iho (children_as _ _) open_
  | whileDo c body ih =>
    rcases h.inner same with ⟨isIf, -⟩ | ⟨-, last, ends, open_⟩
    · simp [branch, Node.as, kind] at isIf
    · cases ends
      exact ih (children_as _ _) open_
  | expr e => simpa [branch, Node.as, kind] using h.inner same
  | leave stop => simpa [branch, Node.as, kind, stoppingAt] using h.inner same
  | block body ih => simpa [branch, Node.as, kind, blockAround] using h.inner same
  | repeatWhile body c ih | repeatUntil body c ih =>
    simpa [branch, Node.as, kind] using h.inner same

theorem if_ordered {ns : List Node} {body : Stmt} (third : ns[3]? = some (body.node.as "statement"))
    (closed : (∃ k ∈ ns, k.kind = "else") → body.endsOpen = false) :
    (branch "if_statement" ns).Ordered := by
  refine ⟨by simp [branch, kind], by simp [branch, kind], by simp [branch, kind], ?_⟩
  intro _ withElse b isBody ends
  cases third.symm.trans isBody
  have opens := endsOpen_of_node body (children_as _ _) ends
  rw [closed withElse] at opens
  cases opens

theorem node_inOrder (s : Stmt) (ordered : s.Ordered) : s.node.InOrder := by
  have choice {ns : List Node} (first : (branch "if_statement" ns).Ordered)
      (each : ∀ n ∈ ns, n.InOrder) :
      (branch "statement" [(branch "if_statement" ns).as "if"]).InOrder := by
    simpa using (inOrder_iff (branch "if_statement" ns)).mpr ⟨first, each⟩
  induction s using Stmt.induction with
  | expr e => simpa [Stmt.node] using e.node_inOrder ordered
  | leave stop => simp [Stmt.node]
  | block body ih =>
    have each := fun s isIn => ih s isIn (allOrdered_iff.mp ordered s isIn)
    simpa [Stmt.node, blockAround, Stmt.nodes_eq_map, or_imp, forall_and] using each
  | ifThen c body ih =>
    refine choice (if_ordered rfl ?_) ?_
    · simp
    · simpa using ⟨c.node_inOrder ordered.1, ih ordered.2⟩
  | ifElse c body other ihb iho =>
    obtain ⟨orderedC, ⟨closed, orderedB⟩, orderedO⟩ := ordered
    refine choice (if_ordered rfl fun _ => closed) ?_
    simpa using ⟨c.node_inOrder orderedC, ihb orderedB, iho orderedO⟩
  | whileDo c body ih => simpa [Stmt.node] using ⟨c.node_inOrder ordered.1, ih ordered.2⟩
  | repeatWhile body c ih | repeatUntil body c ih =>
    simpa [Stmt.node] using ⟨ih ordered.1, c.node_inOrder ordered.2⟩

end Stmt

theorem VarGroup.nodes_inOrder (group : VarGroup) : ∀ n ∈ group.nodes, n.InOrder := by
  have clause := typeClause_inOrder group.type
  unfold VarGroup.nodes
  split <;> simpa [or_imp, forall_and, identifierNode] using clause

theorem Signature.node_inOrder (s : Signature) : s.node.InOrder := by
  have clause := typeClause_inOrder s.result
  have args : ∀ arg : ArgDef, arg.node.InOrder := fun arg => by
    simpa [ArgDef.node, identifierNode] using typeClause_inOrder arg.type
  unfold Signature.node
  split <;> simpa [or_imp, forall_and, identifierNode, args] using clause

theorem Method.node_inOrder {m : Method} (ordered : m.Ordered) : m.node.InOrder := by
  have body {b : Body} (given : m.body = some b) : b.node.InOrder := by
    have block : (blockNode b.block).InOrder := by
      simpa [Stmt.node, blockNode] using Stmt.node_inOrder (.block b.block) (ordered b given)
    unfold Body.node
    cases b.vars with
    | none => simpa using block
    | some groups =>
      have vars := fun n group (_ : group ∈ groups) => VarGroup.nodes_inOrder group n
      simpa [or_imp, forall_and, block] using vars
  unfold Method.node
  cases given : m.body with
  | none => simp [m.signature.node_inOrder]
  | some b => simp [m.signature.node_inOrder, body given]

/-- For every text that the parser accepts: the leaves of the tree spell the text, with white space
between them and perhaps a mark before them; the tree is an instance of the grammar; and every node
obeys the precedences. -/
theorem parseSource_sound {text : String} {source : Source} (h : parseSource text = some source) :
    (∃ chars, (text.toList = chars ∨ text.toList = Token.byteOrderMark :: chars) ∧
      Laid (Source.node source).leafTexts chars) ∧
    (Source.node source).kind = "source" ∧ (Source.node source).Instance ∧
    ∀ n ∈ (Source.node source).subnodes, n.Ordered := by
  obtain ⟨tokens, scanned, h⟩ := Option.bind_eq_some_iff.mp h
  obtain ⟨⟨chars, isText, laid⟩, -⟩ := Token.scan_laid scanned
  have proper := Token.scan_proper scanned
  obtain ⟨takes, ordered, spelled⟩ := Source.readAll_takes h proper
  have lexemes : tokens.map Token.lexeme = source.flatMap Method.lexemes := by
    simpa [Takes] using takes
  refine ⟨⟨chars, isText, ?_⟩, rfl, ?_, ?_⟩
  · have texts : tokens.map (·.lexeme.text) = (source.flatMap Method.lexemes).map Lexeme.text := by
      rw [← lexemes, List.map_map]
      rfl
    rw [Source.leafTexts]
    split
    · rename_i empty
      rw [texts, empty] at laid
      cases laid with
      | nil white =>
        have last : Laid [""] (_ ++ "".toList ++ []) := .cons white (.nil (List.forall_mem_nil _))
        simpa using last
    · exact texts ▸ laid
  · exact Source.node_instance spelled fun l isIn => ((takes.proper_lexemes proper).1 l isIn).1
  · have inOrder : (Source.node source).InOrder := by
      simpa [Source.node] using fun m isIn => Method.node_inOrder (ordered m isIn)
    exact inOrder

/-- Operators of five levels, a chain of assignments and an `else` behind two `if`s. -/
theorem mixed_operators_sound : ∃ source, parseSource
    "method f(a) begin if a then if !a then x := y := 1 + 2 * g[0](3) < 4; else f(a); end;" =
      some source ∧ (Source.node source).Instance ∧
        ∀ n ∈ (Source.node source).subnodes, n.Ordered := by
  obtain ⟨source, read⟩ := Option.isSome_iff_exists.mp (by decide +kernel : (parseSource
    "method f(a) begin if a then if !a then x := y := 1 + 2 * g[0](3) < 4; else f(a); end;").isSome)
  obtain ⟨-, -, built, ordered⟩ := parseSource_sound read
  exact ⟨source, read, built, ordered⟩

end MethodLang
