import MethodLang.Proofs.Grammar.Reading
import MethodLang.Proofs.Operation.Lowering

/-!
Nodes of written sources. The leaves of a tree's nodes are the tree's lexemes (`Source.leafTexts`),
and the nodes of a well-spelled tree are instances of the grammar's rules (`Source.node_instance`).
-/
namespace MethodLang

open Node

/-! ### Leaves -/

@[simp] theorem Lexeme.text_word (text : String) : (word text).text = text := rfl

@[simp] theorem Lexeme.text_sign (s : Sign) : (sign s).text = s.text := rfl

namespace Node

@[simp] theorem leafTexts_leaf (kind text : String) : (leaf kind text).leafTexts = [text] := rfl

@[simp] theorem leafTexts_token (text : String) : (token text).leafTexts = [text] := rfl

@[simp] theorem leafTexts_as (field : String) (n : Node) :
    (n.as field).leafTexts = n.leafTexts := by
  rcases n with ⟨_, _, _, _, _, _, _ | _⟩ <;> rfl

@[simp] theorem leafTexts_branch (kind : String) (n : Node) (ns : List Node) :
    (branch kind (n :: ns)).leafTexts = n.leafTexts ++ leafTextsAll ns := rfl

@[simp] theorem leafTextsAll_nil : leafTextsAll [] = [] := rfl

@[simp] theorem leafTextsAll_cons (n : Node) (ns : List Node) :
    leafTextsAll (n :: ns) = n.leafTexts ++ leafTextsAll ns := rfl

@[simp] theorem leafTextsAll_append (ns ms : List Node) :
    leafTextsAll (ns ++ ms) = leafTextsAll ns ++ leafTextsAll ms := by
  induction ns with
  | nil => rfl
  | cons n ns ih => simp [ih]

/-- The leaves of a branch with children are those of its children. -/
theorem leafTexts_of_children {kind : String} {ns : List Node} (nonempty : ns ≠ []) :
    (branch kind ns).leafTexts = leafTextsAll ns := by
  cases ns with
  | nil => exact absurd rfl nonempty
  | cons n ns => rfl

@[simp] theorem commaSeparated_eq_nil {ns : List Node} : commaSeparated ns = [] ↔ ns = [] := by
  fun_cases commaSeparated ns <;> simp

theorem leafTexts_commaSeparated {ns : List Node} {items : List (List Lexeme)}
    (same : ns.map leafTexts = items.map (List.map Lexeme.text)) :
    leafTextsAll (commaSeparated ns) = (commas items).map Lexeme.text := by
  fun_induction commaSeparated ns generalizing items with
  | case1 =>
    rw [List.map_eq_nil_iff.mp same.symm]
    rfl
  | case2 n =>
    obtain ⟨item, _, rfl, first, rest⟩ := List.map_eq_cons_iff.mp same.symm
    rw [List.map_eq_nil_iff.mp rest]
    simp [commas, first]
  | case3 n ns more ih =>
    obtain ⟨item, others, rfl, first, rest⟩ := List.map_eq_cons_iff.mp same.symm
    have nonempty : others ≠ [] := by
      rintro rfl
      exact more (List.map_eq_nil_iff.mp rest.symm)
    simp [commas_cons nonempty, first, ih rest.symm, Sign.text]

end Node

theorem Expr.lexemesAll_eq_map (es : List Expr) : lexemesAll es = es.map lexemes := by
  induction es with
  | nil => rfl
  | cons e es ih => rw [lexemesAll, ih, List.map_cons]

theorem Expr.leafTexts (e : Expr) : e.node.leafTexts = e.lexemes.map Lexeme.text := by
  have list {es : List Expr} (each : ∀ e ∈ es, e.node.leafTexts = e.lexemes.map Lexeme.text) :
      leafTextsAll (exprListNodes (Expr.nodes es)) =
        (commas (lexemesAll es)).map Lexeme.text := by
    cases es with
    | nil => rfl
    | cons e es =>
      have items : (Expr.nodes (e :: es)).map Node.leafTexts =
          (lexemesAll (e :: es)).map (List.map Lexeme.text) := by
        rw [Expr.nodes_eq_map, lexemesAll_eq_map, List.map_map, List.map_map]
        exact List.map_congr_left fun e isIn => by simp [each e isIn]
      rw [← leafTexts_commaSeparated items, Expr.nodes, exprListNodes]
      simp [leafTexts_of_children]
  induction e using Expr.induction with
  | place name => rfl
  | literal kind text => cases kind <;> rfl
  | unary op operand ih => simp [Expr.node, lexemes, ih, Sign.text]
  | binary left op right ihl ihr => simp [Expr.node, lexemes, ihl, ihr, Sign.text]
  | braces inner ih => simp [Expr.node, lexemes, ih, Sign.text]
  | call callee args ihc iha =>
    simp [Expr.node, lexemes, ihc, list iha, Sign.text]
  | indexer base indices ihb ihi =>
    simp [Expr.node, lexemes, ihb, list ihi, Sign.text]

theorem TypeRef.leafTexts (t : TypeRef) : t.node.leafTexts = t.lexemes.map Lexeme.text := by
  have commas (n : Nat) : leafTextsAll (List.replicate n (token ",")) = List.replicate n "," := by
    induction n with
    | zero => rfl
    | succ n ih => simp [List.replicate_succ, ih]
  induction t with
  | builtin word => rfl
  | custom name => rfl
  | array n element ih => simp [TypeRef.node, lexemes, commas, ih, Sign.text]

theorem typeClause_leafTexts (type : Option TypeRef) :
    leafTextsAll (typeClauseNodes type) = (typeClauseLexemes type).map Lexeme.text := by
  cases type with
  | none => rfl
  | some t => simp [typeClauseNodes, typeClauseLexemes, t.leafTexts, Sign.text]

theorem block_leafTexts {body : List Stmt}
    (each : ∀ s ∈ body, s.node.leafTexts = s.lexemes.map Lexeme.text) :
    (blockNode body).leafTexts = (Stmt.block body).lexemes.map Lexeme.text := by
  have inner : leafTextsAll (Stmt.nodes body) = (Stmt.lexemesAll body).map Lexeme.text := by
    induction body with
    | nil => rfl
    | cons s ss ih =>
      obtain ⟨first, later⟩ := List.forall_mem_cons.mp each
      simp [Stmt.nodes, Stmt.lexemesAll, first, ih later]
  simp [blockNode, blockAround, Stmt.lexemes, inner, Sign.text]

theorem Stmt.leafTexts (s : Stmt) : s.node.leafTexts = s.lexemes.map Lexeme.text := by
  induction s using Stmt.induction with
  | expr e => simp [Stmt.node, lexemes, e.leafTexts, Sign.text]
  | leave stop => rfl
  | block body ih => simpa [Stmt.node, blockNode] using block_leafTexts ih
  | ifThen c body ih => simp [Stmt.node, lexemes, c.leafTexts, ih]
  | ifElse c body other ihb iho => simp [Stmt.node, lexemes, c.leafTexts, ihb, iho]
  | whileDo c body ih => simp [Stmt.node, lexemes, c.leafTexts, ih]
  | repeatWhile body c ih | repeatUntil body c ih =>
    simp [Stmt.node, lexemes, c.leafTexts, ih, Sign.text]

theorem VarGroup.leafTexts (group : VarGroup) :
    leafTextsAll group.nodes = group.lexemes.map Lexeme.text := by
  have names : leafTextsAll (commaSeparated
      (group.names.map fun name => (identifierNode name).as "identifier")) =
        (commas (group.names.map fun name => [.word name])).map Lexeme.text := by
    refine leafTexts_commaSeparated ?_
    simp [Function.comp_def, identifierNode]
  unfold VarGroup.nodes lexemes
  split
  · rename_i empty
    simp [List.isEmpty_iff.mp empty, commas, typeClause_leafTexts, Sign.text]
  · rename_i nonempty
    have named : group.names ≠ [] := mt List.isEmpty_iff.mpr nonempty
    simp [leafTexts_of_children, named, names, typeClause_leafTexts, Sign.text]

theorem Signature.leafTexts (s : Signature) : s.node.leafTexts = s.lexemes.map Lexeme.text := by
  have args : leafTextsAll (commaSeparated (s.args.map fun a => a.node.as "argDef")) =
      (commas (s.args.map ArgDef.lexemes)).map Lexeme.text := by
    refine leafTexts_commaSeparated ?_
    simp [Function.comp_def, ArgDef.node, ArgDef.lexemes, identifierNode, typeClause_leafTexts]
  unfold Signature.node lexemes
  split
  · rename_i empty
    simp [List.isEmpty_iff.mp empty, commas, identifierNode, typeClause_leafTexts, Sign.text]
  · rename_i nonempty
    have taking : s.args ≠ [] := mt List.isEmpty_iff.mpr nonempty
    simp [leafTexts_of_children, taking, args, identifierNode, typeClause_leafTexts, Sign.text]

theorem Body.leafTexts (body : Body) : body.node.leafTexts = body.lexemes.map Lexeme.text := by
  have block := block_leafTexts fun s (_ : s ∈ body.block) => s.leafTexts
  have groups (gs : List VarGroup) : leafTextsAll (gs.flatMap VarGroup.nodes) =
      (gs.flatMap VarGroup.lexemes).map Lexeme.text := by
    induction gs with
    | nil => rfl
    | cons g gs ih => simp [g.leafTexts, ih]
  unfold Body.node lexemes
  cases body.vars with
  | none => simp [block]
  | some gs => simp [block, groups]

theorem Method.leafTexts (m : Method) : m.node.leafTexts = m.lexemes.map Lexeme.text := by
  unfold Method.node lexemes
  cases m.body with
  | none => simp [Signature.leafTexts, Sign.text]
  | some body => simp [Signature.leafTexts, Body.leafTexts]

/-- The leaves of a source are its lexemes; the node of an empty one is a leaf without text. -/
theorem Source.leafTexts (source : Source) : (Source.node source).leafTexts =
    if source = [] then [""] else (source.flatMap Method.lexemes).map Lexeme.text := by
  have items (ms : List Method) : leafTextsAll (ms.map fun m =>
      (branch "sourceItem" [m.node.as "funcDef"]).as "sourceItem") =
        (ms.flatMap Method.lexemes).map Lexeme.text := by
    induction ms with
    | nil => rfl
    | cons m ms ih => simp [m.leafTexts, ih]
  cases source with
  | nil => rfl
  | cons m ms => simp [Source.node, items, m.leafTexts]

/-! ### Instances -/

@[simp] theorem Node.kind_token (text : String) : (token text).kind = text := rfl

@[simp] theorem Node.kind_as (field : String) (n : Node) : (n.as field).kind = n.kind := by
  cases n
  rfl

@[simp] theorem Node.field_as (field : String) (n : Node) : (n.as field).field = some field := by
  cases n
  rfl

theorem Node.Instance.as {n : Node} (built : n.Instance) (field : String) :
    (n.as field).Instance := by
  cases n
  cases built with
  | branch found derived => exact .branch found derived
  | leaf written leaf spelled => exact .leaf written leaf spelled

namespace Rule.Derives

variable {rule : Rule} {field : Option String} {name kind : String} {n : Node}
  {ns rest : List Node}

theorem token (text : String) (rest : List Node) :
    Derives (.word text) none (Node.token text :: rest) rest := .word rfl rfl rfl rfl

theorem filled (built : n.Instance) (named : n.kind = kind) :
    Derives (Grammar.filled name kind) field (n.as name :: rest) rest :=
  .field (.symbol ((n.kind_as name).trans named) (n.field_as name) (built.as name))

theorem left_out : Derives (.optional rule) field ns ns := .choice List.mem_cons_self .nil

theorem present (h : Derives rule field ns rest) : Derives (.optional rule) field ns rest :=
  .choice (List.mem_cons_of_mem _ List.mem_cons_self) h

theorem many (each : ∀ n ∈ ns, ∀ ms, Derives rule field (n :: ms) ms) (rest : List Node) :
    Derives (.many rule) field (ns ++ rest) rest := by
  induction ns with
  | nil => exact .done
  | cons n ns ih =>
    obtain ⟨first, later⟩ := List.forall_mem_cons.mp each
    exact .more (first _) (ih later)

/-- Items with commas between them, as in three of the rules. -/
theorem list (nonempty : ns ≠ []) (each : ∀ n ∈ ns, ∀ ms, Derives rule none (n :: ms) ms) :
    Derives (Grammar.list rule) none (commaSeparated ns) [] := by
  fun_induction commaSeparated ns with
  | case1 => exact absurd rfl nonempty
  | case2 n => exact .cons (each n List.mem_cons_self []) (.cons .done .nil)
  | case3 n ns more ih =>
    obtain ⟨first, later⟩ := List.forall_mem_cons.mp each
    cases ih more later with
    | cons second others =>
      cases others with
      | cons others done =>
        exact .cons (first _) (.cons (.more (.cons (.token "," _) (.cons second .nil)) others) done)

theorem aliased {text : String} {texts : List String} (isIn : text ∈ texts) (rest : List Node) :
    Derives (.field name (.alias texts kind)) field ((leaf kind text).as name :: rest) rest :=
  .field (.alias isIn rfl rfl rfl rfl)

end Rule.Derives

/-- A node around one that fills a field, one of the alternatives of its rule. -/
theorem Node.Instance.chosen {outer name : String} {rules : List Rule} {n : Node} (i : Nat)
    (found : Grammar.rules.lookup outer = some (.choice rules))
    (alternative : rules[i]? = some (Grammar.filled name n.kind)) (built : n.Instance) :
    (Node.branch outer [n.as name]).Instance :=
  .branch found (.choice (List.mem_of_getElem? alternative) (.filled built rfl))

theorem mem_commas {l : Lexeme} {item : List Lexeme} {items : List (List Lexeme)}
    (isItem : item ∈ items) (isIn : l ∈ item) : l ∈ commas items := by
  induction items with
  | nil => cases isItem
  | cons first items ih =>
    cases items with
    | nil => exact List.mem_singleton.mp isItem ▸ isIn
    | cons second items =>
      rcases List.mem_cons.mp isItem with rfl | later
      · exact List.mem_append_left _ isIn
      · exact List.mem_append_right _ (List.mem_cons_of_mem _ (ih later))

@[simp] theorem Expr.node_kind (e : Expr) : e.node.kind = "expression" := by cases e <;> rfl

@[simp] theorem TypeRef.node_kind (t : TypeRef) : t.node.kind = "typeRef" := by cases t <;> rfl

@[simp] theorem Stmt.node_kind (s : Stmt) : s.node.kind = "statement" := by cases s <;> rfl

theorem identifierNode_instance {name : String} (isName : IsName name) :
    (identifierNode name).Instance := .leaf rfl rfl (Token.spells_word isName)

namespace Expr

/-- Expressions of a list in brackets. -/
theorem listNodes_derive {es : List Expr} (each : ∀ e ∈ es, e.node.Instance) (rest : List Node) :
    Rule.Derives (.optional (Grammar.filled "listExpr" "list_expr")) none
      (exprListNodes (Expr.nodes es) ++ rest) rest := by
  cases es with
  | nil => exact .left_out
  | cons e es =>
    refine .present (.filled (.branch rfl (.list (List.cons_ne_nil _ _) ?_)) rfl)
    rw [← Expr.nodes, Expr.nodes_eq_map]
    exact List.forall_mem_map.mpr fun e isIn ms => .filled (each e isIn) e.node_kind

theorem applied_derive {base : Expr} {es : List Expr} (opening closing : String)
    (built : base.node.Instance) (each : ∀ e ∈ es, e.node.Instance) :
    Rule.Derives (Grammar.applied opening closing) none
      (base.node.as "expr" :: token opening :: exprListNodes (Expr.nodes es) ++ [token closing])
      [] :=
  .cons (.filled built base.node_kind) (.cons (.cons (.token opening _)
    (.cons (listNodes_derive each _) (.cons (.token closing _) .nil))) .nil)

theorem literalNode_instance {kind : LiteralKind} {text : String} (spelled : kind.Spells text)
    (proper : ∀ l ∈ (literal kind text).lexemes, l.Proper) : (literalNode kind text).Instance := by
  by_cases isBool : kind = .bool
  · subst isBool
    have inner : (branch "bool" [token text]).Instance := by
      rcases spelled with rfl | rfl
      · exact .branch rfl (.choice List.mem_cons_self (.token "true" _))
      · exact .branch rfl (.choice (List.mem_cons_of_mem _ List.mem_cons_self) (.token "false" _))
    exact .branch rfl (.choice List.mem_cons_self (.symbol rfl rfl inner))
  · rw [lexemes_literal, if_neg isBool] at proper
    have inner : (leaf kind.name text).Instance := .leaf rfl rfl (proper _ List.mem_cons_self)
    have node : literalNode kind text = branch "literal" [leaf kind.name text] := by
      cases kind <;> first | rfl | contradiction
    rw [node]
    have isIn : Rule.symbol kind.name ∈ [.symbol "bool", .symbol "str", .symbol "char",
        .symbol "hex", .symbol "bits", .symbol "dec"] := by
      cases kind <;> simp [LiteralKind.name]
    exact .branch rfl (.choice isIn (.symbol rfl rfl inner))

theorem node_instance (e : Expr) (spelled : e.Spelled) (proper : ∀ l ∈ e.lexemes, l.Proper) :
    e.node.Instance := by
  have list {es : List Expr} (all : AllSpelled es)
      (proper : ∀ l ∈ commas (lexemesAll es), l.Proper)
      (each : ∀ e ∈ es, e.Spelled → (∀ l ∈ e.lexemes, l.Proper) → e.node.Instance) :
      ∀ e ∈ es, e.node.Instance := fun e isIn => by
    refine each e isIn (all.mem e isIn) fun l inside => proper l (mem_commas ?_ inside)
    rw [lexemesAll_eq_map]
    exact List.mem_map_of_mem isIn
  induction e using Expr.induction with
  | place name => exact .chosen 5 rfl rfl (identifierNode_instance spelled)
  | literal kind text =>
    have named : (literalNode kind text).kind = "literal" := by cases kind <;> rfl
    exact .chosen 6 rfl (named ▸ rfl) (literalNode_instance spelled proper)
  | unary op operand ih =>
    have isIn : op.text ∈ ["!", "~"] := by cases op <;> decide
    obtain ⟨-, proper⟩ := List.forall_mem_cons.mp proper
    exact .chosen 0 rfl rfl (.branch rfl (.cons (.aliased isIn _)
      (.cons (.filled (ih spelled proper) operand.node_kind) .nil)))
  | binary left op right ihl ihr =>
    have isIn : op.text ∈ Grammar.operators.map (·.1) := by cases op <;> decide
    obtain ⟨entry, isEntry, same⟩ := List.mem_map.mp isIn
    obtain ⟨properL, properR⟩ := List.forall_mem_append.mp proper
    obtain ⟨-, properR⟩ := List.forall_mem_cons.mp properR
    refine .chosen 1 rfl rfl (.branch rfl (.choice (List.mem_map_of_mem isEntry) ?_))
    rw [same]
    exact .cons (.filled (ihl spelled.1 properL) left.node_kind)
      (.cons (.aliased List.mem_cons_self _)
        (.cons (.filled (ihr spelled.2 properR) right.node_kind) .nil))
  | braces inner ih =>
    obtain ⟨-, proper⟩ := List.forall_mem_cons.mp proper
    obtain ⟨proper, -⟩ := List.forall_mem_append.mp proper
    exact .chosen 2 rfl rfl (.branch rfl (.cons (.token "(" _)
      (.cons (.filled (ih spelled proper) inner.node_kind) (.cons (.token ")" _) .nil))))
  | call callee args ihc iha =>
    obtain ⟨properC, properA⟩ := List.forall_mem_append.mp proper
    obtain ⟨-, properA⟩ := List.forall_mem_cons.mp properA
    obtain ⟨properA, -⟩ := List.forall_mem_append.mp properA
    exact .chosen 3 rfl rfl (.branch rfl (applied_derive "(" ")" (ihc spelled.1 properC)
      (list spelled.2 properA iha)))
  | indexer base indices ihb ihi =>
    obtain ⟨properB, properI⟩ := List.forall_mem_append.mp proper
    obtain ⟨-, properI⟩ := List.forall_mem_cons.mp properI
    obtain ⟨properI, -⟩ := List.forall_mem_append.mp properI
    exact .chosen 4 rfl rfl (.branch rfl (applied_derive "[" "]" (ihb spelled.1 properB)
      (list spelled.2 properI ihi)))

end Expr

theorem TypeRef.node_instance (t : TypeRef) (spelled : t.Spelled) : t.node.Instance := by
  induction t with
  | builtin word =>
    have alternative : Rule.Derives (.alias TypeRef.builtinWords "builtin") none
        [leaf "builtin" word] [] := .alias spelled rfl rfl rfl rfl
    exact .branch rfl (.choice List.mem_cons_self alternative)
  | custom name => exact .chosen 1 rfl rfl (identifierNode_instance spelled)
  | array n element ih =>
    have separators (rest : List Node) :
        Rule.Derives (.many (.word ",")) none (List.replicate n (token ",") ++ rest) rest :=
      .many (fun m isIn ms => List.eq_of_mem_replicate isIn ▸ .token "," ms) rest
    have plain : element.node.field = none := by cases element <;> rfl
    exact .chosen 2 rfl rfl (.branch rfl (.cons (.token "array" _) (.cons (.token "[" _)
      (.cons (separators _) (.cons (.token "]" _) (.cons (.token "of" _)
        (.cons (.symbol element.node_kind plain (ih spelled)) .nil)))))))

theorem typeClause_derive {type : Option TypeRef} (spelled : ∀ t ∈ type, t.Spelled)
    (rest : List Node) :
    Rule.Derives Grammar.typeClause none (typeClauseNodes type ++ rest) rest := by
  cases type with
  | none => exact .left_out
  | some t =>
    exact .present (.cons (.token ":" _)
      (.cons (.filled (t.node_instance (spelled t rfl)) t.node_kind) .nil))

namespace Stmt

theorem lexemes_mem {s : Stmt} {ss : List Stmt} (isIn : s ∈ ss) : s.lexemes ⊆ lexemesAll ss := by
  induction ss with
  | nil => cases isIn
  | cons first ss ih =>
    rcases List.mem_cons.mp isIn with rfl | later
    · exact List.subset_append_left _ _
    · exact List.Subset.trans (ih later) (List.subset_append_right _ _)

theorem exprs_mem {s : Stmt} {ss : List Stmt} (isIn : s ∈ ss) : s.exprs ⊆ exprsAll ss := by
  induction ss with
  | nil => cases isIn
  | cons first ss ih =>
    rcases List.mem_cons.mp isIn with rfl | later
    · exact List.subset_append_left _ _
    · exact List.Subset.trans (ih later) (List.subset_append_right _ _)

/-- The node is an instance if the statement's parts are spelled as they must be. -/
def Built (s : Stmt) : Prop :=
  (∀ e ∈ s.exprs, e.Spelled) → (∀ l ∈ s.lexemes, l.Proper) → s.node.Instance

theorem block_instance {body : List Stmt} (each : ∀ s ∈ body, s.Built)
    (spelled : ∀ e ∈ exprsAll body, e.Spelled) (proper : ∀ l ∈ (block body).lexemes, l.Proper) :
    (blockNode body).Instance := by
  obtain ⟨-, proper⟩ := List.forall_mem_cons.mp proper
  obtain ⟨proper, -⟩ := List.forall_mem_append.mp proper
  refine .branch rfl (.cons (.token "begin" _) (.cons (.many ?_ _)
    (.cons (.token "end" _) (.cons (.token ";" _) .nil))))
  rw [Stmt.nodes_eq_map]
  refine List.forall_mem_map.mpr fun s isIn ms => .filled ?_ s.node_kind
  exact each s isIn (fun e inside => spelled e (exprs_mem isIn inside))
    fun l inside => proper l (lexemes_mem isIn inside)

theorem do_instance {body : Stmt} {c : Expr} {word : String} (builtB : body.node.Instance)
    (builtC : c.node.Instance) (ends : Rule.Derives (.choice [.word "while", .word "until"]) none
      [token word, c.node.as "expr", token ";"] [c.node.as "expr", token ";"]) :
    (branch "statement" [(branch "do_content" [token "repeat", body.node.as "statement",
      token word, c.node.as "expr", token ";"]).as "do"]).Instance :=
  .chosen 3 rfl rfl (.branch rfl (.cons (.token "repeat" _)
    (.cons (.filled builtB body.node_kind) (.cons ends
      (.cons (.filled builtC c.node_kind) (.cons (.token ";" _) .nil))))))

theorem node_instance (s : Stmt) : s.Built := by
  induction s using Stmt.induction with
  | expr e =>
    intro spelled proper
    obtain ⟨proper, -⟩ := List.forall_mem_append.mp proper
    have built := e.node_instance (spelled e List.mem_cons_self) proper
    have first : Rule.Derives (.symbol "expression") (some "expr")
        [e.node.as "expr", (token ";").as "expr"] [(token ";").as "expr"] :=
      .symbol (by simp) (by simp) (built.as "expr")
    exact .chosen 5 rfl rfl
      (.branch rfl (.field (.cons first (.cons (.word rfl rfl rfl rfl) .nil))))
  | leave stop =>
    intro _ _
    exact .chosen 4 rfl rfl (.branch rfl (.cons (.token "break" _) (.cons (.token ";" _) .nil)))
  | block body ih =>
    intro spelled proper
    exact .chosen 1 rfl rfl (block_instance ih spelled proper)
  | ifThen c body ih =>
    intro spelled proper
    simp only [exprs, List.forall_mem_cons] at spelled
    simp only [lexemes, List.cons_append, List.forall_mem_cons, List.forall_mem_append] at proper
    obtain ⟨-, properC, -, properB⟩ := proper
    have condition := c.node_instance spelled.1 properC
    exact .chosen 0 rfl rfl (.branch rfl (.cons (.token "if" _)
      (.cons (.filled condition c.node_kind) (.cons (.token "then" _)
        (.cons (.filled (ih spelled.2 properB) body.node_kind) (.cons .left_out .nil))))))
  | ifElse c body other ihb iho =>
    intro spelled proper
    simp only [exprs, List.cons_append, List.forall_mem_cons, List.forall_mem_append] at spelled
    simp only [lexemes, List.cons_append, List.forall_mem_cons, List.forall_mem_append] at proper
    obtain ⟨spelledC, spelledB, spelledO⟩ := spelled
    obtain ⟨-, properC, -, properB, -, properO⟩ := proper
    have condition := c.node_instance spelledC properC
    have otherwise : Rule.Derives (.seq [.word "else", Grammar.filled "statement" "statement"]) none
        [token "else", other.node.as "statement"] [] :=
      .cons (.token "else" _) (.cons (.filled (iho spelledO properO) other.node_kind) .nil)
    exact .chosen 0 rfl rfl (.branch rfl (.cons (.token "if" _)
      (.cons (.filled condition c.node_kind) (.cons (.token "then" _)
        (.cons (.filled (ihb spelledB properB) body.node_kind)
          (.cons (.present otherwise) .nil))))))
  | whileDo c body ih =>
    intro spelled proper
    simp only [exprs, List.forall_mem_cons] at spelled
    simp only [lexemes, List.cons_append, List.forall_mem_cons, List.forall_mem_append] at proper
    obtain ⟨-, properC, -, properB⟩ := proper
    have condition := c.node_instance spelled.1 properC
    exact .chosen 2 rfl rfl (.branch rfl (.cons (.token "while" _)
      (.cons (.filled condition c.node_kind) (.cons (.token "do" _)
        (.cons (.filled (ih spelled.2 properB) body.node_kind) .nil)))))
  | repeatWhile body c ih =>
    intro spelled proper
    simp only [exprs, List.forall_mem_append, List.forall_mem_singleton] at spelled
    simp only [lexemes, List.cons_append, List.forall_mem_cons, List.forall_mem_append] at proper
    obtain ⟨-, properB, -, properC, -⟩ := proper
    exact do_instance (ih spelled.1 properB) (c.node_instance spelled.2 properC)
      (.choice List.mem_cons_self (.token "while" _))
  | repeatUntil body c ih =>
    intro spelled proper
    simp only [exprs, List.forall_mem_append, List.forall_mem_singleton] at spelled
    simp only [lexemes, List.cons_append, List.forall_mem_cons, List.forall_mem_append] at proper
    obtain ⟨-, properB, -, properC, -⟩ := proper
    exact do_instance (ih spelled.1 properB) (c.node_instance spelled.2 properC)
      (.choice (List.mem_cons_of_mem _ List.mem_cons_self) (.token "until" _))

end Stmt

/-! ### Declarations -/

theorem VarGroup.derive {group : VarGroup} (spelled : group.Spelled) (rest : List Node) :
    Rule.Derives Grammar.varGroup none (group.nodes ++ rest) rest := by
  have later (ns : List Node) : Rule.Derives (.seq [Grammar.typeClause, .word ";"]) none
      (typeClauseNodes group.type ++ (token ";" :: ns)) ns :=
    .cons (typeClause_derive spelled.2 _) (.cons (.token ";" _) .nil)
  unfold VarGroup.nodes
  split
  · simp only [List.nil_append, List.append_assoc, List.cons_append]
    exact .cons .left_out (later rest)
  · rename_i nonempty
    have named : group.names ≠ [] := mt List.isEmpty_iff.mpr nonempty
    have names : (branch "list_identifier" (commaSeparated (group.names.map fun name =>
        (identifierNode name).as "identifier"))).Instance := by
      refine .branch rfl (.list (mt List.map_eq_nil_iff.mp named) ?_)
      exact List.forall_mem_map.mpr fun name isIn ms =>
        .filled (identifierNode_instance (spelled.1 name isIn)) rfl
    simp only [List.nil_append, List.append_assoc, List.cons_append]
    exact .cons (.present (.filled names rfl)) (later rest)

theorem VarGroup.derive_all {groups : List VarGroup} (spelled : ∀ g ∈ groups, g.Spelled)
    (rest : List Node) :
    Rule.Derives (.many Grammar.varGroup) none (groups.flatMap VarGroup.nodes ++ rest) rest := by
  induction groups with
  | nil => exact .done
  | cons g gs ih =>
    obtain ⟨first, later⟩ := List.forall_mem_cons.mp spelled
    rw [List.flatMap_cons, List.append_assoc]
    exact .more (VarGroup.derive first _) (ih later)

theorem ArgDef.node_instance {arg : ArgDef} (spelled : arg.Spelled) : arg.node.Instance := by
  have clause := typeClause_derive spelled.2 []
  rw [List.append_nil] at clause
  exact .branch rfl (.cons (.filled (identifierNode_instance spelled.1) rfl) (.cons clause .nil))

theorem Signature.node_instance {s : Signature} (spelled : s.Spelled) : s.node.Instance := by
  have named := identifierNode_instance spelled.name
  have later : Rule.Derives (.seq [.word ")", Grammar.typeClause]) none
      (token ")" :: typeClauseNodes s.result) [] := by
    have clause := typeClause_derive spelled.result []
    rw [List.append_nil] at clause
    exact .cons (.token ")" _) (.cons clause .nil)
  unfold Signature.node
  split
  · exact .branch rfl (.cons (.filled named rfl) (.cons (.token "(" _) (.cons .left_out later)))
  · rename_i nonempty
    have taking : s.args ≠ [] := mt List.isEmpty_iff.mpr nonempty
    have args : (branch "list_argDef" (commaSeparated (s.args.map fun a =>
        a.node.as "argDef"))).Instance := by
      refine .branch rfl (.list (mt List.map_eq_nil_iff.mp taking) ?_)
      exact List.forall_mem_map.mpr fun a isIn ms =>
        .filled (ArgDef.node_instance (spelled.args a isIn)) rfl
    exact .branch rfl (.cons (.filled named rfl) (.cons (.token "(" _)
      (.cons (.present (.filled args rfl)) later)))

theorem Body.node_instance {body : Body} (spelled : body.Spelled)
    (proper : ∀ l ∈ body.lexemes, l.Proper) : body.node.Instance := by
  obtain ⟨-, proper⟩ := List.forall_mem_append.mp proper
  have block := Stmt.block_instance (fun s _ => s.node_instance) spelled.block proper
  unfold Body.node
  cases vars : body.vars with
  | none => exact .branch rfl (.cons .left_out (.cons (.filled block rfl) .nil))
  | some groups =>
    have section_ := VarGroup.derive_all (spelled.vars groups vars)
    exact .branch rfl (.cons (.present (.cons (.token "var" _) (.cons (section_ _) .nil)))
      (.cons (.filled block rfl) .nil))

theorem Method.node_instance {m : Method} (spelled : m.Spelled)
    (proper : ∀ l ∈ m.lexemes, l.Proper) : m.node.Instance := by
  have signature := Signature.node_instance spelled.signature
  obtain ⟨-, properB⟩ := List.forall_mem_append.mp proper
  unfold Method.node
  cases given : m.body with
  | none =>
    exact .branch rfl (.cons (.token "method" _) (.cons (.filled signature rfl)
      (.cons (.choice (List.mem_cons_of_mem _ List.mem_cons_self) (.token ";" _)) .nil)))
  | some body =>
    rw [given] at properB
    have built := Body.node_instance (spelled.body body given) properB
    exact .branch rfl (.cons (.token "method" _) (.cons (.filled signature rfl)
      (.cons (.choice List.mem_cons_self (.filled built rfl)) .nil)))

/-- The node of a source with well-spelled parts is an instance of the grammar. -/
theorem Source.node_instance {source : Source} (spelled : ∀ m ∈ source, m.Spelled)
    (proper : ∀ l ∈ source.flatMap Method.lexemes, l.Proper) : (Source.node source).Instance := by
  have item {m : Method} (isIn : m ∈ source) :
      (branch "sourceItem" [m.node.as "funcDef"]).Instance := by
    have built := Method.node_instance (spelled m isIn) fun l inside =>
      proper l (List.mem_flatMap_of_mem isIn inside)
    exact .branch rfl (.filled built rfl)
  refine .branch rfl ?_
  rw [← List.append_nil (Node.children _)]
  exact .many (List.forall_mem_map.mpr fun m isIn ms => .filled (item isIn) rfl) []

end MethodLang
