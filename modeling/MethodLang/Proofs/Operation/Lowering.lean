import MethodLang.Proofs.Grammar.Spelling
import MethodLang.Proofs.ListLemmas
import MethodLang.Proofs.Operation.Term

/-!
Lowering of spelled expressions. The view of an expression is put together from the views of its
parts, the operation follows it part by part, and the result is the tree of a directive
(`Expr.operation_directive`).
-/
namespace MethodLang

open Operation Node

theorem Text.unquote_quoted (s : String) : Text.unquote ("\"" ++ s ++ "\"") = s := by
  have chars : ("\"" ++ s ++ "\"").toList = '"' :: (s.toList ++ ['"']) := by simp
  rw [Text.unquote, chars]
  simp

theorem Operation.reading_node {α : Type} (l : String) (a : α) (ts : List (Tree α)) :
    reading (.node l a ts) = readNode l a (ts.map fun t => (t, reading t)) :=
  Tree.compute_node ..

/-- The view of a form inside an expression. -/
theorem Expr.view_unary (op : UnaryOp) (x : Expr) : (Expr.unary op x).view =
    .node "expr" (some .start) [.node "unary" (some .start)
      [.node "unOp" (some .start) [tokenView op.text], x.view]] := rfl

theorem Expr.view_binary (l : Expr) (op : BinaryOp) (r : Expr) : (Expr.binary l op r).view =
    .node "expr" (some .start) [.node "binary" (some .start)
      [l.view, .node "binOp" (some .start) [tokenView op.text], r.view]] := rfl

theorem Expr.view_braces (x : Expr) : (Expr.braces x).view =
    .node "expr" (some .start) [.node "braces" (some .start)
      [tokenView "(", x.view, tokenView ")"]] := rfl

theorem Expr.view_place (name : String) : (Expr.place name).view =
    .node "expr" (some .start) [.node "place" (some .start) [tokenView name]] := rfl

theorem Expr.view_literal {kind : LiteralKind} {text : String} (spelled : kind.Spells text) :
    (Expr.literal kind text).view =
    .node "expr" (some .start) [.node "literal" (some .start)
      [.node kind.name (some .start) [tokenView text]]] := by
  cases kind with
  | bool => rcases spelled with rfl | rfl <;> rfl
  | _ => rfl

/-- The children of the view of a list. -/
def commaViews : List View → List View
  | [] => []
  | [v] => [v]
  | v :: vs => v :: tokenView "," :: commaViews vs

/-- The view of the list of a call or an indexer. -/
def listView : List Expr → View
  | [] => .node "list<expr>" none []
  | e :: es => .node "list<expr>" (some .start) (commaViews ((e :: es).map Expr.view))

theorem Node.viewIn_commaSeparated (ns : List Node) :
    (commaSeparated ns).map (viewIn false) = commaViews (ns.map (viewIn false)) := by
  fun_induction commaSeparated ns with
  | case1 => rfl
  | case2 => rfl
  | case3 n ns ne ih =>
    obtain ⟨m, ns, rfl⟩ := List.exists_cons_of_ne_nil ne
    simp only [List.map_cons, commaViews] at ih ⊢
    rw [ih]
    rfl

theorem Expr.nodes_eq_map (es : List Expr) : Expr.nodes es = es.map fun e => e.node.as "expr" := by
  induction es with
  | nil => rfl
  | cons e es ih => rw [Expr.nodes, ih, List.map_cons]

theorem Expr.nodes_view (e : Expr) (es : List Expr) :
    ((branch "list_expr" (commaSeparated (Expr.nodes (e :: es)))).as "listExpr").viewIn false =
      listView (e :: es) := by
  have inner : commaSeparated (Expr.nodes (e :: es)) ≠ [] := by
    cases es <;> simp [Expr.nodes, commaSeparated]
  rw [view_branch rfl rfl inner, viewIn_commaSeparated, Expr.nodes_eq_map, List.map_map]
  rfl

theorem Expr.view_call (callee : Expr) (args : List Expr) : (Expr.call callee args).view =
    .node "expr" (some .start) [.node "call" (some .start)
      [callee.view, tokenView "(", listView args, tokenView ")"]] := by
  cases args with
  | nil => cases callee <;> rfl
  | cons e es =>
    rw [← Expr.nodes_view]
    cases callee <;> rfl

theorem Expr.view_indexer (base : Expr) (indices : List Expr) : (Expr.indexer base indices).view =
    .node "expr" (some .start) [.node "indexer" (some .start)
      [base.view, tokenView "[", listView indices, tokenView "]"]] := by
  cases indices with
  | nil => cases base <;> rfl
  | cons e es =>
    rw [← Expr.nodes_view]
    cases base <;> rfl

theorem Expr.operation_unary (op : UnaryOp) (x : Expr) : (Expr.unary op x).operation = (do
    let o ← x.operation
    let o ← withoutStore o
    .ok (make op.text [o])) := by
  unfold Expr.operation ofExpr
  rw [Expr.view_unary]
  simp only [reading_node, List.map_cons, List.map_nil]
  simp [readNode, child, lowerForm, lowerUnary, firstText, tokenView, Text.unquote_quoted, bind,
    Except.bind]

theorem Expr.operation_binary {op : BinaryOp} (proper : op ≠ .assign) (l r : Expr) :
    (Expr.binary l op r).operation = (do
      let a ← l.operation
      let b ← r.operation
      let a ← withoutStore a
      let b ← withoutStore b
      .ok (make op.text [a, b])) := by
  have other : op.text ≠ ":=" := by cases op <;> simp_all [BinaryOp.text]
  unfold Expr.operation ofExpr
  rw [Expr.view_binary]
  simp only [reading_node, List.map_cons, List.map_nil]
  simp [readNode, child, lowerForm, lowerBinary, firstText, tokenView, Text.unquote_quoted, bind,
    Except.bind, other]

theorem Expr.operation_assign (l r : Expr) :
    (Expr.binary l .assign r).operation = (do
      let value ← r.operation
      let value ← withoutStore value
      (reading l.view).target value) := by
  unfold Expr.operation ofExpr
  rw [Expr.view_binary]
  simp only [reading_node, List.map_cons, List.map_nil]
  have sign : Text.unquote "\":=\"" = ":=" := by decide
  simp [readNode, child, lowerForm, lowerBinary, firstText, tokenView, bind, Except.bind,
    BinaryOp.text, sign]

theorem Expr.operation_braces (x : Expr) : (Expr.braces x).operation = x.operation := by
  unfold Expr.operation ofExpr
  rw [Expr.view_braces]
  simp only [reading_node, List.map_cons, List.map_nil]
  simp [readNode, child, lowerForm, lowerBraces, bind, Except.bind]

theorem Expr.operation_place (name : String) :
    (Expr.place name).operation = .ok (Term.load name).tree := by
  unfold Expr.operation ofExpr
  rw [Expr.view_place]
  simp only [reading_node, List.map_cons, List.map_nil]
  simp [readNode, child, lowerForm, lowerPlace, tokenView, Text.unquote_quoted, bind, Except.bind,
    Term.tree, Term.label]

theorem Expr.operation_literal {kind : LiteralKind} {text : String} (spelled : kind.Spells text) :
    (Expr.literal kind text).operation = .ok (Term.literal kind text).tree := by
  unfold Expr.operation ofExpr
  rw [Expr.view_literal spelled]
  simp only [reading_node, List.map_cons, List.map_nil]
  simp [readNode, child, lowerForm, lowerLiteral, firstText, tokenView, Text.unquote_quoted, bind,
    Except.bind, Term.tree, Term.label]

theorem withoutStore_ok {op kept : Operation} :
    withoutStore op = .ok kept ↔ hasStore op = false ∧ op = kept := by
  unfold withoutStore
  cases hasStore op <;> simp

theorem allWithoutStore_ok {ops kept : List Operation} :
    allWithoutStore ops = .ok kept ↔ ops.any hasStore = false ∧ ops = kept := by
  unfold allWithoutStore
  cases ops.any hasStore <;> simp

theorem variableOf_view {role : String} {e : Expr} {name : String}
    (h : variableOf role e.view = .ok name) : e.place? = some name := by
  cases e with
  | place text =>
    rw [Expr.view_place, variableOf] at h
    simp only [Tree.label_node, Tree.children_node, ne_eq, not_true_eq_false, if_false, tokenView,
      Text.unquote_quoted] at h
    cases h
    rfl
  | literal kind text =>
    cases kind <;> cases h
  | call callee args =>
    rw [Expr.view_call] at h
    cases h
  | indexer base indices =>
    rw [Expr.view_indexer] at h
    cases h
  | _ => cases h

theorem filter_commaViews (es : List Expr) :
    (commaViews (es.map Expr.view)).filter (fun t => t.label == "expr") = es.map Expr.view := by
  induction es with
  | nil => rfl
  | cons e es ih =>
    cases es with
    | nil => simp [commaViews, Expr.view_label]
    | cons e' es =>
      simp only [List.map_cons, commaViews] at ih ⊢
      simp [Expr.view_label, tokenView, ih]

theorem items_listView (es : List Expr) :
    (reading (listView es)).items = es.mapM Expr.operation := by
  cases es with
  | nil => rfl
  | cons e es =>
    rw [listView, reading_node]
    have plain : Text.occursIn "(empty)".toList "list<expr>".toList = false := by decide
    simp only [readNode, lowerItems, plain, Bool.false_eq_true, if_false, List.filter_map]
    have := filter_commaViews (e :: es)
    simp only [Function.comp_def]
    rw [this]
    simp [List.mapM_map]
    rfl

theorem Expr.operation_call (callee : Expr) (args : List Expr) :
    (Expr.call callee args).operation = (do
      let name ← variableOf "Имя функции в вызове" callee.view
      let ops ← args.mapM Expr.operation
      let ops ← allWithoutStore ops
      .ok (make ("call(" ++ name ++ ")") ops)) := by
  unfold Expr.operation ofExpr
  rw [Expr.view_call]
  simp only [reading_node, List.map_cons, List.map_nil]
  simp [readNode, child, lowerForm, lowerCall, bind, Except.bind, items_listView]
  rfl

theorem Expr.operation_indexer (base : Expr) (indices : List Expr) :
    (Expr.indexer base indices).operation = (do
      let name ← variableOf "База индексатора" base.view
      let ops ← indices.mapM Expr.operation
      let ops ← allWithoutStore ops
      .ok (indexed name ops)) := by
  unfold Expr.operation ofExpr
  rw [Expr.view_indexer]
  simp only [reading_node, List.map_cons, List.map_nil]
  simp [readNode, child, lowerForm, lowerIndexer, bind, Except.bind, items_listView]
  rfl

/-- What can be assigned to: a variable or an element. -/
theorem Expr.target_cases {l : Expr} {value op : Operation}
    (h : (reading l.view).target value = .ok op) :
    (∃ name, l = .place name ∧ op = make ("store(" ++ name ++ ")") [value]) ∨
      ∃ base indices array ops, l = .indexer base indices ∧ base.place? = some array ∧
        indices.mapM Expr.operation = .ok ops ∧ ops ≠ [] ∧ ops.any hasStore = false ∧
        op = make ("store_at(" ++ array ++ ")") (ops ++ [value]) := by
  cases l with
  | place name =>
    rw [Expr.view_place] at h
    simp only [reading_node, List.map_cons, List.map_nil] at h
    simp [readNode, lowerTarget, lowerTargetForm, child, tokenView, Text.unquote_quoted, bind,
      Except.bind] at h
    exact .inl ⟨name, rfl, h.symm⟩
  | indexer base indices =>
    rw [Expr.view_indexer] at h
    simp only [reading_node, List.map_cons, List.map_nil] at h
    simp only [readNode, lowerTarget, lowerTargetForm] at h
    obtain ⟨⟨_, _⟩, first, h⟩ := Except.bind_eq_ok.mp h
    obtain ⟨⟨_, _⟩, third, h⟩ := Except.bind_eq_ok.mp h
    cases first
    cases third
    obtain ⟨array, named, h⟩ := Except.bind_eq_ok.mp h
    obtain ⟨ops, items, h⟩ := Except.bind_eq_ok.mp h
    rw [items_listView] at items
    split at h
    · cases h
    · rename_i inhabited
      obtain ⟨_, kept, h⟩ := Except.bind_eq_ok.mp h
      obtain ⟨plain, rfl⟩ := allWithoutStore_ok.mp kept
      cases h
      exact .inr ⟨base, indices, array, ops, rfl, variableOf_view named, items,
        by simpa using inhabited, plain, rfl⟩
  | call callee args =>
    rw [Expr.view_call] at h
    cases h
  | literal kind text => cases kind <;> cases h
  | _ => cases h

/-- Induction over expressions, with the hypothesis for every item of a list. -/
@[elab_as_elim]
theorem Expr.induction {P : Expr → Prop}
    (unary : ∀ op operand, P operand → P (.unary op operand))
    (binary : ∀ left op right, P left → P right → P (.binary left op right))
    (braces : ∀ inner, P inner → P (.braces inner))
    (call : ∀ callee args, P callee → (∀ e ∈ args, P e) → P (.call callee args))
    (indexer : ∀ base indices, P base → (∀ e ∈ indices, P e) → P (.indexer base indices))
    (place : ∀ name, P (.place name)) (literal : ∀ kind text, P (.literal kind text))
    (e : Expr) : P e :=
  @Expr.rec P (fun es => ∀ e ∈ es, P e) unary binary braces call indexer place literal
    (List.forall_mem_nil _)
    (fun _ _ first rest => List.forall_mem_cons.mpr ⟨first, rest⟩)
    e

/-- An expression is lowered to the tree of its directive. -/
def Expr.Lowers (e : Expr) : Prop :=
  ∀ op, e.operation = .ok op → ∃ c, e.directive? = some c ∧ op = c.tree

theorem Directive.tree_value (t : Term) : (Directive.value t).tree = t.tree := t.tree_eq.symm

/-- An assignment shows in the root of its tree. -/
theorem Directive.value_of_label {c : Directive} (plain : isStore c.label = false) :
    ∃ t, c = .value t := by
  cases c with
  | value t => exact ⟨t, rfl⟩
  | store name right | storeAt array indices right =>
    simp [isStore, label, Text.startsWith] at plain

theorem Directive.value_of_storeless {c : Directive} (plain : hasStore c.tree = false) :
    ∃ t, c = .value t := by
  rw [tree, make, hasStore, Bool.or_eq_false_iff] at plain
  exact value_of_label plain.1

theorem Expr.term_of_directive {e : Expr} {t : Term} (h : e.directive? = some (.value t)) :
    e.term? = some t := by
  fun_induction Expr.directive? e with
  | case1 inner ih => exact ih h
  | case2 left right =>
    obtain ⟨value, _, h⟩ := Option.bind_eq_some_iff.mp h
    split at h
    · cases h
    · obtain ⟨array, _, h⟩ := Option.bind_eq_some_iff.mp h
      obtain ⟨indices, _, h⟩ := Option.bind_eq_some_iff.mp h
      cases h
    · cases h
  | case3 e _ _ =>
    obtain ⟨t, read, same⟩ := Option.map_eq_some_iff.mp h
    cases same
    exact read

theorem Expr.Lowers.term {e : Expr} (lowers : e.Lowers) {op : Operation}
    (h : e.operation = .ok op) (plain : hasStore op = false) :
    ∃ t, e.term? = some t ∧ op = t.tree := by
  obtain ⟨c, read, rfl⟩ := lowers op h
  obtain ⟨t, rfl⟩ := Directive.value_of_storeless plain
  exact ⟨t, Expr.term_of_directive read, Directive.tree_value t⟩

theorem Expr.Lowers.terms {es : List Expr} (lowers : ∀ e ∈ es, e.Lowers) {ops : List Operation}
    (h : es.mapM Expr.operation = .ok ops) (plain : ops.any hasStore = false) :
    ∃ ts, Expr.terms? es = some ts ∧ ops = ts.map Term.tree := by
  induction es generalizing ops with
  | nil =>
    cases h
    exact ⟨[], rfl, rfl⟩
  | cons e es ih =>
    rw [List.mapM_cons] at h
    obtain ⟨op, first, h⟩ := Except.bind_eq_ok.mp h
    obtain ⟨others, rest, h⟩ := Except.bind_eq_ok.mp h
    cases h
    rw [List.any_cons, Bool.or_eq_false_iff] at plain
    obtain ⟨t, read, rfl⟩ := (lowers e List.mem_cons_self).term first plain.1
    obtain ⟨ts, more, rfl⟩ := ih (List.forall_mem_cons.mp lowers).2 rest plain.2
    exact ⟨t :: ts, by simp [Expr.terms?, read, more], rfl⟩

theorem Expr.AllSpelled.mem {es : List Expr} (spelled : Expr.AllSpelled es) :
    ∀ e ∈ es, e.Spelled := by
  induction es with
  | nil => exact List.forall_mem_nil _
  | cons e es ih => exact List.forall_mem_cons.mpr ⟨spelled.1, ih spelled.2⟩

/-- An assignment's two sides give its directive. -/
theorem Expr.lowers_assign {left right : Expr} (value : right.Lowers)
    (indices : ∀ base is, left = .indexer base is → ∀ e ∈ is, e.Lowers) :
    (Expr.binary left .assign right).Lowers := by
  intro op h
  rw [Expr.operation_assign] at h
  obtain ⟨o, lowered, h⟩ := Except.bind_eq_ok.mp h
  obtain ⟨_, kept, h⟩ := Except.bind_eq_ok.mp h
  obtain ⟨plain, rfl⟩ := withoutStore_ok.mp kept
  obtain ⟨t, read, rfl⟩ := value.term lowered plain
  rcases Expr.target_cases h with ⟨name, rfl, rfl⟩ |
    ⟨base, is, array, ops, rfl, named, items, _, plain, rfl⟩
  · exact ⟨.store name t, by simp [Expr.directive?, read], rfl⟩
  · obtain ⟨ts, more, rfl⟩ := Expr.Lowers.terms (indices base is rfl) items plain
    refine ⟨.storeAt array ts t, by simp [Expr.directive?, read, named, more], ?_⟩
    simp [Directive.tree, Directive.label, Directive.children]

/-- Any other expression is lowered to the tree of its term. -/
theorem Expr.lowers_of_term {e : Expr} (plain : e.directive? = e.term?.map .value)
    (h : ∀ op, e.operation = .ok op → ∃ t, e.term? = some t ∧ op = t.tree) : e.Lowers := by
  intro op lowered
  obtain ⟨t, read, rfl⟩ := h op lowered
  exact ⟨.value t, by rw [plain, read]; rfl, (Directive.tree_value t).symm⟩

theorem Expr.lowers_unary {op : UnaryOp} {operand : Expr} (below : operand.Lowers) :
    (Expr.unary op operand).Lowers := by
  refine Expr.lowers_of_term rfl fun o h => ?_
  rw [Expr.operation_unary] at h
  obtain ⟨_, lowered, h⟩ := Except.bind_eq_ok.mp h
  obtain ⟨_, kept, h⟩ := Except.bind_eq_ok.mp h
  obtain ⟨plain, rfl⟩ := withoutStore_ok.mp kept
  cases h
  obtain ⟨t, read, rfl⟩ := below.term lowered plain
  exact ⟨.unary op t, by simp [Expr.term?, read], rfl⟩

theorem Expr.lowers_binary {op : BinaryOp} (proper : op ≠ .assign) {left right : Expr}
    (first : left.Lowers) (second : right.Lowers) : (Expr.binary left op right).Lowers := by
  have plain : (Expr.binary left op right).directive? =
      (Expr.binary left op right).term?.map .value := by
    cases op <;> first | rfl | contradiction
  refine Expr.lowers_of_term plain fun o h => ?_
  rw [Expr.operation_binary proper] at h
  obtain ⟨_, loweredA, h⟩ := Except.bind_eq_ok.mp h
  obtain ⟨_, loweredB, h⟩ := Except.bind_eq_ok.mp h
  obtain ⟨_, keptA, h⟩ := Except.bind_eq_ok.mp h
  obtain ⟨_, keptB, h⟩ := Except.bind_eq_ok.mp h
  obtain ⟨plainA, rfl⟩ := withoutStore_ok.mp keptA
  obtain ⟨plainB, rfl⟩ := withoutStore_ok.mp keptB
  cases h
  obtain ⟨l, readA, rfl⟩ := first.term loweredA plainA
  obtain ⟨r, readB, rfl⟩ := second.term loweredB plainB
  exact ⟨.binary ⟨op, proper⟩ l r, by simp [Expr.term?, proper, readA, readB], rfl⟩

theorem Expr.lowers_call {callee : Expr} {args : List Expr} (below : ∀ e ∈ args, e.Lowers) :
    (Expr.call callee args).Lowers := by
  refine Expr.lowers_of_term rfl fun o h => ?_
  rw [Expr.operation_call] at h
  obtain ⟨name, named, h⟩ := Except.bind_eq_ok.mp h
  obtain ⟨_, items, h⟩ := Except.bind_eq_ok.mp h
  obtain ⟨_, kept, h⟩ := Except.bind_eq_ok.mp h
  obtain ⟨plain, rfl⟩ := allWithoutStore_ok.mp kept
  cases h
  obtain ⟨ts, read, rfl⟩ := Expr.Lowers.terms below items plain
  exact ⟨.call name ts, by simp [Expr.term?, variableOf_view named, read],
    by simp [Term.tree, Term.trees_eq_map, Term.label]⟩

theorem Expr.lowers_indexer {base : Expr} {indices : List Expr}
    (below : ∀ e ∈ indices, e.Lowers) : (Expr.indexer base indices).Lowers := by
  refine Expr.lowers_of_term rfl fun o h => ?_
  rw [Expr.operation_indexer] at h
  obtain ⟨name, named, h⟩ := Except.bind_eq_ok.mp h
  obtain ⟨_, items, h⟩ := Except.bind_eq_ok.mp h
  obtain ⟨_, kept, h⟩ := Except.bind_eq_ok.mp h
  obtain ⟨plain, rfl⟩ := allWithoutStore_ok.mp kept
  cases h
  obtain ⟨ts, read, rfl⟩ := Expr.Lowers.terms below items plain
  exact ⟨.indexed name ts, by simp [Expr.term?, variableOf_view named, read],
    (Term.indexed_tree ..).symm⟩

/-- The indices of an assigned element are lowered on their own, so the induction keeps them beside
the expression they stand in. -/
theorem Expr.lowers_and_indices {e : Expr} (spelled : e.Spelled) :
    e.Lowers ∧ ∀ base is, e = .indexer base is → ∀ i ∈ is, i.Lowers := by
  induction e using Expr.induction with
  | literal kind text =>
    refine ⟨Expr.lowers_of_term rfl fun op h => ?_, nofun⟩
    rw [Expr.operation_literal spelled] at h
    cases h
    exact ⟨_, rfl, rfl⟩
  | place name =>
    refine ⟨Expr.lowers_of_term rfl fun op h => ?_, nofun⟩
    rw [Expr.operation_place] at h
    cases h
    exact ⟨_, rfl, rfl⟩
  | braces inner ih =>
    refine ⟨fun op h => ?_, nofun⟩
    rw [Expr.operation_braces] at h
    exact (ih spelled).1 op h
  | unary op operand ih => exact ⟨Expr.lowers_unary (ih spelled).1, nofun⟩
  | binary left op right ihl ihr =>
    refine ⟨?_, nofun⟩
    by_cases assigns : op = .assign
    · subst assigns
      exact Expr.lowers_assign (ihr spelled.2).1 (ihl spelled.1).2
    · exact Expr.lowers_binary assigns (ihl spelled.1).1 (ihr spelled.2).1
  | call callee args _ ih =>
    exact ⟨Expr.lowers_call fun e inside => (ih e inside (spelled.2.mem e inside)).1, nofun⟩
  | indexer base indices _ ih =>
    have below := fun e inside => (ih e inside (spelled.2.mem e inside)).1
    refine ⟨Expr.lowers_indexer below, ?_⟩
    rintro _ _ ⟨rfl, rfl⟩
    exact below

/-- The operation of an expression is the tree of its directive. -/
theorem Expr.operation_directive {e : Expr} (spelled : e.Spelled) {op : Operation}
    (h : e.operation = .ok op) : ∃ c, e.directive? = some c ∧ op = c.tree :=
  (Expr.lowers_and_indices spelled).1 op h

/-! ### Spelling -/

theorem Expr.place_spelled {e : Expr} {name : String} (spelled : e.Spelled)
    (h : e.place? = some name) : IsName name := by
  cases e <;> cases h
  exact spelled

theorem Term.indexed_spelled {array : String} {indices : List Term} (named : IsName array)
    (below : ∀ e ∈ indices, e.Spelled) : (Term.indexed array indices).Spelled := by
  suffices step : ∀ base : Term, base.isPlace → base.Spelled →
      (indices.foldl .index base).Spelled from
    step (.load (array ++ "[]")) rfl ⟨array, named, .inr rfl⟩
  induction indices with
  | nil => exact fun base _ spelled => spelled
  | cons i is ih =>
    have ⟨first, rest⟩ := List.forall_mem_cons.mp below
    exact fun base place spelled => ih rest (.index base i) rfl ⟨place, spelled, first⟩

theorem Expr.terms_spelled {es : List Expr} {ts : List Term}
    (each : ∀ e ∈ es, ∀ t, e.term? = some t → t.Spelled) (h : Expr.terms? es = some ts) :
    ∀ t ∈ ts, t.Spelled := by
  induction es generalizing ts with
  | nil =>
    cases h
    exact List.forall_mem_nil _
  | cons e es ih =>
    obtain ⟨t, first, h⟩ := Option.bind_eq_some_iff.mp h
    obtain ⟨others, rest, h⟩ := Option.bind_eq_some_iff.mp h
    cases h
    have ⟨eachFirst, eachRest⟩ := List.forall_mem_cons.mp each
    exact List.forall_mem_cons.mpr ⟨eachFirst t first, ih eachRest rest⟩

theorem Expr.term_spelled {e : Expr} (spelled : e.Spelled) {t : Term} (h : e.term? = some t) :
    t.Spelled := by
  induction e using Expr.induction generalizing t with
  | literal kind text =>
    cases h
    exact spelled
  | place name =>
    cases h
    exact ⟨name, spelled, .inl rfl⟩
  | braces inner ih => exact ih spelled h
  | unary op operand ih =>
    obtain ⟨below, read, rfl⟩ := Option.map_eq_some_iff.mp h
    have inner : below.Spelled := ih spelled read
    exact inner
  | binary left op right ihl ihr =>
    simp only [Expr.term?] at h
    split at h
    · cases h
    · obtain ⟨l, readL, h⟩ := Option.bind_eq_some_iff.mp h
      obtain ⟨r, readR, h⟩ := Option.bind_eq_some_iff.mp h
      cases h
      exact ⟨ihl spelled.1 readL, ihr spelled.2 readR⟩
  | call callee args _ ih =>
    obtain ⟨function, named, h⟩ := Option.bind_eq_some_iff.mp h
    obtain ⟨ts, read, rfl⟩ := Option.map_eq_some_iff.mp h
    have below := Expr.terms_spelled (fun e inside t => ih e inside (spelled.2.mem e inside)) read
    exact ⟨Expr.place_spelled spelled.1 named, Term.allSpelled_iff.mpr below⟩
  | indexer base indices _ ih =>
    obtain ⟨array, named, h⟩ := Option.bind_eq_some_iff.mp h
    obtain ⟨ts, read, rfl⟩ := Option.map_eq_some_iff.mp h
    have below := Expr.terms_spelled (fun e inside t => ih e inside (spelled.2.mem e inside)) read
    exact Term.indexed_spelled (Expr.place_spelled spelled.1 named) below

theorem Expr.directive_spelled {e : Expr} (spelled : e.Spelled) {c : Directive}
    (h : e.directive? = some c) : c.Spelled := by
  fun_induction Expr.directive? e generalizing c with
  | case1 inner ih => exact ih spelled h
  | case2 left right =>
    obtain ⟨value, read, h⟩ := Option.bind_eq_some_iff.mp h
    have value := Expr.term_spelled spelled.2 read
    split at h
    · cases h
      exact ⟨spelled.1, value⟩
    · obtain ⟨array, named, h⟩ := Option.bind_eq_some_iff.mp h
      obtain ⟨indices, items, h⟩ := Option.bind_eq_some_iff.mp h
      cases h
      have below := Expr.terms_spelled
        (fun e inside _ => Expr.term_spelled (spelled.1.2.mem e inside)) items
      exact ⟨Expr.place_spelled spelled.1.1 named, below, value⟩
    · cases h
  | case3 e _ _ =>
    obtain ⟨t, read, rfl⟩ := Option.map_eq_some_iff.mp h
    exact Expr.term_spelled spelled read

end MethodLang
