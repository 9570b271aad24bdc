import MethodLang.Proofs.Flow.Stopping
import MethodLang.Proofs.Typing.Reading

/-!
Which expressions are lowered, and to what. A spelled expression is lowered exactly when it assigns
at its root alone, to a variable or an element, and calls and indexes variables only. Its tree then
has the shape that the roles of its labels ask for, and is the tree of the expression without its
parentheses (`Expr.operation_exact`).
-/
namespace MethodLang

open Operation

namespace Expr

/-! ### Lowerable expressions -/

mutual
/-- The expressions inside an expression, at any depth. -/
def parts : Expr → List Expr
  | .unary _ operand => operand :: operand.parts
  | .binary left _ right => left :: left.parts ++ right :: right.parts
  | .braces inner => inner :: inner.parts
  | .call callee args => callee :: callee.parts ++ partsAll args
  | .indexer base indices => base :: base.parts ++ partsAll indices
  | .place _ | .literal _ _ => []

def partsAll : List Expr → List Expr
  | [] => []
  | e :: es => e :: e.parts ++ partsAll es
end

/-- The expression inside the parentheses around it. -/
def core : Expr → Expr
  | .braces inner => inner.core
  | e => e

def assigns : Expr → Bool
  | .binary _ .assign _ => true
  | _ => false

/-- A variable, or an element of one. -/
def isTarget : Expr → Bool
  | .place _ => true
  | .indexer base indices => base.place?.isSome && !indices.isEmpty
  | _ => false

/-- What is called or indexed is a variable. -/
def isNamed : Expr → Bool
  | .call callee _ => callee.place?.isSome
  | .indexer base _ => base.place?.isSome
  | _ => true

structure Lowerable (e : Expr) : Prop where
  plain : ∀ x ∈ e.core.parts, x.assigns = false
  target : ∀ left right, e.core = .binary left .assign right → left.isTarget
  named : ∀ x ∈ e :: e.parts, x.isNamed

/-- Nothing is assigned, and only variables are called and indexed. -/
def Plain (e : Expr) : Prop := ∀ x ∈ e :: e.parts, x.assigns = false ∧ x.isNamed

theorem forall_partsAll {P : Expr → Prop} {es : List Expr} :
    (∀ x ∈ partsAll es, P x) ↔ ∀ e ∈ es, ∀ x ∈ e :: e.parts, P x := by
  induction es with
  | nil => simp [partsAll]
  | cons e es ih => simp only [partsAll, List.forall_mem_append, List.forall_mem_cons, ih]

theorem place?_eq_some {e : Expr} {name : String} : e.place? = some name ↔ e = .place name := by
  cases e <;> simp [place?]

theorem plain_of_place {e : Expr} (is : e.place?.isSome) : e.Plain := by
  obtain ⟨name, read⟩ := Option.isSome_iff_exists.mp is
  rw [place?_eq_some.mp read]
  simp [Plain, parts, assigns, isNamed]

theorem plain_braces {inner : Expr} : (Expr.braces inner).Plain ↔ inner.Plain := by
  simp [Plain, parts, assigns, isNamed]

theorem plain_unary {op : UnaryOp} {operand : Expr} :
    (Expr.unary op operand).Plain ↔ operand.Plain := by
  simp [Plain, parts, assigns, isNamed]

theorem plain_binary {op : BinaryOp} {left right : Expr} :
    (Expr.binary left op right).Plain ↔ op ≠ .assign ∧ left.Plain ∧ right.Plain := by
  have sign : (Expr.binary left op right).assigns = false ↔ op ≠ .assign := by
    cases op <;> simp [assigns]
  simp only [Plain, parts, List.cons_append, List.forall_mem_cons, List.forall_mem_append, sign,
    isNamed, and_true, and_assoc]

/-- Calls and indexers alike: a variable in front of a list. -/
theorem plain_list {e head : Expr} {items : List Expr}
    (parts : e.parts = head :: head.parts ++ partsAll items) (other : e.assigns = false)
    (named : e.isNamed = head.place?.isSome) :
    e.Plain ↔ head.place?.isSome ∧ ∀ x ∈ items, x.Plain := by
  have below : e.Plain ↔ head.place?.isSome ∧ head.Plain ∧ ∀ x ∈ items, x.Plain := by
    simp only [Plain, parts, List.cons_append, List.forall_mem_cons, List.forall_mem_append,
      forall_partsAll, other, named, true_and, and_assoc]
  rw [below]
  exact ⟨fun ⟨is, _, rest⟩ => ⟨is, rest⟩, fun ⟨is, rest⟩ => ⟨is, plain_of_place is, rest⟩⟩

theorem plain_call {callee : Expr} {args : List Expr} :
    (Expr.call callee args).Plain ↔ callee.place?.isSome ∧ ∀ e ∈ args, e.Plain :=
  plain_list rfl rfl rfl

theorem plain_indexer {base : Expr} {indices : List Expr} :
    (Expr.indexer base indices).Plain ↔ base.place?.isSome ∧ ∀ e ∈ indices, e.Plain :=
  plain_list rfl rfl rfl

theorem isSome_terms {es : List Expr} : (terms? es).isSome ↔ ∀ e ∈ es, e.term?.isSome := by
  induction es with
  | nil => simp [terms?]
  | cons e es ih =>
    rw [List.forall_mem_cons, ← ih, terms?]
    cases e.term? <;> cases terms? es <;> simp

theorem terms_eq_nil {es : List Expr} : terms? es = some [] ↔ es = [] := by
  cases es with
  | nil => simp [terms?]
  | cons e es =>
    rw [terms?]
    cases e.term? <;> cases terms? es <;> simp

/-- An expression has a term exactly when it is plain. -/
theorem isSome_term {e : Expr} : e.term?.isSome ↔ e.Plain := by
  induction e using Expr.induction with
  | literal kind text | place name => simp [term?, Plain, parts, assigns, isNamed]
  | braces inner ih => rw [plain_braces, ← ih, term?]
  | unary op operand ih => rw [plain_unary, ← ih, term?, Option.isSome_map]
  | binary left op right ihl ihr =>
    rw [plain_binary, ← ihl, ← ihr, term?]
    by_cases sign : op = .assign
    · simp [sign]
    · cases left.term? <;> cases right.term? <;> simp [sign]
  | call callee args _ ih =>
    have below : (terms? args).isSome ↔ ∀ e ∈ args, e.Plain :=
      isSome_terms.trans (forall₂_congr ih)
    rw [plain_call, ← below, term?]
    cases callee.place? <;> simp
  | indexer base indices _ ih =>
    have below : (terms? indices).isSome ↔ ∀ e ∈ indices, e.Plain :=
      isSome_terms.trans (forall₂_congr ih)
    rw [plain_indexer, ← below, term?]
    cases base.place? <;> simp

end Expr

/-! ### Lowering of directives -/

theorem Operation.hasStoreAll_eq (ts : List Operation) : hasStoreAll ts = ts.any hasStore := by
  induction ts with
  | nil => rfl
  | cons t ts ih => rw [hasStoreAll, ih, List.any_cons]

theorem Term.isStore_label (t : Term) : isStore t.label = false := by
  cases t with
  | binary op left right =>
    have each : ∀ op : BinaryOp, isStore op.text = false := by
      intro op
      cases op <;> decide
    exact each op.1
  | unary op operand =>
    have each : ∀ op : UnaryOp, isStore op.text = false := by
      intro op
      cases op <;> decide
    exact each op
  | index base position => exact (by decide : isStore "index" = false)
  | literal | load | call => simp [isStore, label, Text.startsWith, List.isPrefixOf]

/-- No term assigns. -/
theorem Term.hasStore_tree (t : Term) : hasStore t.tree = false := by
  induction t using children_induction with
  | step t ih =>
    rw [tree_eq, make, hasStore, isStore_label, hasStoreAll_eq]
    simpa using ih

theorem Term.any_hasStore (ts : List Term) : (ts.map Term.tree).any hasStore = false := by
  simp [Term.hasStore_tree]

/-- An element is assigned to through at least one index. -/
def Directive.Addressed : Directive → Prop
  | .storeAt _ indices _ => indices ≠ []
  | _ => True

namespace Expr

theorem variableOf_place (role name : String) :
    variableOf role (Expr.place name).view = .ok name := by
  rw [Expr.view_place, variableOf]
  simp [tokenView, Text.unquote_quoted]

theorem mapM_operation {es : List Expr} {ts : List Term}
    (each : ∀ e ∈ es, ∀ t, e.term? = some t → e.operation = .ok t.tree)
    (read : terms? es = some ts) : es.mapM Expr.operation = .ok (ts.map Term.tree) := by
  induction es generalizing ts with
  | nil =>
    cases read
    rfl
  | cons e es ih =>
    obtain ⟨t, first, read⟩ := Option.bind_eq_some_iff.mp read
    obtain ⟨others, rest, read⟩ := Option.bind_eq_some_iff.mp read
    cases read
    have ⟨eachFirst, eachRest⟩ := List.forall_mem_cons.mp each
    rw [List.mapM_cons, eachFirst t first, ih eachRest rest]
    rfl

theorem withoutStore_tree (t : Term) : withoutStore t.tree = .ok t.tree :=
  withoutStore_ok.mpr ⟨t.hasStore_tree, rfl⟩

theorem allWithoutStore_trees (ts : List Term) :
    allWithoutStore (ts.map Term.tree) = .ok (ts.map Term.tree) :=
  allWithoutStore_ok.mpr ⟨Term.any_hasStore ts, rfl⟩

/-- An expression with a term is lowered to the tree of the term. -/
theorem operation_term {e : Expr} (spelled : e.Spelled) {t : Term} (read : e.term? = some t) :
    e.operation = .ok t.tree := by
  induction e using Expr.induction generalizing t with
  | literal kind text =>
    cases read
    exact Expr.operation_literal spelled
  | place name =>
    cases read
    exact Expr.operation_place name
  | braces inner ih =>
    rw [Expr.operation_braces]
    exact ih spelled read
  | unary op operand ih =>
    obtain ⟨o, below, rfl⟩ := Option.map_eq_some_iff.mp read
    rw [Expr.operation_unary, ih spelled below]
    simp [withoutStore_tree, Term.tree, bind, Except.bind]
  | binary left op right ihl ihr =>
    simp only [term?] at read
    split at read
    · cases read
    · rename_i proper
      obtain ⟨l, readL, read⟩ := Option.bind_eq_some_iff.mp read
      obtain ⟨r, readR, read⟩ := Option.bind_eq_some_iff.mp read
      cases read
      rw [Expr.operation_binary proper, ihl spelled.1 readL, ihr spelled.2 readR]
      simp [withoutStore_tree, Term.tree, bind, Except.bind]
  | call callee args _ ih =>
    obtain ⟨function, named, read⟩ := Option.bind_eq_some_iff.mp read
    obtain ⟨ts, items, rfl⟩ := Option.map_eq_some_iff.mp read
    have below := mapM_operation (fun e mem _ => ih e mem (spelled.2.mem e mem)) items
    rw [Expr.operation_call, place?_eq_some.mp named, variableOf_place, below]
    simp [allWithoutStore_trees, Term.tree, Term.trees_eq_map, Term.label, bind, Except.bind]
  | indexer base indices _ ih =>
    obtain ⟨array, named, read⟩ := Option.bind_eq_some_iff.mp read
    obtain ⟨ts, items, rfl⟩ := Option.map_eq_some_iff.mp read
    have below := mapM_operation (fun e mem _ => ih e mem (spelled.2.mem e mem)) items
    rw [Expr.operation_indexer, place?_eq_some.mp named, variableOf_place, below,
      Term.indexed_tree]
    simp [allWithoutStore_trees, bind, Except.bind]

theorem operations_terms {es : List Expr} (spelled : AllSpelled es) {ts : List Term}
    (read : terms? es = some ts) : es.mapM Expr.operation = .ok (ts.map Term.tree) :=
  mapM_operation (fun e mem _ => operation_term (spelled.mem e mem)) read

/-- Parentheses are seen through, an assignment is taken apart, and the rest has a term. -/
@[elab_as_elim]
theorem core_induction {P : Expr → Prop} (braces : ∀ inner, P inner → P (.braces inner))
    (assign : ∀ left right, P (.binary left .assign right))
    (other : ∀ e : Expr, e.core = e → e.assigns = false → e.directive? = e.term?.map .value → P e)
    (e : Expr) : P e := by
  induction e using directive?.induct with
  | case1 inner ih => exact braces inner ih
  | case2 left right => exact assign left right
  | case3 e notBraces notAssign =>
    cases e with
    | braces inner => exact absurd rfl (notBraces inner)
    | binary left op right =>
      refine other _ rfl ?_ ?_
      · cases op <;> first | rfl | exact absurd rfl (notAssign left right)
      · cases op <;> first | rfl | exact absurd rfl (notAssign left right)
    | _ => exact other _ rfl rfl rfl

/-- An assignment has a directive when its right side has a term and its left side is a target with
terms for its indices. -/
theorem directive_assign {left right : Expr} {c : Directive} :
    (Expr.binary left .assign right).directive? = some c ↔ ∃ value, right.term? = some value ∧
      ((∃ name, left = .place name ∧ c = .store name value) ∨
        ∃ array indices ts, left = .indexer (.place array) indices ∧ terms? indices = some ts ∧
          c = .storeAt array ts value) := by
  rw [directive?]
  constructor
  · intro read
    obtain ⟨value, right, read⟩ := Option.bind_eq_some_iff.mp read
    refine ⟨value, right, ?_⟩
    split at read
    · cases read
      exact .inl ⟨_, rfl, rfl⟩
    · obtain ⟨array, named, read⟩ := Option.bind_eq_some_iff.mp read
      obtain ⟨ts, items, read⟩ := Option.bind_eq_some_iff.mp read
      cases read
      rw [place?_eq_some.mp named]
      exact .inr ⟨array, _, ts, rfl, items, rfl⟩
    · cases read
  · rintro ⟨value, right, ⟨name, rfl, rfl⟩ | ⟨array, indices, ts, rfl, items, rfl⟩⟩
    · simp [right]
    · simp [right, place?, items]

theorem target_place (name : String) (value : Operation) :
    (reading (Expr.place name).view).target value =
      .ok (make ("store(" ++ name ++ ")") [value]) := by
  rw [Expr.view_place]
  simp only [reading_node, List.map_cons, List.map_nil]
  simp [readNode, lowerTarget, lowerTargetForm, child, tokenView, Text.unquote_quoted, bind,
    Except.bind]

/-- An expression with an addressed directive is lowered to the tree of the directive. -/
theorem operation_of_directive {e : Expr} (spelled : e.Spelled) {c : Directive}
    (read : e.directive? = some c) (addressed : c.Addressed) : e.operation = .ok c.tree := by
  induction e using Expr.core_induction generalizing c with
  | braces inner ih =>
    rw [Expr.operation_braces]
    exact ih spelled read addressed
  | assign left right =>
    obtain ⟨value, given, found⟩ := directive_assign.mp read
    have right : (Expr.binary left .assign right).operation =
        (reading left.view).target value.tree := by
      rw [Expr.operation_assign, operation_term spelled.2 given]
      simp [withoutStore_tree, bind, Except.bind]
    rw [right]
    rcases found with ⟨name, rfl, rfl⟩ | ⟨array, indices, ts, rfl, items, rfl⟩
    · exact target_place name _
    · have nonempty : (ts.map Term.tree).isEmpty = false := by
        simpa using (show ts ≠ [] from addressed)
      rw [target_indexer, variableOf_place, operations_terms spelled.1.2 items]
      simp [allWithoutStore_trees, nonempty, Directive.tree, Directive.label, Directive.children,
        bind, Except.bind]
  | other e _ _ same =>
    rw [same] at read
    obtain ⟨t, found, rfl⟩ := Option.map_eq_some_iff.mp read
    rw [operation_term spelled found, Directive.tree_value]

theorem directive_addressed {e : Expr} {c : Directive} (read : e.directive? = some c)
    {op : Operation} (lowered : e.operation = .ok op) : c.Addressed := by
  induction e using Expr.core_induction generalizing c with
  | braces inner ih =>
    rw [Expr.operation_braces] at lowered
    exact ih read lowered
  | assign left right =>
    obtain ⟨value, _, ⟨name, rfl, rfl⟩ | ⟨array, indices, ts, rfl, items, rfl⟩⟩ :=
      directive_assign.mp read
    · trivial
    · rw [Expr.operation_assign] at lowered
      obtain ⟨_, _, lowered⟩ := Except.bind_eq_ok.mp lowered
      obtain ⟨_, _, lowered⟩ := Except.bind_eq_ok.mp lowered
      -- an element without indices has a directive, but as a target it is refused
      rintro rfl
      obtain rfl := terms_eq_nil.mp items
      rcases target_cases lowered with ⟨_, is, _⟩ | ⟨_, _, _, ops, ⟨⟩, _, all, inhabited, _⟩
      · cases is
      · cases all
        exact inhabited rfl
  | other e _ _ same =>
    rw [same] at read
    obtain ⟨t, _, rfl⟩ := Option.map_eq_some_iff.mp read
    trivial

/-- The trees of an expression are those of its addressed directives. -/
theorem operation_ok_iff {e : Expr} (spelled : e.Spelled) {op : Operation} :
    e.operation = .ok op ↔ ∃ c, e.directive? = some c ∧ c.Addressed ∧ op = c.tree := by
  constructor
  · intro lowered
    obtain ⟨c, read, rfl⟩ := Expr.operation_directive spelled lowered
    exact ⟨c, read, directive_addressed read lowered, rfl⟩
  · rintro ⟨c, read, addressed, rfl⟩
    exact operation_of_directive spelled read addressed

theorem lowerable_braces {inner : Expr} : (Expr.braces inner).Lowerable ↔ inner.Lowerable := by
  constructor
  · rintro ⟨plain, target, named⟩
    exact ⟨plain, target, (List.forall_mem_cons.mp named).2⟩
  · rintro ⟨plain, target, named⟩
    exact ⟨plain, target, List.forall_mem_cons.mpr ⟨rfl, named⟩⟩

theorem lowerable_of_core {e : Expr} (bare : e.core = e) (other : e.assigns = false) :
    e.Lowerable ↔ e.Plain := by
  constructor
  · rintro ⟨plain, _, named⟩
    rw [bare] at plain
    have unassigned : ∀ x ∈ e :: e.parts, x.assigns = false :=
      List.forall_mem_cons.mpr ⟨other, plain⟩
    exact fun x mem => ⟨unassigned x mem, named x mem⟩
  · intro plain
    refine ⟨?_, ?_, fun x mem => (plain x mem).2⟩
    · rw [bare]
      exact fun x mem => (plain x (List.mem_cons_of_mem e mem)).1
    · rw [bare]
      rintro left right rfl
      cases other

theorem lowerable_assign {left right : Expr} : (Expr.binary left .assign right).Lowerable ↔
    left.isTarget ∧ left.Plain ∧ right.Plain := by
  have both : (∀ x ∈ (Expr.binary left .assign right).parts, x.assigns = false ∧ x.isNamed) ↔
      left.Plain ∧ right.Plain := List.forall_mem_append
  constructor
  · rintro ⟨plain, target, named⟩
    exact ⟨target left right rfl,
      both.mp fun x mem => ⟨plain x mem, named x (List.mem_cons_of_mem _ mem)⟩⟩
  · rintro ⟨target, plain⟩
    have each := both.mpr plain
    refine ⟨fun x mem => (each x mem).1, ?_, ?_⟩
    · rintro _ _ ⟨rfl, rfl⟩
      exact target
    · exact List.forall_mem_cons.mpr ⟨rfl, fun x mem => (each x mem).2⟩

/-- The lowerable expressions are those with an addressed directive. -/
theorem lowerable_iff {e : Expr} : e.Lowerable ↔ ∃ c, e.directive? = some c ∧ c.Addressed := by
  induction e using Expr.core_induction with
  | braces inner ih => rw [lowerable_braces, ih, directive?]
  | assign left right =>
    simp only [lowerable_assign, ← isSome_term (e := right), Option.isSome_iff_exists,
      directive_assign]
    constructor
    · rintro ⟨target, plain, value, read⟩
      cases left with
      | place name => exact ⟨.store name value, ⟨value, read, .inl ⟨name, rfl, rfl⟩⟩, trivial⟩
      | indexer base indices =>
        obtain ⟨is, below⟩ := plain_indexer.mp plain
        obtain ⟨array, named⟩ := Option.isSome_iff_exists.mp is
        obtain ⟨ts, items⟩ := Option.isSome_iff_exists.mp
          (isSome_terms.mpr fun e mem => isSome_term.mpr (below e mem))
        obtain rfl := place?_eq_some.mp named
        refine ⟨.storeAt array ts value,
          ⟨value, read, .inr ⟨array, indices, ts, rfl, items, rfl⟩⟩, ?_⟩
        rintro rfl
        simp [isTarget, terms_eq_nil.mp items] at target
      | _ => cases target
    · rintro ⟨c, ⟨value, read, ⟨name, rfl, rfl⟩ | ⟨array, indices, ts, rfl, items, rfl⟩⟩, addressed⟩
      · exact ⟨rfl, plain_of_place rfl, value, read⟩
      · have inhabited : indices ≠ [] := by
          rintro rfl
          cases items
          exact addressed rfl
        have below : (terms? indices).isSome := Option.isSome_iff_exists.mpr ⟨ts, items⟩
        exact ⟨by simp [isTarget, place?, inhabited],
          plain_indexer.mpr ⟨rfl, fun e mem => isSome_term.mp (isSome_terms.mp below e mem)⟩,
          value, read⟩
  | other e bare plain same =>
    rw [lowerable_of_core bare plain, ← isSome_term, Option.isSome_iff_exists, same]
    constructor
    · rintro ⟨t, read⟩
      exact ⟨.value t, by rw [read, Option.map_some], trivial⟩
    · rintro ⟨c, read, _⟩
      obtain ⟨t, found, _⟩ := Option.map_eq_some_iff.mp read
      exact ⟨t, found⟩

/-! ### Parentheses -/

mutual
/-- The expression without any of its parentheses. -/
def unbraced : Expr → Expr
  | .unary op operand => .unary op operand.unbraced
  | .binary left op right => .binary left.unbraced op right.unbraced
  | .braces inner => inner.unbraced
  | .call callee args => .call callee.unbraced (unbracedAll args)
  | .indexer base indices => .indexer base.unbraced (unbracedAll indices)
  | .place name => .place name
  | .literal kind text => .literal kind text

def unbracedAll : List Expr → List Expr
  | [] => []
  | e :: es => e.unbraced :: unbracedAll es
end

theorem unbracedAll_spelled {es : List Expr} (each : ∀ e ∈ es, e.unbraced.Spelled) :
    AllSpelled (unbracedAll es) := by
  induction es with
  | nil => trivial
  | cons e es ih =>
    have ⟨first, rest⟩ := List.forall_mem_cons.mp each
    exact ⟨first, ih rest⟩

theorem unbraced_spelled {e : Expr} (spelled : e.Spelled) : e.unbraced.Spelled := by
  induction e using Expr.induction with
  | literal | place => exact spelled
  | braces inner ih => exact ih spelled
  | unary op operand ih => exact ih spelled
  | binary left op right ihl ihr => exact ⟨ihl spelled.1, ihr spelled.2⟩
  | call callee args first ih | indexer base indices first ih =>
    exact ⟨first spelled.1, unbracedAll_spelled fun e mem => ih e mem (spelled.2.mem e mem)⟩

theorem terms_unbraced {es : List Expr} {ts : List Term}
    (each : ∀ e ∈ es, ∀ t, e.term? = some t → e.unbraced.term? = some t)
    (read : terms? es = some ts) : terms? (unbracedAll es) = some ts := by
  induction es generalizing ts with
  | nil => exact read
  | cons e es ih =>
    obtain ⟨t, first, read⟩ := Option.bind_eq_some_iff.mp read
    obtain ⟨others, rest, read⟩ := Option.bind_eq_some_iff.mp read
    cases read
    have ⟨eachFirst, eachRest⟩ := List.forall_mem_cons.mp each
    simp [unbracedAll, terms?, eachFirst t first, ih eachRest rest]

/-- A term is read off without the parentheses as well. The converse fails: a function in
parentheses cannot be called. -/
theorem term_unbraced {e : Expr} {t : Term} (read : e.term? = some t) :
    e.unbraced.term? = some t := by
  induction e using Expr.induction generalizing t with
  | literal | place => exact read
  | braces inner ih => exact ih read
  | unary op operand ih =>
    obtain ⟨o, below, rfl⟩ := Option.map_eq_some_iff.mp read
    rw [unbraced, term?, ih below, Option.map_some]
  | binary left op right ihl ihr =>
    simp only [term?] at read
    split at read
    · cases read
    · rename_i proper
      obtain ⟨l, readL, read⟩ := Option.bind_eq_some_iff.mp read
      obtain ⟨r, readR, read⟩ := Option.bind_eq_some_iff.mp read
      cases read
      simp [unbraced, term?, proper, ihl readL, ihr readR]
  | call callee args _ ih =>
    obtain ⟨function, named, read⟩ := Option.bind_eq_some_iff.mp read
    obtain ⟨ts, items, rfl⟩ := Option.map_eq_some_iff.mp read
    obtain rfl := place?_eq_some.mp named
    simp [unbraced, term?, place?, terms_unbraced (fun e mem _ => ih e mem) items]
  | indexer base indices _ ih =>
    obtain ⟨array, named, read⟩ := Option.bind_eq_some_iff.mp read
    obtain ⟨ts, items, rfl⟩ := Option.map_eq_some_iff.mp read
    obtain rfl := place?_eq_some.mp named
    simp [unbraced, term?, place?, terms_unbraced (fun e mem _ => ih e mem) items]

theorem directive_of_term {e : Expr} {t : Term} (read : e.term? = some t) :
    e.directive? = some (.value t) := by
  induction e using Expr.core_induction with
  | braces inner ih => exact ih read
  | assign left right => cases read
  | other e _ _ same => rw [same, read, Option.map_some]

theorem directive_unbraced {e : Expr} {c : Directive} (read : e.directive? = some c) :
    e.unbraced.directive? = some c := by
  induction e using Expr.core_induction with
  | braces inner ih => exact ih read
  | assign left right =>
    obtain ⟨value, given, found⟩ := directive_assign.mp read
    refine directive_assign.mpr ⟨value, term_unbraced given, ?_⟩
    rcases found with ⟨name, rfl, rfl⟩ | ⟨array, indices, ts, rfl, items, rfl⟩
    · exact .inl ⟨name, rfl, rfl⟩
    · exact .inr ⟨array, unbracedAll indices, ts, rfl,
        terms_unbraced (fun _ _ _ => term_unbraced) items, rfl⟩
  | other e _ _ same =>
    rw [same] at read
    obtain ⟨t, found, rfl⟩ := Option.map_eq_some_iff.mp read
    exact directive_of_term (term_unbraced found)

end Expr

/-! ### Shape -/

/-- How many operands stand below a node of the role; only the root of a tree assigns. -/
def Role.Takes (isRoot : Prop) (operands : Nat) : Role → Prop
  | .const _ | .load _ => operands = 0
  | .call _ => True
  | .store _ => isRoot ∧ operands = 1
  | .storeAt _ => isRoot ∧ 2 ≤ operands
  | .index | .arithmetic | .bitwise | .logical | .comparison => operands = 2
  | .negation | .inversion => operands = 1
  | .unknown => False

/-- Every node of the tree has as many operands as its role takes. -/
def Operation.Shaped (op : Operation) : Prop :=
  ∀ path node, op.at? path = some node →
    (Role.ofLabel node.label).Takes (path = []) node.children.length

theorem Term.label_takes {t : Term} (spelled : t.Spelled) (isRoot : Prop) :
    (Role.ofLabel t.label).Takes isRoot t.children.length := by
  cases t with
  | literal kind text =>
    rw [Role.ofLabel_literal]
    rfl
  | load name =>
    rw [label, Role.ofLabel_load spelled]
    rfl
  | call function args =>
    rw [label, Role.ofLabel_call spelled.1]
    trivial
  | index base position =>
    rw [label, Role.ofLabel_index]
    rfl
  | binary op left right =>
    obtain ⟨op, proper⟩ := op
    rw [label, BinaryOp.ofLabel_text]
    cases op <;> first | rfl | contradiction
  | unary op operand =>
    rw [label, UnaryOp.ofLabel_text]
    cases op <;> rfl

theorem Directive.label_takes {c : Directive} (spelled : c.Spelled) (addressed : c.Addressed) :
    (Role.ofLabel c.label).Takes True c.children.length := by
  cases c with
  | value t => exact Term.label_takes spelled True
  | store name value =>
    rw [label, Role.ofLabel_store spelled.1]
    exact ⟨trivial, rfl⟩
  | storeAt array indices value =>
    have := List.length_pos_iff.mpr addressed
    rw [label, Role.ofLabel_storeAt spelled.1]
    refine ⟨trivial, ?_⟩
    rw [children, List.length_append, List.length_singleton]
    omega

theorem Directive.Spelled.children {c : Directive} (spelled : c.Spelled) :
    ∀ x ∈ c.children, x.Spelled := by
  cases c with
  | value t => exact Term.Spelled.children spelled
  | store name value => exact List.forall_mem_singleton.mpr spelled.2
  | storeAt array indices value =>
    exact List.forall_mem_append.mpr ⟨spelled.2.1, List.forall_mem_singleton.mpr spelled.2.2⟩

/-- A node below the root of a tree of terms is a node of one of the terms. -/
theorem Operation.at?_make {label : String} {ts : List Term} {i : Nat} {path : List Nat}
    {node : Operation} (found : (make label (ts.map Term.tree)).at? (i :: path) = some node) :
    ∃ t ∈ ts, t.tree.at? path = some node := by
  obtain ⟨below, isChild, found⟩ := Option.bind_eq_some_iff.mp found
  rw [make, Tree.children_node, List.getElem?_map] at isChild
  obtain ⟨t, mem, rfl⟩ := Option.map_eq_some_iff.mp isChild
  exact ⟨t, List.mem_of_getElem? mem, found⟩

theorem Term.takes_at {t : Term} (spelled : t.Spelled) (isRoot : Prop) {path : List Nat}
    {node : Operation} (found : t.tree.at? path = some node) :
    (Role.ofLabel node.label).Takes isRoot node.children.length := by
  induction path generalizing t with
  | nil =>
    cases found
    rw [tree_eq, make, Tree.label_node, Tree.children_node, List.length_map]
    exact t.label_takes spelled isRoot
  | cons i path ih =>
    rw [tree_eq] at found
    obtain ⟨x, mem, found⟩ := Operation.at?_make found
    exact ih (spelled.children x mem) found

theorem Directive.tree_shaped {c : Directive} (spelled : c.Spelled) (addressed : c.Addressed) :
    c.tree.Shaped := by
  intro path node found
  cases path with
  | nil =>
    cases found
    rw [tree, make, Tree.label_node, Tree.children_node, List.length_map]
    simpa using c.label_takes spelled addressed
  | cons i path =>
    obtain ⟨x, mem, found⟩ := Operation.at?_make found
    exact Term.takes_at (spelled.children x mem) _ found

/-- A spelled expression is lowered or refused. It is lowered exactly when an assignment stands at
its root only, with a variable or an element on its left, and only variables are called and
indexed; the tree then is the one without parentheses, and its nodes have the operands that their
roles take, with an assignment at the root only. -/
theorem Expr.operation_exact {e : Expr} (spelled : e.Spelled) :
    ((∃ op, e.operation = .ok op) ∨ ∃ reason, e.operation = .error (.refused reason)) ∧
    ((∃ op, e.operation = .ok op) ↔ e.Lowerable) ∧
    ∀ op, e.operation = .ok op → op.Shaped ∧ e.unbraced.operation = .ok op := by
  refine ⟨?_, ?_, ?_⟩
  · cases result : e.operation with
    | ok op => exact .inl ⟨op, rfl⟩
    | error fault =>
      obtain ⟨reason, rfl⟩ := (Expr.operation_onlyRefuses spelled).1 fault result
      exact .inr ⟨reason, rfl⟩
  · rw [lowerable_iff]
    constructor
    · rintro ⟨op, lowered⟩
      obtain ⟨c, read, addressed, _⟩ := (operation_ok_iff spelled).mp lowered
      exact ⟨c, read, addressed⟩
    · rintro ⟨c, read, addressed⟩
      exact ⟨c.tree, operation_of_directive spelled read addressed⟩
  · intro op lowered
    obtain ⟨c, read, addressed, rfl⟩ := (operation_ok_iff spelled).mp lowered
    exact ⟨c.tree_shaped (Expr.directive_spelled spelled read) addressed,
      operation_of_directive (unbraced_spelled spelled) (directive_unbraced read) addressed⟩

theorem element_operation_exact :
    let element (indices : List Expr) : Expr := .indexer (.place "a") indices
    let value : Expr := .braces (.binary (.place "b") .add (.call (.place "f") [.place "x"]))
    let e : Expr := .braces (.binary (element [.place "i", value]) .assign value)
    let bare : Expr := .binary (element []) .assign value
    e.Spelled ∧ bare.Spelled ∧
    (∃ op, e.operation = .ok op ∧ op.Shaped ∧ e.unbraced.operation = .ok op) ∧
    ∃ reason, bare.operation = .error (.refused reason) := by
  intro element value e bare
  have spelledV : value.Spelled := ⟨rfl, rfl, rfl, trivial⟩
  have spelled : e.Spelled := ⟨⟨rfl, rfl, spelledV, trivial⟩, spelledV⟩
  have spelledB : bare.Spelled := ⟨⟨rfl, trivial⟩, spelledV⟩
  have lowerable : e.Lowerable := by
    refine ⟨?_, ?_, ?_⟩
    · simp [e, element, value, Expr.core, Expr.parts, Expr.partsAll, Expr.assigns]
    · rintro _ _ ⟨rfl, rfl⟩
      rfl
    · simp [e, element, value, Expr.parts, Expr.partsAll, Expr.isNamed, Expr.place?]
  have refused : ¬ ∃ op, bare.operation = .ok op := by
    intro lowered
    cases ((Expr.operation_exact spelledB).2.1.mp lowered).target _ _ rfl
  obtain ⟨op, lowered⟩ := (Expr.operation_exact spelled).2.1.mpr lowerable
  exact ⟨spelled, spelledB, ⟨op, lowered, (Expr.operation_exact spelled).2.2 op lowered⟩,
    (Expr.operation_exact spelledB).1.resolve_left refused⟩

end MethodLang
