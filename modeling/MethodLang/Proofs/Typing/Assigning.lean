import Mathlib.Data.List.Forall2
import MethodLang.Proofs.Typing.Filling
import MethodLang.Proofs.Typing.Moves

/-!
Types of whole trees. Once a directive was given its types without an error, all its terms are
sound (`Directive.assign_sound`). No error goes unnoticed then, unless the directive assigns to a
numeric variable (`Directive.assign_clean`): the right side is settled before it is inferred, and
settling tells no errors.
-/
namespace MethodLang

open Checker

variable {s : Scope}

namespace Term

theorem kids_eq_map (es : List Term) : kids s es = es.map (kid s) := by
  induction es with
  | nil => rfl
  | cons e es ih => rw [kids, ih, List.map_cons]

theorem fresh_checker (e : Term) : e.fresh.checker s = e.kid s := by
  induction e using children_induction with
  | step e ih =>
    rw [fresh_eq, Marked.checker_node, kid_eq, kids_eq_map, List.map_map]
    exact congrArg (Checker.node s e.label) (List.map_congr_left ih)

theorem spread_eq (e : Term) (type : Option TypeName) (t : Marked) :
    (e.kid s).spread type t = spreadNode s (kids s e.children) e.label type t := by
  rw [kid_eq]
  rfl

/-- The term after it was inferred on its own. -/
def inferred (s : Scope) (e : Term) : Marked := ((e.kid s).infer e.fresh).node

/-- Inferring the term on its own finds no error. -/
def Clean (s : Scope) (e : Term) : Prop := ((e.kid s).infer e.fresh).errors = []

/-- Marked terms that are sound, each with some type. -/
def AllSound (s : Scope) (es : List Term) (cs : List Marked) : Prop :=
  List.Forall₂ (fun e c => ∃ type, e.Sound s c type) es cs

theorem allSound_map {f : Term → Marked} {es : List Term}
    (each : ∀ e ∈ es, ∃ type, e.Sound s (f e) type) : AllSound s es (es.map f) := by
  induction es with
  | nil => exact List.Forall₂.nil
  | cons e es ih =>
    have ⟨first, rest⟩ := List.forall_mem_cons.mp each
    exact List.Forall₂.cons first (ih rest)

theorem filled_all {es : List Term} (each : ∀ e ∈ es, e.Fills s) {cs : List Marked}
    (sound : AllSound s es cs) : AllSound s es (List.zipWith fillOne (kids s es) cs) := by
  induction sound with
  | nil => exact List.Forall₂.nil
  | cons first _ ih =>
    have ⟨fills, rest⟩ := List.forall_mem_cons.mp each
    obtain ⟨type, first⟩ := first
    exact List.Forall₂.cons ⟨type, (fills.one first).1⟩ (ih rest)

theorem settleEach_all {es : List Term} {cs : List Marked} (counted : es.length = cs.length)
    (wanted : Option TypeName) (l : String) (m : Mark) (before : List Checker) (pre : List Marked)
    (same : before.length = pre.length) (after : List Checker) (post : List Marked) :
    settleEach (before ++ kids s es ++ after) wanted (List.range' pre.length es.length)
      (.node l m (pre ++ cs ++ post)) =
    .node l m (pre ++ List.zipWith (fun e c => (e.kid s).settle wanted c) es cs ++ post) := by
  induction es generalizing cs before pre with
  | nil =>
    obtain rfl := List.eq_nil_of_length_eq_zero counted.symm
    rfl
  | cons e es ih =>
    obtain _ | ⟨c, cs⟩ := cs
    · cases counted
    have run := ih (Nat.succ.inj counted) (before ++ [e.kid s])
      (pre ++ [(e.kid s).settle wanted c]) (by simp [same])
    have step : settleChild (before ++ e.kid s :: (kids s es ++ after)) wanted pre.length
        (.node l m (pre ++ c :: (cs ++ post))) =
          .node l m (pre ++ (e.kid s).settle wanted c :: (cs ++ post)) :=
      onChild_at (e.kid s) c same _
    simp only [kids, List.length_cons, List.range'_succ, List.append_assoc, List.cons_append]
    rw [settleEach, List.foldl_cons, step]
    simpa [settleEach] using run

theorem settled_all {es : List Term} (each : ∀ e ∈ es, e.Spreads s) {cs : List Marked}
    (sound : AllSound s es cs) (wanted : Option TypeName) :
    AllSound s es (List.zipWith (fun e c => (e.kid s).settle wanted c) es cs) := by
  induction sound with
  | nil => exact List.Forall₂.nil
  | cons first _ ih =>
    have ⟨spreads, others⟩ := List.forall_mem_cons.mp each
    obtain ⟨type, first⟩ := first
    exact List.Forall₂.cons ⟨_, (spreads.settle wanted first).1⟩ (ih others)

/-- The indices of an array element are inferred one by one. -/
theorem inferIndices_fresh (use : ValueUse) (es : List Term) (l : String) (m : Mark)
    (before : List Checker) (pre : List Marked) (same : before.length = pre.length)
    (after : List Checker) (post : List Marked) :
    (inferIndices (before ++ kids s es ++ after) use (List.range' pre.length es.length)
      (.node l m (pre ++ es.map fresh ++ post))).2 =
        .node l m (pre ++ es.map (inferred s) ++ post) ∧
    ((inferIndices (before ++ kids s es ++ after) use (List.range' pre.length es.length)
      (.node l m (pre ++ es.map fresh ++ post))).1 = [] → ∀ e ∈ es, e.Clean s ∧
        (e.ownType s = some "int" ∨ e.ownType s = some TypeName.untyped)) := by
  induction es generalizing before pre with
  | nil => exact ⟨rfl, fun _ => List.forall_mem_nil _⟩
  | cons e es ih =>
    obtain ⟨node, clean⟩ := ih (before ++ [e.kid s]) (pre ++ [e.inferred s]) (by simp [same])
    have step : inferChild (before ++ e.kid s :: (kids s es ++ after)) pre.length
        (.node l m (pre ++ e.fresh :: (es.map fresh ++ post))) =
          ⟨e.ownType s, ((e.kid s).infer e.fresh).errors.map (TypeError.under pre.length),
            .node l m (pre ++ e.inferred s :: (es.map fresh ++ post))⟩ :=
      inferChild_at (e.kid s) e.fresh same
    simp only [List.length_append, List.length_cons, List.length_nil, List.append_assoc,
      List.cons_append, List.nil_append, Nat.zero_add] at node clean
    simp only [kids, List.map_cons, List.length_cons, List.range'_succ, List.append_assoc,
      List.cons_append, inferIndices, step]
    refine ⟨node, fun errorless => ?_⟩
    simp only [List.append_eq_nil_iff, List.map_eq_nil_iff] at errorless
    exact List.forall_mem_cons.mpr
      ⟨⟨errorless.1, indexError_clean errorless.2.1⟩, clean errorless.2.2⟩

end Term

namespace Directive

/-- The terms of a directive. -/
def terms : Directive → List Term
  | .value e => [e]
  | .store _ right => [right]
  | .storeAt _ indices right => indices ++ [right]

/-- The tree of a directive before anything is known of it. -/
def fresh (c : Directive) : Marked := Marked.unmarked c.tree

theorem fresh_eq (c : Directive) :
    c.fresh = .node c.label Term.unknownMark (c.children.map Term.fresh) := by
  unfold fresh Marked.unmarked tree
  rw [Operation.make, Tree.map, Tree.mapAll_eq_map, List.map_map]
  rfl

theorem fresh_checker (c : Directive) :
    c.fresh.checker s = Checker.node s c.label (Term.kids s c.children) := by
  rw [fresh_eq, Marked.checker_node, Term.kids_eq_map, List.map_map]
  exact congrArg (Checker.node s c.label) (List.map_congr_left fun e _ => e.fresh_checker)

/-- Giving a directive its types, in terms of what inferring it gives. -/
theorem assign_eq {c : Directive} {run : Inference}
    (h : inferRole s (Term.kids s c.children) c.label c.fresh = run) {spread : Marked}
    (down : spreadNode s (Term.kids s c.children) c.label (shownType run)
      (run.node.setType (shownType run)) = spread) :
    (c.fresh.assign s).errors = run.errors ∧ (c.fresh.assign s).node =
      fillChildren (Term.kids s c.children) (List.range spread.children.length) spread := by
  have below : c.fresh.checkers s = Term.kids s c.children := by
    rw [Marked.checkers, fresh_eq, Tree.children_node, Term.kids_eq_map, List.map_map]
    exact List.map_congr_left fun e _ => e.fresh_checker
  have inferred : c.fresh.infer s = run := by
    have unsettled : c.fresh.note.settled = false := by
      rw [fresh_eq]
      rfl
    rw [Marked.infer, fresh_checker, ← h]
    exact inferNode_open s _ _ unsettled
  have spreads : (c.fresh.checker s).spread (shownType run) (run.node.setType (shownType run)) =
      spread := by
    rw [fresh_checker, ← down]
    rfl
  simp only [Marked.assign, inferred, spreads, below, and_self]

/-! ### Values -/

theorem inferRole_value (e : Term) : inferRole s (Term.kids s (value e).children) (value e).label
    (value e).fresh = (e.kid s).infer e.fresh := by
  rw [fresh_eq, Term.infer_fresh_eq]
  rfl

theorem assign_value (proper : s.Proper) {e : Term} (spelled : e.Spelled) (counted : e.Counted s) :
    ∃ type, e.Sound s ((value e).fresh.assign s).node type := by
  have each := fun x inside =>
    Term.fill_sound proper (Term.Spelled.children spelled x inside) (counted.children x inside)
  obtain ⟨type, sound, _, note⟩ := Term.infer_fresh proper spelled counted
  have shown := sound.setType (congrArg Mark.settled note) (shownType ((e.kid s).infer e.fresh))
  obtain ⟨type', _, spread, _⟩ := (Term.spreads proper spelled counted).spread
    (shownType ((e.kid s).infer e.fresh)) shown
  refine ⟨type', ?_⟩
  rw [(assign_eq (inferRole_value e) (e.spread_eq _ _).symm).2]
  exact (Term.fillChildren_sound each spread).1

theorem assign_value_clean {e : Term} (clean : ((value e).fresh.assign s).errors = []) :
    e.Clean s := by
  rwa [(assign_eq (inferRole_value e) rfl).1] at clean

/-! ### Assignments to variables -/

/-- The right side before it is inferred: settled already if the variable is numeric. -/
def expecting (s : Scope) (expected : TypeName) (e : Term) : Marked :=
  if expected.isNumeric then (e.kid s).settle (some expected) e.fresh else e.fresh

theorem inferStore_eq {name : String} {expected : TypeName}
    (known : s.variableType name = some expected) (e : Term) (l : String) (m : Mark) :
    (inferStore s [e.kid s] (some name) (.node l m [e.fresh])).node =
        .node l m [((e.kid s).infer (expecting s expected e)).node] ∧
      ((inferStore s [e.kid s] (some name) (.node l m [e.fresh])).errors = [] →
        ((e.kid s).infer (expecting s expected e)).errors = []) := by
  have target : (if expected.isNumeric then
      settleChild [e.kid s] (some expected) 0 (.node l m [e.fresh]) else .node l m [e.fresh]) =
        .node l m [expecting s expected e] := by
    unfold expecting
    split <;> rfl
  simp only [inferStore, Tree.children_node, List.isEmpty_cons, Bool.false_eq_true, if_false, known,
    target, inferChild_only]
  split <;> exact ⟨rfl, by simp +contextual⟩

/-- What is assigned to a variable that is not numeric has the variable's type. -/
theorem inferStore_type {name : String} {expected : TypeName}
    (known : s.variableType name = some expected) (other : expected.isNumeric = false) {e : Term}
    {l : String} {m : Mark}
    (clean : (inferStore s [e.kid s] (some name) (.node l m [e.fresh])).errors = [])
    (open_ : (e.inferred s).note.settled = false) : e.ownType s = some expected := by
  simp only [inferStore, Tree.children_node, List.isEmpty_cons, Bool.false_eq_true, if_false, known,
    other, inferChild_only] at clean
  have own : ((e.kid s).infer e.fresh).type = e.ownType s := rfl
  rw [own] at clean
  cases given : e.ownType s with
  | none => simp [given, voidError] at clean
  | some type =>
    have unsettled : childSettled 0 (.node l m [((e.kid s).infer e.fresh).node]) = none := by
      have settled : ((e.kid s).infer e.fresh).node.note.settled = false := open_
      simp [childSettled, Marked.settledType, settled]
    simp only [given, unsettled, List.append_eq_nil_iff] at clean
    by_cases same : expected = type
    · rw [same]
    · simp [same] at clean

theorem inferStore_unknown {name : String} (unknown : s.variableType name = none)
    (kids : List Checker) (l : String) (m : Mark) (c : Marked) :
    (inferStore s kids (some name) (.node l m [c])).errors ≠ [] := by
  simp [inferStore, unknown]

theorem expecting_sound (proper : s.Proper) {e : Term} (spelled : e.Spelled)
    (counted : e.Counted s) (expected : TypeName) :
    ∃ type, e.Sound s ((e.kid s).infer (expecting s expected e)).node type := by
  unfold expecting
  split
  · obtain ⟨type, sound, _⟩ := (Term.spreads proper spelled counted).settleFresh (some expected)
    rw [(Term.infer_sound proper spelled counted _ _ sound).2]
    exact ⟨type, sound⟩
  · obtain ⟨type, sound, _⟩ := Term.infer_fresh proper spelled counted
    exact ⟨type, sound⟩

/-- The children of a directive that assigns, once all have been looked at. -/
theorem fillChildren_allSound {es : List Term} (each : ∀ e ∈ es, e.Fills s) {cs : List Marked}
    (sound : Term.AllSound s es cs) (l : String) (m : Mark) :
    Term.AllSound s es
      (fillChildren (Term.kids s es) (List.range cs.length) (.node l m cs)).children := by
  have counts : (Term.kids s es).length = cs.length := by
    rw [Term.kids_length]
    exact List.Forall₂.length_eq sound
  rw [fillChildren_all counts]
  exact Term.filled_all each sound

theorem inferRole_store {name : String} (named : IsName name) (e : Term) :
    inferRole s (Term.kids s (store name e).children) (store name e).label (store name e).fresh =
      inferStore s [e.kid s] (some name)
        (.node (store name e).label Term.unknownMark [e.fresh]) := by
  rw [fresh_eq]
  simp only [inferRole, label, Role.ofLabel_store named]
  rfl

theorem assign_store (proper : s.Proper) {name : String} (named : IsName name) {e : Term}
    (spelled : e.Spelled) (counted : e.Counted s)
    (accepted : ((store name e).fresh.assign s).errors = []) :
    Term.AllSound s [e] ((store name e).fresh.assign s).node.children := by
  have run := inferRole_store (s := s) named e
  rw [(assign_eq run rfl).1] at accepted
  cases known : s.variableType name with
  | none => exact absurd accepted (inferStore_unknown known _ _ _ _)
  | some expected =>
    obtain ⟨node, _⟩ := inferStore_eq known e (store name e).label Term.unknownMark
    obtain ⟨type, sound⟩ := expecting_sound proper spelled counted expected
    have given : given? (s.variableType name) = some expected := by
      simp [given?, known, Option.filter, (proper.named known).not_isEmpty]
    have down (type : Option TypeName) (m : Mark) (c : Marked) :
        spreadNode s [e.kid s] (store name e).label type (.node (store name e).label m [c]) =
          .node (store name e).label m [(e.kid s).settle (some expected) c] := by
      simp only [spreadNode, label, Role.ofLabel_store named, given]
      rfl
    rw [(assign_eq run rfl).2, node, Marked.setType, Tree.setNote]
    rw [show Term.kids s (store name e).children = [e.kid s] from rfl, down]
    have settled := ((Term.spreads proper spelled counted).settle (some expected) sound).1
    have each : ∀ x ∈ [e], x.Fills s := by
      simpa using Term.fill_sound proper spelled counted
    exact fillChildren_allSound each (.cons ⟨_, settled⟩ .nil) _ _

theorem assign_store_clean {name : String} (named : IsName name) {e : Term}
    {expected : TypeName} (known : s.variableType name = some expected)
    (other : expected.isNumeric = false)
    (clean : ((store name e).fresh.assign s).errors = []) : e.Clean s := by
  rw [(assign_eq (inferRole_store named e) rfl).1] at clean
  have inferred := (inferStore_eq known e _ _).2 clean
  rwa [expecting, other] at inferred

/-! ### Assignments to elements -/

/-- An element can be assigned to only if the variable is an array and there is an index. -/
theorem inferStoreAt_clean {array : String} {kids : List Checker} {t : Marked}
    (some_ : t.children ≠ []) (clean : (inferStoreAt s kids (some array) t).errors = []) :
    ∃ type, s.variableType array = some type ∧ type.isArray ∧ 2 ≤ t.children.length ∧
      inferStoreAt s kids (some array) t =
        inferElements kids array ((TypeName.element? type).map TypeName.normalize) t := by
  have filled : t.children.isEmpty = false := List.isEmpty_eq_false_iff.mpr some_
  simp only [inferStoreAt, filled, Bool.false_eq_true, if_false] at clean ⊢
  cases known : s.variableType array with
  | none => simp [known] at clean
  | some type =>
    simp only [known] at clean ⊢
    cases isArray : type.isArray with
    | false => simp [isArray] at clean
    | true =>
      simp only [isArray, Bool.not_true, Bool.false_eq_true, if_false] at clean ⊢
      by_cases few : t.children.length < 2
      · simp [few] at clean
      · exact ⟨type, rfl, isArray, Nat.not_lt.mp few, if_neg few⟩

theorem inferElements_fresh (array : String) (element : Option TypeName) (indices : List Term)
    (right : Term) (l : String) (m : Mark) {run : Inference}
    (h : inferElements (Term.kids s indices ++ [right.kid s]) array
      (element.map TypeName.normalize) (.node l m (indices.map Term.fresh ++ [right.fresh])) = run) :
    run.node = .node l m (indices.map (Term.inferred s) ++
        [((right.kid s).infer right.fresh).asArgument element]) ∧
      (run.errors = [] → (∀ e ∈ indices, e.Clean s ∧
          (e.ownType s = some "int" ∨ e.ownType s = some TypeName.untyped)) ∧ right.Clean s ∧
        ∀ expected, element.map TypeName.normalize = some expected →
          right.ownType s = some expected ∨
            right.ownType s = some TypeName.untyped ∧ expected.isNumeric) := by
  have counted : (indices.map Term.fresh ++ [right.fresh]).length - 1 = indices.length := by simp
  have same : (Term.kids s indices).length = (indices.map (Term.inferred s)).length := by
    rw [Term.kids_length, List.length_map]
  obtain ⟨node, clean⟩ := Term.inferIndices_fresh (s := s) (.storedIndex array) indices l m
    [] [] rfl [right.kid s] [right.fresh]
  have last : inferChild (Term.kids s indices ++ [right.kid s]) indices.length
      (.node l m (indices.map (Term.inferred s) ++ [right.fresh])) =
        ⟨((right.kid s).infer right.fresh).type, ((right.kid s).infer right.fresh).errors.map
            (TypeError.under indices.length),
          .node l m (indices.map (Term.inferred s) ++ [((right.kid s).infer right.fresh).node])⟩ := by
    rw [← List.length_map (Term.inferred s)]
    exact inferChild_at (right.kid s) right.fresh same
  have mark (type : Option TypeName) (c : Marked) : markChild type indices.length
      (.node l m (indices.map (Term.inferred s) ++ [c])) =
        .node l m (indices.map (Term.inferred s) ++ [c.settleAs type]) := by
    rw [← List.length_map (Term.inferred s)]
    exact markChild_at type l m _ c []
  simp only [List.nil_append, List.length_nil, ← List.range_eq_range'] at node clean
  simp only [inferElements, Tree.children_node, counted, node, last] at h
  have own : right.ownType s = ((right.kid s).infer right.fresh).type := rfl
  have found : right.Clean s ↔ ((right.kid s).infer right.fresh).errors = [] := Iff.rfl
  rw [own, found]
  generalize (right.kid s).infer right.fresh = r at h
  have cleans {rest : List TypeError}
      (errorless : (inferIndices (Term.kids s indices ++ [right.kid s])
      (.storedIndex array) (List.range indices.length)
      (.node l m (indices.map Term.fresh ++ [right.fresh]))).1 ++
        r.errors.map (TypeError.under indices.length) ++ rest = []) :
      (∀ e ∈ indices, e.Clean s ∧
        (e.ownType s = some "int" ∨ e.ownType s = some TypeName.untyped)) ∧ r.errors = [] := by
    simp only [List.append_eq_nil_iff, List.map_eq_nil_iff] at errorless
    exact ⟨clean errorless.1.1, errorless.1.2⟩
  split at h
  · rename_i given expected typed wanted
    simp only [Inference.asArgument, typed, wanted, Option.some.injEq]
    split at h
    · rename_i takes
      subst h
      rw [if_pos takes, mark]
      refine ⟨rfl, fun errorless => ⟨(cleans errorless).1, (cleans errorless).2, ?_⟩⟩
      rintro _ rfl
      obtain ⟨bare, numeric⟩ := Bool.and_eq_true_iff.mp takes
      exact .inr ⟨by simpa [TypeName.isUntyped] using bare, numeric⟩
    · rename_i keeps
      rw [if_neg keeps]
      split at h
      · subst h
        refine ⟨rfl, fun errorless => ?_⟩
        cases (List.append_eq_nil_iff.mp errorless).2
      · rename_i same
        subst h
        refine ⟨rfl, fun errorless => ⟨(cleans errorless).1, (cleans errorless).2, ?_⟩⟩
        rintro _ rfl
        exact .inl (not_not.mp same)
  · rename_i other
    subst h
    refine ⟨?_, fun errorless => ⟨(cleans errorless).1, (cleans errorless).2,
      fun expected wanted => ?_⟩⟩
    · unfold Inference.asArgument
      split
      · rename_i given expected typed wanted
        exact (other given expected typed wanted).elim
      · rfl
    · cases typed : r.type with
      | none => simp [typed, voidError] at errorless
      | some given => exact (other given expected typed wanted).elim

theorem kids_append (es fs : List Term) :
    Term.kids s (es ++ fs) = Term.kids s es ++ Term.kids s fs := by
  simp only [Term.kids_eq_map, List.map_append]

theorem inferRole_storeAt {array : String} (named : IsName array) (indices : List Term)
    (right : Term) : inferRole s (Term.kids s (storeAt array indices right).children)
      (storeAt array indices right).label (storeAt array indices right).fresh =
    inferStoreAt s (Term.kids s indices ++ [right.kid s]) (some array)
      (.node (storeAt array indices right).label Term.unknownMark
        (indices.map Term.fresh ++ [right.fresh])) := by
  rw [fresh_eq]
  simp only [inferRole, label, Role.ofLabel_storeAt named, children, kids_append, List.map_append]
  rfl

theorem spreadNode_storeAt {array : String} (named : IsName array) {type element : TypeName}
    (known : s.variableType array = some type) (isArray : type.isArray)
    (read : type.element? = some element) (properE : element.Proper) {indices : List Term}
    (some_ : indices ≠ []) (right : Term) {cs : List Marked} (counts : indices.length = cs.length)
    (c : Marked) (own : Option TypeName) (l : String) (m : Mark) :
    spreadNode s (Term.kids s (storeAt array indices right).children)
        (storeAt array indices right).label own (.node l m (cs ++ [c])) =
      .node l m (List.zipWith (fun e c => (e.kid s).settle (some "int") c) indices cs ++
        [(right.kid s).settle (some element) c]) := by
  have enough : ¬ (cs ++ [c]).length < 2 := by
    have := List.length_pos_iff.mpr some_
    simp only [List.length_append, List.length_cons, List.length_nil]
    omega
  have before : (cs ++ [c]).length - 1 = indices.length := by simp [counts]
  have settles := Term.settleEach_all (s := s) counts (some "int") l m [] [] rfl [right.kid s] [c]
  simp only [List.nil_append, List.length_nil, ← List.range_eq_range'] at settles
  have settled : (List.zipWith (fun e c => (e.kid s).settle (some "int") c) indices cs).length =
      indices.length := by
    rw [List.length_zipWith, counts, Nat.min_self]
  have final : settleChild (Term.kids s indices ++ [right.kid s]) (some element) indices.length
      (.node l m (List.zipWith (fun e c => (e.kid s).settle (some "int") c) indices cs ++ [c])) =
      .node l m (List.zipWith (fun e c => (e.kid s).settle (some "int") c) indices cs ++
        [(right.kid s).settle (some element) c]) := by
    rw [← settled]
    exact onChild_at (right.kid s) c ((Term.kids_length indices).trans settled.symm) _
  have kids : Term.kids s (storeAt array indices right).children =
      Term.kids s indices ++ [right.kid s] := kids_append indices [right]
  have filled : (cs ++ [c]).isEmpty = false := by simp
  simp only [spreadNode, label, Role.ofLabel_storeAt named, spreadElements, known, isArray,
    Bool.not_true, Bool.false_eq_true, if_false, read, Option.map_some, properE.normalize_eq,
    Tree.children_node, filled, enough, before, kids, settles, final]

theorem assign_storeAt (proper : s.Proper) {array : String} (named : IsName array)
    {indices : List Term} {right : Term} (spelled : ∀ e ∈ indices ++ [right], e.Spelled)
    (counted : ∀ e ∈ indices ++ [right], e.Counted s)
    (accepted : ((storeAt array indices right).fresh.assign s).errors = []) :
    Term.AllSound s (indices ++ [right])
      ((storeAt array indices right).fresh.assign s).node.children := by
  have run := inferRole_storeAt (s := s) named indices right
  rw [(assign_eq run rfl).1] at accepted
  obtain ⟨type, known, isArray, enough, elements⟩ := inferStoreAt_clean (by simp) accepted
  obtain ⟨node, _⟩ := inferElements_fresh array (TypeName.element? type) indices right _ _
    elements.symm
  have read := (proper.named known).element isArray
  have starts := fun e inside => Term.infer_fresh proper (spelled e inside) (counted e inside)
  have spreads := fun e inside => Term.spreads proper (spelled e inside) (counted e inside)
  have fills := fun e inside => Term.fill_sound proper (spelled e inside) (counted e inside)
  rw [List.forall_mem_append, List.forall_mem_singleton] at starts spreads
  have sound : Term.AllSound s indices (indices.map (Term.inferred s)) :=
    Term.allSound_map fun e inside =>
      let ⟨type, sound, _⟩ := starts.1 e inside
      ⟨type, sound⟩
  obtain ⟨now, last, _⟩ := starts.2.asArgument read
  have some_ : indices ≠ [] := by
    rintro rfl
    simp at enough
  rw [(assign_eq run rfl).2, node, Marked.setType, Tree.setNote]
  obtain ⟨element, found, properE⟩ := read
  rw [spreadNode_storeAt named known isArray found properE some_ right
    (List.length_map (Term.inferred s)).symm]
  refine fillChildren_allSound fills (List.rel_append (Term.settled_all spreads.1 sound _) ?_) _ _
  exact .cons ⟨_, (spreads.2.settle (some element) last).1⟩ .nil

theorem assign_storeAt_clean {array : String} (named : IsName array) {indices : List Term}
    {right : Term} (clean : ((storeAt array indices right).fresh.assign s).errors = []) :
    ∀ e ∈ indices ++ [right], e.Clean s := by
  have run := inferRole_storeAt (s := s) named indices right
  rw [(assign_eq run rfl).1] at clean
  obtain ⟨type, _, _, _, elements⟩ := inferStoreAt_clean (by simp) clean
  obtain ⟨_, cleans⟩ := inferElements_fresh array (TypeName.element? type) indices right _ _
    elements.symm
  rw [List.forall_mem_append, List.forall_mem_singleton]
  exact ⟨fun e inside => ((cleans clean).1 e inside).1, (cleans clean).2.1⟩

/-! ### Directives -/

/-- The trees of a directive's terms, in the tree of the directive. -/
def parts {α : Type} : Directive → Tree α → List (Tree α)
  | .value _, t => [t]
  | _, t => t.children

/-- Whether a directive assigns to a numeric variable. -/
def storesNumber (s : Scope) : Directive → Bool
  | .store name _ => (s.variableType name).any TypeName.isNumeric
  | _ => false

theorem Spelled.terms {c : Directive} (spelled : c.Spelled) : ∀ e ∈ c.terms, e.Spelled := by
  cases c with
  | value e => exact List.forall_mem_singleton.mpr spelled
  | store name right => exact List.forall_mem_singleton.mpr spelled.2
  | storeAt array indices right =>
    exact List.forall_mem_append.mpr ⟨spelled.2.1, List.forall_mem_singleton.mpr spelled.2.2⟩

/-- Once a directive was given its types without an error, its terms are sound. -/
theorem assign_sound (proper : s.Proper) {c : Directive} (spelled : c.Spelled)
    (counted : ∀ e ∈ c.terms, e.Counted s) (accepted : (c.fresh.assign s).errors = []) :
    Term.AllSound s c.terms (c.parts (c.fresh.assign s).node) := by
  have below := spelled.terms
  cases c with
  | value e =>
    exact .cons (assign_value proper spelled (List.forall_mem_singleton.mp counted)) .nil
  | store name right =>
    exact assign_store proper spelled.1 spelled.2 (List.forall_mem_singleton.mp counted) accepted
  | storeAt array indices right => exact assign_storeAt proper spelled.1 below counted accepted

/-- Only in assignments to numeric variables can errors be overlooked. -/
theorem assign_clean {c : Directive} (spelled : c.Spelled) (other : c.storesNumber s = false)
    (accepted : (c.fresh.assign s).errors = []) : ∀ e ∈ c.terms, e.Clean s := by
  cases c with
  | value e => exact List.forall_mem_singleton.mpr (assign_value_clean accepted)
  | store name right =>
    rw [terms, List.forall_mem_singleton]
    cases known : s.variableType name with
    | none =>
      rw [(assign_eq (inferRole_store spelled.1 right) rfl).1] at accepted
      exact absurd accepted (inferStore_unknown known _ _ _ _)
    | some expected =>
      simp only [storesNumber, known, Option.any_some] at other
      exact assign_store_clean spelled.1 known other accepted
  | storeAt array indices right => exact assign_storeAt_clean spelled.1 accepted

end Directive

end MethodLang
