import MethodLang.Proofs.Typing.Landing

/-!
The types of whole directives. Giving a directive its types leaves each of its terms in one of the
outcomes of the term (`Directive.assign_outcome`). The right side of an assignment to a numeric
variable is settled before it is inferred, so that its errors go unnoticed; what is said of such
an assignment holds if there are none (`Directive.Checked`).
-/
namespace MethodLang

open Checker

variable {s : Scope}

/-- Ways in which nodes come by types before filling. -/
def Way.isEarly : Way → Bool
  | .shown | .root => false
  | _ => true

/-- Ways in which nodes are given types that they keep. -/
def Way.isGiven : Way → Bool
  | .marked _ | .settled _ | .aimed _ => true
  | _ => false

namespace Term

/-! ### Filling -/

theorem argWays_length {way : Term → TypeName → Way} {args : List Term} {ps : TypeTable}
    (same : args.length = ps.length) : (argWays way args ps).length = args.length := by
  rw [argWays, List.length_zipWith, ← same, Nat.min_self]

section
variable (proper : s.Proper) {e : Term} (spelled : e.Spelled) (clean : e.Clean s)
include proper spelled clean

theorem hintWays_length : (e.hintWays s).length = e.children.length := by
  cases e with
  | call function args => exact argWays_length (clean.call proper spelled.1).2.2.length_eq
  | literal | load | index | binary | unary => rfl

theorem settleWays_length (type : TypeName) :
    (e.settleWays s type).length = e.children.length := by
  cases e with
  | call function args => exact argWays_length (clean.call proper spelled.1).2.2.length_eq
  | binary op left right =>
    rw [settleWays]
    split <;> rfl
  | unary op operand => cases op <;> rfl
  | literal | load | index => rfl

end

theorem argWays_early {way : Term → TypeName → Way} (each : ∀ e type, (way e type).isEarly)
    (args : List Term) (ps : TypeTable) : ∀ w ∈ argWays way args ps, w.isEarly := by
  induction args generalizing ps with
  | nil => exact List.forall_mem_nil _
  | cons e es ih =>
    cases ps with
    | nil => exact List.forall_mem_nil _
    | cons p ps => exact List.forall_mem_cons.mpr ⟨each e _, ih ps⟩

theorem hintWays_early (e : Term) : ∀ w ∈ e.hintWays s, w.isEarly := by
  have hint (bare : Bool) (type : TypeName) :
      (if bare then Way.marked type else .inferred).isEarly := by cases bare <;> rfl
  cases e with
  | call function args => exact argWays_early (fun e type => hint e.isBare type) args _
  | binary op left right =>
    rw [hintWays]
    simp [hint]
  | literal | load => exact List.forall_mem_nil _
  | index | unary => simp [hintWays, Way.isEarly]

theorem settleWays_early (e : Term) (type : TypeName) : ∀ w ∈ e.settleWays s type, w.isEarly := by
  cases e with
  | call function args => exact argWays_early (fun _ _ => rfl) args _
  | binary op left right =>
    rw [settleWays]
    split <;> simp [Way.isEarly]
  | literal | load => exact List.forall_mem_nil _
  | index => simp [settleWays, Way.isEarly]
  | unary op operand => cases op <;> simp [settleWays, Way.isEarly]

theorem fillOne_given (e : Term) {w : Way} (given : w.isGiven) :
    fillOne (e.kid s) (e.outcome s w) = e.outcome s w := by
  rw [fillOne, outcome_note]
  cases w with
  | marked | settled | aimed => rfl
  | inferred | shown | root => cases given

theorem fillOne_outcome {e : Term}
    (fills : (e.kid s).fill (e.outcome s .inferred) = e.outcome s .shown) {w : Way}
    (early : w.isEarly) : fillOne (e.kid s) (e.outcome s w) = e.outcome s w.filled := by
  cases w with
  | inferred =>
    rw [fillOne, outcome_note]
    exact fills
  | marked | settled | aimed => exact fillOne_given e rfl
  | shown | root => cases early

theorem fillOne_ways {es : List Term}
    (each : ∀ e ∈ es, (e.kid s).fill (e.outcome s .inferred) = e.outcome s .shown) {ws : List Way}
    (early : ∀ w ∈ ws, w.isEarly) :
    List.zipWith fillOne (kids s es) (List.zipWith (outcome s) es ws) =
      List.zipWith (outcome s) es (ws.map Way.filled) := by
  induction es generalizing ws with
  | nil => rfl
  | cons e es ih =>
    cases ws with
    | nil => rfl
    | cons w ws =>
      have ⟨first, rest⟩ := List.forall_mem_cons.mp each
      have ⟨earlyW, earlyRest⟩ := List.forall_mem_cons.mp early
      simp only [kids, List.zipWith_cons_cons, List.map_cons, fillOne_outcome first earlyW,
        ih rest earlyRest]

/-- Filling the children of a node. -/
theorem fillChildren_ways {es : List Term}
    (each : ∀ e ∈ es, (e.kid s).fill (e.outcome s .inferred) = e.outcome s .shown) {ws : List Way}
    (early : ∀ w ∈ ws, w.isEarly) (counted : ws.length = es.length) (l : String) (m : Mark) :
    fillChildren (kids s es) (List.range (List.zipWith (outcome s) es ws).length)
      (.node l m (List.zipWith (outcome s) es ws)) =
    .node l m (List.zipWith (outcome s) es (ws.map Way.filled)) := by
  have lengths : (kids s es).length = (List.zipWith (outcome s) es ws).length := by
    rw [kids_length, List.length_zipWith, counted, Nat.min_self]
  rw [fillChildren_all lengths, fillOne_ways each early]

theorem fillOne_all_given (es : List Term) {ws : List Way} (given : ∀ w ∈ ws, w.isGiven) :
    List.zipWith fillOne (kids s es) (List.zipWith (outcome s) es ws) =
      List.zipWith (outcome s) es ws := by
  induction es generalizing ws with
  | nil => rfl
  | cons e es ih =>
    cases ws with
    | nil => rfl
    | cons w ws =>
      have ⟨first, rest⟩ := List.forall_mem_cons.mp given
      simp only [kids, List.zipWith_cons_cons, fillOne_given e first, ih rest]

theorem fillChildren_given (es : List Term) {ws : List Way} (given : ∀ w ∈ ws, w.isGiven)
    (counted : ws.length = es.length) (l : String) (m : Mark) :
    fillChildren (kids s es) (List.range (List.zipWith (outcome s) es ws).length)
      (.node l m (List.zipWith (outcome s) es ws)) =
    .node l m (List.zipWith (outcome s) es ws) := by
  have lengths : (kids s es).length = (List.zipWith (outcome s) es ws).length := by
    rw [kids_length, List.length_zipWith, counted, Nat.min_self]
  rw [fillChildren_all lengths, fillOne_all_given es given]

theorem resolve_answer (proper : s.Proper) {e : Term} (spelled : e.Spelled) (clean : e.Clean s) :
    (e.answer s).map TypeName.resolve = (e.ownType s).map TypeName.resolve := by
  rcases (clean.sound proper spelled).2.1 with same | ⟨own, int⟩
  · rw [same]
  · rw [own, int]
    decide +kernel

/-- Filling shows a term that was only inferred its type, and what is open below it. -/
theorem Clean.fill_inferred (proper : s.Proper) {e : Term} (spelled : e.Spelled)
    (clean : e.Clean s) : (e.kid s).fill (e.outcome s .inferred) = e.outcome s .shown := by
  induction e using children_induction with
  | step e ih =>
    have each := fun x inside => ih x inside (spelled.children x inside)
      (clean.children proper spelled x inside)
    obtain ⟨type, node⟩ := clean.infer_inferred proper spelled
    have shown := resolve_answer proper spelled clean
    have open_ : (e.outcome s .inferred).settledType = none := by
      rw [Marked.settledType, outcome_note]
      rfl
    rw [kid_eq] at type node ⊢
    simp only [Checker.node, fillNode, open_] at type node ⊢
    simp only [type, node]
    have fills := fun m => fillChildren_ways each e.hintWays_early
      (hintWays_length proper spelled clean) e.label m
    have mark : e.markOf s .shown = ⟨(e.ownType s).map TypeName.resolve, false⟩ := rfl
    rw [outcome_eq, outcome_eq, mark, ← shown]
    cases e.answer s with
    | none => exact fills unknownMark
    | some t => exact fills ⟨some t.resolve, false⟩

/-! ### Settling what was never inferred -/

/-- The term has no errors, if the type that is asked for goes down through arithmetic and operations
on bits. -/
def Aims (s : Scope) (type : TypeName) : Term → Prop
  | .binary op left right =>
    if (binary op left right).isNumeric then left.Aims s type ∧ right.Aims s type
    else (binary op left right).Clean s ∧ Shares ((binary op left right).ownType s) type
  | e => e.Clean s ∧ Shares (e.ownType s) type

theorem aims_other {type : TypeName} {e : Term} (other : e.isNumeric = false) :
    e.Aims s type ↔ e.Clean s ∧ Shares (e.ownType s) type := by
  cases e with
  | binary op left right => rw [Aims, other, if_neg (by decide)]
  | literal | load | call | index | unary => rfl

theorem outcome_aimed {e : Term} (other : e.isNumeric = false) (type : TypeName) :
    e.outcome s (.aimed type) = e.outcome s (.settled type) := by
  have below : e.ways s (.aimed type) = e.ways s (.settled type) := by
    simp only [ways, other, Bool.false_eq_true, if_false]
  rw [outcome_eq, outcome_eq, below]
  rfl

theorem outcome_aimed_pair {op : Operator} {left right : Term}
    (numeric : (binary op left right).isNumeric) (type : TypeName) :
    (binary op left right).outcome s (.aimed type) = .node op.1.text ⟨some type, true⟩
      [left.outcome s (.aimed type), right.outcome s (.aimed type)] := by
  rw [outcome_eq, ways, numeric, if_pos rfl]
  rfl

/-- Settling a term for the first time, before it was inferred, and settling it again. -/
theorem Aims.settle (proper : s.Proper) {type : TypeName} (numbers : type ∈ TypeName.numbers)
    {e : Term} (spelled : e.Spelled) (aims : e.Aims s type) :
    (e.kid s).settle (some type) e.fresh = e.outcome s (.aimed type) ∧
      (e.kid s).settle (some type) (e.outcome s (.aimed type)) = e.outcome s (.aimed type) := by
  have properT := proper_of_mem_numbers numbers
  have normal : (some type).map TypeName.normalize = some type := by
    rw [Option.map_some, properT.normalize_eq]
  induction e using children_induction with
  | step e ih =>
    cases numeric : e.isNumeric with
    | true =>
      obtain ⟨op, left, right, rfl, -⟩ := binary_of_isNumeric spelled numeric
      rw [Aims, if_pos numeric] at aims
      obtain ⟨freshL, againL⟩ := ih left (by simp [children]) spelled.1 aims.1
      obtain ⟨freshR, againR⟩ := ih right (by simp [children]) spelled.2 aims.2
      have spread : spreadNode s [left.kid s, right.kid s] op.1.text (some type)
          (.node op.1.text ⟨some type, true⟩
            [left.outcome s (.aimed type), right.outcome s (.aimed type)]) =
          .node op.1.text ⟨some type, true⟩
            [left.outcome s (.aimed type), right.outcome s (.aimed type)] := by
        rw [spreadNode_binary, if_neg (not_logical numeric), spreadOperands_outcome properT
          (by rw [infer_outcome rfl]; exact ⟨rfl, rfl⟩) (by rw [infer_outcome rfl]; exact ⟨rfl, rfl⟩),
          againL, againR]
      rw [outcome_aimed_pair numeric]
      constructor
      · have push : (binary op left right).pushed s (some type) (binary op left right).fresh =
            .node op.1.text unknownMark
              [left.outcome s (.aimed type), right.outcome s (.aimed type)] := by
          rw [fresh_eq, ← freshL, ← freshR]
          exact pushed_pair numeric numbers op.1.text unknownMark left.fresh right.fresh
        obtain ⟨answer, node⟩ := infer_pushed (s := s) left right (a := .aimed type)
          (b := .aimed type) numeric numbers rfl rfl
        rw [settle_eq rfl rfl, normal, push, answer, node, settledAs_of_proper _ properT,
          Marked.settleAs, properT.normalize_eq]
        exact spread
      · have push : (binary op left right).pushed s (some type)
            ((binary op left right).outcome s (.aimed type)) =
              (binary op left right).outcome s (.aimed type) := by
          rw [outcome_aimed_pair numeric, pushed_pair numeric numbers, againL, againR]
        rw [← outcome_aimed_pair numeric, settle_outcome properT push
          (by rw [infer_outcome rfl]; exact ⟨rfl, rfl⟩) (settledAs_of_proper _ properT) properT,
          outcome_aimed_pair numeric]
        exact spread
    | false =>
      obtain ⟨clean, shares⟩ := (aims_other numeric).mp aims
      have lands := clean.lands proper spelled
      rw [outcome_aimed numeric]
      refine ⟨?_, lands.settled properT properT⟩
      have each := fun x inside => (clean.children proper spelled x inside).lands proper
        (spelled.children x inside)
      have own : ((e.kid s).infer e.fresh).type = e.ownType s := rfl
      have node : ((e.kid s).infer e.fresh).node = _ := clean.inferred_eq proper spelled
      rw [settle_eq rfl rfl, normal, pushed_other numeric, own, node,
        settledAs_of_shares properT shares, Marked.settleAs, properT.normalize_eq, outcome_eq,
        outcome_eq]
      exact spread_hints proper spelled clean each (fun t is => ⟨rfl, is ▸ shares⟩) _

end Term

/-- A node can come by its type in the given way. -/
def Way.Valid (s : Scope) (w : Way) (e : Term) : Prop :=
  match w with
  | .inferred | .shown | .root => e.Clean s
  | .marked type => e.Clean s ∧ e.isBare ∧ type ∈ TypeName.numbers
  | .settled type => e.Clean s ∧ Shares (e.ownType s) type
  | .aimed type => type ∈ TypeName.numbers ∧ e.Aims s type

namespace Term

theorem shares_rootType (proper : s.Proper) {e : Term} (spelled : e.Spelled) (clean : e.Clean s)
    {own : TypeName} (is : e.ownType s = some own) : Shares (some own) (e.rootType s) := by
  have known := clean.known proper spelled
  rw [is] at known
  rw [rootType, is]
  rcases known_of_mem_answers known with rfl | typed
  · decide +kernel
  · exact .inl ⟨by simp [typed.resolve_eq], by simp [typed.resolve_eq, typed.ne_untyped]⟩

end Term

namespace Directive

/-- How the roots of a directive's terms come by their types. -/
def ways (s : Scope) : Directive → List Way
  | .value _ => [.root]
  | .store name _ =>
    let type := (s.variableType name).getD "int"
    [if type.isNumeric then .aimed type else .settled type]
  | .storeAt array indices _ => indices.map (fun _ => .settled "int") ++
    [.settled ((elementType (s.variableType array)).getD "int")]

/-- What is assigned to a numeric variable has no errors. -/
def Checked (s : Scope) : Directive → Prop
  | .store name right =>
    ∀ type, s.variableType name = some type → type.isNumeric → right.Aims s type
  | _ => True

theorem checked_of_storesNumber {c : Directive} (other : c.storesNumber s = false) : c.Checked s := by
  cases c with
  | store name right =>
    intro type known numeric
    rw [storesNumber, known, Option.any_some, numeric] at other
    cases other
  | value | storeAt => trivial

/-! ### Values -/

theorem assign_value_outcome (proper : s.Proper) {e : Term} (spelled : e.Spelled)
    (clean : e.Clean s) : ((value e).fresh.assign s).node = e.outcome s .root := by
  have node : ((e.kid s).infer e.fresh).node = _ := clean.inferred_eq proper spelled
  have own : ((e.kid s).infer e.fresh).type = e.ownType s := rfl
  have shown : shownType ((e.kid s).infer e.fresh) = (e.ownType s).map TypeName.resolve := by
    have open_ : (e.outcome s .inferred).settledType = none := by
      rw [Marked.settledType, Term.outcome_note]
      rfl
    rw [shownType, node, open_, own, Term.outcome_note]
    cases e.ownType s <;> rfl
  have each := fun x inside => (clean.children proper spelled x inside).lands proper
    (spelled.children x inside)
  have fills := fun x inside => (clean.children proper spelled x inside).fill_inferred proper
    (spelled.children x inside)
  have fits (t : TypeName) (is : e.ownType s = some t) :
      (e.ownType s).map TypeName.resolve = some (e.rootType s) ∧ Shares (some t) (e.rootType s) := by
    refine ⟨?_, Term.shares_rootType proper spelled clean is⟩
    rw [Term.rootType, is]
    rfl
  have spread := Term.spread_hints proper spelled clean each fits
    ⟨(e.ownType s).map TypeName.resolve, false⟩
  have filled := Term.fillChildren_ways fills (e.settleWays_early (e.rootType s))
    (Term.settleWays_length proper spelled clean (e.rootType s)) e.label
    ⟨(e.ownType s).map TypeName.resolve, false⟩
  have down : spreadNode s (Term.kids s (value e).children) (value e).label
      (shownType ((e.kid s).infer e.fresh))
      (((e.kid s).infer e.fresh).node.setType (shownType ((e.kid s).infer e.fresh))) =
      .node e.label ⟨(e.ownType s).map TypeName.resolve, false⟩
        (List.zipWith (Term.outcome s) e.children (e.settleWays s (e.rootType s))) := by
    rw [shown, node, Term.outcome_eq, ← spread]
    rfl
  rw [(assign_eq (inferRole_value e) down).2, Term.outcome_eq]
  exact filled

/-! ### Assignments to variables -/

theorem assign_store_outcome (proper : s.Proper) {name : String} (named : IsName name) {e : Term}
    (spelled : e.Spelled) (checked : (store name e).Checked s)
    (accepted : ((store name e).fresh.assign s).errors = []) :
    ∃ w, (store name e).ways s = [w] ∧
      ((store name e).fresh.assign s).node.children = [e.outcome s w] ∧ w.Valid s e := by
  have run := inferRole_store (s := s) named e
  rw [(assign_eq run rfl).1] at accepted
  cases known : s.variableType name with
  | none => exact absurd accepted (inferStore_unknown known _ _ _ _)
  | some expected =>
    obtain ⟨node, errorless⟩ := inferStore_eq known e (store name e).label Term.unknownMark
    have properT := proper.named known
    have down (type : Option TypeName) (m : Mark) (c : Marked) :
        spreadNode s [e.kid s] (store name e).label type (.node (store name e).label m [c]) =
          .node (store name e).label m [(e.kid s).settle (some expected) c] := by
      simp only [spreadNode, label, Role.ofLabel_store named, known, Term.given_proper properT]
      rfl
    have finish {w : Way} (ways : (store name e).ways s = [w]) (given : w.isGiven)
        (settled : (e.kid s).settle (some expected)
          ((e.kid s).infer (expecting s expected e)).node = e.outcome s w) (valid : w.Valid s e) :
        ∃ w, (store name e).ways s = [w] ∧
          ((store name e).fresh.assign s).node.children = [e.outcome s w] ∧ w.Valid s e := by
      refine ⟨w, ways, ?_, valid⟩
      rw [(assign_eq run rfl).2, node, Marked.setType, Tree.setNote]
      rw [show Term.kids s (store name e).children = [e.kid s] from rfl, down, settled]
      exact congrArg Tree.children
        (Term.fillChildren_given [e] (List.forall_mem_singleton.mpr given) rfl _ _)
    cases numeric : expected.isNumeric with
    | true =>
      have numbers := Term.mem_numbers properT numeric
      obtain ⟨first, again⟩ :=
        (checked expected known numeric).settle proper numbers spelled
      refine finish (w := .aimed expected) (by simp [ways, known, numeric]) rfl ?_
        ⟨numbers, checked expected known numeric⟩
      rw [expecting, numeric, if_pos rfl, first, Term.infer_outcome rfl]
      exact again
    | false =>
      have clean : e.Clean s := by
        have inferred := errorless accepted
        rwa [expecting, numeric] at inferred
      have own : e.ownType s = some expected := inferStore_type known numeric accepted (by
        rw [(clean.sound proper spelled).2.2.2]
        rfl)
      have lands := (clean.lands proper spelled).inferred (.inl ⟨own, properT.ne_untyped⟩)
      rw [clean.not_bare proper spelled own properT.ne_untyped, Bool.false_and,
        if_neg (by decide)] at lands
      refine finish (w := .settled expected) (by simp [ways, known, numeric]) rfl ?_
        ⟨clean, .inl ⟨own, properT.ne_untyped⟩⟩
      rw [expecting, numeric, ← lands, ← clean.inferred_eq proper spelled]
      rfl

/-! ### Assignments to elements -/

theorem assign_storeAt_outcome (proper : s.Proper) {array : String} (named : IsName array)
    {indices : List Term} {right : Term} (spelled : ∀ e ∈ indices ++ [right], e.Spelled)
    (accepted : ((storeAt array indices right).fresh.assign s).errors = []) :
    ((storeAt array indices right).fresh.assign s).node.children =
        List.zipWith (Term.outcome s) (indices ++ [right]) ((storeAt array indices right).ways s) ∧
      ∀ p ∈ (indices ++ [right]).zip ((storeAt array indices right).ways s), p.2.Valid s p.1 := by
  have run := inferRole_storeAt (s := s) named indices right
  rw [(assign_eq run rfl).1] at accepted
  obtain ⟨type, known, isArray, enough, elements⟩ := inferStoreAt_clean (by simp) accepted
  obtain ⟨node, fits⟩ := inferElements_fresh array (TypeName.element? type) indices right _ _
    elements.symm
  obtain ⟨element, read, properE⟩ := (proper.named known).element isArray
  obtain ⟨each, cleanR, suits⟩ := fits accepted
  rw [List.forall_mem_append, List.forall_mem_singleton] at spelled
  have shares : ∀ e ∈ indices, Shares (e.ownType s) "int" := fun e inside =>
    (each e inside).2.elim (fun own => .inl ⟨own, by decide⟩) fun own => .inr ⟨own, by decide⟩
  have int : ∀ e ∈ indices, (e.kid s).settle (some "int") (e.outcome s .inferred) =
      e.outcome s (.settled "int") := by
    intro e inside
    have lands := ((each e inside).1.lands proper (spelled.1 e inside)).inferred (shares e inside)
    rwa [ite_self] at lands
  have suitsR : Suits (right.ownType s) (some element) := by
    have fits := suits element (by rw [read, Option.map_some, properE.normalize_eq])
    rw [Suits, Option.map_some, properE.normalize_eq, Option.any_some]
    exact fits
  have value : ((right.kid s).infer right.fresh).asArgument (TypeName.element? type) =
      right.outcome s (Term.hintWay right element) := by
    rw [read]
    exact Term.asArgument_outcome proper spelled.2 cleanR (cleanR.inferred_eq proper spelled.2)
      properE suitsR
  have landsR := (cleanR.lands proper spelled.2).argument proper spelled.2 cleanR properE suitsR
  have settled : List.zipWith (fun e c => (e.kid s).settle (some "int") c) indices
      (indices.map (Term.inferred s)) = indices.map fun e => e.outcome s (.settled "int") := by
    rw [List.zipWith_map_right, List.zipWith_self]
    refine List.map_congr_left fun e inside => ?_
    rw [(each e inside).1.inferred_eq proper (spelled.1 e inside), int e inside]
  have elementOf : elementType (some type) = some element := by
    simp [elementType, isArray, read, properE.normalize_eq]
  have ways : List.zipWith (Term.outcome s) (indices ++ [right])
      ((storeAt array indices right).ways s) =
      indices.map (fun e => e.outcome s (.settled "int")) ++ [right.outcome s (.settled element)] := by
    rw [Directive.ways, known, elementOf, List.zipWith_append (by simp), List.zipWith_map_right,
      List.zipWith_self]
    rfl
  have given : ∀ w ∈ (storeAt array indices right).ways s, w.isGiven := by
    intro w inside
    rw [Directive.ways, List.mem_append, List.mem_map, List.mem_singleton] at inside
    rcases inside with ⟨_, -, rfl⟩ | rfl <;> rfl
  have stays := Term.fillChildren_given (s := s) (indices ++ [right]) given (by simp [Directive.ways])
  have some_ : indices ≠ [] := by
    rintro rfl
    simp at enough
  constructor
  · rw [ways] at stays ⊢
    rw [(assign_eq run rfl).2, node, Marked.setType, Tree.setNote, value,
      spreadNode_storeAt named known isArray read properE some_ right
        (List.length_map (Term.inferred s)).symm, settled, landsR]
    exact congrArg Tree.children (stays _ _)
  · rw [Directive.ways, known, elementOf, List.zip_append (by simp), List.forall_mem_append]
    constructor
    · rw [List.zip_map_right, List.forall_mem_map]
      intro p inside
      have isIndex := (List.of_mem_zip inside).1
      exact ⟨(each p.1 isIndex).1, shares p.1 isIndex⟩
    · exact List.forall_mem_singleton.mpr ⟨cleanR, Term.shares_of_suits properE suitsR⟩

/-! ### Directives -/

/-- Types come to the terms of a directive without errors in the directive's ways. -/
theorem assign_outcome (proper : s.Proper) {c : Directive} (spelled : c.Spelled)
    (checked : c.Checked s) (accepted : (c.fresh.assign s).errors = []) :
    c.parts (c.fresh.assign s).node = (c.terms.zip (c.ways s)).map (fun p => p.1.outcome s p.2) ∧
      ∀ p ∈ c.terms.zip (c.ways s), p.2.Valid s p.1 := by
  have terms := spelled.terms
  cases c with
  | value e =>
    have clean := assign_value_clean accepted
    have node := assign_value_outcome proper spelled clean
    exact ⟨congrArg (fun t => [t]) node, List.forall_mem_singleton.mpr clean⟩
  | store name e =>
    obtain ⟨w, ways, node, valid⟩ := assign_store_outcome proper spelled.1 spelled.2 checked accepted
    rw [ways]
    exact ⟨node, List.forall_mem_singleton.mpr valid⟩
  | storeAt array indices right =>
    obtain ⟨node, valid⟩ := assign_storeAt_outcome proper spelled.1 terms accepted
    rw [← List.map_uncurry_zip_eq_zipWith] at node
    exact ⟨node, valid⟩

end Directive

end MethodLang
