import MethodLang.Proofs.Typing.Bare

/-!
The types that the nodes of a term end up with. How a node comes by its type depends only on how
the node above it did (`Term.ways`), so a term without errors has one outcome for each way in which
its root comes by its own (`Term.outcome`). Settling goes all the way down, but not below logical
operators.
-/
namespace MethodLang

open Checker

/-- How a node comes by its type. -/
inductive Way where
  /-- It was inferred only, and bears no type. -/
  | inferred
  /-- A bare number that took the type of its place when it was inferred. -/
  | marked (type : TypeName)
  /-- It was shown the type it was inferred to have. -/
  | shown
  /-- It was settled with all below it. -/
  | settled (type : TypeName)
  /-- It was settled before it was ever inferred. -/
  | aimed (type : TypeName)
  /-- It is the root of a value, shown its type once all below it was settled. -/
  | root
  deriving DecidableEq

/-- What filling makes of a node: it is shown its type if it bears none. -/
def Way.filled : Way → Way
  | .inferred => .shown
  | w => w

variable {s : Scope}

namespace Term

/-! ### Ways -/

section
variable {α : Type}

mutual
/-- What a function makes of a term, given what it makes of the terms right below. -/
def fold (f : Term → List α → α) : Term → α
  | .literal kind text => f (.literal kind text) []
  | .load name => f (.load name) []
  | .call function args => f (.call function args) (folds f args)
  | .index base position => f (.index base position) [base.fold f, position.fold f]
  | .binary op left right => f (.binary op left right) [left.fold f, right.fold f]
  | .unary op operand => f (.unary op operand) [operand.fold f]

def folds (f : Term → List α → α) : List Term → List α
  | [] => []
  | e :: es => e.fold f :: folds f es
end

theorem folds_eq_map (f : Term → List α → α) (es : List Term) : folds f es = es.map (fold f) := by
  induction es with
  | nil => rfl
  | cons e es ih => rw [folds, ih, List.map_cons]

theorem fold_eq (f : Term → List α → α) (e : Term) : e.fold f = f e (e.children.map (fold f)) := by
  cases e <;> simp [fold, children, folds_eq_map]

end

variable (s : Scope)

/-- Whether an operand takes the type of the other when both are inferred. Arithmetic infers its
operands twice, and one that was worked out counts as `int` by then. -/
def takes (op : Operator) (e : Term) : Bool :=
  e.isBare && !(op.1.role == .arithmetic && e.isWorked)

/-- The ways of the arguments of a call, by the types of the parameters. -/
def argWays (way : Term → TypeName → Way) (args : List Term) (ps : TypeTable) : List Way :=
  List.zipWith (fun e p => way e (p.2.getD "int")) args ps

/-- The way of an argument that was inferred. -/
def hintWay (e : Term) (type : TypeName) : Way := if e.isBare then .marked type else .inferred

/-- The ways of the nodes below one that was inferred. -/
def hintWays : Term → List Way
  | .literal _ _ | .load _ => []
  | .call function args => argWays hintWay args (s.parameters function)
  | .index _ _ => [.inferred, .inferred]
  | .binary op left right =>
    [if takes op left then .marked (both s op left right) else .inferred,
      if takes op right then .marked (both s op left right) else .inferred]
  | .unary _ _ => [.inferred]

/-- The ways of the nodes below one that was settled in the given type. -/
def settleWays (type : TypeName) : Term → List Way
  | .literal _ _ | .load _ => []
  | .call function args => argWays (fun _ type => .settled type) args (s.parameters function)
  | .index _ _ => [.inferred, .settled "int"]
  | .binary op left right =>
    if op.1.role = .logical then [.inferred, .inferred]
    else [.settled (both s op left right), .settled (both s op left right)]
  | .unary .not _ => [.settled "bool"]
  | .unary .invert operand =>
    [.settled (if operand.isBare && operand.isWorked then "int" else type)]

/-- The type that a value is shown. -/
def rootType (e : Term) : TypeName := ((e.ownType s).map TypeName.resolve).getD "int"

/-- The ways of the nodes right below a node that comes by its type in the given way. -/
def ways (w : Way) (e : Term) : List Way :=
  match w with
  | .inferred | .marked _ => e.hintWays s
  | .shown => (e.hintWays s).map Way.filled
  | .settled type => e.settleWays s type
  | .aimed type => if e.isNumeric then [.aimed type, .aimed type] else e.settleWays s type
  | .root => (e.settleWays s (e.rootType s)).map Way.filled

/-- The mark that a node ends up with. -/
def markOf (w : Way) (e : Term) : Mark :=
  match w with
  | .inferred => unknownMark
  | .marked type | .settled type | .aimed type => ⟨some type, true⟩
  | .shown | .root => ⟨(e.ownType s).map TypeName.resolve, false⟩

/-- The marked term, if its root comes by its type in the given way. -/
def outcome (e : Term) : Way → Marked :=
  e.fold fun e below w => .node e.label (e.markOf s w) (List.zipWith (fun f v => f v) below (e.ways s w))

variable {s}

theorem outcome_eq (e : Term) (w : Way) : e.outcome s w =
    .node e.label (e.markOf s w) (List.zipWith (outcome s) e.children (e.ways s w)) := by
  rw [outcome, fold_eq, List.zipWith_map_left]
  rfl

theorem outcome_note (e : Term) (w : Way) : (e.outcome s w).note = e.markOf s w := by
  rw [outcome_eq, Tree.note_node]

theorem setNote_settled (e : Term) (type : TypeName) :
    (e.outcome s (.settled type)).setNote ⟨some type, true⟩ = e.outcome s (.settled type) := by
  rw [outcome_eq]
  rfl

/-- Marking a bare number changes nothing below it. -/
theorem settleAs_inferred (e : Term) {type : TypeName} (proper : type.Proper) :
    (e.outcome s .inferred).settleAs (some type) = e.outcome s (.marked type) := by
  rw [Marked.settleAs, proper.normalize_eq, outcome_eq, outcome_eq]
  rfl

/-- A node with a settled type answers with it. -/
theorem infer_outcome {e : Term} {w : Way} {type : TypeName}
    (mark : e.markOf s w = ⟨some type, true⟩) :
    (e.kid s).infer (e.outcome s w) = ⟨some type, [], e.outcome s w⟩ := by
  have settled : (e.outcome s w).note.settled = true := by rw [outcome_note, mark]
  have typed : (e.outcome s w).note.type = some type := by rw [outcome_note, mark]
  rw [kid_eq]
  exact inferNode_settled s _ _ settled typed

/-! ### Operands -/

theorem common_int {r : Option TypeName} (known : r ∈ answers) {type : TypeName}
    (h : common .numbers (some "int") r = some type ∨ common .numbers r (some "int") = some type) :
    type = "int" := by
  have each : ∀ r ∈ answers, (∀ type ∈ common .numbers (some "int") r, type = "int") ∧
      ∀ type ∈ common .numbers r (some "int"), type = "int" := by decide +kernel
  rcases h with h | h
  · exact (each r known).1 type h
  · exact (each r known).2 type h

/-- What holds of each operand of an operation without errors. -/
structure Operand (s : Scope) (op : Operator) (type : TypeName) (e : Term) : Prop where
  spelled : e.Spelled
  clean : e.Clean s
  shares : Shares (e.ownType s) type
  /-- One that takes no type has the common one already. -/
  answer : takes op e = false → e.answer s = some type
  /-- One that takes a type is bare when the operator looks at it. -/
  takes_iff : (if op.1.role = .arithmetic then e.answer s else e.ownType s) =
    some TypeName.untyped ↔ takes op e = true

section
variable (proper : s.Proper) {op : Operator} {left right : Term}
  (spelledL : left.Spelled) (spelledR : right.Spelled)
  (clean : (Term.binary op left right).Clean s)
include proper spelledL spelledR clean

theorem Clean.both_shared :
    both s op left right ∈ op.1.operands.shared ∧ (both s op left right).Proper := by
  have knownL := clean.binary.1.known proper spelledL
  have knownR := clean.binary.2.known proper spelledR
  have operated := clean.operated proper spelledL spelledR
  exact ⟨(shares_common knownL knownR operated.shared).1,
    proper_common knownL knownR operated.shared⟩

theorem Clean.operands : ∀ x ∈ [left, right], Operand s op (both s op left right) x := by
  obtain ⟨cleanL, cleanR⟩ := clean.binary
  have knownL := cleanL.known proper spelledL
  have knownR := cleanR.known proper spelledR
  have operated := clean.operated proper spelledL spelledR
  obtain ⟨-, sharesL, sharesR⟩ := shares_common knownL knownR operated.shared
  have each {x : Term} (spelled : x.Spelled) (clean : x.Clean s)
      (shares : Shares (x.ownType s) (both s op left right))
      (int : op.1.role = .arithmetic → x.answer s = some "int" → both s op left right = "int") :
      Operand s op (both s op left right) x := by
    have bare := clean.isBare_iff proper spelled
    have answer := clean.answer_eq proper spelled
    refine ⟨spelled, clean, shares, fun stays => ?_, ?_⟩
    · cases isBare : x.isBare with
      | false =>
        rw [isBare, Bool.false_and, if_neg (by decide)] at answer
        rcases shares with ⟨own, -⟩ | ⟨own, -⟩
        · rw [answer, own]
        · rw [bare.mp own] at isBare
          cases isBare
      | true =>
        simp only [takes, isBare, Bool.true_and, Bool.not_eq_false', Bool.and_eq_true,
          beq_iff_eq] at stays
        rw [isBare, stays.2, Bool.and_self, if_pos rfl] at answer
        rw [answer, int stays.1 answer]
    · by_cases role : op.1.role = .arithmetic
      · rw [if_pos role, answer]
        cases worked : x.isBare && x.isWorked with
        | true =>
          simp only [Bool.and_eq_true] at worked
          simp [takes, role, worked.1, worked.2, TypeName.untyped]
        | false =>
          rw [if_neg (by decide), bare, takes]
          cases isBare : x.isBare <;> simp_all
      · rw [if_neg role, bare]
        simp [takes, role]
  simp only [List.forall_mem_cons, List.not_mem_nil, false_implies, implies_true, and_true]
  constructor
  · refine each spelledL cleanL sharesL fun role int => ?_
    have again := operated.again role
    rw [int] at again
    exact common_int (mem_answers_of_turns knownR (cleanR.sound proper spelledR).2.1) (.inl again)
  · refine each spelledR cleanR sharesR fun role int => ?_
    have again := operated.again role
    rw [int] at again
    exact common_int (mem_answers_of_turns knownL (cleanL.sound proper spelledL).2.1) (.inr again)

end

/-! ### Inference -/

theorem taking_outcome {op : Operator} {e : Term} {type : TypeName} (proper : type.Proper)
    {r : Inference} (node : r.node = e.outcome s .inferred)
    (takes_iff : r.type = some TypeName.untyped ↔ takes op e = true) :
    r.taking (some type) = e.outcome s (if takes op e then .marked type else .inferred) := by
  unfold Inference.taking
  by_cases bare : r.type = some TypeName.untyped
  · rw [if_pos bare, if_pos (takes_iff.mp bare), node, settleAs_inferred e proper]
  · rw [if_neg bare, if_neg fun h => bare (takes_iff.mpr h), node]

/-- What is given for a type that it suits takes that type if it is a bare number. -/
theorem asArgument_outcome (proper : s.Proper) {e : Term} (spelled : e.Spelled) (clean : e.Clean s)
    (node : e.inferred s = e.outcome s .inferred) {type : TypeName} (properT : type.Proper)
    (suits : Suits (e.ownType s) (some type)) :
    ((e.kid s).infer e.fresh).asArgument (some type) = e.outcome s (hintWay e type) := by
  have bare := clean.isBare_iff proper spelled
  have own : ((e.kid s).infer e.fresh).type = e.ownType s := rfl
  have node : ((e.kid s).infer e.fresh).node = e.outcome s .inferred := node
  unfold Inference.asArgument hintWay
  rw [own, node, Option.map_some, properT.normalize_eq]
  cases isBare : e.isBare with
  | true =>
    have untyped := bare.mpr isBare
    have numeric : type.isNumeric := by
      rcases suits with same | ⟨-, numeric⟩
      · rw [untyped, Option.map_some, properT.normalize_eq] at same
        exact absurd (Option.some.inj same).symm properT.ne_untyped
      · simpa [properT.normalize_eq] using numeric
    simp only [untyped, TypeName.isUntyped_untyped, numeric, Bool.and_self, if_true]
    exact settleAs_inferred e properT
  | false =>
    cases given : e.ownType s with
    | none => rfl
    | some t =>
      have typedE : t.isUntyped = false := by
        rw [given, isBare] at bare
        simpa [TypeName.isUntyped] using bare
      simp [typedE]

theorem checkedArgs_eq (proper : s.Proper) {es : List Term} {ps : TypeTable}
    (typed : ∀ p ∈ ps, ∃ type, p.2 = some type ∧ type.Proper)
    (spelled : ∀ e ∈ es, e.Spelled) (clean : ∀ e ∈ es, e.Clean s)
    (suits : List.Forall₂ (fun e p => Suits (e.ownType s) p.2) es ps)
    (each : ∀ e ∈ es, e.inferred s = e.outcome s .inferred) :
    checkedArgs s es ps = List.zipWith (outcome s) es (argWays hintWay es ps) := by
  induction suits with
  | nil => rfl
  | @cons e p es ps suits _ ih =>
    have ⟨⟨type, is, properP⟩, typedRest⟩ := List.forall_mem_cons.mp typed
    have ⟨spelledE, spelledRest⟩ := List.forall_mem_cons.mp spelled
    have ⟨cleanE, cleanRest⟩ := List.forall_mem_cons.mp clean
    have ⟨node, eachRest⟩ := List.forall_mem_cons.mp each
    have rest := ih typedRest spelledRest cleanRest eachRest
    obtain ⟨name, _⟩ := p
    subst is
    simp only [checkedArgs, argWays, List.zipWith_cons_cons, Option.getD_some] at rest ⊢
    rw [rest, asArgument_outcome proper spelledE cleanE node properP suits]

theorem inferred_binary (proper : s.Proper) {op : Operator} {left right : Term}
    (spelledL : left.Spelled) (spelledR : right.Spelled)
    (clean : (Term.binary op left right).Clean s)
    (nodeL : left.inferred s = left.outcome s .inferred)
    (nodeR : right.inferred s = right.outcome s .inferred) :
    (binary op left right).inferred s = .node op.1.text unknownMark
      [left.outcome s (if takes op left then .marked (both s op left right) else .inferred),
        right.outcome s (if takes op right then .marked (both s op left right) else .inferred)] := by
  have operated := clean.operated proper spelledL spelledR
  have shared := (clean.both_shared proper spelledL spelledR).2
  have ⟨operandL, operandR⟩ : Operand s op (both s op left right) left ∧
      Operand s op (both s op left right) right := by
    simpa using clean.operands proper spelledL spelledR
  have takesL := operandL.takes_iff
  have takesR := operandR.takes_iff
  -- all but arithmetic look at what the operands were inferred to be just now
  have once (o : Operands) (is : op.1.operands = o) (other : op.1.role ≠ .arithmetic) :
      (checkBinary [left.kid s, right.kid s] op.1.text o
        (.node op.1.text unknownMark [left.fresh, right.fresh])).node = .node op.1.text unknownMark
      [left.outcome s (if takes op left then .marked (both s op left right) else .inferred),
        right.outcome s (if takes op right then .marked (both s op left right) else .inferred)] := by
    obtain ⟨node, -, -⟩ := checkBinary_pair (left.kid s) (right.kid s) op.1.text unknownMark
      left.fresh right.fresh op.1.text o rfl rfl rfl
    have common : common o ((left.kid s).infer left.fresh).type
        ((right.kid s).infer right.fresh).type = some (both s op left right) := is ▸ operated.shared
    rw [if_neg other] at takesL takesR
    rw [node, common, taking_outcome shared nodeL takesL, taking_outcome shared nodeR takesR]
  rw [inferred, infer_fresh_eq, label]
  simp only [inferRole, BinaryOp.ofLabel_text]
  rcases operator_cases op with ⟨role, o⟩ | ⟨role, o⟩ | ⟨role, o⟩ | ⟨role, o⟩
  · simp only [role]
    obtain ⟨kept, -, -⟩ := inferArithmetic_pair (left.kid s) (right.kid s) op.1.text unknownMark
      left.fresh right.fresh op.1.text rfl rfl
    obtain ⟨node, -, -⟩ := checkBinary_pair (left.kid s) (right.kid s) op.1.text unknownMark
      (left.inferred s) (right.inferred s) op.1.text .numbers rfl rfl rfl
    have staysL := (operandL.clean.sound proper spelledL).2.2.1
    have staysR := (operandR.clean.sound proper spelledR).2.2.1
    have common : common .numbers ((left.kid s).infer (left.inferred s)).type
        ((right.kid s).infer (right.inferred s)).type = some (both s op left right) :=
      operated.again role
    rw [if_pos role] at takesL takesR
    refine kept.trans (node.trans ?_)
    rw [common, taking_outcome shared (staysL.trans nodeL) takesL,
      taking_outcome shared (staysR.trans nodeR) takesR]
  · simp only [role]
    exact once _ o (by simp [role])
  · simp only [role]
    exact once _ o (by simp [role])
  · simp only [role]
    exact once _ o (by simp [role])

/-- Inference leaves a term without errors in the state of its outcome. -/
theorem Clean.inferred_eq (proper : s.Proper) {e : Term} (spelled : e.Spelled) (clean : e.Clean s) :
    e.inferred s = e.outcome s .inferred := by
  induction e using children_induction with
  | step e ih =>
    have spells := spelled.children
    have cleans := clean.children proper spelled
    have each := fun x inside => ih x inside (spells x inside) (cleans x inside)
    rw [outcome_eq]
    cases e with
    | literal kind text => exact (inferred_literal kind text).trans (fresh_eq _)
    | load name =>
      rw [inferred, infer_fresh_eq]
      simp only [inferRole, label, Role.ofLabel_load spelled, inferLoad]
      cases s.variableType name <;> rfl
    | call function args =>
      obtain ⟨_, known, suits⟩ := clean.call proper spelled.1
      have node := checkArguments_fresh (s := s) function (label (.call function args)) unknownMark
        suits.length_eq [] [] rfl
      rw [inferred, infer_fresh_eq, label]
      simp only [inferRole, Role.ofLabel_call spelled.1, inferCall, checkCall, known, Bool.not_true,
        Bool.false_eq_true, if_false]
      have args' := checkedArgs_eq proper (fun p => proper.parameters) spells cleans suits each
      exact node.trans (congrArg (Tree.node _ unknownMark) args')
    | index base position =>
      rw [inferred, infer_fresh_eq, label]
      simp only [inferRole, Role.ofLabel_index]
      refine (inferIndex_pair _ _ _ _ _ _ rfl).1.trans ?_
      have nodeB : ((base.kid s).infer base.fresh).node = _ := each base (by simp [Term.children])
      have nodeP : ((position.kid s).infer position.fresh).node = _ :=
        each position (by simp [Term.children])
      rw [nodeB, nodeP]
      rfl
    | binary op left right =>
      exact inferred_binary proper spelled.1 spelled.2 clean (each left (by simp [Term.children]))
        (each right (by simp [Term.children]))
    | unary op operand =>
      rw [inferred_unary, each operand (by simp [Term.children])]
      rfl

/-- What inferring an operand without errors again gives. -/
theorem Clean.infer_inferred (proper : s.Proper) {e : Term} (spelled : e.Spelled)
    (clean : e.Clean s) : ((e.kid s).infer (e.outcome s .inferred)).type = e.answer s ∧
      ((e.kid s).infer (e.outcome s .inferred)).node = e.outcome s .inferred := by
  rw [← clean.inferred_eq proper spelled]
  exact ⟨rfl, (clean.sound proper spelled).2.2.1⟩

end Term

end MethodLang
