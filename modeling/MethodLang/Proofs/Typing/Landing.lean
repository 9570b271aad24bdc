import MethodLang.Proofs.Typing.Outcome

/-!
Where settling leads. Settling turns the outcome of a term that was only inferred into that of a
settled one; a type that a node has been given by then stays (`Term.Clean.lands`).
-/
namespace MethodLang

open Checker

variable {s : Scope}

namespace Term

theorem proper_of_mem_numbers {type : TypeName} (numeric : type ∈ TypeName.numbers) :
    type.Proper := by
  have each : ∀ t ∈ TypeName.numbers, t.Proper := by decide
  exact each type numeric

theorem proper_of_shares {own : Option TypeName} (known : own ∈ answers) {type : TypeName}
    (shares : Shares own type) : type.Proper := by
  rcases shares with ⟨rfl, typed⟩ | ⟨-, numeric⟩
  · exact (known_of_mem_answers known).resolve_left typed
  · exact proper_of_mem_numbers numeric

theorem shares_of_suits {own : Option TypeName} {type : TypeName} (proper : type.Proper)
    (suits : Suits own (some type)) : Shares own type := by
  rcases suits with same | ⟨bare, numeric⟩
  · rw [Option.map_some, proper.normalize_eq] at same
    exact .inl ⟨same, proper.ne_untyped⟩
  · rw [Option.map_some, proper.normalize_eq, Option.any_some] at numeric
    exact .inr ⟨bare, mem_numbers proper numeric⟩

theorem given_proper {type : TypeName} (proper : type.Proper) : given? (some type) = some type := by
  simp [given?, Option.filter, proper.not_isEmpty]

/-- Where settling a term leads to. A bare number that was worked out and is not marked has become
an `int`; what is marked or settled keeps its type. -/
structure Lands (s : Scope) (e : Term) : Prop where
  inferred : ∀ {type}, Shares (e.ownType s) type →
    (e.kid s).settle (some type) (e.outcome s .inferred) =
      e.outcome s (.settled (if e.isBare && e.isWorked then "int" else type))
  marked : e.isBare → ∀ {type wanted}, type ∈ TypeName.numbers → wanted ∈ TypeName.numbers →
    (e.kid s).settle (some wanted) (e.outcome s (.marked type)) = e.outcome s (.settled type)
  settled : ∀ {type wanted : TypeName}, type.Proper → wanted.Proper →
    (e.kid s).settle (some wanted) (e.outcome s (.settled type)) = e.outcome s (.settled type)

theorem spreadOperands_outcome {left right : Term} {a b : Way} {type : TypeName}
    (proper : type.Proper)
    (inferL : ((left.kid s).infer (left.outcome s a)).type = some type ∧
      ((left.kid s).infer (left.outcome s a)).node = left.outcome s a)
    (inferR : ((right.kid s).infer (right.outcome s b)).type = some type ∧
      ((right.kid s).infer (right.outcome s b)).node = right.outcome s b) (l : String) (m : Mark) :
    spreadOperands [left.kid s, right.kid s] (.node l m [left.outcome s a, right.outcome s b]) =
      .node l m [(left.kid s).settle (some type) (left.outcome s a),
        (right.kid s).settle (some type) (right.outcome s b)] := by
  have unified : TypeName.unify (some type) (some type) = some type := by
    have each : ∀ t ∈ TypeName.declarable, TypeName.unify (some t) (some t) = some t := by
      decide +kernel
    exact each type proper
  simp only [spreadOperands, inferChild_first, inferChild_second, Tree.children_node,
    List.length_cons, List.length_nil, ne_eq, not_true_eq_false, if_false, inferL, inferR, unified,
    given_proper proper]
  rfl

theorem spreadArguments_ways (way : Term → TypeName → Way) {es : List Term} {ps : TypeTable}
    (each : List.Forall₂ (fun e p => ∃ type, p.2 = some type ∧ type.Proper ∧
      (e.kid s).settle (some type) (e.outcome s (way e type)) = e.outcome s (.settled type)) es ps)
    (l : String) (m : Mark) (before : List Checker) (pre : List Marked)
    (same : before.length = pre.length) :
    spreadArguments (before ++ kids s es) pre.length ps
      (.node l m (pre ++ List.zipWith (outcome s) es (argWays way es ps))) =
    .node l m (pre ++ List.zipWith (outcome s) es
      (argWays (fun _ type => .settled type) es ps)) := by
  induction each generalizing before pre with
  | nil => rfl
  | @cons e p es ps first _ ih =>
    obtain ⟨name, _⟩ := p
    obtain ⟨type, is, proper, settles⟩ := first
    simp only at is
    subst is
    have rest := ih (before ++ [e.kid s]) (pre ++ [e.outcome s (.settled type)]) (by simp [same])
    have step : settleChild (before ++ e.kid s :: kids s es) (some type) pre.length
        (.node l m (pre ++ e.outcome s (way e type) ::
          List.zipWith (outcome s) es (argWays way es ps))) =
        .node l m (pre ++ e.outcome s (.settled type) ::
          List.zipWith (outcome s) es (argWays way es ps)) := by
      rw [← settles]
      exact onChild_at (e.kid s) _ same _
    simp only [argWays, kids, List.zipWith_cons_cons, spreadArguments, Option.getD_some,
      given_proper proper] at step rest ⊢
    rw [step]
    simpa using rest

/-- In front of an index without errors stands an array, which is never an element of another. -/
theorem Clean.base_load (proper : s.Proper) {base position : Term}
    (spelled : (Term.index base position).Spelled) (clean : (Term.index base position).Clean s) :
    ∃ name, base = .load name := by
  obtain ⟨cleanB, -, array, -⟩ := clean.index
  cases base with
  | load name => exact ⟨name, rfl⟩
  | index inner at_ =>
    obtain ⟨cleanI, -, arrayI, -⟩ := cleanB.index
    obtain ⟨type, own, typed⟩ := cleanI.place proper spelled.2.1.2.1 spelled.2.1.1
    have each : ∀ t ∈ TypeName.declarable, t.isArray →
        ∀ u ∈ elementType (some t), u.isArray = false := by decide +kernel
    obtain ⟨element, ownB, -⟩ := cleanB.place proper spelled.2.1 rfl
    have element' := ownB
    rw [ownType_index, own] at element'
    have scalar := each type typed (arrayI type own) element element'
    rw [array element ownB] at scalar
    cases scalar
  | literal | call | binary | unary => cases spelled.1

/-- The way of an operand that was inferred. -/
theorem Operand.infer (proper : s.Proper) {op : Operator} {type : TypeName} {e : Term}
    (operand : Operand s op type e) {w : Way}
    (is : w = if takes op e then .marked type else .inferred) :
    ((e.kid s).infer (e.outcome s w)).type = some type ∧
      ((e.kid s).infer (e.outcome s w)).node = e.outcome s w := by
  subst is
  cases h : takes op e with
  | true =>
    rw [if_pos rfl, infer_outcome rfl]
    exact ⟨rfl, rfl⟩
  | false =>
    rw [if_neg (by decide)]
    obtain ⟨type', node⟩ := operand.clean.infer_inferred proper operand.spelled
    exact ⟨type'.trans (operand.answer h), node⟩

theorem Operand.settle (proper : s.Proper) {op : Operator} {type : TypeName} {e : Term}
    (operand : Operand s op type e) (lands : e.Lands s) {wanted : TypeName}
    (shares : Shares (e.ownType s) wanted) {w : Way}
    (is : w = if takes op e then .marked type else .inferred) :
    (e.kid s).settle (some wanted) (e.outcome s w) = e.outcome s (.settled type) := by
  subst is
  have bare := operand.clean.isBare_iff proper operand.spelled
  have number {t : TypeName} (shares : Shares (e.ownType s) t) (isBare : e.isBare = true) :
      t ∈ TypeName.numbers := by
    rcases shares with ⟨own, typed⟩ | ⟨-, numeric⟩
    · rw [bare.mpr isBare] at own
      exact absurd (Option.some.inj own).symm typed
    · exact numeric
  cases h : takes op e with
  | true =>
    have isBare : e.isBare = true := (Bool.and_eq_true_iff.mp h).1
    rw [if_pos rfl]
    exact lands.marked isBare (number operand.shares isBare) (number shares isBare)
  | false =>
    rw [if_neg (by decide), lands.inferred shares]
    have stays := operand.answer h
    rw [operand.clean.answer_eq proper operand.spelled] at stays
    -- one that stays open is an `int` by now, or had the common type from the start
    cases worked : e.isBare && e.isWorked with
    | true =>
      rw [worked, if_pos rfl] at stays
      rw [if_pos rfl, Option.some.inj stays]
    | false =>
      rw [worked, if_neg (by decide)] at stays
      rw [if_neg (by decide)]
      rcases shares with ⟨own, -⟩ | ⟨own, -⟩
      · rw [stays] at own
        rw [Option.some.inj own]
      · rw [stays] at own
        have typed := (Option.some.inj own)
        rcases operand.shares with ⟨-, other⟩ | ⟨-, numeric⟩
        · exact absurd typed other
        · exact absurd typed (proper_of_mem_numbers numeric).ne_untyped

theorem Clean.not_bare (proper : s.Proper) {e : Term} (spelled : e.Spelled) (clean : e.Clean s)
    {type : TypeName} (own : e.ownType s = some type) (typed : type ≠ TypeName.untyped) :
    e.isBare = false := by
  cases bare : e.isBare with
  | false => rfl
  | true =>
    rw [(clean.isBare_iff proper spelled).mpr bare] at own
    exact absurd (Option.some.inj own).symm typed

/-- What holds of each argument of a call without errors, and of the type of its parameter. -/
structure Argument (s : Scope) (args : List Term) (type : TypeName) (e : Term) : Prop where
  inside : e ∈ args
  spelled : e.Spelled
  clean : e.Clean s
  proper : type.Proper
  suits : Suits (e.ownType s) (some type)

theorem Clean.args (proper : s.Proper) {function : String} {args : List Term}
    (spelled : (Term.call function args).Spelled) (clean : (Term.call function args).Clean s) :
    List.Forall₂ (fun e p => ∃ type, p.2 = some type ∧ Argument s args type e) args
      (s.parameters function) := by
  obtain ⟨cleans, _, suits⟩ := clean.call proper spelled.1
  have typed : List.Forall₂ (fun e p => e ∈ args ∧ (∃ type, p.2 = some type ∧ type.Proper) ∧
      Suits (e.ownType s) p.2) args (s.parameters function) :=
    (List.forall₂_and_left _ _).mpr ⟨fun e => id,
      ((List.forall₂_and_left _ _).mpr ⟨fun p => proper.parameters, suits.flip⟩).flip⟩
  refine typed.imp fun e p ⟨inside, ⟨type, is, properP⟩, suit⟩ => ⟨type, is, ?_⟩
  exact ⟨inside, allSpelled_iff.mp spelled.2 e inside, cleans e inside, properP, is ▸ suit⟩

/-- An argument that was inferred is settled in the type of its parameter. -/
theorem Lands.argument (proper : s.Proper) {e : Term} (lands : e.Lands s) (spelled : e.Spelled)
    (clean : e.Clean s) {type : TypeName} (properT : type.Proper)
    (suits : Suits (e.ownType s) (some type)) :
    (e.kid s).settle (some type) (e.outcome s (hintWay e type)) = e.outcome s (.settled type) := by
  have shares := shares_of_suits properT suits
  rcases shares with ⟨own, typed⟩ | ⟨own, numeric⟩
  · have settles := lands.inferred (.inl ⟨own, typed⟩)
    have bare := clean.not_bare proper spelled own typed
    rw [bare, Bool.false_and, if_neg (by decide)] at settles
    rw [hintWay, bare, if_neg (by decide)]
    exact settles
  · have bare := (clean.isBare_iff proper spelled).mp own
    rw [hintWay, bare, if_pos rfl]
    exact lands.marked bare numeric numeric

theorem spreadNode_call {function : String} (named : IsName function) {args : List Term}
    (way : Term → TypeName → Way)
    (each : List.Forall₂ (fun e p => ∃ type, p.2 = some type ∧ type.Proper ∧
      (e.kid s).settle (some type) (e.outcome s (way e type)) = e.outcome s (.settled type))
      args (s.parameters function)) (type : Option TypeName) (m : Mark) :
    spreadNode s (kids s args) (call function args).label type
      (.node (call function args).label m (List.zipWith (outcome s) args
        (argWays way args (s.parameters function)))) =
    .node (call function args).label m (List.zipWith (outcome s) args
      (argWays (fun _ type => .settled type) args (s.parameters function))) := by
  have run := spreadArguments_ways way each (call function args).label m [] [] rfl
  unfold spreadNode
  rw [label, Role.ofLabel_call named]
  split
  · rename_i empty
    cases args with
    | nil => rfl
    | cons e es =>
      obtain ⟨p, ps, -, -, same⟩ := List.forall₂_cons_left_iff.mp each
      simp [argWays, same] at empty
  · exact run

/-- Logical operators leave their operands alone. -/
theorem spreadNode_binary (op : Operator) (kid kid' : Checker) (type : Option TypeName) (l : String)
    (m : Mark) (a b : Marked) : spreadNode s [kid, kid'] op.1.text type (.node l m [a, b]) =
      if op.1.role = .logical then .node l m [a, b]
      else spreadOperands [kid, kid'] (.node l m [a, b]) := by
  unfold spreadNode
  rw [BinaryOp.ofLabel_text]
  rcases operator_cases op with ⟨role, _⟩ | ⟨role, _⟩ | ⟨role, _⟩ | ⟨role, _⟩ <;> simp [role]

section
variable (proper : s.Proper) {e : Term} (spelled : e.Spelled) (clean : e.Clean s)
  (each : ∀ x ∈ e.children, x.Lands s)
include proper spelled clean each

/-- Settling what is below a node that was inferred only. -/
theorem spread_hints {type : Option TypeName} {t : TypeName}
    (fits : ∀ own, e.ownType s = some own → type = some t ∧ Shares (some own) t) (m : Mark) :
    spreadNode s (kids s e.children) e.label type
      (.node e.label m (List.zipWith (outcome s) e.children (e.hintWays s))) =
    .node e.label m (List.zipWith (outcome s) e.children (e.settleWays s t)) := by
  cases e with
  | literal | load => rfl
  | call function args =>
    refine spreadNode_call spelled.1 hintWay
      ((clean.args proper spelled).imp fun x p typed => ?_) type m
    obtain ⟨type, is, argument⟩ := typed
    exact ⟨type, is, argument.proper, (each x argument.inside).argument proper argument.spelled
      argument.clean argument.proper argument.suits⟩
  | index base position =>
    obtain ⟨name, rfl⟩ := clean.base_load proper spelled
    obtain ⟨-, cleanP, -, int⟩ := clean.index
    have shares := shares_of_suits TypeName.proper_int int
    have landsP := (each position (by simp [Term.children])).inferred shares
    rw [ite_self] at landsP
    unfold spreadNode
    rw [label, Role.ofLabel_index]
    change Tree.node _ m [_, (position.kid s).settle (some "int") (position.outcome s .inferred)] = _
    rw [landsP]
    rfl
  | binary op left right =>
    have landsL := each left (by simp [Term.children])
    have landsR := each right (by simp [Term.children])
    obtain ⟨operandL, operandR⟩ : Operand s op (both s op left right) left ∧
        Operand s op (both s op left right) right := by
      simpa using clean.operands proper spelled.1 spelled.2
    have shared := clean.both_shared proper spelled.1 spelled.2
    refine (spreadNode_binary op (left.kid s) (right.kid s) type _ m _ _).trans ?_
    by_cases logical : op.1.role = .logical
    · -- truth values are no bare numbers, and both operands are left as they are
      have operands : op.1.operands = .truthValues := by
        rcases operator_cases op with ⟨role, _⟩ | ⟨role, _⟩ | ⟨_, o⟩ | ⟨role, _⟩
        · simp [role] at logical
        · simp [role] at logical
        · exact o
        · simp [role] at logical
      rw [operands] at shared
      have bool := List.mem_singleton.mp shared.1
      have stays {x : Term} (operand : Operand s op (both s op left right) x) :
          takes op x = false := by
        have own : x.ownType s = some "bool" := by
          rcases operand.shares with ⟨own, -⟩ | ⟨-, numeric⟩
          · rw [own, bool]
          · rw [bool] at numeric
            exact absurd numeric (by decide)
        rw [takes, operand.clean.not_bare proper operand.spelled own (by decide), Bool.false_and]
      rw [if_pos logical, settleWays, if_pos logical, stays operandL, stays operandR]
      rfl
    · rw [if_neg logical, settleWays, if_neg logical]
      refine (spreadOperands_outcome shared.2 (operandL.infer proper rfl) (operandR.infer proper rfl)
        op.1.text m).trans ?_
      rw [operandL.settle proper landsL operandL.shares rfl,
        operandR.settle proper landsR operandR.shares rfl]
      rfl
  | unary op operand =>
    unfold spreadNode
    rw [label, UnaryOp.ofLabel_text]
    have lands := each operand (by simp [Term.children])
    cases op with
    | not =>
      obtain ⟨cleanO, bool⟩ := clean.not
      have settles := lands.inferred (.inl ⟨bool, by decide⟩)
      have spelledO : operand.Spelled := spelled
      rw [cleanO.not_bare proper spelledO bool (by decide)] at settles
      change Tree.node _ m [(operand.kid s).settle (some "bool") (operand.outcome s .inferred)] = _
      rw [settles]
      rfl
    | invert =>
      obtain ⟨-, own, is, -⟩ := clean.invert
      obtain ⟨rfl, shares⟩ := fits own (by rw [ownType_invert, is])
      have settles := lands.inferred (is ▸ shares)
      change Tree.node _ m [(operand.kid s).settle (some t) (operand.outcome s .inferred)] = _
      rw [settles]
      rfl

/-- What is settled already is not settled again in another type. -/
theorem spread_settled {t w : TypeName} (properT : t.Proper) (properW : w.Proper) :
    spreadNode s (kids s e.children) e.label (some w) (e.outcome s (.settled t)) =
      e.outcome s (.settled t) := by
  rw [outcome_eq]
  generalize e.markOf s (.settled t) = m
  change spreadNode s (kids s e.children) e.label (some w)
      (.node e.label m (List.zipWith (outcome s) e.children (e.settleWays s t))) =
    .node e.label m (List.zipWith (outcome s) e.children (e.settleWays s t))
  cases e with
  | literal | load => rfl
  | call function args =>
    refine spreadNode_call spelled.1 (fun _ type => .settled type)
      ((clean.args proper spelled).imp fun x p ⟨type, is, argument⟩ => ?_) (some w) m
    exact ⟨type, is, argument.proper,
      (each x argument.inside).settled argument.proper argument.proper⟩
  | index base position =>
    obtain ⟨name, rfl⟩ := clean.base_load proper spelled
    have landsP := (each position (by simp [Term.children])).settled TypeName.proper_int
      TypeName.proper_int
    unfold spreadNode
    rw [label, Role.ofLabel_index]
    change Tree.node _ m
      [_, (position.kid s).settle (some "int") (position.outcome s (.settled "int"))] = _
    rw [landsP]
    rfl
  | binary op left right =>
    have landsL := each left (by simp [Term.children])
    have landsR := each right (by simp [Term.children])
    have shared := (clean.both_shared proper spelled.1 spelled.2).2
    by_cases logical : op.1.role = .logical
    · rw [settleWays, if_pos logical]
      exact (spreadNode_binary op (left.kid s) (right.kid s) (some w) _ m _ _).trans (if_pos logical)
    · rw [settleWays, if_neg logical]
      refine (spreadNode_binary op (left.kid s) (right.kid s) (some w) _ m _ _).trans ?_
      rw [if_neg logical]
      refine (spreadOperands_outcome shared ?_ ?_ op.1.text m).trans ?_
      · rw [infer_outcome rfl]
        exact ⟨rfl, rfl⟩
      · rw [infer_outcome rfl]
        exact ⟨rfl, rfl⟩
      · rw [landsL.settled shared shared, landsR.settled shared shared]
        rfl
  | unary op operand =>
    unfold spreadNode
    rw [label, UnaryOp.ofLabel_text]
    have lands := each operand (by simp [Term.children])
    cases op with
    | not =>
      have settles := lands.settled TypeName.proper_bool TypeName.proper_bool
      change Tree.node _ m
        [(operand.kid s).settle (some "bool") (operand.outcome s (.settled "bool"))] = _
      rw [settles]
      rfl
    | invert =>
      have below : TypeName.Proper (if operand.isBare && operand.isWorked then "int" else t) := by
        split
        · exact TypeName.proper_int
        · exact properT
      have settles := lands.settled below properW
      change Tree.node _ m [(operand.kid s).settle (some w) (operand.outcome s (.settled _))] = _
      rw [settles]
      rfl

end

theorem isNumeric_of_mem_numbers {type : TypeName} (numeric : type ∈ TypeName.numbers) :
    type.isNumeric = true := by
  have each : ∀ t ∈ TypeName.numbers, t.isNumeric = true := by decide
  exact each type numeric

theorem settledAs_of_shares {own : Option TypeName} {type : TypeName} (proper : type.Proper)
    (shares : Shares own type) : settledAs (some type) own = some type := by
  rcases shares with ⟨own, -⟩ | ⟨own, numbers⟩
  · rw [own]
    exact settledAs_of_proper _ proper
  · simp [own, settledAs, isNumeric_of_mem_numbers numbers, TypeName.isUntyped_untyped]

theorem isNumeric_binary (op : Operator) (left right : Term) :
    (binary op left right).isNumeric = (op.1.role == .arithmetic || op.1.role == .bitwise) := by
  rw [isNumeric, label, BinaryOp.ofLabel_text]

theorem not_logical {op : Operator} {left right : Term} (numeric : (binary op left right).isNumeric) :
    op.1.role ≠ .logical := by
  intro logical
  simp [isNumeric_binary, logical] at numeric

/-- The type that the operands of a numeric operation share is that of the operation, whichever is
asked of it. -/
theorem Clean.both_of_shares (proper : s.Proper) {op : Operator} {left right : Term}
    (spelled : (Term.binary op left right).Spelled) (clean : (Term.binary op left right).Clean s)
    (numeric : (Term.binary op left right).isNumeric) {type : TypeName}
    (shares : Shares ((Term.binary op left right).ownType s) type) :
    both s op left right = (if (Term.binary op left right).isBare then "int" else type) ∧
      both s op left right ∈ TypeName.numbers ∧ type ∈ TypeName.numbers := by
  have operated := clean.operated proper spelled.1 spelled.2
  have bare := clean.isBare_iff proper spelled
  have shared := (clean.both_shared proper spelled.1 spelled.2).1
  rw [isNumeric_binary, Bool.or_eq_true, beq_iff_eq, beq_iff_eq] at numeric
  have numbers : both s op left right ∈ TypeName.numbers := by
    rcases operator_cases op with ⟨_, o⟩ | ⟨_, o⟩ | ⟨role, _⟩ | ⟨role, _⟩
    · rwa [o] at shared
    · rwa [o] at shared
    · simp [role] at numeric
    · simp [role] at numeric
  cases h : (Term.binary op left right).isBare with
  | true =>
    have own := bare.mpr h
    have wanted : type ∈ TypeName.numbers := by
      rcases shares with ⟨same, typed⟩ | ⟨-, wanted⟩
      · rw [own] at same
        exact absurd (Option.some.inj same).symm typed
      · exact wanted
    simp only [isBare, Bool.and_eq_true, beq_iff_eq] at h
    have ownL := (clean.binary.1.isBare_iff proper spelled.1).mpr h.1.2
    have ownR := (clean.binary.2.isBare_iff proper spelled.2).mpr h.2
    have int : common .numbers (some TypeName.untyped) (some TypeName.untyped) = some "int" := by
      decide +kernel
    have again := operated.shared
    rw [ownL, ownR, operands_of_arithmetic h.1.1, int] at again
    exact ⟨(Option.some.inj again).symm, numbers, wanted⟩
  | false =>
    have own : (Term.binary op left right).ownType s = some (both s op left right) := by
      rcases numeric with role | role
      · have type := operated.arithmetic role
        split at type
        · rw [bare.mp type] at h
          cases h
        · exact type
      · exact operated.bitwise role
    rcases shares with ⟨same, -⟩ | ⟨untyped, -⟩
    · rw [own] at same
      obtain rfl := Option.some.inj same
      exact ⟨rfl, numbers, numbers⟩
    · rw [bare.mp untyped] at h
      cases h

theorem outcome_operands {op : Operator} {left right : Term} (other : op.1.role ≠ .logical)
    (type : TypeName) : (binary op left right).outcome s (.settled type) =
      .node op.1.text ⟨some type, true⟩ [left.outcome s (.settled (both s op left right)),
        right.outcome s (.settled (both s op left right))] := by
  rw [outcome_eq]
  simp only [ways, settleWays, if_neg other]
  rfl

theorem pushed_other {e : Term} (other : e.isNumeric = false) (wanted : Option TypeName)
    (t : Marked) : e.pushed s wanted t = t := by
  rw [pushed, other, Bool.and_false, Bool.false_and, if_neg (by decide)]

theorem pushed_pair {op : Operator} {left right : Term} (numeric : (binary op left right).isNumeric)
    {wanted : TypeName} (wants : wanted ∈ TypeName.numbers) (l : String) (m : Mark) (a b : Marked) :
    (binary op left right).pushed s (some wanted) (.node l m [a, b]) =
      .node l m [(left.kid s).settle (some wanted) a, (right.kid s).settle (some wanted) b] := by
  rw [pushed, Option.any_some, isNumeric_of_mem_numbers wants, numeric]
  rfl

/-- Settling a node, once it is known what the first steps give. -/
theorem settle_outcome {e : Term} {w : Way} {wanted : TypeName} (properW : wanted.Proper)
    {t : Marked} {answer : Option TypeName}
    (push : e.pushed s (some wanted) (e.outcome s w) = t)
    (infer : ((e.kid s).infer t).type = answer ∧ ((e.kid s).infer t).node = t) {type : TypeName}
    (settles : settledAs (some wanted) answer = some type) (properT : type.Proper) :
    (e.kid s).settle (some wanted) (e.outcome s w) =
      spreadNode s (kids s e.children) e.label (some type) (t.setNote ⟨some type, true⟩) := by
  have normal : (some wanted).map TypeName.normalize = some wanted := by
    rw [Option.map_some, properW.normalize_eq]
  rw [settle_eq rfl rfl, normal, push, infer.1, infer.2, settles, Marked.settleAs,
    properT.normalize_eq]

/-- A numeric operation on operands that are settled in one type has that type. -/
theorem infer_pushed {op : Operator} (left right : Term)
    (numeric : (binary op left right).isNumeric) {type : TypeName}
    (numbers : type ∈ TypeName.numbers) {a b : Way}
    (markL : left.markOf s a = ⟨some type, true⟩) (markR : right.markOf s b = ⟨some type, true⟩) :
    (((binary op left right).kid s).infer (.node op.1.text unknownMark
      [left.outcome s a, right.outcome s b])).type = some type ∧
    (((binary op left right).kid s).infer (.node op.1.text unknownMark
      [left.outcome s a, right.outcome s b])).node =
        .node op.1.text unknownMark [left.outcome s a, right.outcome s b] := by
  have made : op.1.resultType (some type) (some type) = some type := by
    have each : ∀ t ∈ TypeName.numbers, numericType (some t) (some t) = some t := by decide +kernel
    rw [isNumeric_binary, Bool.or_eq_true, beq_iff_eq, beq_iff_eq] at numeric
    unfold BinaryOp.resultType
    rcases numeric with role | role
    · rw [role]
      exact each type numbers
    · rw [role]
      exact each type numbers
  have known : some type ∈ answers := mem_answers_of_known fun t is =>
    Option.mem_some_iff.mp is ▸ (proper_of_mem_numbers numbers).known
  have held : Held op.1.operands (some type) (some type) := fun _ =>
    have typed := (proper_of_mem_numbers numbers).ne_untyped
    ⟨fun h => typed (Option.some.inj h), fun h => typed (Option.some.inj h)⟩
  have answerL : ((left.kid s).infer (left.outcome s a)).type = some type ∧
      ((left.kid s).infer (left.outcome s a)).node = left.outcome s a := by
    rw [infer_outcome markL]
    exact ⟨rfl, rfl⟩
  have answerR : ((right.kid s).infer (right.outcome s b)).type = some type ∧
      ((right.kid s).infer (right.outcome s b)).node = right.outcome s b := by
    rw [infer_outcome markR]
    exact ⟨rfl, rfl⟩
  have run := inferRole_operator (s := s) op answerL answerR known held op.1.text unknownMark
  have open_ : (Tree.node op.1.text unknownMark [left.outcome s a, right.outcome s b]).note.settled
      = false := rfl
  rw [kid_eq]
  simp only [Checker.node]
  rw [inferNode_open _ _ _ open_, ← made]
  exact run

/-- Operands that were inferred are settled in the type they share before the operation is. -/
theorem push_hints (proper : s.Proper) {op : Operator} {left right : Term}
    (spelled : (binary op left right).Spelled) (clean : (binary op left right).Clean s)
    (landsL : left.Lands s) (landsR : right.Lands s) (numeric : (binary op left right).isNumeric)
    {type : TypeName} (shares : Shares ((binary op left right).ownType s) type) {w : Way}
    (light : (binary op left right).ways s w = (binary op left right).hintWays s) :
    (binary op left right).pushed s (some type) ((binary op left right).outcome s w) =
      .node op.1.text ((binary op left right).markOf s w)
        [left.outcome s (.settled (both s op left right)),
          right.outcome s (.settled (both s op left right))] := by
  have ⟨operandL, operandR⟩ : Operand s op (both s op left right) left ∧
      Operand s op (both s op left right) right := by
    simpa using clean.operands proper spelled.1 spelled.2
  obtain ⟨same, -, wants⟩ := clean.both_of_shares proper spelled numeric shares
  have share {x : Term} (operand : Operand s op (both s op left right) x)
      (bare : (binary op left right).isBare = true → x.isBare = true) :
      Shares (x.ownType s) type := by
    cases h : (binary op left right).isBare with
    | true => exact .inr ⟨(operand.clean.isBare_iff proper operand.spelled).mpr (bare h), wants⟩
    | false =>
      rw [h, if_neg (by decide)] at same
      exact same ▸ operand.shares
  have sharesL := share operandL fun h => by
    simp only [isBare, Bool.and_eq_true] at h
    exact h.1.2
  have sharesR := share operandR fun h => by
    simp only [isBare, Bool.and_eq_true] at h
    exact h.2
  rw [outcome_eq, light]
  refine (pushed_pair numeric wants op.1.text _ _ _).trans ?_
  rw [operandL.settle proper landsL sharesL rfl, operandR.settle proper landsR sharesR rfl]

section
variable (proper : s.Proper) {e : Term} (spelled : e.Spelled) (clean : e.Clean s)
  (each : ∀ x ∈ e.children, x.Lands s)
include proper spelled clean each

theorem lands_inferred {type : TypeName} (shares : Shares (e.ownType s) type) :
    (e.kid s).settle (some type) (e.outcome s .inferred) =
      e.outcome s (.settled (if e.isBare && e.isWorked then "int" else type)) := by
  have properT := proper_of_shares (clean.known proper spelled) shares
  cases numeric : e.isNumeric with
  | true =>
    obtain ⟨op, left, right, rfl, -⟩ := binary_of_isNumeric spelled numeric
    obtain ⟨same, numbers, -⟩ := clean.both_of_shares proper spelled numeric shares
    have shared := proper_of_mem_numbers numbers
    have push := push_hints (w := .inferred) proper spelled clean
      (each left (by simp [Term.children])) (each right (by simp [Term.children])) numeric shares rfl
    have worked : (binary op left right).isWorked = true := rfl
    rw [worked, Bool.and_true, ← same, settle_outcome properT push
      (infer_pushed left right numeric numbers rfl rfl) (settledAs_of_proper _ shared) shared, Tree.setNote,
      ← outcome_operands (not_logical numeric)]
    exact spread_settled proper spelled clean each shared shared
  | false =>
    have answer := clean.infer_inferred proper spelled
    have settles : settledAs (some type) (e.answer s) =
        some (if e.isBare && e.isWorked then "int" else type) := by
      rw [clean.answer_eq proper spelled]
      split
      · exact settledAs_of_proper _ TypeName.proper_int
      · exact settledAs_of_shares properT shares
    have landed : TypeName.Proper (if e.isBare && e.isWorked then "int" else type) := by
      split
      · exact TypeName.proper_int
      · exact properT
    rw [settle_outcome properT (pushed_other numeric _ _) answer settles landed, outcome_eq,
      outcome_eq]
    refine spread_hints proper spelled clean each (fun own is => ⟨rfl, ?_⟩) _
    rw [← is]
    split
    · rename_i worked
      rw [Bool.and_eq_true] at worked
      exact .inr ⟨(clean.isBare_iff proper spelled).mpr worked.1, by decide⟩
    · exact shares

theorem lands_marked (bare : e.isBare) {type wanted : TypeName} (numbers : type ∈ TypeName.numbers)
    (wants : wanted ∈ TypeName.numbers) :
    (e.kid s).settle (some wanted) (e.outcome s (.marked type)) = e.outcome s (.settled type) := by
  have properT := proper_of_mem_numbers numbers
  have properW := proper_of_mem_numbers wants
  have own := (clean.isBare_iff proper spelled).mpr bare
  cases numeric : e.isNumeric with
  | true =>
    obtain ⟨op, left, right, rfl, -⟩ := binary_of_isNumeric spelled numeric
    have push := push_hints (w := .marked type) proper spelled clean
      (each left (by simp [Term.children])) (each right (by simp [Term.children])) numeric
      (.inr ⟨own, wants⟩) rfl
    have landed : (binary op left right).outcome s (.settled type) = _ :=
      outcome_operands (not_logical numeric) type
    rw [show (binary op left right).markOf s (.marked type) = ⟨some type, true⟩ from rfl, ← landed]
      at push
    rw [settle_outcome properW push (by rw [infer_outcome rfl]; exact ⟨rfl, rfl⟩)
      (settledAs_of_proper _ properT) properT, setNote_settled]
    exact spread_settled proper spelled clean each properT properT
  | false =>
    have answer := infer_outcome (s := s) (e := e) (w := .marked type) rfl
    rw [settle_outcome properW (pushed_other numeric _ _) (by rw [answer]; exact ⟨rfl, rfl⟩)
      (settledAs_of_proper _ properT) properT, outcome_eq, outcome_eq]
    refine spread_hints proper spelled clean each (fun t is => ⟨rfl, .inr ⟨?_, numbers⟩⟩) _
    rw [← is, own]

theorem lands_settled {type wanted : TypeName} (properT : type.Proper) (properW : wanted.Proper) :
    (e.kid s).settle (some wanted) (e.outcome s (.settled type)) = e.outcome s (.settled type) := by
  have push : e.pushed s (some wanted) (e.outcome s (.settled type)) = e.outcome s (.settled type) := by
    by_cases both : wanted.isNumeric = true ∧ e.isNumeric = true
    · obtain ⟨op, left, right, rfl, -⟩ := binary_of_isNumeric spelled both.2
      have shared := (clean.both_shared proper spelled.1 spelled.2).2
      rw [outcome_operands (not_logical both.2), pushed_pair both.2 (mem_numbers properW both.1),
        (each left (by simp [Term.children])).settled shared properW,
        (each right (by simp [Term.children])).settled shared properW]
    · have other : (wanted.isNumeric && e.isNumeric) = false := by simpa using both
      rw [pushed, Option.any_some, other, Bool.false_and, if_neg (by decide)]
  rw [settle_outcome properW push (by rw [infer_outcome rfl]; exact ⟨rfl, rfl⟩)
    (settledAs_of_proper _ properT) properT, setNote_settled]
  exact spread_settled proper spelled clean each properT properT

end

/-- Where settling a term without errors leads to. -/
theorem Clean.lands (proper : s.Proper) {e : Term} (spelled : e.Spelled) (clean : e.Clean s) :
    e.Lands s := by
  induction e using children_induction with
  | step e ih =>
    have each := fun x inside => ih x inside (spelled.children x inside)
      (clean.children proper spelled x inside)
    exact ⟨lands_inferred proper spelled clean each, lands_marked proper spelled clean each,
      lands_settled proper spelled clean each⟩

end Term

end MethodLang
