import MethodLang.Proofs.Operation.Lowering
import MethodLang.Proofs.Typing.Conformance

/-!
Soundness of inference. The rules of `Term.HasType` say which types a term has; they know no marks
and no order in which nodes are visited, and a number has every numeric type. A term that is
inferred without an error has the type that was inferred for it (`Term.Clean.rated`).
-/
namespace MethodLang

open Checker

/-- The numeric types that a source can declare. -/
def TypeName.numbers : List TypeName := ["byte", "int", "uint", "long", "ulong"]

/-- The types that the two operands of an operator can share. -/
def Operands.shared : Operands → List TypeName
  | .numbers | .integers => TypeName.numbers
  | .truthValues => ["bool"]
  | .comparable => "bool" :: TypeName.numbers

/-- An operand of the given type can be used as one of another: it has that type, or is a bare
number and the other is numeric. -/
def Shares (own : Option TypeName) (both : TypeName) : Prop :=
  own = some both ∧ both ≠ TypeName.untyped ∨
    own = some TypeName.untyped ∧ both ∈ TypeName.numbers

instance (own : Option TypeName) (both : TypeName) : Decidable (Shares own both) :=
  inferInstanceAs (Decidable (_ ∨ _))

namespace Term

mutual
/-- The typing rules. -/
inductive HasType (s : Scope) : Term → TypeName → Prop where
  | number {kind : LiteralKind} {text : String} {type : TypeName} (number : kind.isNumber)
      (numeric : type ∈ TypeName.numbers) : HasType s (.literal kind text) type
  | bool {text : String} : HasType s (.literal .bool text) "bool"
  | char {text : String} : HasType s (.literal .char text) "byte"
  | string {text : String} : HasType s (.literal .str text) "array[] of byte"
  | load {name : String} {type : TypeName} (declared : s.variableType name = some type) :
      HasType s (.load name) type
  | call {function : String} {es : List Term} {type : TypeName} (known : s.results.has function)
      (args : ArgsHaveTypes s es (s.parameters function))
      (result : s.resultType function = some type) : HasType s (.call function es) type
  | index {b p : Term} {array type : TypeName} (base : HasType s b array) (isArray : array.isArray)
      (element : array.element? = some type) (position : HasType s p "int") :
      HasType s (.index b p) type
  /-- Arithmetic and operations on bits. -/
  | numeric {op : Operator} {l r : Term} {type : TypeName}
      (role : op.1.role = .arithmetic ∨ op.1.role = .bitwise) (numeric : type ∈ TypeName.numbers)
      (left : HasType s l type) (right : HasType s r type) : HasType s (.binary op l r) type
  | comparison {op : Operator} {l r : Term} {type : TypeName} (role : op.1.role = .comparison)
      (comparable : type ∈ "bool" :: TypeName.numbers) (left : HasType s l type)
      (right : HasType s r type) : HasType s (.binary op l r) "bool"
  | logical {op : Operator} {l r : Term} (role : op.1.role = .logical)
      (left : HasType s l "bool") (right : HasType s r "bool") : HasType s (.binary op l r) "bool"
  | not {e : Term} (operand : HasType s e "bool") : HasType s (.unary .not e) "bool"
  | invert {e : Term} {type : TypeName} (numeric : type ∈ TypeName.numbers)
      (operand : HasType s e type) : HasType s (.unary .invert e) type

/-- The arguments have the types of the parameters, one by one. -/
inductive ArgsHaveTypes (s : Scope) : List Term → TypeTable → Prop where
  | nil : ArgsHaveTypes s [] []
  | cons {e : Term} {es : List Term} {name : String} {type : TypeName} {ps : TypeTable}
      (first : HasType s e type) (rest : ArgsHaveTypes s es ps) :
      ArgsHaveTypes s (e :: es) ((name, some type) :: ps)
end

/-- A call of a known function without a result, its arguments as declared. -/
def IsProcedureCall (s : Scope) (e : Term) : Prop :=
  ∃ function args, e = .call function args ∧ s.results.has function ∧
    s.resultType function = none ∧ ArgsHaveTypes s args (s.parameters function)

/-- What a term has to be if the given type was inferred for it. -/
def Rated (s : Scope) (e : Term) : Option TypeName → Prop
  | some type =>
    if type = TypeName.untyped then ∀ u ∈ TypeName.numbers, e.HasType s u else e.HasType s type
  | none => e.IsProcedureCall s

variable {s : Scope}

theorem Rated.numeric {e : Term} (rated : e.Rated s (some TypeName.untyped)) {type : TypeName}
    (numeric : type ∈ TypeName.numbers) : e.HasType s type :=
  rated type numeric

theorem Rated.hasType {e : Term} {type : TypeName} (rated : e.Rated s (some type))
    (typed : type ≠ TypeName.untyped) : e.HasType s type := by
  rwa [Rated, if_neg typed] at rated

theorem rated_of_hasType {e : Term} {type : TypeName} (typed : type ≠ TypeName.untyped)
    (has : e.HasType s type) : e.Rated s (some type) := by
  rwa [Rated, if_neg typed]

/-- What a node turns into when it is asked again is no better than what it was. -/
theorem Rated.turns {e : Term} {own now : Option TypeName} (rated : e.Rated s own)
    (turns : Turns own now) : e.Rated s now := by
  rcases turns with rfl | ⟨rfl, rfl⟩
  · exact rated
  · exact rated_of_hasType (by decide) (rated.numeric (by decide))

theorem mem_answers_of_turns {own now : Option TypeName} (known : own ∈ answers)
    (turns : Turns own now) : now ∈ answers := by
  rcases turns with rfl | ⟨_, rfl⟩
  · exact known
  · decide

theorem mem_numbers {type : TypeName} (proper : type.Proper) (numeric : type.isNumeric) :
    type ∈ TypeName.numbers := by
  have each : ∀ t ∈ TypeName.declarable, t.isNumeric → t ∈ TypeName.numbers := by decide
  exact each type proper numeric

theorem Rated.suits {e : Term} {own : Option TypeName} (rated : e.Rated s own) {type : TypeName}
    (proper : type.Proper) (suits : Suits own (some type)) : e.HasType s type := by
  rcases suits with same | ⟨rfl, numeric⟩
  · rw [Option.map_some, proper.normalize_eq] at same
    subst same
    exact rated.hasType proper.ne_untyped
  · rw [Option.map_some, proper.normalize_eq, Option.any_some] at numeric
    exact rated.numeric (mem_numbers proper numeric)

/-! ### Operands -/

theorem shares_common {o : Operands} {l r : Option TypeName} (left : l ∈ answers)
    (right : r ∈ answers) {both : TypeName} (h : common o l r = some both) :
    both ∈ o.shared ∧ Shares l both ∧ Shares r both := by
  have each : ∀ o ∈ Operands.all, ∀ l ∈ answers, ∀ r ∈ answers, ∀ both ∈ common o l r,
      both ∈ o.shared ∧ Shares l both ∧ Shares r both := by decide +kernel
  exact each o o.mem_all l left r right both h

theorem Rated.shares {e : Term} {own : Option TypeName} (rated : e.Rated s own) {both : TypeName}
    (shares : Shares own both) : e.HasType s both := by
  rcases shares with ⟨rfl, typed⟩ | ⟨rfl, numeric⟩
  · exact rated.hasType typed
  · exact rated.numeric numeric

/-- Operands with a common type make an operation of that type. -/
theorem firstOf_common {o : Operands} {l r : Option TypeName} {both : TypeName}
    (h : common o l r = some both) :
    (if allowed o l && allowed o r then (TypeName.unify l r).or l else none) = some both := by
  unfold common at h
  split at h
  · rw [if_pos ‹_›, h]
    rfl
  · cases h

/-! ### Terms without errors -/

theorem Clean.counted (proper : s.Proper) {e : Term} (spelled : e.Spelled) (clean : e.Clean s) :
    e.Counted s := by
  induction e using children_induction with
  | step e ih =>
    refine counted_of_children (fun x inside => ?_) fun function args is => ?_
    · exact ih x inside (spelled.children x inside) (clean.children proper spelled x inside)
    · subst is
      obtain ⟨_, known, suits⟩ := clean.call proper spelled.1
      exact ⟨known, suits.length_eq⟩

theorem Clean.literal {kind : LiteralKind} {text : String} (clean : (literal kind text).Clean s) :
    (literal kind text).ownType s = some (TypeName.ofLiteral kind.name) := by
  rw [Clean, infer_fresh_eq] at clean
  rw [ownType, infer_fresh_eq]
  simp only [inferRole, Role.ofLabel_literal, inferConst] at clean ⊢
  cases read : Label.literal? (Term.literal kind text).label with
  | none => simp [read] at clean
  | some read' => rw [← Label.literal?_kind read]

theorem ownType_call {function : String} {args : List Term} (named : IsName function) :
    (call function args).ownType s = s.resultType function := by
  rw [ownType, infer_fresh_eq, label]
  simp only [inferRole, Role.ofLabel_call named, inferCall]

theorem ownType_binary (op : Operator) (left right : Term) :
    (binary op left right).ownType s = (inferRole s [left.kid s, right.kid s] op.1.text
      (.node op.1.text unknownMark [left.fresh, right.fresh])).type := by
  rw [ownType, infer_fresh_eq]
  rfl

theorem clean_binary {op : Operator} {left right : Term} :
    (binary op left right).Clean s ↔ (inferRole s [left.kid s, right.kid s] op.1.text
      (.node op.1.text unknownMark [left.fresh, right.fresh])).errors = [] := by
  rw [Clean, infer_fresh_eq]
  rfl

section
variable {op : Operator} {left right : Term} (known : left.ownType s ∈ answers)
  (clean : (Term.binary op left right).Clean s)
include known clean

theorem Clean.bitwise (role : op.1.role = .bitwise) :
    ∃ both, common .integers (left.ownType s) (right.ownType s) = some both ∧
      (Term.binary op left right).ownType s = some (TypeName.resolve both) := by
  have type := ownType_binary (s := s) op left right
  have errorless := clean_binary.mp clean
  simp only [inferRole, BinaryOp.ofLabel_text, role, inferBitwise] at type errorless
  obtain ⟨-, types, parts⟩ := checkBinary_pair (left.kid s) (right.kid s) op.1.text unknownMark
    left.fresh right.fresh op.1.text .integers rfl rfl rfl
  obtain ⟨both, shared⟩ := Option.isSome_iff_exists.mp (parts errorless).2.2
  rw [types known, firstOf_common shared] at type
  exact ⟨both, shared, type⟩

omit known in
/-- Logical operators and comparisons give a truth value. -/
theorem Clean.truth {o : Operands} (role : op.1.role = .logical ∧ o = .truthValues ∨
    op.1.role = .comparison ∧ o = .comparable) :
    (common o (left.ownType s) (right.ownType s)).isSome ∧
      (Term.binary op left right).ownType s = some "bool" := by
  have type := ownType_binary (s := s) op left right
  have errorless := clean_binary.mp clean
  obtain ⟨-, -, parts⟩ := checkBinary_pair (left.kid s) (right.kid s) op.1.text unknownMark
    left.fresh right.fresh op.1.text o rfl rfl rfl
  rcases role with ⟨role, rfl⟩ | ⟨role, rfl⟩
  all_goals
    simp only [inferRole, BinaryOp.ofLabel_text, role, inferTruth] at type errorless
    exact ⟨(parts errorless).2.2, type⟩

end

/-- Arithmetic looks at its operands twice: what counts is what they turned into. The result is a
bare number only if both were. -/
theorem Clean.arithmetic (proper : s.Proper) {op : Operator} {left right : Term}
    (startsL : left.Starts s) (startsR : right.Starts s) (settlesL : left.Settles s)
    (settlesR : right.Settles s) (clean : (Term.binary op left right).Clean s)
    (role : op.1.role = .arithmetic) :
    ∃ l r both, Turns (left.ownType s) l ∧ Turns (right.ownType s) r ∧
      common .numbers l r = some both ∧
      ((Term.binary op left right).ownType s = some (TypeName.resolve both) ∨
        (Term.binary op left right).ownType s = some TypeName.untyped ∧
          left.ownType s = some TypeName.untyped ∧ right.ownType s = some TypeName.untyped) := by
  obtain ⟨l, soundL, turnsL, _⟩ := startsL
  obtain ⟨r, soundR, turnsR, _⟩ := startsR
  obtain ⟨answerL, nodeL⟩ := settlesL _ l soundL
  obtain ⟨answerR, nodeR⟩ := settlesR _ r soundR
  have type := ownType_binary (s := s) op left right
  have errorless := clean_binary.mp clean
  simp only [inferRole, BinaryOp.ofLabel_text, role] at type errorless
  obtain ⟨-, result, cleans⟩ := inferArithmetic_pair (left.kid s) (right.kid s) op.1.text unknownMark
    left.fresh right.fresh op.1.text rfl rfl
  obtain ⟨-, types, parts⟩ := checkBinary_pair (left.kid s) (right.kid s) op.1.text unknownMark
    ((left.kid s).infer left.fresh).node ((right.kid s).infer right.fresh).node op.1.text .numbers
    rfl rfl rfl
  rw [answerL, answerR] at types parts
  obtain ⟨both, shared⟩ := Option.isSome_iff_exists.mp (parts (cleans errorless).2.2).2.2
  refine ⟨l, r, both, turnsL, turnsR, shared, ?_⟩
  rw [types (soundL.mem_answers proper), firstOf_common shared, ← type] at result
  exact result.imp id (And.imp_left And.left)

theorem ownType_not (operand : Term) : (unary .not operand).ownType s = some "bool" := by
  rw [ownType, infer_fresh_eq, label]
  simp only [inferRole, UnaryOp.ofLabel_text, UnaryOp.role]
  rfl

theorem ownType_invert (operand : Term) :
    (unary .invert operand).ownType s = operand.ownType s := by
  rw [ownType, infer_fresh_eq, label]
  simp only [inferRole, UnaryOp.ofLabel_text, UnaryOp.role]
  rfl

theorem ownType_load {name : String} (spelled : (load name).Spelled) :
    (load name).ownType s = s.variableType name := by
  rw [ownType, infer_fresh_eq, label]
  simp only [inferRole, Role.ofLabel_load spelled, inferLoad]
  cases s.variableType name <;> rfl

/-! ### Soundness -/

theorem argsHaveTypes {es : List Term} {ps : TypeTable}
    (typed : ∀ p ∈ ps, ∃ type, p.2 = some type ∧ type.Proper)
    (rated : ∀ e ∈ es, e.Rated s (e.ownType s))
    (suits : List.Forall₂ (fun e p => Suits (e.ownType s) p.2) es ps) : ArgsHaveTypes s es ps := by
  induction suits with
  | nil => exact .nil
  | @cons e p es ps first _ ih =>
    obtain ⟨name, wanted⟩ := p
    have ⟨⟨type, is, proper⟩, typedRest⟩ := List.forall_mem_cons.mp typed
    have ⟨ratedFirst, ratedRest⟩ := List.forall_mem_cons.mp rated
    simp only at is first
    subst is
    exact .cons (ratedFirst.suits proper first) (ih typedRest ratedRest)

theorem rated_literal (kind : LiteralKind) (text : String) :
    (literal kind text).Rated s (some (TypeName.ofLiteral kind.name)) := by
  cases kind with
  | bool => exact rated_of_hasType (by decide) .bool
  | char => exact rated_of_hasType (by decide) .char
  | str => exact rated_of_hasType (by decide) .string
  | hex | bits | dec => exact fun u numeric => .number rfl numeric

theorem rated_binary (proper : s.Proper) {op : Operator} {left right : Term}
    (startsL : left.Starts s) (startsR : right.Starts s) (settlesL : left.Settles s)
    (settlesR : right.Settles s) (clean : (binary op left right).Clean s)
    (ratedL : left.Rated s (left.ownType s)) (ratedR : right.Rated s (right.ownType s)) :
    (binary op left right).Rated s ((binary op left right).ownType s) := by
  have knownL := startsL.ownType_mem proper
  have knownR := startsR.ownType_mem proper
  rcases operator_cases op with ⟨role, _⟩ | ⟨role, _⟩ | ⟨role, _⟩ | ⟨role, _⟩
  · obtain ⟨l, r, both, turnsL, turnsR, shared, type⟩ :=
      clean.arithmetic proper startsL startsR settlesL settlesR role
    rcases type with type | ⟨type, bareL, bareR⟩
    · have knownL := mem_answers_of_turns knownL turnsL
      have knownR := mem_answers_of_turns knownR turnsR
      obtain ⟨numeric, sharesL, sharesR⟩ := shares_common knownL knownR shared
      rw [type, (proper_common knownL knownR shared).resolve_eq]
      exact rated_of_hasType (proper_common knownL knownR shared).ne_untyped
        (.numeric (.inl role) numeric ((ratedL.turns turnsL).shares sharesL)
          ((ratedR.turns turnsR).shares sharesR))
    · rw [bareL] at ratedL
      rw [bareR] at ratedR
      rw [type]
      exact fun u numeric =>
        .numeric (.inl role) numeric (ratedL.numeric numeric) (ratedR.numeric numeric)
  · obtain ⟨both, shared, type⟩ := clean.bitwise knownL role
    obtain ⟨numeric, sharesL, sharesR⟩ := shares_common knownL knownR shared
    rw [type, (proper_common knownL knownR shared).resolve_eq]
    exact rated_of_hasType (proper_common knownL knownR shared).ne_untyped
      (.numeric (.inr role) numeric (ratedL.shares sharesL) (ratedR.shares sharesR))
  · obtain ⟨shared, type⟩ := clean.truth (.inl ⟨role, rfl⟩)
    obtain ⟨both, shared⟩ := Option.isSome_iff_exists.mp shared
    obtain ⟨truth, sharesL, sharesR⟩ := shares_common knownL knownR shared
    obtain rfl := List.mem_singleton.mp truth
    rw [type]
    exact rated_of_hasType (by decide)
      (.logical role (ratedL.shares sharesL) (ratedR.shares sharesR))
  · obtain ⟨shared, type⟩ := clean.truth (.inr ⟨role, rfl⟩)
    obtain ⟨both, shared⟩ := Option.isSome_iff_exists.mp shared
    obtain ⟨comparable, sharesL, sharesR⟩ := shares_common knownL knownR shared
    rw [type]
    exact rated_of_hasType (by decide)
      (.comparison role comparable (ratedL.shares sharesL) (ratedR.shares sharesR))

/-- A term that is inferred without an error has the type inferred: a bare number has every
numeric type, and only the call of a function without a result has none. -/
theorem Clean.rated (proper : s.Proper) {e : Term} (spelled : e.Spelled) (clean : e.Clean s) :
    e.Rated s (e.ownType s) := by
  induction e using children_induction with
  | step e ih =>
    have cleans := clean.children proper spelled
    have spells := spelled.children
    have rated := fun x inside => ih x inside (spells x inside) (cleans x inside)
    have counted := fun x inside => (cleans x inside).counted proper (spells x inside)
    cases e with
    | literal kind text =>
      rw [clean.literal]
      exact rated_literal kind text
    | load name =>
      obtain ⟨type, own, typed⟩ := clean.place proper spelled rfl
      rw [own]
      exact rated_of_hasType typed.ne_untyped (.load (by rw [← ownType_load spelled, own]))
    | call function args =>
      obtain ⟨_, known, suits⟩ := clean.call proper spelled.1
      have args := argsHaveTypes (fun p => proper.parameters) rated suits
      rw [ownType_call spelled.1]
      cases result : s.resultType function with
      | none => exact ⟨function, _, rfl, known, result, args⟩
      | some type =>
        exact rated_of_hasType (proper.results result).ne_untyped (.call known args result)
    | index base position =>
      obtain ⟨cleanB, _, array, suits⟩ := clean.index
      obtain ⟨type, own, typed⟩ := cleanB.place proper spelled.2.1 spelled.1
      obtain ⟨element, read, properE⟩ := typed.element (array type own)
      have ratedB := rated base (by simp [Term.children])
      have ratedP := rated position (by simp [Term.children])
      rw [own] at ratedB
      have elementOf : elementType (some type) = some element := by
        simp [elementType, array type own, read, properE.normalize_eq]
      rw [ownType_index, own, elementOf]
      exact rated_of_hasType properE.ne_untyped (.index (ratedB.hasType typed.ne_untyped)
        (array type own) read (ratedP.suits TypeName.proper_int suits))
    | binary op left right =>
      have starts := fun x inside => infer_fresh proper (spells x inside) (counted x inside)
      have settles := fun x inside => infer_sound proper (spells x inside) (counted x inside)
      have inL : left ∈ (Term.binary op left right).children := by simp [Term.children]
      have inR : right ∈ (Term.binary op left right).children := by simp [Term.children]
      exact rated_binary proper (starts left inL) (starts right inR) (settles left inL)
        (settles right inR) clean (rated left inL) (rated right inR)
    | unary op operand =>
      have ratedO := rated operand (by simp [Term.children])
      cases op with
      | not =>
        rw [clean.not.2] at ratedO
        rw [ownType_not]
        exact rated_of_hasType (by decide) (.not (ratedO.hasType (by decide)))
      | invert =>
        obtain ⟨_, type, own, takes⟩ := clean.invert
        have known := (infer_fresh proper (spells operand (by simp [Term.children]))
          (counted operand (by simp [Term.children]))).ownType_mem proper
        rw [ownType_invert, own]
        rw [own] at ratedO known
        rcases known_of_mem_answers known with rfl | typed
        · exact fun u numeric => .invert numeric (ratedO.numeric numeric)
        · have numeric : type.isNumeric := by
            simpa [Operands.takes, typed.isUntyped_eq] using takes
          exact rated_of_hasType typed.ne_untyped
            (.invert (mem_numbers typed numeric) (ratedO.hasType typed.ne_untyped))

end Term

/-- If a written expression that assigns nothing is inferred without an error, nothing being known
of its nodes before, it has the type that was inferred by the typing rules. -/
theorem inferred_type_sound {e : Expr} (spelled : e.Spelled) {op : Operation}
    (lowered : e.operation = .ok op) (value : Operation.isStore op.label = false) {s : Scope}
    (proper : s.Proper) (clean : ((Marked.unmarked op).infer s).errors = []) :
    ∃ t : Term, e.term? = some t ∧ op = t.tree ∧
      (∀ type, ((Marked.unmarked op).infer s).type = some type → type ≠ TypeName.untyped →
        t.HasType s type) ∧
      (((Marked.unmarked op).infer s).type = some TypeName.untyped →
        ∀ type ∈ TypeName.numbers, t.HasType s type) ∧
      (((Marked.unmarked op).infer s).type = none → t.IsProcedureCall s) := by
  obtain ⟨c, read, rfl⟩ := Expr.operation_directive spelled lowered
  obtain ⟨t, rfl⟩ := Directive.value_of_label value
  have inferred : (Marked.unmarked (Directive.value t).tree).infer s = (t.kid s).infer t.fresh := by
    rw [Directive.tree_value, Marked.infer, ← t.fresh_checker]
    rfl
  rw [inferred] at clean ⊢
  have rated : t.Rated s (t.ownType s) :=
    Term.Clean.rated proper (Expr.directive_spelled spelled read) clean
  refine ⟨t, Expr.term_of_directive read, Directive.tree_value t, fun type own typed => ?_,
    fun own => ?_, fun own => ?_⟩
  · rw [Term.ownType, own] at rated
    exact rated.hasType typed
  · rw [Term.ownType, own] at rated
    exact fun type => rated.numeric
  · rwa [Term.ownType, own] at rated

/-- An element of an array is compared with the result of a call that is given a number. -/
theorem element_below_call_hasType :
    let s : Scope := ⟨[("a", some "array[] of long"), ("i", some "int")], [],
      [("f", [("x", some "ulong")])], [("f", some "long")]⟩
    let e : Expr := .binary (.indexer (.place "a") [.binary (.place "i") .add (.literal .dec "1")])
      .lt (.call (.place "f") [.binary (.literal .dec "2") .mul (.literal .dec "3")])
    e.Spelled ∧ s.Proper ∧ ∃ t, e.term? = some t ∧ t.HasType s "bool" := by
  intro s e
  have spelled : e.Spelled := by
    refine ⟨⟨rfl, ⟨rfl, '1', [], rfl, List.all_eq_true.mp (by decide)⟩, trivial⟩, rfl, ⟨?_, ?_⟩, trivial⟩
    · exact ⟨'2', [], rfl, List.all_eq_true.mp (by decide)⟩
    · exact ⟨'3', [], rfl, List.all_eq_true.mp (by decide)⟩
  have proper : s.Proper := by
    refine Scope.proper_of_tables ?_ ?_ ?_ ?_ <;> simp [s, TypeTable.Proper] <;> decide
  have lowered : e.operation = .ok (Operation.make "<"
      [.make "index" [.leaf "load(a[])", .make "+" [.leaf "load(i)", .leaf "const(dec(1))"]],
        .make "call(f)" [.make "*" [.leaf "const(dec(2))", .leaf "const(dec(3))"]]]) := rfl
  obtain ⟨t, read, _, has, _⟩ :=
    inferred_type_sound spelled lowered (by decide) proper (by decide +kernel)
  exact ⟨spelled, proper, t, read, has "bool" (by decide +kernel) (by decide)⟩

end MethodLang
