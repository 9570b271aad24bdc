import MethodLang.Proofs.Typing.Proper

/-!
Marked terms. The checker of a tree works on the marks of its nodes; here is what the marks of a
term can be while it does. A fresh term has none. Once it was inferred, a term is sound
(`Term.Sound`): inferring it again gives the same type and changes nothing, and every argument of
a call and every index bears either no type or the one its place asks for.
-/
namespace MethodLang

open Checker

/-! ### Types of operations on operands of given types -/

/-- The operands that an operator takes. -/
def BinaryOp.operands : BinaryOp → Operands
  | .or | .and => .truthValues
  | .eq | .ne | .gt | .ge | .le | .lt => .comparable
  | .bitOr | .bitXor | .bitAnd | .shl | .shr => .integers
  | _ => .numbers

/-- The type that both operands get, if the operator takes both and they go together. -/
def common (operands : Operands) (left right : Option TypeName) : Option TypeName :=
  if allowed operands left && allowed operands right then TypeName.unify left right else none

/-- The type of a numeric operation. -/
def numericType (left right : Option TypeName) : Option TypeName :=
  if allowed .numbers left && allowed .numbers right then
    ((TypeName.unify left right).or left).map TypeName.resolve
  else none

def BinaryOp.resultType (op : BinaryOp) (left right : Option TypeName) : Option TypeName :=
  match op.role with
  | .arithmetic | .bitwise => numericType left right
  | _ => some "bool"

def UnaryOp.resultType (op : UnaryOp) (operand : Option TypeName) : Option TypeName :=
  match op with
  | .not => some "bool"
  | .invert => operand

/-- The type of an element of a value of the given type. -/
def elementType (array : Option TypeName) : Option TypeName :=
  match array with
  | some type => if type.isArray then type.element?.map TypeName.normalize else none
  | none => none

/-- The type of a literal, unless its text cannot be told from its label. -/
def LiteralKind.typeOf (kind : LiteralKind) (text : String) : Option TypeName :=
  (Label.literal? (Term.literal kind text).label).map fun read => TypeName.ofLiteral read.1

/-- What inferring an operation can answer. -/
def answers : List (Option TypeName) :=
  none :: some TypeName.untyped :: TypeName.declarable.map some

/-- What an answer can grow into: a bare number may be given a numeric type. -/
def growths (answer : Option TypeName) : List (Option TypeName) :=
  if answer = some TypeName.untyped then
    [answer, some "byte", some "int", some "uint", some "long", some "ulong"]
  else [answer]

/-- The type of an operand that takes the common type if it is a bare number. -/
def taking (common answer : Option TypeName) : Option TypeName :=
  if answer = some TypeName.untyped then common.or answer else answer

/-- Operands that go together have both been given the common type. -/
def Held (operands : Operands) (left right : Option TypeName) : Prop :=
  (common operands left right).isSome →
    left ≠ some TypeName.untyped ∧ right ≠ some TypeName.untyped

instance (o : Operands) (l r : Option TypeName) : Decidable (Held o l r) :=
  inferInstanceAs (Decidable (_ → _))

theorem mem_answers_of_known {answer : Option TypeName} (h : ∀ t ∈ answer, TypeName.Known t) :
    answer ∈ answers := by
  cases answer with
  | none => exact List.mem_cons_self
  | some t =>
    rcases h t rfl with rfl | proper
    · exact List.mem_cons_of_mem _ List.mem_cons_self
    · exact List.mem_cons_of_mem _ (List.mem_cons_of_mem _ (List.mem_map_of_mem proper))

theorem known_of_mem_answers {t : TypeName} (h : some t ∈ answers) : t.Known := by
  rcases List.mem_cons.mp h with same | h
  · cases same
  rcases List.mem_cons.mp h with same | h
  · exact .inl (Option.some.inj same)
  · obtain ⟨u, proper, same⟩ := List.mem_map.mp h
    cases same
    exact .inr proper

theorem mem_growths_self (answer : Option TypeName) : answer ∈ growths answer := by
  unfold growths
  split <;> exact List.mem_cons_self

theorem mem_growths_of_numeric {t : TypeName}
    (numeric : (TypeName.normalize t).isNumeric) :
    some (TypeName.normalize t) ∈ growths (some TypeName.untyped) := by
  have each : ∀ u ∈ TypeName.declarable, u.isNumeric →
      some u ∈ growths (some TypeName.untyped) := by decide
  exact each _ (TypeName.proper_of_numeric numeric) numeric

def Operands.all : List Operands := [.numbers, .integers, .truthValues, .comparable]

theorem Operands.mem_all (o : Operands) : o ∈ Operands.all := by cases o <;> decide

/-! What follows holds of finitely many types, and is looked up. -/

theorem operands_looked_up : ∀ o ∈ Operands.all, ∀ l ∈ answers, ∀ r ∈ answers,
    Held o (taking (common o l r) l) (taking (common o l r) r) ∧
    (Held o l r → ∀ l' ∈ growths l, ∀ r' ∈ growths r, Held o l' r') ∧
    ∀ c ∈ common o l r, c.Proper := by decide +kernel

theorem numericType_looked_up : ∀ l ∈ answers, ∀ r ∈ answers,
    numericType l r ∈ answers ∧
    numericType (taking (common .numbers l r) l) (taking (common .numbers l r) r) =
      numericType l r ∧
    (Held .numbers l r → ∀ l' ∈ growths l, ∀ r' ∈ growths r,
      numericType l' r' = numericType l r) := by decide +kernel

theorem elementType_looked_up : ∀ array ∈ answers, elementType array ∈ answers ∧
    ∀ array' ∈ growths array, elementType array' = elementType array := by decide +kernel

section
variable {o : Operands} {l r : Option TypeName} (left : l ∈ answers) (right : r ∈ answers)
include left right

theorem held_taking : Held o (taking (common o l r) l) (taking (common o l r) r) :=
  (operands_looked_up o o.mem_all l left r right).1

theorem numericType_taking :
    numericType (taking (common .numbers l r) l) (taking (common .numbers l r) r) =
      numericType l r :=
  (numericType_looked_up l left r right).2.1

theorem held_growths (held : Held o l r) {l' r' : Option TypeName} (growsL : l' ∈ growths l)
    (growsR : r' ∈ growths r) : Held o l' r' :=
  (operands_looked_up o o.mem_all l left r right).2.1 held l' growsL r' growsR

theorem numericType_growths (held : Held .numbers l r) {l' r' : Option TypeName}
    (growsL : l' ∈ growths l) (growsR : r' ∈ growths r) :
    numericType l' r' = numericType l r :=
  (numericType_looked_up l left r right).2.2 held l' growsL r' growsR

theorem proper_common {c : TypeName} (h : common o l r = some c) : c.Proper :=
  (operands_looked_up o o.mem_all l left r right).2.2 c h

theorem numericType_mem_answers : numericType l r ∈ answers :=
  (numericType_looked_up l left r right).1

end

theorem elementType_mem_answers {array : Option TypeName} (h : array ∈ answers) :
    elementType array ∈ answers := (elementType_looked_up array h).1

theorem elementType_growths {array array' : Option TypeName} (h : array ∈ answers)
    (grows : array' ∈ growths array) : elementType array' = elementType array :=
  (elementType_looked_up array h).2 array' grows

/-! ### The type in which a node is settled -/

theorem settledAs_some (wanted : Option TypeName) (t : TypeName) :
    ∃ u, settledAs wanted (some t) = some u := by
  simp only [settledAs]
  split
  · split <;> exact ⟨_, rfl⟩
  · exact ⟨_, rfl⟩

theorem settledAs_of_proper (wanted : Option TypeName) {t : TypeName} (proper : t.Proper) :
    settledAs wanted (some t) = some t := by
  cases wanted <;> simp [settledAs, proper.isUntyped_eq, proper.resolve_eq]

theorem settledAs_int (answer : Option TypeName) :
    settledAs (some "int") answer = answer.map TypeName.resolve := by
  cases answer with
  | none => rfl
  | some t =>
    simp only [settledAs, Option.map_some]
    split
    · rename_i bare
      have bare : t = TypeName.untyped := by
        simpa [TypeName.isUntyped] using (Bool.and_eq_true_iff.mp bare).1
      rw [bare, TypeName.resolve_untyped]
    · rfl

theorem settledAs_proper {wanted answer : Option TypeName} {t : TypeName} (h : answer ∈ answers)
    (settles : settledAs (wanted.map TypeName.normalize) answer = some t) : t.Proper := by
  cases answer with
  | none => cases settles
  | some u =>
    have resolves := (known_of_mem_answers h).proper_resolve
    cases wanted with
    | none =>
      cases settles
      exact resolves
    | some w =>
      simp only [settledAs, Option.map_some] at settles
      split at settles
      · rename_i takes
        cases settles
        exact TypeName.proper_of_numeric (by simpa using (Bool.and_eq_true_iff.mp takes).2)
      · cases settles
        exact resolves

theorem settledAs_growths (wanted : Option TypeName) {answer : Option TypeName}
    (h : answer ∈ answers) :
    settledAs (wanted.map TypeName.normalize) answer ∈ growths answer := by
  cases answer with
  | none => exact List.mem_cons_self
  | some t =>
    rcases known_of_mem_answers h with rfl | proper
    · have int : some "int" ∈ growths (some TypeName.untyped) := by decide
      cases wanted with
      | none => simpa [settledAs, TypeName.resolve_untyped] using int
      | some w =>
        simp only [settledAs, Option.map_some, TypeName.isUntyped_untyped, Bool.true_and]
        split
        · exact mem_growths_of_numeric ‹_›
        · simpa [TypeName.resolve_untyped] using int
    · rw [settledAs_of_proper _ proper]
      exact mem_growths_self _

/-! ### Checkers and states of terms -/

namespace Term

variable (s : Scope)

mutual
/-- The checker of a term's tree. -/
def kid : Term → Checker
  | .literal kind text => .node s (label (.literal kind text)) []
  | .load name => .node s (label (.load name)) []
  | .call function args => .node s (label (.call function args)) (kids args)
  | .index base position => .node s "index" [base.kid, position.kid]
  | .binary op left right => .node s op.1.text [left.kid, right.kid]
  | .unary op operand => .node s op.text [operand.kid]

def kids : List Term → List Checker
  | [] => []
  | e :: es => e.kid :: kids es
end

/-- The tree of a term before anything is known of it. -/
def fresh (e : Term) : Marked := Marked.unmarked e.tree

/-- The type that a term has on its own. -/
def ownType (e : Term) : Option TypeName := ((e.kid s).infer e.fresh).type

end Term

/-- What an inferred node's type may turn into when it is asked again: a bare number that was
worked out from others counts as `int`. -/
def Turns (own now : Option TypeName) : Prop :=
  now = own ∨ own = some TypeName.untyped ∧ now = some "int"

/-- The type that a node with a mark answers with, given the type that its children make. -/
def Mark.Gives (m : Mark) (made answer : Option TypeName) : Prop :=
  m.settled = false ∧ answer = made ∨
    m.settled = true ∧ answer = m.type ∧ ∃ type, m.type = some type ∧ type.Proper

/-- The mark of a node whose place asks for a type: it bears none, or the one in which it is to be
settled. Only a node that comes to the same type in any case may still be open. -/
structure Mark.InPlace (m : Mark) (wanted own now : Option TypeName) : Prop where
  type : m.type = none ∨ m.type = settledAs wanted own
  settled : m.settled = true → m.type = settledAs wanted own
  open_ : m.settled = false → Turns own now ∧ settledAs wanted own = own.map TypeName.resolve

/-- A node with the given label that answers with a type, its children being as `below` says. -/
def Marked.Answers (label : String) (below : List Marked → Option TypeName → Prop) (t : Marked)
    (answer : Option TypeName) : Prop :=
  t.label = label ∧ ∃ made, below t.children made ∧ t.note.Gives made answer

namespace Term

variable (s : Scope)

mutual
/-- The children of a sound term, and the type that they make. -/
def Below : Term → List Marked → Option TypeName → Prop
  | .literal kind text, cs, made => cs = [] ∧ made = kind.typeOf text
  | .load name, cs, made => cs = [] ∧ made = s.variableType name
  | .call function args, cs, made =>
    ArgsBelow (s.parameters function) args cs ∧ made = s.resultType function
  | .index base position, cs, made => ∃ b p array at_, cs = [b, p] ∧
    b.Answers base.label (Below base) array ∧ p.Answers position.label (Below position) at_ ∧
    p.note.InPlace (some "int") (position.ownType s) at_ ∧ made = elementType array
  | .binary op left right, cs, made => ∃ a b l r, cs = [a, b] ∧
    a.Answers left.label (Below left) l ∧ b.Answers right.label (Below right) r ∧
    Held op.1.operands l r ∧ made = op.1.resultType l r
  | .unary op operand, cs, made => ∃ a type, cs = [a] ∧
    a.Answers operand.label (Below operand) type ∧ made = op.resultType type

/-- The arguments of a call, each in the place of its parameter. A bare number given for a numeric
parameter is settled. -/
def ArgsBelow : TypeTable → List Term → List Marked → Prop
  | [], [], [] => True
  | p :: ps, e :: es, c :: cs =>
    (∃ type, c.Answers e.label (Below e) type ∧ c.note.InPlace p.2 (e.ownType s) type ∧
      (e.ownType s = some TypeName.untyped → (p.2.any TypeName.isNumeric) → c.note.settled)) ∧
      ArgsBelow ps es cs
  | _, _, _ => False
end

/-- A marked term that answers with the given type and changes no more when it is inferred. -/
def Sound (e : Term) (t : Marked) (type : Option TypeName) : Prop :=
  t.Answers e.label (e.Below s) type

/-- Induction over the arguments of a call, with their parameters and their trees. -/
@[elab_as_elim]
theorem ArgsBelow.induction {s : Scope}
    {motive : (ps : TypeTable) → (es : List Term) → (cs : List Marked) → ArgsBelow s ps es cs → Prop}
    (nil : motive [] [] [] trivial)
    (cons : ∀ {p ps e es c cs type} (sound : e.Sound s c type)
      (place : c.note.InPlace p.2 (e.ownType s) type)
      (taken : e.ownType s = some TypeName.untyped → p.2.any TypeName.isNumeric → c.note.settled)
      (rest : ArgsBelow s ps es cs), motive ps es cs rest →
        motive (p :: ps) (e :: es) (c :: cs) ⟨⟨type, sound, place, taken⟩, rest⟩)
    {ps : TypeTable} {es : List Term} {cs : List Marked} (below : ArgsBelow s ps es cs) :
    motive ps es cs below := by
  induction es generalizing ps cs with
  | nil =>
    obtain _ | ⟨p, ps⟩ := ps <;> obtain _ | ⟨c, cs⟩ := cs
    · exact nil
    all_goals exact below.elim
  | cons e es ih =>
    obtain _ | ⟨p, ps⟩ := ps
    · cases cs <;> exact below.elim
    obtain _ | ⟨c, cs⟩ := cs
    · exact below.elim
    obtain ⟨⟨type, sound, place, taken⟩, rest⟩ := below
    exact cons sound place taken rest (ih rest)

end Term

end MethodLang
