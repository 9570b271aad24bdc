import MethodLang.Proofs.Typing.Marking

/-!
Inference on marked terms. A sound term is left as it is (`Term.infer_sound`), and a fresh term
becomes sound (`Term.infer_fresh`).
-/
namespace MethodLang

open Checker

/-- An inferred node that takes the common type if it is a bare number. -/
def Inference.taking (r : Inference) (common : Option TypeName) : Marked :=
  if r.type = some TypeName.untyped then r.node.settleAs common else r.node

theorem Inference.taking_none (r : Inference) : r.taking none = r.node := by
  simp [Inference.taking, Marked.settleAs]

theorem isUntyped_any {type : Option TypeName} (bare : type.any TypeName.isUntyped = true) :
    type = some TypeName.untyped := by
  cases type with
  | none => cases bare
  | some t => simpa [TypeName.isUntyped] using bare

/-! ### Single children -/

namespace Checker

variable (kid kid' : Checker) (l : String) (m : Mark) (a b : Marked)

@[simp] theorem inferChild_only : inferChild [kid] 0 (.node l m [a]) =
    ⟨(kid.infer a).type, (kid.infer a).errors.map (TypeError.under 0),
      .node l m [(kid.infer a).node]⟩ := by
  simp [inferChild, Tree.setChildren]

@[simp] theorem inferChild_first : inferChild [kid, kid'] 0 (.node l m [a, b]) =
    ⟨(kid.infer a).type, (kid.infer a).errors.map (TypeError.under 0),
      .node l m [(kid.infer a).node, b]⟩ := by
  simp [inferChild, Tree.setChildren]

@[simp] theorem inferChild_second : inferChild [kid, kid'] 1 (.node l m [a, b]) =
    ⟨(kid'.infer b).type, (kid'.infer b).errors.map (TypeError.under 1),
      .node l m [a, (kid'.infer b).node]⟩ := by
  simp [inferChild, Tree.setChildren]

theorem inferNode_settled (s : Scope) (kids : List Checker) (label : String) {t : Marked}
    {type : TypeName} (settled : t.note.settled = true) (typed : t.note.type = some type) :
    inferNode s kids label t = ⟨some type, [], t⟩ := by
  simp [inferNode, Marked.settledType, settled, typed]

theorem inferNode_open (s : Scope) (kids : List Checker) (label : String) {t : Marked}
    (settled : t.note.settled = false) :
    inferNode s kids label t = inferRole s kids label t := by
  simp [inferNode, Marked.settledType, settled]

/-- The check of two operands, in terms of what inferring each of them gives. -/
theorem checkBinary_pair (op : String) (o : Operands) {ra rb : Inference}
    (first : kid.infer a = ra) (second : kid'.infer b = rb) {check : BinaryCheck}
    (h : checkBinary [kid, kid'] op o (.node l m [a, b]) = check) :
    check.node = .node l m [ra.taking (common o ra.type rb.type),
      rb.taking (common o ra.type rb.type)] ∧
    (ra.type ∈ answers → TypeName.firstOf check.left check.right =
      if allowed o ra.type && allowed o rb.type then
        (TypeName.unify ra.type rb.type).or ra.type else none) ∧
    (check.errors = [] →
      ra.errors = [] ∧ rb.errors = [] ∧ (common o ra.type rb.type).isSome) := by
  simp only [checkBinary, inferChild_first, inferChild_second, first, second, Tree.children_node,
    List.length_cons, List.length_nil] at h
  cases fits : allowed o ra.type && allowed o rb.type with
  | false =>
    have apart : common o ra.type rb.type = none := by simp [common, fits]
    have refused : (!allowed o ra.type || !allowed o rb.type) = true := by
      rw [← Bool.not_and, fits, Bool.not_false]
    simp only [ne_eq, not_true_eq_false, if_false, refused, if_true] at h
    subst h
    simp only [apart, Inference.taking_none, true_and, TypeName.firstOf]
    refine ⟨fun _ => rfl, fun clean => ?_⟩
    simp only [List.append_eq_nil_iff, operandError] at clean
    simp_all
  | true =>
    obtain ⟨takesA, takesB⟩ := Bool.and_eq_true_iff.mp fits
    obtain ⟨ta, ea, na⟩ := ra
    obtain ⟨tb, eb, nb⟩ := rb
    obtain _ | ta := ta
    · cases takesA
    obtain _ | tb := tb
    · cases takesB
    have shared : common o (some ta) (some tb) = TypeName.unify (some ta) (some tb) := by
      simp [common, fits]
    simp only [ne_eq, not_true_eq_false, if_false, takesA, takesB, Bool.not_true, Bool.or_self,
      Bool.false_eq_true] at h
    cases unified : TypeName.unify (some ta) (some tb) with
    | none =>
      simp only [unified] at h
      subst h
      simp only [shared, unified, Inference.taking_none, true_and, Option.none_or]
      refine ⟨fun known => ?_, fun clean => ?_⟩
      · simp [TypeName.firstOf, (known_of_mem_answers known).not_isEmpty]
      · simp at clean
    | some c =>
      simp only [unified] at h
      subst h
      simp only [shared, unified]
      refine ⟨?_, fun _ => by simp [TypeName.firstOf], fun clean => ?_⟩
      · by_cases bareA : ta = TypeName.untyped <;> by_cases bareB : tb = TypeName.untyped <;>
          simp [Inference.taking, TypeName.isUntyped, bareA, bareB, markChild, Tree.setChildren]
      · simp_all

/-- Arithmetic infers its operands on their own before it checks them. The result is a bare number
only if both operands were. -/
theorem inferArithmetic_pair (op : String) {check : BinaryCheck}
    (second : checkBinary [kid, kid'] op .numbers
      (.node l m [(kid.infer a).node, (kid'.infer b).node]) = check) {run : Inference}
    (h : inferArithmetic [kid, kid'] op (.node l m [a, b]) = run) :
    run.node = check.node ∧
      (run.type = (TypeName.firstOf check.left check.right).map TypeName.resolve ∨
        (run.type = some TypeName.untyped ∧
          (TypeName.firstOf check.left check.right).map TypeName.resolve = some "int") ∧
        (kid.infer a).type = some TypeName.untyped ∧ (kid'.infer b).type = some TypeName.untyped) ∧
      (run.errors = [] → (kid.infer a).errors = [] ∧ (kid'.infer b).errors = [] ∧
        check.errors = []) := by
  have clean (errorless : ((kid.infer a).errors.map (TypeError.under 0) ++
      (kid'.infer b).errors.map (TypeError.under 1) ++ check.errors) = []) :
      (kid.infer a).errors = [] ∧ (kid'.infer b).errors = [] ∧ check.errors = [] := by
    simpa [and_assoc] using errorless
  unfold inferArithmetic at h
  simp only [inferChild_first, inferChild_second, Tree.children_node, List.length_cons,
    List.length_nil, ne_eq, not_true_eq_false, if_false, second] at h
  split at h
  · rename_i untyped
    subst h
    exact ⟨rfl, .inl (by rw [untyped]; rfl), clean⟩
  · rename_i type typed
    rw [typed]
    split at h
    · rename_i bare
      subst h
      simp only [Bool.and_eq_true, beq_iff_eq] at bare
      refine ⟨rfl, .inr ⟨⟨rfl, ?_⟩, isUntyped_any bare.1.1, isUntyped_any bare.1.2⟩, clean⟩
      rw [bare.2]
      decide +kernel
    · subst h
      exact ⟨rfl, .inl rfl, clean⟩

/-- An index must be an `int` or a bare number. -/
theorem indexError_clean {type : Option TypeName} {i : Nat} {use : ValueUse}
    (clean : indexError type i use = []) :
    type = some "int" ∨ type = some TypeName.untyped := by
  cases type with
  | none => cases clean
  | some given =>
    simp only [indexError] at clean
    split at clean
    · cases clean
    · rename_i fits
      by_cases int : given = "int"
      · exact .inl (congrArg some int)
      · exact .inr (by simpa [int, TypeName.isUntyped] using fits)

theorem inferIndex_pair {run : Inference} (h : inferIndex [kid, kid'] (.node l m [a, b]) = run) :
    run.node = .node l m [(kid.infer a).node, (kid'.infer b).node] ∧
      run.type = elementType (kid.infer a).type ∧
      (run.errors = [] → (kid.infer a).errors = [] ∧ (kid'.infer b).errors = [] ∧
        (∀ type, (kid.infer a).type = some type → type.isArray) ∧
        ((kid'.infer b).type = some "int" ∨ (kid'.infer b).type = some TypeName.untyped)) := by
  unfold inferIndex at h
  simp only [inferChild_first, inferChild_second, Tree.children_node, List.length_cons,
    List.length_nil, ne_eq, not_true_eq_false, if_false] at h
  split at h
  · rename_i missing
    subst h
    refine ⟨rfl, by rw [missing]; rfl, fun clean => ?_⟩
    simp only [List.append_eq_nil_iff, List.map_eq_nil_iff] at clean
    exact ⟨clean.1.1, clean.1.2, by simp [missing], indexError_clean clean.2⟩
  · rename_i type typed
    split at h
    · rename_i other
      subst h
      have other : type.isArray = false := by simpa using other
      exact ⟨rfl, by simp [typed, elementType, other], by simp⟩
    · rename_i array
      subst h
      refine ⟨rfl, ?_, fun clean => ?_⟩
      · simp_all [elementType]
      · simp only [List.append_eq_nil_iff, List.map_eq_nil_iff] at clean
        refine ⟨clean.1.1, clean.1.2, ?_, indexError_clean clean.2⟩
        simpa [typed] using array

/-- A negation must be of a truth value. -/
theorem inferNegation_clean {op : String}
    (clean : (inferNegation [kid] op (.node l m [a])).errors = []) :
    (kid.infer a).errors = [] ∧ (kid.infer a).type = some "bool" := by
  simp only [inferNegation, inferChild_only, Tree.children_node, List.length_cons, List.length_nil,
    ne_eq, not_true_eq_false, if_false, List.append_eq_nil_iff, List.map_eq_nil_iff] at clean
  obtain ⟨below, here⟩ := clean
  refine ⟨below, ?_⟩
  cases given : (kid.infer a).type with
  | none => simp [given, voidError] at here
  | some type => simpa [given] using here

/-- An inversion must be of a number. -/
theorem inferInversion_clean {op : String}
    (clean : (inferInversion [kid] op (.node l m [a])).errors = []) :
    (kid.infer a).errors = [] ∧
      ∃ type, (kid.infer a).type = some type ∧ Operands.integers.takes type = true := by
  simp only [inferInversion, inferChild_only, Tree.children_node, List.length_cons, List.length_nil,
    ne_eq, not_true_eq_false, if_false, List.append_eq_nil_iff, List.map_eq_nil_iff] at clean
  obtain ⟨below, here⟩ := clean
  refine ⟨below, ?_⟩
  cases given : (kid.infer a).type with
  | none => simp [given, voidError] at here
  | some type => exact ⟨type, rfl, by simpa [given] using here⟩

end Checker

/-! ### Sound terms -/

namespace Marked

theorem setNote_note (t : Marked) (m : Mark) : (t.setNote m).note = m := by cases t; rfl

theorem setNote_label (t : Marked) (m : Mark) : (t.setNote m).label = t.label := by cases t; rfl

theorem setNote_children (t : Marked) (m : Mark) : (t.setNote m).children = t.children := by
  cases t; rfl

end Marked

variable {s : Scope}

theorem Mark.Gives.mem_answers {m : Mark} {made answer : Option TypeName} (h : m.Gives made answer)
    (known : made ∈ answers) : answer ∈ answers := by
  rcases h with ⟨_, rfl⟩ | ⟨_, rfl, type, typed, proper⟩
  · exact known
  · rw [typed]
    exact mem_answers_of_known fun t is => Option.mem_some_iff.mp is ▸ proper.known

namespace Term

theorem Below.mem_answers (proper : s.Proper) {e : Term} {cs : List Marked}
    {made : Option TypeName} (below : e.Below s cs made) : made ∈ answers := by
  induction e using Term.induction generalizing cs made with
  | literal kind text =>
    obtain ⟨_, rfl⟩ := below
    refine mem_answers_of_known fun u is => ?_
    obtain ⟨read, found, rfl⟩ := Option.map_eq_some_iff.mp is
    rw [Label.literal?_kind found]
    exact kind.known_type
  | load name =>
    obtain ⟨_, rfl⟩ := below
    exact mem_answers_of_known fun u is => (proper.named is).known
  | call function args _ =>
    obtain ⟨_, rfl⟩ := below
    exact mem_answers_of_known fun u is => (proper.results is).known
  | index base position ih _ =>
    obtain ⟨b, p, array, at_, _, ⟨_, _, inner, gives⟩, _, _, rfl⟩ := below
    exact elementType_mem_answers (gives.mem_answers (ih inner))
  | binary op left right ihl ihr =>
    obtain ⟨a, b, l, r, _, ⟨_, _, innerA, givesA⟩, ⟨_, _, innerB, givesB⟩, _, rfl⟩ := below
    have numeric :=
      numericType_mem_answers (givesA.mem_answers (ihl innerA)) (givesB.mem_answers (ihr innerB))
    unfold BinaryOp.resultType
    split
    · exact numeric
    · exact numeric
    · decide
  | unary op operand ih =>
    obtain ⟨a, type, _, ⟨_, _, inner, gives⟩, rfl⟩ := below
    cases op with
    | not => exact (by decide : some "bool" ∈ answers)
    | invert => exact gives.mem_answers (ih inner)

theorem Sound.mem_answers (proper : s.Proper) {e : Term} {t : Marked} {type : Option TypeName}
    (sound : e.Sound s t type) : type ∈ answers := by
  obtain ⟨_, made, below, gives⟩ := sound
  exact gives.mem_answers (below.mem_answers proper)

/-- Settling the type of a node leaves its children as they are. -/
theorem Sound.setNote {e : Term} {t : Marked} {type : Option TypeName} (sound : e.Sound s t type)
    {w : TypeName} (proper : w.Proper) : e.Sound s (t.setNote ⟨some w, true⟩) (some w) := by
  obtain ⟨label, made, below, _⟩ := sound
  refine ⟨by rw [Marked.setNote_label, label], made, by rwa [Marked.setNote_children], ?_⟩
  rw [Marked.setNote_note]
  exact .inr ⟨rfl, rfl, w, rfl, proper⟩

theorem Sound.settleAs {e : Term} {t : Marked} {type : Option TypeName} (sound : e.Sound s t type)
    {w : TypeName} (proper : w.Proper) : e.Sound s (t.settleAs (some w)) (some w) := by
  rw [Marked.settleAs, proper.normalize_eq]
  exact sound.setNote proper

/-- A type that is shown but not settled changes no answer. -/
theorem Sound.setType {e : Term} {t : Marked} {type : Option TypeName} (sound : e.Sound s t type)
    (unsettled : t.note.settled = false) (shown : Option TypeName) :
    e.Sound s (t.setType shown) type := by
  obtain ⟨label, made, below, gives⟩ := sound
  refine ⟨by rw [Marked.setType, Marked.setNote_label, label], made,
    by rwa [Marked.setType, Marked.setNote_children], ?_⟩
  rcases gives with ⟨_, same⟩ | ⟨settled, _⟩
  · rw [Marked.setType, Marked.setNote_note]
    exact .inl ⟨unsettled, same⟩
  · rw [unsettled] at settled
    cases settled

theorem Sound.taking {e : Term} {r : Inference} {type : Option TypeName}
    (sound : e.Sound s r.node type) (turns : Turns r.type type) {both : Option TypeName}
    (typed : ∀ c ∈ both, c.Proper) :
    ∃ type', e.Sound s (r.taking both) type' ∧ type' ∈ growths (MethodLang.taking both r.type) := by
  unfold Inference.taking MethodLang.taking
  by_cases bare : r.type = some TypeName.untyped
  · rw [if_pos bare, if_pos bare]
    cases both with
    | none =>
      refine ⟨type, sound, ?_⟩
      rcases turns with rfl | ⟨_, rfl⟩
      · exact mem_growths_self _
      · rw [bare]
        decide
    | some c => exact ⟨some c, sound.settleAs (typed c rfl), mem_growths_self _⟩
  · rw [if_neg bare, if_neg bare]
    refine ⟨type, sound, ?_⟩
    rcases turns with rfl | ⟨same, _⟩
    · exact mem_growths_self _
    · exact absurd same bare

end Term

/-! ### Children in a list -/

namespace Checker

section
variable {l : String} {m : Mark} {before : List Checker} (kid : Checker) {after : List Checker}
  {pre : List Marked} (c : Marked) {post : List Marked} (same : before.length = pre.length)
include same

theorem inferChild_at : inferChild (before ++ kid :: after) pre.length (.node l m (pre ++ c :: post)) =
    ⟨(kid.infer c).type, (kid.infer c).errors.map (TypeError.under pre.length),
      .node l m (pre ++ (kid.infer c).node :: post)⟩ := by
  have found : (before ++ kid :: after)[pre.length]? = some kid := by simp [← same]
  simp [inferChild, found, Tree.setChildren]

theorem onChild_at (f : Checker → Marked → Marked) :
    onChild (before ++ kid :: after) pre.length f (.node l m (pre ++ c :: post)) =
      .node l m (pre ++ f kid c :: post) := by
  have found : (before ++ kid :: after)[pre.length]? = some kid := by simp [← same]
  simp [onChild, found, Tree.setChildren]

end

theorem markChild_at (type : Option TypeName) (l : String) (m : Mark) (pre : List Marked)
    (c : Marked) (post : List Marked) : markChild type pre.length (.node l m (pre ++ c :: post)) =
      .node l m (pre ++ c.settleAs type :: post) := by
  have changed : (pre ++ c :: post).modify pre.length (Marked.settleAs type) =
      pre ++ c.settleAs type :: post := by
    induction pre with
    | nil => rfl
    | cons d ds ih => simpa using ih
  rw [markChild, Tree.children_node, changed, Tree.setChildren]

end Checker

/-- An argument behind the check against its parameter's type. -/
def Inference.asArgument (r : Inference) (wanted : Option TypeName) : Marked :=
  match r.type, wanted.map TypeName.normalize with
  | some given, some expected =>
    if given.isUntyped && expected.isNumeric then r.node.settleAs (some expected) else r.node
  | _, _ => r.node

theorem Checker.checkArgument_at {l : String} {m : Mark} {before : List Checker} (kid : Checker)
    {after : List Checker} {pre : List Marked} (c : Marked) {post : List Marked}
    (same : before.length = pre.length) (function : String) (p : String × Option TypeName) :
    (checkArgument (before ++ kid :: after) function pre.length p (.node l m (pre ++ c :: post))).2 =
      .node l m (pre ++ (kid.infer c).asArgument p.2 :: post) := by
  unfold checkArgument Inference.asArgument
  rw [inferChild_at kid c same]
  obtain ⟨name, wanted⟩ := p
  generalize kid.infer c = r
  obtain ⟨type, errors, node⟩ := r
  cases type with
  | none => cases wanted <;> rfl
  | some given =>
    cases wanted with
    | none => rfl
    | some w =>
      simp only [Option.map_some]
      split
      · rw [markChild_at]
      · split <;> rfl

/-! ### Inferring a sound term -/

/-- An argument in its place is not marked again. -/
theorem Mark.InPlace.asArgument {c : Marked} {p own made type : Option TypeName}
    (proper : ∃ type, p = some type ∧ type.Proper) (gives : c.note.Gives made type)
    (place : c.note.InPlace p own type)
    (taken : own = some TypeName.untyped → p.any TypeName.isNumeric → c.note.settled)
    {r : Inference} (answer : r.type = type) (stays : r.node = c) : r.asArgument p = c := by
  obtain ⟨w, rfl, proper⟩ := proper
  subst answer
  cases typed : r.type with
  | none => simp [Inference.asArgument, typed, stays]
  | some given =>
    simp only [Inference.asArgument, typed, Option.map_some, proper.normalize_eq, stays]
    rw [if_neg]
    intro takes
    obtain ⟨bare, numeric⟩ := Bool.and_eq_true_iff.mp takes
    have bare : given = TypeName.untyped := by simpa [TypeName.isUntyped] using bare
    rw [bare] at typed
    rw [typed] at gives place
    rcases gives with ⟨unsettled, _⟩ | ⟨_, same, u, typed, properU⟩
    · have own : own = some TypeName.untyped := by
        rcases (place.open_ unsettled).1 with same | ⟨same, _⟩
        · exact same.symm
        · exact same
      have settled := taken own (by simpa using numeric)
      rw [unsettled] at settled
      cases settled
    · rw [typed] at same
      exact properU.ne_untyped (Option.some.inj same).symm

/-- The four families of operators. -/
theorem operator_cases (op : Operator) :
    op.1.role = .arithmetic ∧ op.1.operands = .numbers ∨
    op.1.role = .bitwise ∧ op.1.operands = .integers ∨
    op.1.role = .logical ∧ op.1.operands = .truthValues ∨
    op.1.role = .comparison ∧ op.1.operands = .comparable := by
  obtain ⟨op, proper⟩ := op
  cases op <;> first | contradiction | simp [BinaryOp.role, BinaryOp.operands]

theorem Inference.taking_held {o : Operands} {ra rb : Inference}
    (held : Held o ra.type rb.type) :
    ra.taking (common o ra.type rb.type) = ra.node ∧
      rb.taking (common o ra.type rb.type) = rb.node := by
  cases both : common o ra.type rb.type with
  | none => exact ⟨ra.taking_none, rb.taking_none⟩
  | some c =>
    obtain ⟨typedA, typedB⟩ := held (by rw [both]; rfl)
    simp [Inference.taking, typedA, typedB]

theorem Held.not_both_bare {l r : Option TypeName} (held : Held .numbers l r) :
    (l.any TypeName.isUntyped && r.any TypeName.isUntyped) = false := by
  refine Bool.eq_false_iff.mpr fun both => ?_
  obtain ⟨bareL, bareR⟩ := Bool.and_eq_true_iff.mp both
  have bareL := isUntyped_any bareL
  have bareR := isUntyped_any bareR
  subst bareL bareR
  exact (held (by decide +kernel)).1 rfl

/-- Operands that hold the common type are left alone, and make the operator's type. -/
theorem inferRole_operator (op : Operator) {kid kid' : Checker} {l r : Option TypeName}
    {a b : Marked} (first : (kid.infer a).type = l ∧ (kid.infer a).node = a)
    (second : (kid'.infer b).type = r ∧ (kid'.infer b).node = b) (known : l ∈ answers)
    (held : Held op.1.operands l r) (label : String) (m : Mark) :
    (inferRole s [kid, kid'] op.1.text (.node label m [a, b])).type = op.1.resultType l r ∧
      (inferRole s [kid, kid'] op.1.text (.node label m [a, b])).node = .node label m [a, b] := by
  obtain ⟨typeA, nodeA⟩ := first
  obtain ⟨typeB, nodeB⟩ := second
  have check (o : Operands) (same : op.1.operands = o) :
      (checkBinary [kid, kid'] op.1.text o (.node label m [a, b])).node = .node label m [a, b] ∧
      TypeName.firstOf (checkBinary [kid, kid'] op.1.text o (.node label m [a, b])).left
        (checkBinary [kid, kid'] op.1.text o (.node label m [a, b])).right =
        if allowed o l && allowed o r then (TypeName.unify l r).or l else none := by
    obtain ⟨node, types, _⟩ := checkBinary_pair kid kid' label m a b op.1.text o rfl rfl rfl
    rw [same] at held
    rw [← typeA, ← typeB] at held
    obtain ⟨keptA, keptB⟩ := Inference.taking_held held
    rw [keptA, keptB, nodeA, nodeB] at node
    rw [typeA, typeB] at types
    exact ⟨node, types known⟩
  unfold inferRole BinaryOp.resultType
  rw [BinaryOp.ofLabel_text]
  rcases operator_cases op with ⟨role, o⟩ | ⟨role, o⟩ | ⟨role, o⟩ | ⟨role, o⟩
  · obtain ⟨node, types⟩ := check _ o
    rw [o] at held
    simp only [role, inferArithmetic, inferChild_first, inferChild_second, Tree.children_node,
      List.length_cons, List.length_nil, ne_eq, not_true_eq_false, if_false, typeA, typeB, nodeA,
      nodeB, types, numericType]
    cases fits : allowed .numbers l && allowed .numbers r with
    | false => simp [node]
    | true =>
      simp only [if_true, held.not_both_bare, Bool.false_and, Bool.false_eq_true, if_false]
      cases (TypeName.unify l r).or l <;> exact ⟨rfl, node⟩
  · obtain ⟨node, types⟩ := check _ o
    simp only [role, inferBitwise, node, types, numericType, and_true]
    exact apply_ite (Option.map TypeName.resolve) ..
  · simp [role, inferTruth, check _ o]
  · simp [role, inferTruth, check _ o]

namespace Term

theorem kid_eq (e : Term) : e.kid s = Checker.node s e.label (kids s e.children) := by
  cases e <;> rfl

/-- Inferring the term in a sound state gives its answer and changes nothing. -/
def Settles (s : Scope) (e : Term) : Prop :=
  ∀ t type, e.Sound s t type → ((e.kid s).infer t).type = type ∧ ((e.kid s).infer t).node = t

theorem checkArguments_sound {function : String} {l : String} {m : Mark}
    {es : List Term} (each : ∀ e ∈ es, e.Settles s) {ps : TypeTable}
    (typed : ∀ p ∈ ps, ∃ type, p.2 = some type ∧ type.Proper) {cs : List Marked}
    (below : ArgsBelow s ps es cs) (before : List Checker) (pre : List Marked)
    (same : before.length = pre.length) :
    (checkArguments (before ++ kids s es) function pre.length ps (.node l m (pre ++ cs))).2 =
      .node l m (pre ++ cs) := by
  induction below using ArgsBelow.induction generalizing before pre with
  | nil => rfl
  | @cons p ps e es c cs type sound place taken rest ih =>
    have ⟨first, others⟩ := List.forall_mem_cons.mp each
    have ⟨typedFirst, typedRest⟩ := List.forall_mem_cons.mp typed
    obtain ⟨answer, stays⟩ := first c type sound
    obtain ⟨made, _, gives⟩ := sound.2
    have kept := place.asArgument typedFirst gives taken answer stays
    have step : (checkArgument (before ++ e.kid s :: kids s es) function pre.length p
        (.node l m (pre ++ c :: cs))).2 = .node l m (pre ++ c :: cs) := by
      rw [checkArgument_at (e.kid s) c same, kept]
    have further := ih others typedRest (before ++ [e.kid s]) (pre ++ [c]) (by simp [same])
    have inside : pre.length < (Tree.node l m (pre ++ c :: cs)).children.length := by simp
    rw [checkArguments, if_pos inside]
    simpa [step, kids] using further

mutual
/-- Every call in the term is to a known function and has as many arguments as it has
parameters. -/
def Counted (s : Scope) : Term → Prop
  | .literal _ _ | .load _ => True
  | .call function args => s.results.has function ∧
    args.length = (s.parameters function).length ∧ AllCounted s args
  | .index base position => base.Counted s ∧ position.Counted s
  | .binary _ left right => left.Counted s ∧ right.Counted s
  | .unary _ operand => operand.Counted s

def AllCounted (s : Scope) : List Term → Prop
  | [] => True
  | e :: es => e.Counted s ∧ AllCounted s es
end

theorem allCounted_iff {es : List Term} : AllCounted s es ↔ ∀ e ∈ es, e.Counted s := by
  induction es with
  | nil => simp [AllCounted]
  | cons e es ih => simp [AllCounted, ih]

/-- Inferring an open node gives the type that its sound children make and changes nothing. -/
theorem inferRole_below (proper : s.Proper) {e : Term} (spelled : e.Spelled)
    (counted : e.Counted s) (each : ∀ x ∈ e.children, x.Settles s) {cs : List Marked}
    {made : Option TypeName} (below : e.Below s cs made) (m : Mark) :
    (inferRole s (kids s e.children) e.label (.node e.label m cs)).type = made ∧
      (inferRole s (kids s e.children) e.label (.node e.label m cs)).node =
        .node e.label m cs := by
  unfold inferRole
  cases e with
  | literal kind text =>
    obtain ⟨rfl, rfl⟩ := below
    rw [Role.ofLabel_literal]
    simp only [LiteralKind.typeOf]
    cases Label.literal? (label (.literal kind text)) <;> exact ⟨rfl, rfl⟩
  | load name =>
    obtain ⟨rfl, rfl⟩ := below
    rw [label, Role.ofLabel_load spelled]
    simp only [inferLoad]
    cases s.variableType name <;> exact ⟨rfl, rfl⟩
  | call function args =>
    obtain ⟨below, rfl⟩ := below
    rw [label, Role.ofLabel_call spelled.1]
    simp only [inferCall, checkCall, counted.1, Bool.not_true, Bool.false_eq_true, if_false,
      true_and]
    exact checkArguments_sound each (fun p => proper.parameters) below [] [] rfl
  | index base position =>
    obtain ⟨b, p, array, at_, rfl, soundB, soundP, _, rfl⟩ := below
    obtain ⟨answerB, staysB⟩ := each base List.mem_cons_self b array soundB
    obtain ⟨answerP, staysP⟩ := each position (by simp [children]) p at_ soundP
    rw [label, Role.ofLabel_index]
    simp only [inferIndex, children, kids, Tree.children_node, List.length_cons, List.length_nil,
      inferChild_first, inferChild_second, answerB, staysB, answerP, staysP, elementType]
    cases array with
    | none => exact ⟨rfl, rfl⟩
    | some type => cases h : type.isArray <;> simp [h]
  | binary op left right =>
    obtain ⟨a, b, l, r, rfl, soundA, soundB, held, rfl⟩ := below
    have answerA := each left List.mem_cons_self a l soundA
    have answerB := each right (by simp [children]) b r soundB
    exact inferRole_operator op answerA answerB (Sound.mem_answers proper soundA) held _ m
  | unary op operand =>
    obtain ⟨a, type, rfl, sound, rfl⟩ := below
    obtain ⟨answer, stays⟩ := each operand List.mem_cons_self a type sound
    rw [label, UnaryOp.ofLabel_text]
    cases op <;> simp [UnaryOp.role, UnaryOp.resultType, inferNegation, inferInversion, children, kids, answer,
        stays]

theorem Counted.children {e : Term} (counted : e.Counted s) : ∀ x ∈ e.children, x.Counted s := by
  cases e with
  | literal | load => exact List.forall_mem_nil _
  | call function args => exact allCounted_iff.mp counted.2.2
  | index base position | binary op left right | unary op operand =>
    simpa [Term.children, Counted] using counted

/-- A sound term is left as it is. -/
theorem infer_sound (proper : s.Proper) {e : Term} (spelled : e.Spelled) (counted : e.Counted s) :
    e.Settles s := by
  induction e using children_induction with
  | step e ih =>
    intro t type sound
    obtain ⟨l, m, cs⟩ := t
    obtain ⟨rfl, made, below, gives⟩ := sound
    have each := fun x inside => ih x inside (spelled.children x inside) (counted.children x inside)
    have role := inferRole_below proper spelled counted each below m
    rw [kid_eq]
    simp only [Checker.node]
    rcases gives with ⟨unsettled, rfl⟩ | ⟨settled, rfl, w, typed, _⟩
    · rw [inferNode_open _ _ _ unsettled]
      exact role
    · rw [inferNode_settled _ _ _ settled typed]
      exact ⟨typed.symm, rfl⟩

/-! ### Inferring a fresh term -/

/-- The mark of a node that nothing is known of. -/
def unknownMark : Mark := ⟨none, false⟩

theorem fresh_eq (e : Term) : e.fresh = .node e.label unknownMark (e.children.map fresh) := by
  unfold fresh Marked.unmarked
  rw [tree_eq, Operation.make, Tree.map, Tree.mapAll_eq_map, List.map_map]
  rfl

/-- The first inference makes the term sound. The answer it gives then is the term's own type, or
what that turns into. -/
def Starts (s : Scope) (e : Term) : Prop :=
  ∃ type, e.Sound s ((e.kid s).infer e.fresh).node type ∧ Turns (e.ownType s) type ∧
    ((e.kid s).infer e.fresh).node.note = unknownMark

theorem Turns.mem_answers {own now : Option TypeName} (turns : Turns own now)
    (known : now ∈ answers) : own ∈ answers := by
  rcases turns with rfl | ⟨rfl, _⟩
  · exact known
  · decide

theorem Starts.ownType_mem (proper : s.Proper) {e : Term} (starts : e.Starts s) :
    e.ownType s ∈ answers := by
  obtain ⟨type, sound, turns, _⟩ := starts
  exact Turns.mem_answers turns (sound.mem_answers proper)

/-- A fresh argument comes into its place when it is checked. -/
theorem Starts.asArgument {e : Term} (starts : e.Starts s) {p : Option TypeName}
    (typed : ∃ type, p = some type ∧ type.Proper) :
    ∃ type, e.Sound s (((e.kid s).infer e.fresh).asArgument p) type ∧
      (((e.kid s).infer e.fresh).asArgument p).note.InPlace p (e.ownType s) type ∧
      (e.ownType s = some TypeName.untyped → p.any TypeName.isNumeric →
        (((e.kid s).infer e.fresh).asArgument p).note.settled) := by
  obtain ⟨w, rfl, proper⟩ := typed
  obtain ⟨type, sound, turns, mark⟩ := starts
  unfold ownType at turns ⊢
  generalize (e.kid s).infer e.fresh = r at *
  by_cases bare : r.type = some TypeName.untyped ∧ w.isNumeric
  · have taken : r.asArgument (some w) = r.node.settleAs (some w) := by
      simp [Inference.asArgument, bare.1, bare.2, proper.normalize_eq, TypeName.isUntyped]
    have settles : settledAs (some w) (some TypeName.untyped) = some w := by
      simp [settledAs, bare.2, TypeName.isUntyped_untyped]
    have note : (r.node.settleAs (some w)).note = ⟨some w, true⟩ := by
      rw [Marked.settleAs, Marked.setNote_note, proper.normalize_eq]
    rw [taken, note, bare.1]
    exact ⟨some w, sound.settleAs proper, ⟨.inr settles.symm, fun _ => settles.symm,
      fun unsettled => (by cases unsettled)⟩, fun _ _ => rfl⟩
  · have kept : r.asArgument (some w) = r.node := by
      unfold Inference.asArgument
      cases given : r.type with
      | none => rfl
      | some t =>
        simp only [Option.map_some, proper.normalize_eq]
        rw [if_neg]
        simpa [given, TypeName.isUntyped] using bare
    have resolves : settledAs (some w) r.type = r.type.map TypeName.resolve := by
      cases given : r.type with
      | none => rfl
      | some t =>
        simp only [settledAs, Option.map_some]
        rw [if_neg]
        simpa [given, TypeName.isUntyped] using bare
    rw [kept, mark]
    refine ⟨type, sound, ⟨.inl rfl, fun settled => (by cases settled),
      fun _ => ⟨turns, resolves⟩⟩, fun own numeric => ?_⟩
    exact absurd ⟨own, by simpa using numeric⟩ bare

/-- The arguments of a call after the first inference. -/
def checkedArgs (s : Scope) (es : List Term) (ps : TypeTable) : List Marked :=
  List.zipWith (fun e p => ((e.kid s).infer e.fresh).asArgument p.2) es ps

theorem checkedArgs_below {es : List Term} (each : ∀ e ∈ es, e.Starts s) {ps : TypeTable}
    (typed : ∀ p ∈ ps, ∃ type, p.2 = some type ∧ type.Proper) (counted : es.length = ps.length) :
    ArgsBelow s ps es (checkedArgs s es ps) := by
  induction es generalizing ps with
  | nil =>
    obtain rfl : ps = [] := List.eq_nil_of_length_eq_zero counted.symm
    trivial
  | cons e es ih =>
    obtain _ | ⟨p, ps⟩ := ps
    · cases counted
    have ⟨first, others⟩ := List.forall_mem_cons.mp each
    have ⟨typedFirst, typedRest⟩ := List.forall_mem_cons.mp typed
    exact ⟨first.asArgument typedFirst, ih others typedRest (Nat.succ.inj counted)⟩

theorem checkArguments_fresh (function l : String) (m : Mark) {es : List Term} {ps : TypeTable}
    (counted : es.length = ps.length) (before : List Checker) (pre : List Marked)
    (same : before.length = pre.length) :
    (checkArguments (before ++ kids s es) function pre.length ps
      (.node l m (pre ++ es.map fresh))).2 = .node l m (pre ++ checkedArgs s es ps) := by
  induction es generalizing ps before pre with
  | nil =>
    obtain rfl : ps = [] := List.eq_nil_of_length_eq_zero counted.symm
    rfl
  | cons e es ih =>
    obtain _ | ⟨p, ps⟩ := ps
    · cases counted
    have rest := ih (Nat.succ.inj counted) (before ++ [e.kid s])
      (pre ++ [((e.kid s).infer e.fresh).asArgument p.2]) (by simp [same])
    have step : (checkArgument (before ++ e.kid s :: kids s es) function pre.length p
        (.node l m (pre ++ e.fresh :: es.map fresh))).2 =
          .node l m (pre ++ ((e.kid s).infer e.fresh).asArgument p.2 :: es.map fresh) :=
      checkArgument_at (e.kid s) e.fresh same function p
    have inside : pre.length < (Tree.node l m (pre ++ e.fresh :: es.map fresh)).children.length := by
      simp
    rw [List.map_cons, checkArguments, if_pos inside]
    simpa [step, kids, checkedArgs] using rest

theorem taking_mem_answers {both answer : Option TypeName} (typed : ∀ c ∈ both, c.Proper)
    (known : answer ∈ answers) : taking both answer ∈ answers := by
  unfold taking
  split
  · cases both with
    | none => exact known
    | some c => exact mem_answers_of_known fun t is => Option.mem_some_iff.mp is ▸ (typed c rfl).known
  · exact known

theorem numericType_eq (l r : Option TypeName) : numericType l r =
    (if allowed .numbers l && allowed .numbers r then (TypeName.unify l r).or l else none).map
      TypeName.resolve := by
  unfold numericType
  split <;> rfl

/-- The check of two operands, each of which inference has made sound, makes them hold the common
type. -/
theorem checkBinary_sound (proper : s.Proper) {left right : Term} {a b : Marked} (op : String)
    (o : Operands) {ra rb : Inference} (first : (left.kid s).infer a = ra)
    (second : (right.kid s).infer b = rb) {l r : Option TypeName}
    (soundA : left.Sound s ra.node l) (turnsA : Turns ra.type l)
    (soundB : right.Sound s rb.node r) (turnsB : Turns rb.type r) {label : String} {m : Mark}
    {check : BinaryCheck}
    (run : checkBinary [left.kid s, right.kid s] op o (.node label m [a, b]) = check) :
    ∃ a' b' l' r', check.node = .node label m [a', b'] ∧
      left.Sound s a' l' ∧ right.Sound s b' r' ∧ Held o l' r' ∧
      ((o = .numbers ∨ o = .integers) →
        numericType l' r' = (TypeName.firstOf check.left check.right).map TypeName.resolve) := by
  have knownA := Turns.mem_answers turnsA (soundA.mem_answers proper)
  have knownB := Turns.mem_answers turnsB (soundB.mem_answers proper)
  have typed : ∀ c ∈ common o ra.type rb.type, c.Proper := fun c => proper_common knownA knownB
  obtain ⟨node, types, -⟩ := checkBinary_pair _ _ label m a b op o first second run
  obtain ⟨l', soundA', growsA⟩ := soundA.taking turnsA typed
  obtain ⟨r', soundB', growsB⟩ := soundB.taking turnsB typed
  have knownA' := taking_mem_answers typed knownA
  have knownB' := taking_mem_answers typed knownB
  have held : Held o _ _ := held_taking knownA knownB
  refine ⟨_, _, l', r', node, soundA', soundB', held_growths knownA' knownB' held growsA growsB, ?_⟩
  rw [types knownA]
  rintro (rfl | rfl)
  all_goals
    rw [numericType_growths knownA' knownB' held growsA growsB]
    exact (numericType_taking knownA knownB).trans (numericType_eq ra.type rb.type)

/-- The first inference of an operation on two operands. -/
theorem inferRole_fresh_operator (proper : s.Proper) (op : Operator) {left right : Term}
    (startsA : left.Starts s) (startsB : right.Starts s) (settlesA : left.Settles s)
    (settlesB : right.Settles s) (label : String) (m : Mark) {run : Inference}
    (h : inferRole s [left.kid s, right.kid s] op.1.text
      (.node label m [left.fresh, right.fresh]) = run) :
    ∃ cs made, run.node = .node label m cs ∧ (binary op left right).Below s cs made ∧
      Turns run.type made := by
  obtain ⟨l, soundA, turnsA, _⟩ := startsA
  obtain ⟨r, soundB, turnsB, _⟩ := startsB
  unfold inferRole at h
  rw [BinaryOp.ofLabel_text] at h
  have made {l' r' : Option TypeName} (numeric : op.1.role = .arithmetic ∨ op.1.role = .bitwise) :
      op.1.resultType l' r' = numericType l' r' := by
    rcases numeric with role | role <;> simp only [BinaryOp.resultType, role]
  have truth {l' r' : Option TypeName} (other : op.1.role = .logical ∨ op.1.role = .comparison) :
      op.1.resultType l' r' = some "bool" := by
    rcases other with role | role <;> simp only [BinaryOp.resultType, role]
  rcases operator_cases op with ⟨role, o⟩ | ⟨role, o⟩ | ⟨role, o⟩ | ⟨role, o⟩
  · -- the operands are inferred on their own first, so the check finds them sound already
    obtain ⟨answerA, nodeA⟩ := settlesA _ l soundA
    obtain ⟨answerB, nodeB⟩ := settlesB _ r soundB
    simp only [role] at h
    obtain ⟨kept, type, -⟩ := inferArithmetic_pair _ _ label m _ _ op.1.text rfl h
    have turns : Turns run.type _ := type.imp Eq.symm And.left
    obtain ⟨a', b', l', r', node, soundA', soundB', held, types⟩ :=
      checkBinary_sound proper op.1.text .numbers rfl rfl (by rwa [nodeA]) (.inl answerA.symm)
        (by rwa [nodeB]) (.inl answerB.symm) rfl
    rw [← types (.inl rfl), ← made (.inl role)] at turns
    exact ⟨[a', b'], _, kept.trans node, ⟨a', b', l', r', rfl, soundA', soundB', o ▸ held, rfl⟩,
      turns⟩
  · obtain ⟨a', b', l', r', node, soundA', soundB', held, types⟩ :=
      checkBinary_sound proper op.1.text .integers rfl rfl soundA turnsA soundB turnsB rfl
    simp only [role, inferBitwise] at h
    subst h
    refine ⟨[a', b'], _, node, ⟨a', b', l', r', rfl, soundA', soundB', o ▸ held, rfl⟩, .inl ?_⟩
    rw [made (.inr role), types (.inr rfl)]
  · obtain ⟨a', b', l', r', node, soundA', soundB', held, -⟩ :=
      checkBinary_sound proper op.1.text .truthValues rfl rfl soundA turnsA soundB turnsB rfl
    simp only [role, inferTruth] at h
    subst h
    exact ⟨[a', b'], _, node, ⟨a', b', l', r', rfl, soundA', soundB', o ▸ held, rfl⟩,
      .inl (truth (.inl role))⟩
  · obtain ⟨a', b', l', r', node, soundA', soundB', held, -⟩ :=
      checkBinary_sound proper op.1.text .comparable rfl rfl soundA turnsA soundB turnsB rfl
    simp only [role, inferTruth] at h
    subst h
    exact ⟨[a', b'], _, node, ⟨a', b', l', r', rfl, soundA', soundB', o ▸ held, rfl⟩,
      .inl (truth (.inr role))⟩

theorem inferRole_fresh (proper : s.Proper) {e : Term} (spelled : e.Spelled)
    (counted : e.Counted s) (starts : ∀ x ∈ e.children, x.Starts s)
    (settles : ∀ x ∈ e.children, x.Settles s) (m : Mark) {run : Inference}
    (h : inferRole s (kids s e.children) e.label (.node e.label m (e.children.map fresh)) = run) :
    ∃ cs made, run.node = .node e.label m cs ∧ e.Below s cs made ∧ Turns run.type made := by
  cases e with
  | literal kind text | load name =>
    have stays := inferRole_below proper spelled counted settles ⟨rfl, rfl⟩ m
    exact ⟨[], _, h ▸ stays.2, ⟨rfl, rfl⟩, .inl (h ▸ stays.1).symm⟩
  | call function args =>
    have node := checkArguments_fresh (s := s) function (label (.call function args)) m counted.2.1
      [] [] rfl
    have below := checkedArgs_below starts (fun p => proper.parameters) counted.2.1
    unfold inferRole at h
    rw [label, Role.ofLabel_call spelled.1] at h
    simp only [inferCall, checkCall, counted.1, Bool.not_true, Bool.false_eq_true, if_false] at h
    subst h
    exact ⟨_, _, node, ⟨below, rfl⟩, .inl rfl⟩
  | index base position =>
    obtain ⟨array, soundB, turnsB, _⟩ := starts base List.mem_cons_self
    obtain ⟨at_, soundP, turnsP, mark⟩ := starts position (by simp [children])
    have place : ((position.kid s).infer position.fresh).node.note.InPlace (some "int")
        (position.ownType s) at_ := by
      rw [mark]
      exact ⟨.inl rfl, fun settled => (by cases settled), fun _ => ⟨turnsP, settledAs_int _⟩⟩
    have element : elementType array = elementType (base.ownType s) := by
      rcases turnsB with rfl | ⟨own, rfl⟩
      · rfl
      · rw [own]
        decide +kernel
    unfold inferRole at h
    rw [label, Role.ofLabel_index] at h
    simp only [children, kids, List.map_cons, List.map_nil] at h
    obtain ⟨node, type, -⟩ := inferIndex_pair _ _ _ m _ _ h
    refine ⟨_, _, node, ⟨_, _, array, at_, rfl, soundB, soundP, place, rfl⟩, .inl ?_⟩
    rw [element, type]
    rfl
  | binary op left right =>
    exact inferRole_fresh_operator proper op (starts left List.mem_cons_self)
      (starts right (by simp [children])) (settles left List.mem_cons_self)
      (settles right (by simp [children])) _ m h
  | unary op operand =>
    obtain ⟨type, sound, turns, _⟩ := starts operand List.mem_cons_self
    unfold inferRole at h
    rw [label, UnaryOp.ofLabel_text] at h
    cases op with
    | not =>
      simp only [UnaryOp.role, inferNegation, children, kids, List.map_cons, List.map_nil, Tree.children_node, List.length_cons,
        List.length_nil, inferChild_only, ne_eq, not_true_eq_false, if_false] at h
      subst h
      exact ⟨_, _, rfl, ⟨_, type, rfl, sound, rfl⟩, .inl rfl⟩
    | invert =>
      simp only [UnaryOp.role, inferInversion, children, kids, List.map_cons, List.map_nil, Tree.children_node, List.length_cons,
        List.length_nil, inferChild_only, ne_eq, not_true_eq_false, if_false] at h
      subst h
      exact ⟨_, _, rfl, ⟨_, type, rfl, sound, rfl⟩, turns⟩

/-- Nothing is settled in a fresh term. -/
theorem infer_fresh_eq (e : Term) : (e.kid s).infer e.fresh = inferRole s (kids s e.children)
    e.label (.node e.label unknownMark (e.children.map fresh)) := by
  have unsettled : (Tree.node e.label unknownMark (e.children.map fresh)).note.settled = false := rfl
  rw [kid_eq, fresh_eq]
  exact inferNode_open s _ _ unsettled

/-- A fresh term becomes sound when it is inferred. -/
theorem infer_fresh (proper : s.Proper) {e : Term} (spelled : e.Spelled) (counted : e.Counted s) :
    e.Starts s := by
  induction e using children_induction with
  | step e ih =>
    have starts := fun x inside => ih x inside (spelled.children x inside) (counted.children x inside)
    have settles := fun x inside =>
      infer_sound proper (spelled.children x inside) (counted.children x inside)
    obtain ⟨cs, made, node, below, turns⟩ :=
      inferRole_fresh proper spelled counted starts settles unknownMark rfl
    unfold Starts ownType
    rw [infer_fresh_eq, node]
    exact ⟨made, ⟨rfl, made, below, .inl ⟨rfl, rfl⟩⟩, turns, rfl⟩

end Term

end MethodLang
