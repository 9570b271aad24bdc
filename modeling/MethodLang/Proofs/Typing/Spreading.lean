import MethodLang.Proofs.Typing.Inferring

/-!
Settling marked terms. Settling a term and all below it keeps it sound; the type in which it ends
up is decided by the answer it gave (`Term.spreads`).
-/
namespace MethodLang

open Checker

variable {s : Scope}

namespace Checker

variable (kid kid' : Checker) (l : String) (m : Mark) (a b : Marked)

end Checker

/-- The mark of a node that is settled, if it has an answer. -/
def Mark.settledIn (m : Mark) (type : Option TypeName) : Mark :=
  match type with
  | some type => ⟨some type, true⟩
  | none => m

/-- Settling a node in the type its place asks for keeps it in its place. -/
theorem Mark.InPlace.settle {m : Mark} {wanted own now made : Option TypeName}
    (place : m.InPlace wanted own now) (gives : m.Gives made now) :
    (m.settledIn (settledAs wanted now)).InPlace wanted own (settledAs wanted now) := by
  cases now with
  | none => exact place
  | some type =>
    have same : settledAs wanted (some type) = settledAs wanted own := by
      rcases gives with ⟨unsettled, _⟩ | ⟨settled, typed, u, same, proper⟩
      · obtain ⟨turns, resolves⟩ := place.open_ unsettled
        rcases turns with rfl | ⟨rfl, int⟩
        · rfl
        · rw [int, settledAs_of_proper _ TypeName.proper_int, resolves]
          simp [TypeName.resolve_untyped]
      · rw [← place.settled settled, ← typed]
        obtain rfl : type = u := by simpa [same] using typed
        exact settledAs_of_proper _ proper
    obtain ⟨u, settles⟩ := settledAs_some wanted type
    rw [settles] at same ⊢
    exact ⟨.inr same, fun _ => same, nofun⟩

namespace Term

/-- Settling a term, and settling what is below it, keep it sound. -/
structure Spreads (s : Scope) (e : Term) : Prop where
  settle : ∀ {t type} wanted, e.Sound s t type →
    e.Sound s ((e.kid s).settle wanted t) (settledAs (wanted.map TypeName.normalize) type) ∧
      ((e.kid s).settle wanted t).note =
        t.note.settledIn (settledAs (wanted.map TypeName.normalize) type)
  spread : ∀ {t type} wanted, e.Sound s t type →
    ∃ type' ∈ growths type, e.Sound s ((e.kid s).spread wanted t) type' ∧
      ((e.kid s).spread wanted t).note = t.note
  settleFresh : ∀ wanted, ∃ type, e.Sound s ((e.kid s).settle wanted e.fresh) type ∧
    type ≠ some TypeName.untyped

theorem spreadArguments_sound {l : String} {m : Mark} {es : List Term}
    (each : ∀ e ∈ es, e.Spreads s) {ps : TypeTable}
    (typed : ∀ p ∈ ps, ∃ type, p.2 = some type ∧ type.Proper) {cs : List Marked}
    (below : ArgsBelow s ps es cs) (before : List Checker) (pre : List Marked)
    (same : before.length = pre.length) :
    ∃ cs', spreadArguments (before ++ kids s es) pre.length ps (.node l m (pre ++ cs)) =
      .node l m (pre ++ cs') ∧ ArgsBelow s ps es cs' := by
  induction below using ArgsBelow.induction generalizing before pre with
  | nil => exact ⟨[], rfl, trivial⟩
  | @cons p ps e es c cs type sound place taken rest ih =>
    have ⟨first, others⟩ := List.forall_mem_cons.mp each
    have ⟨⟨w, wanted, proper⟩, typedRest⟩ := List.forall_mem_cons.mp typed
    obtain ⟨name, _⟩ := p
    subst wanted
    obtain ⟨cs', run, below⟩ := ih others typedRest (before ++ [e.kid s])
      (pre ++ [(e.kid s).settle (some w) c]) (by simp [same])
    refine ⟨(e.kid s).settle (some w) c :: cs', ?_, ?_, below⟩
    · have given : given? (some w) = some w := by
        simp [given?, Option.filter, proper.not_isEmpty]
      have step : settleChild (before ++ e.kid s :: kids s es) (some w) pre.length
          (.node l m (pre ++ c :: cs)) = .node l m (pre ++ (e.kid s).settle (some w) c :: cs) :=
        onChild_at (e.kid s) c same _
      rw [spreadArguments]
      simp only [given, kids, step]
      simpa using run
    · obtain ⟨settled, note⟩ := first.settle (some w) sound
      obtain ⟨made, _, gives⟩ := sound.2
      rw [Option.map_some, proper.normalize_eq] at settled note
      refine ⟨_, settled, note ▸ place.settle gives, fun bare numeric => ?_⟩
      rw [note]
      have already := taken bare numeric
      cases settledAs (some w) type with
      | none => exact already
      | some u => rfl

theorem spreadOperands_sound (proper : s.Proper) {left right : Term} (spreadsA : left.Spreads s)
    (spreadsB : right.Spreads s) (settlesA : left.Settles s) (settlesB : right.Settles s)
    {a b : Marked} {l r : Option TypeName} (soundA : left.Sound s a l)
    (soundB : right.Sound s b r) (label : String) (m : Mark) :
    ∃ a' b' l' r', spreadOperands [left.kid s, right.kid s] (.node label m [a, b]) =
        .node label m [a', b'] ∧
      left.Sound s a' l' ∧ right.Sound s b' r' ∧ l' ∈ growths l ∧ r' ∈ growths r := by
  obtain ⟨answerA, nodeA⟩ := settlesA a l soundA
  obtain ⟨answerB, nodeB⟩ := settlesB b r soundB
  have knownA := soundA.mem_answers proper
  have knownB := soundB.mem_answers proper
  simp only [spreadOperands, inferChild_first, inferChild_second, Tree.children_node,
    List.length_cons, List.length_nil, ne_eq, not_true_eq_false, if_false, answerA, nodeA, answerB,
    nodeB]
  cases given? (TypeName.unify l r) with
  | none => exact ⟨a, b, l, r, rfl, soundA, soundB, mem_growths_self l, mem_growths_self r⟩
  | some c =>
    exact ⟨_, _, _, _, rfl, (spreadsA.settle (some c) soundA).1,
      (spreadsB.settle (some c) soundB).1, settledAs_growths _ knownA, settledAs_growths _ knownB⟩

/-- Operands whose types have grown make the same type as before. -/
theorem below_growths (proper : s.Proper) {op : Operator} {left right : Term} {a b a' b' : Marked}
    {l r l' r' : Option TypeName} (soundA : left.Sound s a l) (soundB : right.Sound s b r)
    (held : Held op.1.operands l r) (soundA' : left.Sound s a' l') (soundB' : right.Sound s b' r')
    (growsA : l' ∈ growths l) (growsB : r' ∈ growths r) :
    (binary op left right).Below s [a', b'] (op.1.resultType l r) := by
  have knownA := soundA.mem_answers proper
  have knownB := soundB.mem_answers proper
  refine ⟨a', b', l', r', rfl, soundA', soundB', held_growths knownA knownB held growsA growsB, ?_⟩
  unfold BinaryOp.resultType
  rcases operator_cases op with ⟨role, o⟩ | ⟨role, o⟩ | ⟨role, o⟩ | ⟨role, o⟩
  · rw [o] at held
    simp only [role]
    exact (numericType_growths knownA knownB held growsA growsB).symm
  · rw [o] at held
    simp only [role]
    exact (numericType_growths knownA knownB held growsA growsB).symm
  · simp only [role]
  · simp only [role]

/-- Settling what is below a node keeps it sound. -/
theorem spreadNode_below (proper : s.Proper) {e : Term} (spelled : e.Spelled)
    (each : ∀ x ∈ e.children, x.Spreads s) (settles : ∀ x ∈ e.children, x.Settles s)
    {cs : List Marked} {made : Option TypeName} (below : e.Below s cs made) (m : Mark)
    (type : Option TypeName) :
    ∃ cs' made', spreadNode s (kids s e.children) e.label type (.node e.label m cs) =
      .node e.label m cs' ∧ e.Below s cs' made' ∧ made' ∈ growths made := by
  have same : made ∈ growths made := mem_growths_self made
  unfold spreadNode
  cases e with
  | literal kind text | load name =>
    obtain ⟨rfl, rfl⟩ := below
    exact ⟨[], _, rfl, ⟨rfl, rfl⟩, same⟩
  | call function args =>
    obtain ⟨below, rfl⟩ := below
    rw [label, Role.ofLabel_call spelled.1]
    by_cases empty : cs = []
    · subst empty
      exact ⟨[], _, rfl, ⟨below, rfl⟩, same⟩
    · obtain ⟨cs', run, below⟩ := spreadArguments_sound each (fun p => proper.parameters) below
        [] [] rfl
      simp only [Tree.children_node, List.isEmpty_eq_false_iff.mpr empty, Bool.false_eq_true,
        if_false]
      exact ⟨cs', _, run, ⟨below, rfl⟩, same⟩
  | index base position =>
    obtain ⟨b, p, array, at_, rfl, soundB, soundP, place, rfl⟩ := below
    rw [label, Role.ofLabel_index]
    obtain ⟨array', grows, spreadB, _⟩ := (each base List.mem_cons_self).spread none soundB
    obtain ⟨settledP, note⟩ := (each position (by simp [children])).settle (some "int") soundP
    obtain ⟨_, _, gives⟩ := soundP.2
    have int : TypeName.normalize "int" = "int" := TypeName.proper_int.normalize_eq
    rw [Option.map_some, int] at settledP note
    refine ⟨[_, _], _, rfl, ⟨_, _, array', _, rfl, spreadB, settledP, note ▸ place.settle gives, rfl⟩, ?_⟩
    rw [elementType_growths (Sound.mem_answers proper soundB) grows]
    exact same
  | binary op left right =>
    obtain ⟨a, b, l, r, rfl, soundA, soundB, held, rfl⟩ := below
    rw [label, BinaryOp.ofLabel_text]
    obtain ⟨a', b', l', r', run, soundA', soundB', growsA, growsB⟩ :=
      spreadOperands_sound proper (each left List.mem_cons_self) (each right (by simp [children]))
        (settles left List.mem_cons_self) (settles right (by simp [children])) soundA soundB
        op.1.text m
    have below := below_growths proper soundA soundB held soundA' soundB' growsA growsB
    rcases operator_cases op with ⟨role, o⟩ | ⟨role, o⟩ | ⟨role, o⟩ | ⟨role, o⟩
    · simp only [role]
      exact ⟨[a', b'], _, run, below, same⟩
    · simp only [role]
      exact ⟨[a', b'], _, run, below, same⟩
    · simp only [role]
      exact ⟨[a, b], _, rfl, ⟨a, b, l, r, rfl, soundA, soundB, held, rfl⟩, same⟩
    · simp only [role]
      exact ⟨[a', b'], _, run, below, same⟩
  | unary op operand =>
    obtain ⟨a, inner, rfl, sound, rfl⟩ := below
    rw [label, UnaryOp.ofLabel_text]
    have below := fun wanted => (each operand List.mem_cons_self).settle wanted sound
    cases op with
    | not => exact ⟨[_], _, rfl, ⟨_, _, rfl, (below (some "bool")).1, rfl⟩, same⟩
    | invert =>
      exact ⟨[_], _, rfl, ⟨_, _, rfl, (below type).1, rfl⟩,
        settledAs_growths type (Sound.mem_answers proper sound)⟩

/-- The last steps of settling: the node takes its type, and hands types on to its children. -/
theorem settled_sound (proper : s.Proper) {e : Term} (spelled : e.Spelled)
    (each : ∀ x ∈ e.children, x.Spreads s) (settles : ∀ x ∈ e.children, x.Settles s)
    {t : Marked} {now : Option TypeName} (sound : e.Sound s t now) {type : Option TypeName}
    (typed : ∀ u ∈ type, u.Proper) (missing : type = none → now = none) :
    e.Sound s (spreadNode s (kids s e.children) e.label type (t.settleAs type)) type ∧
      (spreadNode s (kids s e.children) e.label type (t.settleAs type)).note =
        t.note.settledIn type := by
  obtain ⟨l, m, cs⟩ := t
  obtain ⟨rfl, made, below, gives⟩ := sound
  simp only [Tree.children_node, Tree.note_node] at below gives
  have run := fun m => spreadNode_below proper spelled each settles below m type
  cases type with
  | none =>
    obtain ⟨cs', made', node, below', grows⟩ := run m
    have absent' := missing rfl
    subst absent'
    rw [Marked.settleAs, node]
    refine ⟨⟨rfl, made', below', ?_⟩, rfl⟩
    rcases gives with ⟨unsettled, rfl⟩ | ⟨_, untyped, _, typed, _⟩
    · exact .inl ⟨unsettled, (List.mem_singleton.mp grows).symm⟩
    · rw [← untyped] at typed
      cases typed
  | some u =>
    obtain ⟨cs', made', node, below', _⟩ := run ⟨some u, true⟩
    have properU := typed u rfl
    have settled : Marked.settleAs (some u) (.node e.label m cs) =
        .node e.label ⟨some u, true⟩ cs := by
      rw [Marked.settleAs, properU.normalize_eq, Tree.setNote]
    rw [settled, node]
    exact ⟨⟨rfl, made', below', .inr ⟨rfl, rfl, u, rfl, properU⟩⟩, rfl⟩

/-- Whether the node works on numbers. -/
def isNumeric (e : Term) : Bool :=
  Role.ofLabel e.label == .arithmetic || Role.ofLabel e.label == .bitwise

theorem binary_of_isNumeric {e : Term} (spelled : e.Spelled) (numeric : e.isNumeric) :
    ∃ op left right, e = .binary op left right ∧
      (op.1.operands = .numbers ∨ op.1.operands = .integers) := by
  unfold isNumeric at numeric
  cases e with
  | literal kind text =>
    rw [Role.ofLabel_literal] at numeric
    cases numeric
  | load name =>
    rw [label, Role.ofLabel_load spelled] at numeric
    cases numeric
  | call function args =>
    rw [label, Role.ofLabel_call spelled.1] at numeric
    cases numeric
  | index base position =>
    rw [label, Role.ofLabel_index] at numeric
    cases numeric
  | unary op operand =>
    rw [label, UnaryOp.ofLabel_text] at numeric
    cases op <;> cases numeric
  | binary op left right =>
    rw [label, BinaryOp.ofLabel_text] at numeric
    rcases operator_cases op with ⟨_, o⟩ | ⟨_, o⟩ | ⟨role, _⟩ | ⟨role, _⟩
    · exact ⟨op, left, right, rfl, .inl o⟩
    · exact ⟨op, left, right, rfl, .inr o⟩
    · rw [role] at numeric
      cases numeric
    · rw [role] at numeric
      cases numeric

/-- A node whose operands are settled first, where a numeric type is asked for. -/
def pushed (s : Scope) (e : Term) (wanted : Option TypeName) (t : Marked) : Marked :=
  if wanted.any TypeName.isNumeric && e.isNumeric && t.children.length == 2 then
    settleEach (kids s e.children) wanted [0, 1] t
  else t

theorem settle_eq {e : Term} {wanted : Option TypeName} {t node : Marked}
    {answer : Option TypeName}
    (type : ((e.kid s).infer (e.pushed s (wanted.map TypeName.normalize) t)).type = answer)
    (stays : ((e.kid s).infer (e.pushed s (wanted.map TypeName.normalize) t)).node = node) :
    (e.kid s).settle wanted t = spreadNode s (kids s e.children) e.label
      (settledAs (wanted.map TypeName.normalize) answer)
      (node.settleAs (settledAs (wanted.map TypeName.normalize) answer)) := by
  subst type stays
  rw [kid_eq]
  rfl

/-- Settling the operands of a numeric operation first keeps it sound. -/
theorem pushed_sound (proper : s.Proper) {e : Term} (spelled : e.Spelled)
    (each : ∀ x ∈ e.children, x.Spreads s) {t : Marked} {now : Option TypeName}
    (sound : e.Sound s t now) (wanted : Option TypeName) :
    e.Sound s (e.pushed s wanted t) now ∧ (e.pushed s wanted t).note = t.note := by
  unfold pushed
  split
  · rename_i push
    simp only [Bool.and_eq_true] at push
    obtain ⟨op, left, right, rfl, o⟩ := binary_of_isNumeric spelled push.1.2
    obtain ⟨l, m, cs⟩ := t
    obtain ⟨rfl, made, ⟨a, b, l, r, same, soundA, soundB, held, rfl⟩, gives⟩ := sound
    simp only [Tree.children_node] at same
    subst same
    have settledA := ((each left List.mem_cons_self).settle wanted soundA).1
    have settledB := ((each right (by simp [children])).settle wanted soundB).1
    have below := below_growths proper soundA soundB held settledA settledB
      (settledAs_growths wanted (Sound.mem_answers proper soundA))
      (settledAs_growths wanted (Sound.mem_answers proper soundB))
    exact ⟨⟨rfl, _, below, gives⟩, rfl⟩
  · exact ⟨sound, rfl⟩

/-- Settling a sound term. -/
theorem settle_sound (proper : s.Proper) {e : Term} (spelled : e.Spelled) (counted : e.Counted s)
    (each : ∀ x ∈ e.children, x.Spreads s) {t : Marked} {now : Option TypeName}
    (sound : e.Sound s t now) (wanted : Option TypeName) :
    e.Sound s ((e.kid s).settle wanted t) (settledAs (wanted.map TypeName.normalize) now) ∧
      ((e.kid s).settle wanted t).note =
        t.note.settledIn (settledAs (wanted.map TypeName.normalize) now) := by
  obtain ⟨pushedSound, note⟩ :=
    pushed_sound proper spelled each sound (wanted.map TypeName.normalize)
  obtain ⟨answer, node⟩ := infer_sound proper spelled counted _ now pushedSound
  rw [settle_eq answer node, ← note]
  have settles := fun x inside =>
    infer_sound proper (spelled.children x inside) (counted.children x inside)
  refine settled_sound proper spelled each settles pushedSound
    (fun u => settledAs_proper (sound.mem_answers proper)) fun missing => ?_
  cases now with
  | none => rfl
  | some type =>
    obtain ⟨u, settles⟩ := settledAs_some (wanted.map TypeName.normalize) type
    rw [settles] at missing
    cases missing

theorem settledAs_eq_none {wanted answer : Option TypeName} (h : settledAs wanted answer = none) :
    answer = none := by
  cases answer with
  | none => rfl
  | some type =>
    obtain ⟨u, settles⟩ := settledAs_some wanted type
    rw [settles] at h
    cases h

/-- Settling a fresh term. The operands of a numeric operation may be settled before they were
ever inferred, in a type that is not their own. -/
theorem settle_fresh (proper : s.Proper) {e : Term} (spelled : e.Spelled) (counted : e.Counted s)
    (each : ∀ x ∈ e.children, x.Spreads s) (wanted : Option TypeName) :
    ∃ type, e.Sound s ((e.kid s).settle wanted e.fresh) type ∧ type ≠ some TypeName.untyped := by
  have settles := fun x inside =>
    infer_sound proper (spelled.children x inside) (counted.children x inside)
  have finish {t : Marked} {now answer : Option TypeName} (sound : e.Sound s t now)
      (known : answer ∈ answers) (missing : answer = none → now = none)
      (run : ((e.kid s).infer (e.pushed s (wanted.map TypeName.normalize) e.fresh)).type = answer)
      (stays : ((e.kid s).infer (e.pushed s (wanted.map TypeName.normalize) e.fresh)).node = t) :
      ∃ type, e.Sound s ((e.kid s).settle wanted e.fresh) type ∧
        type ≠ some TypeName.untyped := by
    have typed : ∀ u ∈ settledAs (wanted.map TypeName.normalize) answer, u.Proper :=
      fun u => settledAs_proper known
    refine ⟨_, ?_, fun bare => (typed _ bare).ne_untyped rfl⟩
    rw [settle_eq run stays]
    exact (settled_sound proper spelled each settles sound typed
      fun absent => missing (settledAs_eq_none absent)).1
  by_cases push : (wanted.map TypeName.normalize).any TypeName.isNumeric && e.isNumeric
  · obtain ⟨op, left, right, rfl, -⟩ := binary_of_isNumeric spelled (Bool.and_eq_true_iff.mp push).2
    generalize wanted.map TypeName.normalize = w at push finish
    have pushed : (binary op left right).pushed s w (binary op left right).fresh =
        .node op.1.text unknownMark
          [(left.kid s).settle w left.fresh, (right.kid s).settle w right.fresh] := by
      rw [Term.pushed, fresh_eq, push]
      rfl
    obtain ⟨l, soundA, typedA⟩ := (each left List.mem_cons_self).settleFresh w
    obtain ⟨r, soundB, typedB⟩ := (each right (by simp [children])).settleFresh w
    have sound : (binary op left right).Sound s (.node op.1.text unknownMark
        [(left.kid s).settle w left.fresh, (right.kid s).settle w right.fresh])
        (op.1.resultType l r) :=
      ⟨rfl, _, ⟨_, _, l, r, rfl, soundA, soundB, fun _ => ⟨typedA, typedB⟩, rfl⟩, .inl ⟨rfl, rfl⟩⟩
    obtain ⟨answer, node⟩ := infer_sound proper spelled counted _ _ sound
    exact finish sound (sound.mem_answers proper) id (pushed ▸ answer) (pushed ▸ node)
  · have unpushed : e.pushed s (wanted.map TypeName.normalize) e.fresh = e.fresh := by
      simp only [pushed]
      rw [if_neg]
      intro both
      exact push (Bool.and_eq_true_iff.mp both).1
    obtain ⟨now, sound, turns, _⟩ := infer_fresh proper spelled counted
    refine finish sound (Turns.mem_answers turns (sound.mem_answers proper)) ?_
      (by rw [unpushed]; rfl) (by rw [unpushed])
    intro missing
    rcases turns with rfl | ⟨bare, _⟩
    · exact missing
    · rw [missing] at bare
      cases bare

theorem spreads (proper : s.Proper) {e : Term} (spelled : e.Spelled) (counted : e.Counted s) :
    e.Spreads s := by
  induction e using children_induction with
  | step e ih =>
    have each := fun x inside => ih x inside (spelled.children x inside) (counted.children x inside)
    have settles := fun x inside =>
      infer_sound proper (spelled.children x inside) (counted.children x inside)
    refine ⟨fun wanted sound => settle_sound proper spelled counted each sound wanted, ?_,
      settle_fresh proper spelled counted each⟩
    intro t type wanted sound
    obtain ⟨l, m, cs⟩ := t
    obtain ⟨rfl, made, below, gives⟩ := sound
    obtain ⟨cs', made', node, below', grows⟩ :=
      spreadNode_below proper spelled each settles below m wanted
    have run : (e.kid s).spread wanted (.node e.label m cs) = .node e.label m cs' := by
      rw [kid_eq]
      exact node
    rw [run]
    rcases gives with ⟨unsettled, rfl⟩ | settled
    · exact ⟨made', grows, ⟨rfl, made', below', .inl ⟨unsettled, rfl⟩⟩, rfl⟩
    · exact ⟨type, mem_growths_self type, ⟨rfl, made', below', .inr settled⟩, rfl⟩

end Term

end MethodLang
