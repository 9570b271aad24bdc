import MethodLang.Proofs.Tree.Related
import MethodLang.Proofs.Typing.Canonical
import MethodLang.Typing.Checker

/-!
What the checker does to a node. It asks, settles and marks the children one after the other; that
is all that inference and settling change below a node (`inferNode_moves`, `spreadNode_moves`). What
each of these moves keeps is kept by the checker: the node's own mark (`inferNode_note`), labels and
children (`Marked.assign_bare`).
-/
namespace MethodLang

open Checker

namespace TypeName

/-- A type in which a node can be settled: canonical, and not that of a bare number. -/
def Fixed (t : TypeName) : Prop := normalize t = t ∧ t ≠ untyped

theorem Fixed.isUntyped_eq {t : TypeName} (fixed : t.Fixed) : isUntyped t = false := by
  rw [isUntyped, beq_eq_false_iff_ne]
  exact fixed.2

theorem Fixed.resolve_eq {t : TypeName} (fixed : t.Fixed) : resolve t = t := by
  rw [resolve, fixed.1, if_neg fixed.2]

theorem fixed_resolve (t : TypeName) : (resolve t).Fixed := by
  unfold resolve
  simp only
  split
  · exact ⟨by decide +kernel, by decide⟩
  · exact ⟨normalize_normalize t, ‹_›⟩

theorem fixed_numeric {t : TypeName} (numeric : isNumeric (normalize t) = true) :
    (normalize t).Fixed := by
  refine ⟨normalize_normalize t, fun bare => ?_⟩
  rw [bare] at numeric
  exact absurd numeric (by decide)

theorem fixed_unify {l r common : TypeName} (unified : unify (some l) (some r) = some common) :
    common.Fixed :=
  (unify_canonical unified).imp normalize_of_canonical id

end TypeName

theorem Marked.settleAs_bare (type : Option TypeName) (t : Marked) :
    (t.settleAs type).bare = t.bare := by
  cases type with
  | none => rfl
  | some type => exact Tree.bare_setNote _ t

namespace Checker

variable {kids : List Checker} {t₀ t : Marked}

theorem inferChild_node (i : Nat) (t : Marked) :
    (inferChild kids i t).node = onChild kids i (fun kid c => (kid.infer c).node) t := by
  unfold inferChild onChild
  split <;> rfl

/-- What can become of a node while its children are looked at. A child is marked in a fixed type,
and only if nothing but a bare number was known of it. -/
inductive Moves (kids : List Checker) (t₀ : Marked) : Marked → Prop
  | start : Moves kids t₀ t₀
  | infer {t : Marked} (i : Nat) (moves : Moves kids t₀ t) :
    Moves kids t₀ (inferChild kids i t).node
  | settle {t : Marked} (type : Option TypeName) (i : Nat) (moves : Moves kids t₀ t) :
    Moves kids t₀ (settleChild kids type i t)
  | spread {t : Marked} (i : Nat) (moves : Moves kids t₀ t) :
    Moves kids t₀ (onChild kids i (fun kid => kid.spread none) t)
  | mark {t' t : Marked} {i : Nat} {v type : TypeName} (known : Moves kids t₀ t')
    (typed : (inferChild kids i t').type = some v) (bare : TypeName.isUntyped v = true)
    (fixed : type.Fixed) (moves : Moves kids t₀ t) : Moves kids t₀ (markChild (some type) i t)

theorem Moves.markIf {t' : Marked} {i : Nat} {v type : TypeName} (moves : Moves kids t₀ t)
    (known : Moves kids t₀ t') (typed : (inferChild kids i t').type = some v)
    (fixed : type.Fixed) :
    Moves kids t₀ (if TypeName.isUntyped v then markChild (some type) i t else t) := by
  split
  · exact .mark known typed ‹_› fixed moves
  · exact moves

section
variable (moves : Moves kids t₀ t)
include moves

theorem settleEach_moves (type : Option TypeName) (indices : List Nat) :
    Moves kids t₀ (settleEach kids type indices t) := by
  unfold settleEach
  induction indices generalizing t with
  | nil => exact moves
  | cons i rest ih => exact ih (moves.settle type i)

/-! ### Inference -/

theorem inferEach_moves (indices : List Nat) : Moves kids t₀ (inferEach kids indices t).2 := by
  induction indices generalizing t with
  | nil => exact moves
  | cons i rest ih => exact ih (moves.infer i)

theorem checkArgument_moves (function : String) (i : Nat) (parameter : String × Option TypeName) :
    Moves kids t₀ (checkArgument kids function i parameter t).2 := by
  unfold checkArgument
  simp only
  split
  · rename_i typed declared
    split
    · rename_i takes
      obtain ⟨bare, numeric⟩ := Bool.and_eq_true_iff.mp takes
      obtain ⟨raw, _, rfl⟩ := Option.map_eq_some_iff.mp declared
      exact .mark moves typed bare (TypeName.fixed_numeric numeric) (moves.infer i)
    · split <;> exact moves.infer i
  · exact moves.infer i

theorem checkArguments_moves (function : String) (i : Nat) (parameters : TypeTable) :
    Moves kids t₀ (checkArguments kids function i parameters t).2 := by
  induction parameters generalizing i t with
  | nil => exact moves
  | cons p rest ih =>
    rw [checkArguments]
    split
    · exact ih (checkArgument_moves moves function i p) _
    · exact moves

theorem inferCall_moves (s : Scope) (label : String) (name : Option String) :
    Moves kids t₀ (inferCall s kids label name t).node := by
  cases name with
  | none => exact moves
  | some function =>
    simp only [inferCall, checkCall]
    split
    · exact inferEach_moves moves _
    · exact checkArguments_moves moves function 0 _

theorem inferStore_moves (s : Scope) (name : Option String) :
    Moves kids t₀ (inferStore s kids name t).node := by
  have inferred (expected : TypeName) : Moves kids t₀ (inferChild kids 0
      (if TypeName.isNumeric expected then settleChild kids (some expected) 0 t else t)).node := by
    split
    · exact (moves.settle _ 0).infer 0
    · exact moves.infer 0
  unfold inferStore
  split
  · exact moves
  split
  · exact moves
  split
  · exact moves
  · simp only
    split <;> exact inferred _

theorem inferIndices_moves (use : ValueUse) (indices : List Nat) :
    Moves kids t₀ (inferIndices kids use indices t).2 := by
  induction indices generalizing t with
  | nil => exact moves
  | cons i rest ih => exact ih (moves.infer i)

theorem inferElements_moves (array : String) {element : Option TypeName}
    (fixed : ∀ e ∈ element, TypeName.isNumeric e = true → e.Fixed) :
    Moves kids t₀ (inferElements kids array element t).node := by
  have indices := inferIndices_moves moves (.storedIndex array) (List.range (t.children.length - 1))
  have value := indices.infer (t.children.length - 1)
  unfold inferElements
  simp only
  split
  · rename_i given expected typed
    split
    · rename_i takes
      obtain ⟨bare, numeric⟩ := Bool.and_eq_true_iff.mp takes
      exact .mark indices typed bare (fixed expected rfl numeric) value
    · split <;> exact value
  · exact value

theorem inferStoreAt_moves (s : Scope) (name : Option String) :
    Moves kids t₀ (inferStoreAt s kids name t).node := by
  unfold inferStoreAt
  split
  · exact moves
  split
  · exact moves
  split
  · exact moves
  split
  · exact moves
  split
  · exact moves
  · refine inferElements_moves moves _ fun e is numeric => ?_
    obtain ⟨raw, _, rfl⟩ := Option.map_eq_some_iff.mp is
    exact TypeName.fixed_numeric numeric

theorem inferIndex_moves : Moves kids t₀ (inferIndex kids t).node := by
  have inferred := (moves.infer 0).infer 1
  unfold inferIndex
  split
  · exact moves
  · simp only
    split
    · exact inferred
    · split <;> exact inferred

theorem checkBinary_moves (op : String) (operands : Operands) :
    Moves kids t₀ (checkBinary kids op operands t).node := by
  have left := moves.infer 0
  have right := left.infer 1
  unfold checkBinary
  split
  · exact moves
  simp only
  split
  · exact right
  split
  · rename_i l r typedLeft typedRight
    split
    · exact right
    · rename_i common unified
      have fixed := TypeName.fixed_unify unified
      exact (right.markIf moves typedLeft fixed).markIf left typedRight fixed
  · exact right

theorem inferArithmetic_moves (op : String) : Moves kids t₀ (inferArithmetic kids op t).node := by
  have checked := checkBinary_moves ((moves.infer 0).infer 1) op .numbers
  unfold inferArithmetic
  split
  · exact moves
  · simp only
    split
    · exact checked
    · split <;> exact checked

theorem inferUnary_moves (op : String) :
    Moves kids t₀ (inferNegation kids op t).node ∧ Moves kids t₀ (inferInversion kids op t).node := by
  unfold inferNegation inferInversion
  constructor <;> split <;> first | exact moves | exact moves.infer 0

theorem inferNode_moves (s : Scope) (label : String) :
    Moves kids t₀ (inferNode s kids label t).node := by
  unfold inferNode
  split
  · exact moves
  unfold inferRole
  split
  · unfold inferConst
    split <;> exact moves
  · unfold inferLoad
    split
    · split <;> exact moves
    · exact moves
  · exact inferCall_moves moves s label _
  · exact inferStore_moves moves s _
  · exact inferStoreAt_moves moves s _
  · exact inferIndex_moves moves
  · exact inferArithmetic_moves moves label
  · exact checkBinary_moves moves label .integers
  · exact checkBinary_moves moves label .truthValues
  · exact checkBinary_moves moves label .comparable
  · exact (inferUnary_moves moves label).1
  · exact (inferUnary_moves moves label).2
  · exact moves

/-! ### Settling -/

theorem spreadOperands_moves : Moves kids t₀ (spreadOperands kids t) := by
  have inferred := (moves.infer 0).infer 1
  unfold spreadOperands
  split
  · exact moves
  · simp only
    split
    · exact settleEach_moves inferred _ _
    · exact inferred

theorem spreadArguments_moves (i : Nat) (parameters : TypeTable) :
    Moves kids t₀ (spreadArguments kids i parameters t) := by
  induction parameters generalizing i t with
  | nil => exact moves
  | cons p rest ih =>
    rw [spreadArguments]
    refine ih ?_ _
    split
    · exact moves.settle _ i
    · exact moves

theorem spreadElements_moves (s : Scope) (array : String) :
    Moves kids t₀ (spreadElements s kids array t) := by
  unfold spreadElements
  split
  · exact moves
  split
  · exact moves
  split
  · exact moves
  split
  · exact moves
  · exact (settleEach_moves moves _ _).settle _ _

theorem spreadNode_moves (s : Scope) (label : String) (type : Option TypeName) :
    Moves kids t₀ (spreadNode s kids label type t) := by
  unfold spreadNode
  split
  · exact moves
  split
  · split
    · exact moves.settle _ 0
    · exact moves
  · exact spreadElements_moves moves s _
  · exact spreadOperands_moves moves
  · exact spreadOperands_moves moves
  · exact spreadOperands_moves moves
  · exact spreadArguments_moves moves 0 _
  · split
    · exact moves
    · exact (moves.settle _ 1).spread 0
  · exact moves.settle type 0
  · exact moves.settle _ 0
  · exact moves

end

/-! ### The node's own mark -/

theorem onChild_note (i : Nat) (f : Checker → Marked → Marked) (t : Marked) :
    (onChild kids i f t).note = t.note := by
  obtain ⟨l, m, cs⟩ := t
  unfold onChild
  split <;> rfl

theorem Moves.note (moves : Moves kids t₀ t) : t.note = t₀.note := by
  induction moves with
  | start => rfl
  | infer i _ ih =>
    rw [inferChild_node, onChild_note]
    exact ih
  | settle type i _ ih | spread i _ ih => exact (onChild_note i _ _).trans ih
  | @mark _ t _ _ _ _ _ _ _ _ _ ih =>
    obtain ⟨l, m, cs⟩ := t
    exact ih

/-- Inference marks only what is below a node. -/
theorem inferNode_note (s : Scope) (label : String) (t : Marked) :
    (inferNode s kids label t).node.note = t.note :=
  (inferNode_moves .start s label).note

/-- A node keeps its own mark while its children are settled. -/
theorem spreadNode_note (s : Scope) (label : String) (type : Option TypeName) (t : Marked) :
    (spreadNode s kids label type t).note = t.note :=
  (spreadNode_moves .start s label type).note

/-! ### Labels and children -/

/-- A checker that changes only marks. -/
structure Keeps (kid : Checker) : Prop where
  infer : ∀ t, (kid.infer t).node.bare = t.bare
  settle : ∀ type t, (kid.settle type t).bare = t.bare
  spread : ∀ type t, (kid.spread type t).bare = t.bare
  fill : ∀ t, (kid.fill t).bare = t.bare

theorem onChild_bare {f : Checker → Marked → Marked}
    (keeps : ∀ kid ∈ kids, ∀ c, (f kid c).bare = c.bare) (i : Nat) (t : Marked) :
    (onChild kids i f t).bare = t.bare := by
  unfold onChild
  split
  · rename_i kid c isKid found
    exact Tree.bare_set t found (keeps kid (List.mem_of_getElem? isKid) c)
  · rfl

theorem markChild_bare (type : Option TypeName) (i : Nat) (t : Marked) :
    (markChild type i t).bare = t.bare := by
  obtain ⟨l, m, cs⟩ := t
  rw [markChild, Tree.setChildren, Tree.children_node, Tree.bare_node, Tree.bare_node]
  refine congrArg (Tree.node l ()) (List.ext_getElem? fun j => ?_)
  rw [List.getElem?_map, List.getElem?_modify, List.getElem?_map]
  split
  · cases cs[j]? with
    | none => rfl
    | some c => exact congrArg some (Marked.settleAs_bare type c)
  · simp

section
variable (keeps : ∀ kid ∈ kids, kid.Keeps)
include keeps

theorem Moves.bare (moves : Moves kids t₀ t) : t.bare = t₀.bare := by
  induction moves with
  | start => rfl
  | infer i _ ih =>
    rw [inferChild_node, onChild_bare fun kid inside => (keeps kid inside).infer]
    exact ih
  | settle type i _ ih =>
    exact (onChild_bare (fun kid inside => (keeps kid inside).settle type) i _).trans ih
  | spread i _ ih =>
    exact (onChild_bare (fun kid inside => (keeps kid inside).spread none) i _).trans ih
  | mark _ _ _ _ _ _ ih => exact (markChild_bare _ _ _).trans ih

theorem settleNode_bare (s : Scope) (label : String) (wanted : Option TypeName) (t : Marked) :
    (settleNode s kids label wanted t).bare = t.bare := by
  unfold settleNode
  simp only
  rw [(spreadNode_moves .start s label _).bare keeps, Marked.settleAs_bare]
  refine (inferNode_moves ?_ s label).bare keeps
  split
  · exact settleEach_moves .start _ _
  · exact .start

theorem fillChildren_bare (indices : List Nat) (t : Marked) :
    (fillChildren kids indices t).bare = t.bare := by
  induction indices generalizing t with
  | nil => rfl
  | cons i rest ih =>
    refine (ih _).trans (onChild_bare (fun kid inside c => ?_) i t)
    split
    · exact (keeps kid inside).fill c
    · rfl

theorem fillNode_bare (s : Scope) (label : String) (t : Marked) :
    (fillNode s kids label t).bare = t.bare := by
  have inferred := (inferNode_moves (.start : Moves kids t t) s label).bare keeps
  unfold fillNode
  split
  · rfl
  · simp only [fillChildren_bare keeps]
    split
    · exact (Tree.bare_setNote _ _).trans inferred
    · exact inferred

theorem keeps_node (s : Scope) (label : String) : (Checker.node s label kids).Keeps :=
  ⟨fun _ => (inferNode_moves .start s label).bare keeps, settleNode_bare keeps s label,
    fun type _ => (spreadNode_moves .start s label type).bare keeps, fillNode_bare keeps s label⟩

end

end Checker

namespace Marked

theorem checker_node (s : Scope) (l : String) (m : Mark) (ts : List Marked) :
    checker s (.node l m ts) = Checker.node s l (ts.map (checker s)) := by
  rw [checker, Tree.compute_node, List.map_map]
  rfl

theorem checker_keeps (s : Scope) (t : Marked) : (t.checker s).Keeps := by
  induction t using Tree.induction with
  | node l m ts ih =>
    rw [checker_node]
    exact keeps_node (List.forall_mem_map.mpr ih) s l

/-- Giving a tree its types changes none of its labels. -/
theorem assign_bare (s : Scope) (t : Marked) : (t.assign s).node.bare = t.bare := by
  have keeps := checker_keeps s t
  have below : ∀ kid ∈ t.checkers s, kid.Keeps :=
    List.forall_mem_map.mpr fun c _ => checker_keeps s c
  unfold assign
  simp only [fillChildren_bare below, keeps.spread]
  exact (Tree.bare_setNote _ _).trans (keeps.infer t)

end Marked

end MethodLang
