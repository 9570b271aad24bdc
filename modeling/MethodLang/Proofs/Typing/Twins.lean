import MethodLang.Proofs.Typing.Settled

/-!
Trees that differ only in types that nobody settled. The checker reads a node's type only where it
is settled: of such twins it finds the same types and the same errors, and what it settles in one it
settles in the other (`Marked.checker_blind`). Twins are the trees that are equal once all that is
not settled is forgotten.
-/
namespace MethodLang

open Checker

/-- A type that is not settled is forgotten. -/
def Mark.shed (m : Mark) : Mark := if m.settled then m else ⟨none, false⟩

namespace Marked

/-- The tree with nothing but its settled types. -/
def shed (t : Marked) : Marked := t.map Mark.shed

theorem shed_node (l : String) (m : Mark) (cs : List Marked) :
    shed (.node l m cs) = .node l m.shed (cs.map shed) := by
  rw [shed, Tree.map, Tree.mapAll_eq_map]
  rfl

theorem children_shed (t : Marked) : t.shed.children = t.children.map shed := by
  obtain ⟨l, m, cs⟩ := t
  rw [shed_node]
  rfl

theorem length_shed (t : Marked) : t.shed.children.length = t.children.length := by
  rw [children_shed, List.length_map]

theorem isEmpty_shed (t : Marked) : t.shed.children.isEmpty = t.children.isEmpty := by
  rw [children_shed, List.isEmpty_map]

theorem settledType_shed (t : Marked) : t.shed.settledType = t.settledType := by
  obtain ⟨l, ⟨type, settled⟩, cs⟩ := t
  rw [shed_node]
  cases settled <;> rfl

theorem setChildren_shed (cs : List Marked) (t : Marked) :
    shed (t.setChildren cs) = t.shed.setChildren (cs.map shed) := by
  obtain ⟨l, m, _⟩ := t
  rw [Tree.setChildren, shed_node, shed_node, Tree.setChildren]

theorem settleAs_shed (type : Option TypeName) (t : Marked) :
    t.shed.settleAs type = (t.settleAs type).shed := by
  obtain ⟨l, m, cs⟩ := t
  cases type with
  | none => rfl
  | some type =>
    rw [shed_node]
    exact (shed_node l ⟨some (TypeName.normalize type), true⟩ cs).symm

end Marked

open Marked (length_shed isEmpty_shed settledType_shed)

/-- An answer of which only the settled types are kept in the tree. -/
def Inference.shed (r : Inference) : Inference := { r with node := r.node.shed }

namespace Checker

def BinaryCheck.shed (b : BinaryCheck) : BinaryCheck := { b with node := b.node.shed }

/-- A checker that sees only settled types. -/
structure Blind (kid : Checker) : Prop where
  infer : ∀ t, kid.infer t.shed = (kid.infer t).shed
  settle : ∀ type t, kid.settle type t.shed = (kid.settle type t).shed
  spread : ∀ type t, kid.spread type t.shed = (kid.spread type t).shed

variable {kids : List Checker}

theorem onChild_shed {f : Checker → Marked → Marked}
    (blind : ∀ kid ∈ kids, ∀ c, f kid c.shed = (f kid c).shed) (i : Nat) (t : Marked) :
    onChild kids i f t.shed = (onChild kids i f t).shed := by
  unfold onChild
  rw [Marked.children_shed, List.getElem?_map]
  cases isKid : kids[i]? with
  | none => rfl
  | some kid =>
    cases t.children[i]? with
    | none => rfl
    | some c =>
      simp only [Option.map_some, blind kid (List.mem_of_getElem? isKid)]
      rw [Marked.setChildren_shed, List.map_set]

theorem markChild_shed (type : Option TypeName) (i : Nat) (t : Marked) :
    markChild type i t.shed = (markChild type i t).shed := by
  rw [markChild, markChild, Marked.setChildren_shed, Marked.children_shed]
  refine congrArg (t.shed.setChildren ·) (List.ext_getElem? fun j => ?_)
  simp only [List.getElem?_modify, List.getElem?_map]
  cases t.children[j]? with
  | none => rfl
  | some c =>
    split
    · exact congrArg some (Marked.settleAs_shed type c)
    · rfl

theorem childSettled_shed (i : Nat) (t : Marked) : childSettled i t.shed = childSettled i t := by
  rw [childSettled, childSettled, Marked.children_shed, List.getElem?_map]
  cases t.children[i]? with
  | none => rfl
  | some c => exact settledType_shed c

section
variable (blind : ∀ kid ∈ kids, kid.Blind)
include blind

theorem inferChild_shed (i : Nat) (t : Marked) :
    inferChild kids i t.shed = (inferChild kids i t).shed := by
  unfold inferChild
  rw [Marked.children_shed, List.getElem?_map]
  cases isKid : kids[i]? with
  | none => rfl
  | some kid =>
    cases t.children[i]? with
    | none => rfl
    | some c =>
      simp only [Option.map_some, (blind kid (List.mem_of_getElem? isKid)).infer]
      simp only [Inference.shed, Marked.setChildren_shed, List.map_set]

theorem settleChild_shed (type : Option TypeName) (i : Nat) (t : Marked) :
    settleChild kids type i t.shed = (settleChild kids type i t).shed :=
  onChild_shed (fun kid inside => (blind kid inside).settle type) i t

theorem settleEach_shed (type : Option TypeName) (indices : List Nat) (t : Marked) :
    settleEach kids type indices t.shed = (settleEach kids type indices t).shed := by
  unfold settleEach
  induction indices generalizing t with
  | nil => rfl
  | cons i rest ih => rw [List.foldl_cons, settleChild_shed blind, ih, List.foldl_cons]

/-! ### Inference -/

theorem inferEach_shed (indices : List Nat) (t : Marked) :
    inferEach kids indices t.shed = (inferEach kids indices t).map id Marked.shed := by
  induction indices generalizing t with
  | nil => rfl
  | cons i rest ih => simp only [inferEach, inferChild_shed blind, Inference.shed, ih, Prod.map, id]

theorem checkArgument_shed (function : String) (i : Nat) (parameter : String × Option TypeName)
    (t : Marked) : checkArgument kids function i parameter t.shed =
      (checkArgument kids function i parameter t).map id Marked.shed := by
  unfold checkArgument
  simp only [inferChild_shed blind, Inference.shed, markChild_shed]
  split
  · split
    · rfl
    · split <;> rfl
  · rfl

theorem checkArguments_shed (function : String) (i : Nat) (parameters : TypeTable) (t : Marked) :
    checkArguments kids function i parameters t.shed =
      (checkArguments kids function i parameters t).map id Marked.shed := by
  induction parameters generalizing i t with
  | nil => rfl
  | cons p rest ih =>
    simp only [checkArguments, length_shed, checkArgument_shed blind, Prod.map, ih, id]
    split <;> rfl

theorem inferCall_shed (s : Scope) (label : String) (name : Option String) (t : Marked) :
    inferCall s kids label name t.shed = (inferCall s kids label name t).shed := by
  cases name with
  | none => rfl
  | some function =>
    simp only [inferCall, checkCall, length_shed, inferEach_shed blind, checkArguments_shed blind]
    split <;> rfl

theorem inferStore_shed (s : Scope) (name : Option String) (t : Marked) :
    inferStore s kids name t.shed = (inferStore s kids name t).shed := by
  unfold inferStore
  split
  · rfl
  rw [isEmpty_shed]
  split
  · rfl
  split
  · rfl
  · rename_i expected _
    have settled : (if TypeName.isNumeric expected then settleChild kids (some expected) 0 t.shed
        else t.shed) = (if TypeName.isNumeric expected then settleChild kids (some expected) 0 t
        else t).shed := by
      split
      · exact settleChild_shed blind _ 0 t
      · rfl
    simp only [settled, inferChild_shed blind, Inference.shed, childSettled_shed]
    split <;> rfl

theorem inferIndices_shed (use : ValueUse) (indices : List Nat) (t : Marked) :
    inferIndices kids use indices t.shed = (inferIndices kids use indices t).map id Marked.shed := by
  induction indices generalizing t with
  | nil => rfl
  | cons i rest ih =>
    simp only [inferIndices, inferChild_shed blind, Inference.shed, ih, Prod.map, id]

theorem inferElements_shed (array : String) (element : Option TypeName) (t : Marked) :
    inferElements kids array element t.shed = (inferElements kids array element t).shed := by
  unfold inferElements
  simp only [length_shed, inferIndices_shed blind, Prod.map, id, inferChild_shed blind,
    Inference.shed, markChild_shed]
  split
  · split
    · rfl
    · split <;> rfl
  · rfl

theorem inferStoreAt_shed (s : Scope) (name : Option String) (t : Marked) :
    inferStoreAt s kids name t.shed = (inferStoreAt s kids name t).shed := by
  unfold inferStoreAt
  split
  · rfl
  simp only [isEmpty_shed, length_shed, inferElements_shed blind]
  split
  · rfl
  split
  · rfl
  split
  · rfl
  split <;> rfl

theorem inferIndex_shed (t : Marked) : inferIndex kids t.shed = (inferIndex kids t).shed := by
  unfold inferIndex
  simp only [length_shed, inferChild_shed blind, Inference.shed]
  split
  · rfl
  split
  · rfl
  split <;> rfl

theorem checkBinary_shed (op : String) (operands : Operands) (t : Marked) :
    checkBinary kids op operands t.shed = (checkBinary kids op operands t).shed := by
  unfold checkBinary
  simp only [length_shed, inferChild_shed blind, Inference.shed, markChild_shed]
  split
  · rfl
  split
  · rfl
  split
  · split
    · rfl
    · split <;> split <;> simp only [BinaryCheck.shed, markChild_shed]
  · rfl

theorem inferArithmetic_shed (op : String) (t : Marked) :
    inferArithmetic kids op t.shed = (inferArithmetic kids op t).shed := by
  unfold inferArithmetic
  simp only [length_shed, inferChild_shed blind, checkBinary_shed blind, Inference.shed,
    BinaryCheck.shed]
  split
  · rfl
  split
  · rfl
  split <;> rfl

theorem inferUnary_shed (op : String) (t : Marked) :
    inferNegation kids op t.shed = (inferNegation kids op t).shed ∧
      inferInversion kids op t.shed = (inferInversion kids op t).shed := by
  unfold inferNegation inferInversion
  simp only [length_shed, inferChild_shed blind, Inference.shed]
  constructor <;> split <;> rfl

theorem inferNode_shed (s : Scope) (label : String) (t : Marked) :
    inferNode s kids label t.shed = (inferNode s kids label t).shed := by
  unfold inferNode
  rw [settledType_shed]
  split
  · rfl
  unfold inferRole
  split
  · unfold inferConst
    split <;> rfl
  · unfold inferLoad
    split
    · split <;> rfl
    · rfl
  · exact inferCall_shed blind s label _ t
  · exact inferStore_shed blind s _ t
  · exact inferStoreAt_shed blind s _ t
  · exact inferIndex_shed blind t
  · exact inferArithmetic_shed blind label t
  · simp only [inferBitwise, checkBinary_shed blind, BinaryCheck.shed, Inference.shed]
  · simp only [inferTruth, checkBinary_shed blind, BinaryCheck.shed, Inference.shed]
  · simp only [inferTruth, checkBinary_shed blind, BinaryCheck.shed, Inference.shed]
  · exact (inferUnary_shed blind label t).1
  · exact (inferUnary_shed blind label t).2
  · rfl

/-! ### Settling -/

theorem spreadOperands_shed (t : Marked) :
    spreadOperands kids t.shed = (spreadOperands kids t).shed := by
  unfold spreadOperands
  simp only [length_shed, inferChild_shed blind, Inference.shed, settleEach_shed blind]
  split
  · rfl
  split <;> rfl

theorem spreadArguments_shed (i : Nat) (parameters : TypeTable) (t : Marked) :
    spreadArguments kids i parameters t.shed = (spreadArguments kids i parameters t).shed := by
  induction parameters generalizing i t with
  | nil => rfl
  | cons p rest ih =>
    simp only [spreadArguments, settleChild_shed blind]
    split <;> exact ih _ _

theorem spreadElements_shed (s : Scope) (array : String) (t : Marked) :
    spreadElements s kids array t.shed = (spreadElements s kids array t).shed := by
  unfold spreadElements
  simp only [length_shed, settleEach_shed blind, settleChild_shed blind]
  split
  · rfl
  split
  · rfl
  split
  · rfl
  split <;> rfl

theorem spreadNode_shed (s : Scope) (label : String) (type : Option TypeName) (t : Marked) :
    spreadNode s kids label type t.shed = (spreadNode s kids label type t).shed := by
  unfold spreadNode
  rw [isEmpty_shed]
  split
  · rfl
  split
  · split
    · exact settleChild_shed blind _ 0 t
    · rfl
  · exact spreadElements_shed blind s _ t
  · exact spreadOperands_shed blind t
  · exact spreadOperands_shed blind t
  · exact spreadOperands_shed blind t
  · exact spreadArguments_shed blind 0 _ t
  · rw [length_shed, settleChild_shed blind,
      onChild_shed fun kid inside => (blind kid inside).spread none]
    split <;> rfl
  · exact settleChild_shed blind type 0 t
  · exact settleChild_shed blind _ 0 t
  · rfl

theorem settleNode_shed (s : Scope) (label : String) (wanted : Option TypeName) (t : Marked) :
    settleNode s kids label wanted t.shed = (settleNode s kids label wanted t).shed := by
  have early {test : Bool} {type : Option TypeName} :
      (if test then settleEach kids type [0, 1] t.shed else t.shed) =
        (if test then settleEach kids type [0, 1] t else t).shed := by
    split
    · exact settleEach_shed blind _ _ t
    · rfl
  simp only [settleNode, length_shed, early, inferNode_shed blind, Inference.shed,
    Marked.settleAs_shed, spreadNode_shed blind]

theorem blind_node (s : Scope) (label : String) : (Checker.node s label kids).Blind :=
  ⟨inferNode_shed blind s label, settleNode_shed blind s label, spreadNode_shed blind s label⟩

end

end Checker

/-- To every checker twins are one. -/
theorem Marked.checker_blind (s : Scope) (t : Marked) : (t.checker s).Blind := by
  induction t using Tree.induction with
  | node l m ts ih =>
    rw [checker_node]
    exact Checker.blind_node (List.forall_mem_map.mpr ih) s l

end MethodLang
