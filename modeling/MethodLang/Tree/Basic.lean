/-!
Labelled trees. Every node has a label and a note; the notes of one tree may hold positions, of
another types. Values of a tree are computed from the leaves up: `compute` hands each node its
children beside their values, so every function on trees recurses through it or by cases.
-/
namespace MethodLang

inductive Tree (α : Type) where
  | node (label : String) (note : α) (children : List (Tree α))
  deriving Repr, Inhabited

namespace Tree

variable {α β γ : Type}

def label : Tree α → String
  | .node label _ _ => label

def note : Tree α → α
  | .node _ note _ => note

def children : Tree α → List (Tree α)
  | .node _ _ children => children

def setNote (note : α) : Tree α → Tree α
  | .node label _ children => .node label note children

def setChildren (children : List (Tree α)) : Tree α → Tree α
  | .node label note _ => .node label note children

@[simp] theorem label_node (l : String) (a : α) (ts : List (Tree α)) : (node l a ts).label = l := rfl

@[simp] theorem note_node (l : String) (a : α) (ts : List (Tree α)) : (node l a ts).note = a := rfl

@[simp] theorem children_node (l : String) (a : α) (ts : List (Tree α)) :
    (node l a ts).children = ts := rfl

mutual
/-- The value of a tree, from its label, its note, and its children beside their own values. -/
def compute (f : String → α → List (Tree α × β) → β) : Tree α → β
  | .node label note children => f label note (computeAll f children)

def computeAll (f : String → α → List (Tree α × β) → β) : List (Tree α) → List (Tree α × β)
  | [] => []
  | t :: ts => (t, t.compute f) :: computeAll f ts
end

theorem computeAll_eq_map (f : String → α → List (Tree α × β) → β) (ts : List (Tree α)) :
    computeAll f ts = ts.map fun t => (t, t.compute f) := by
  induction ts with
  | nil => rfl
  | cons t ts ih => simp [computeAll, ih]

theorem compute_node (f : String → α → List (Tree α × β) → β) (l : String) (a : α)
    (ts : List (Tree α)) :
    (node l a ts).compute f = f l a (ts.map fun t => (t, t.compute f)) := by
  rw [compute, computeAll_eq_map]

mutual
/-- The same labels with other notes. -/
def map (f : α → β) : Tree α → Tree β
  | .node label note children => .node label (f note) (mapAll f children)

def mapAll (f : α → β) : List (Tree α) → List (Tree β)
  | [] => []
  | t :: ts => t.map f :: mapAll f ts
end

theorem mapAll_eq_map (f : α → β) (ts : List (Tree α)) : mapAll f ts = ts.map (map f) := by
  induction ts with
  | nil => rfl
  | cons t ts ih => simp [mapAll, ih]

mutual
/-- Equal label for label and child for child, and `test` holds of the notes. -/
def agree (test : α → β → Bool) : Tree α → Tree β → Bool
  | .node l a ts, .node m b us => l == m && test a b && agreeAll test ts us

def agreeAll (test : α → β → Bool) : List (Tree α) → List (Tree β) → Bool
  | [], [] => true
  | t :: ts, u :: us => t.agree test u && agreeAll test ts us
  | _, _ => false
end

/-- Equal label for label and child for child, whatever the notes. -/
def same (t : Tree α) (u : Tree β) : Bool := t.agree (fun _ _ => true) u

/-- The subtree reached by taking the child of each index in turn. -/
def at? : Tree α → List Nat → Option (Tree α)
  | t, [] => some t
  | t, i :: path => t.children[i]? >>= (at? · path)

/-- Changes the subtree at a path; a path that leaves the tree changes nothing. -/
def modifyAt (f : Tree α → Tree α) : List Nat → Tree α → Tree α
  | [], t => f t
  | i :: path, t => t.setChildren (t.children.modify i (modifyAt f path))

end Tree

end MethodLang
