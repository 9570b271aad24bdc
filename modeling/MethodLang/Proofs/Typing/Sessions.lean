import Mathlib.Logic.Relation
import MethodLang.Proofs.Typing.Settled
import MethodLang.Typing.Session

/-!
Sessions. Trees that are asked one question after the other keep what is settled in them. Settled
types are canonical all along, and only taking up another method loosens them
(`session_types_kept`).
-/
namespace MethodLang

open Checker

/-- A settled mark with its type. -/
def Mark.Bears (m : Mark) : Prop := m.settled = true ∧ m.type.isSome = true

/-! ### Nodes at a path -/

namespace Tree

variable {α β : Type}

theorem Rel.at? {R : α → β → Prop} {t : Tree α} {u : Tree β} (rel : t.Rel R u) (path : List Nat) :
    Option.Rel (Rel R) (t.at? path) (u.at? path) := by
  induction path generalizing t u with
  | nil => exact .some rel
  | cons i path ih =>
    have below := forall₂_getElem? rel.children i
    rw [Tree.at?, Tree.at?]
    generalize t.children[i]? = x at below ⊢
    generalize u.children[i]? = y at below ⊢
    cases below with
    | none => exact .none
    | some below => exact ih below

/-- A tree in which one node is changed is related to the tree it was. -/
theorem Rel.modifyAt {R : α → α → Prop} {t c d : Tree α} (refl : t.Rel R t) {path : List Nat}
    (found : t.at? path = some c) (rel : c.Rel R d) : t.Rel R (t.modifyAt (fun _ => d) path) := by
  induction path generalizing t with
  | nil =>
    cases found
    exact rel
  | cons i path ih =>
    obtain ⟨x, at_, found⟩ := Option.bind_eq_some_iff.mp found
    rw [Tree.modifyAt, List.modify_eq_set_getElem?, at_]
    refine refl.setChildren_right (forall₂_set_right refl.children fun y same => ?_)
    cases at_.symm.trans same
    have below := forall₂_getElem? refl.children i
    rw [at_] at below
    cases below with
    | some below => exact ih below found

end Tree

namespace Marked

/-- A tree is fixed if all its nodes are. -/
theorem fixed_iff {t : Marked} :
    t.Fixed ↔ ∀ path n, t.at? path = some n → n.note.Fixed := by
  constructor
  · intro fixed path n found
    have here := Tree.Rel.at? fixed path
    rw [found] at here
    cases here with
    | some here => exact here.note.1
  · intro nodes
    induction t using Tree.induction with
    | node l m ts ih =>
      refine Tree.rel_node.mpr ⟨rfl, ⟨nodes [] _ rfl, .inl rfl⟩, ?_⟩
      refine List.forall₂_same.mpr fun c inside => ih c inside fun path n found => ?_
      obtain ⟨i, at_⟩ := List.mem_iff_getElem?.mp inside
      refine nodes (i :: path) n ?_
      rw [Tree.at?, Tree.children_node, at_]
      exact found

theorem Guards.settledType {t t' : Marked} (guards : t.Guards t') {type : TypeName}
    (settled : t.settledType = some type) : t'.settledType = some type := by
  unfold Marked.settledType at settled ⊢
  split at settled
  · rename_i held
    rw [(Tree.Rel.note guards).held held, if_pos held, settled]
  · cases settled

theorem settledType_isSome {t : Marked} : t.settledType.isSome ↔ t.note.Bears := by
  unfold settledType Mark.Bears
  cases t.note.settled <;> simp

theorem settleAs_bears (type : Option TypeName) (t : Marked) :
    t.Rel (fun m m' => m.Bears → m'.Bears) (t.settleAs type) := by
  have same := Tree.rel_refl (R := fun m m' => m.Bears → m'.Bears) (fun _ bears => bears) t
  cases type with
  | none => exact same
  | some type => exact Tree.Rel.setNote_right same fun _ => ⟨rfl, rfl⟩

end Marked

/-! ### Questions -/

/-- A question that does not name the type to settle: the checker works it out. -/
def Question.Infers (q : Question) : Prop := ∀ type, q ≠ .settleAs type

theorem Question.ask_guards (s : Scope) {q : Question} (infers : q.Infers) {t : Marked}
    (fixed : t.Fixed) : t.Guards (q.ask s t).2 := by
  have advancing := Marked.checker_advancing s t
  cases q with
  | assign => exact Marked.assign_guards s fixed
  | infer => exact (Marked.infer_advances s fixed).guards
  | resolve wanted => exact (Marked.inferAndSettle_advances s wanted fixed).guards
  | settleAs type => exact absurd rfl (infers type)
  | settle wanted => exact (advancing.settle wanted fixed).guards
  | fill => exact Marked.fill_guards s t fixed
  | void use => exact (Marked.infer_advances s fixed).guards

namespace Session

/-- The node at a path of one tree. -/
def node? (s : Session) (tree : Nat) (path : List Nat) : Option Marked :=
  s.trees[tree]? >>= fun t => t.at? path

/-- The settled type of a node. -/
def cached? (s : Session) (tree : Nat) (path : List Nat) : Option TypeName :=
  s.node? tree path >>= Marked.settledType

/-- Every settled node bears a type, and that is canonical and not the type of a bare number. -/
def Canonical (s : Session) : Prop :=
  ∀ tree path n, s.node? tree path = some n → n.note.settled = true →
    ∃ type, n.note.type = some type ∧ TypeName.normalize type = type ∧ type ≠ TypeName.untyped

/-- The session in which the node at a path of one tree is changed. -/
def edit (f : Marked → Marked) (tree : Nat) (path : List Nat) (s : Session) : Option Session := do
  let root ← s.trees[tree]?
  let t ← root.at? path
  some { s with trees := s.trees.set tree (root.modifyAt (fun _ => f t) path) }

/-- One step of a session within a method: a question, or types spread to the children of a node. -/
inductive Step (s s' : Session) : Prop
  | ask {q : Question} {tree : Nat} {path : List Nat} {reply : Reply} (infers : q.Infers)
    (asked : s.ask q tree path = some (reply, s'))
  | spread {type : Option TypeName} {tree : Nat} {path : List Nat}
    (spread : s.edit (fun t => (t.checker s.scope).spread type t) tree path = some s')

/-- No settled type of the first session is another in the second. -/
def Guards (s s' : Session) : Prop := List.Forall₂ Marked.Guards s.trees s'.trees

theorem canonical_iff {s : Session} : s.Canonical ↔ ∀ t ∈ s.trees, t.Fixed := by
  constructor
  · intro canonical t inside
    obtain ⟨tree, at_⟩ := List.mem_iff_getElem?.mp inside
    refine Marked.fixed_iff.mpr fun path n found => canonical tree path n ?_
    rw [node?, at_]
    exact found
  · intro fixed tree path n found
    obtain ⟨t, at_, found⟩ := Option.bind_eq_some_iff.mp found
    exact Marked.fixed_iff.mp (fixed t (List.mem_of_getElem? at_)) path n found

theorem Guards.canonical {s s' : Session} (guards : s.Guards s') : s'.Canonical := by
  refine canonical_iff.mpr fun t inside => ?_
  obtain ⟨tree, at_⟩ := List.mem_iff_getElem?.mp inside
  have here := forall₂_getElem? guards tree
  rw [at_] at here
  generalize s.trees[tree]? = x at here
  cases here with
  | some here => exact here.fixed

/-- Nodes at the same place of related sessions. -/
theorem rel_node? {R : Mark → Mark → Prop} {s s' : Session}
    (rel : List.Forall₂ (Tree.Rel R) s.trees s'.trees) (tree : Nat) (path : List Nat) :
    Option.Rel (Tree.Rel R) (s.node? tree path) (s'.node? tree path) := by
  have root := forall₂_getElem? rel tree
  rw [node?, node?]
  generalize s.trees[tree]? = x at root ⊢
  generalize s'.trees[tree]? = y at root ⊢
  cases root with
  | none => exact .none
  | some root => exact root.at? path

theorem Guards.cached? {s s' : Session} (guards : s.Guards s') {tree : Nat} {path : List Nat}
    {type : TypeName} (entry : s.cached? tree path = some type) :
    s'.cached? tree path = some type := by
  have nodes := rel_node? guards tree path
  rw [Session.cached?] at entry ⊢
  generalize s.node? tree path = x at nodes entry
  generalize s'.node? tree path = y at nodes ⊢
  cases nodes with
  | none => cases entry
  | some node => exact Marked.Guards.settledType node entry

theorem Guards.refl {s : Session} (canonical : s.Canonical) : s.Guards s :=
  List.forall₂_same.mpr fun t inside => (canonical_iff.mp canonical t inside).guards

theorem Guards.trans {s s' s'' : Session} (first : s.Guards s') (second : s'.Guards s'') :
    s.Guards s'' := by
  refine forall₂_of_getElem? fun tree => ?_
  have before := forall₂_getElem? first tree
  have after := forall₂_getElem? second tree
  generalize s.trees[tree]? = x, s'.trees[tree]? = y, s''.trees[tree]? = z at before after ⊢
  cases before with
  | none =>
    cases after
    exact .none
  | some before =>
    cases after with
    | some after => exact .some (Marked.Guards.trans before after)

/-- An edit relates sessions as it relates the nodes. -/
theorem edit_rel {R : Mark → Mark → Prop} {s s' : Session} (refl : ∀ t ∈ s.trees, t.Rel R t)
    {f : Marked → Marked} {tree : Nat} {path : List Nat} (edited : s.edit f tree path = some s')
    (rel : ∀ n, s.node? tree path = some n → n.Rel R (f n)) :
    List.Forall₂ (Tree.Rel R) s.trees s'.trees := by
  obtain ⟨root, at_, edited⟩ := Option.bind_eq_some_iff.mp edited
  obtain ⟨t, found, edited⟩ := Option.bind_eq_some_iff.mp edited
  cases edited
  refine forall₂_set_right (List.forall₂_same.mpr refl) fun x same => ?_
  cases at_.symm.trans same
  refine Tree.Rel.modifyAt (refl root (List.mem_of_getElem? at_)) found (rel t ?_)
  rw [node?, at_]
  exact found

theorem edit_of_ask {s s' : Session} {q : Question} {tree : Nat} {path : List Nat} {reply : Reply}
    (asked : s.ask q tree path = some (reply, s')) :
    s.edit (fun t => (q.ask s.scope t).2) tree path = some s' := by
  obtain ⟨root, at_, asked⟩ := Option.bind_eq_some_iff.mp asked
  obtain ⟨t, found, asked⟩ := Option.bind_eq_some_iff.mp asked
  refine Option.bind_eq_some_iff.mpr ⟨root, at_, Option.bind_eq_some_iff.mpr ⟨t, found, ?_⟩⟩
  exact congrArg (Option.map Prod.snd) asked

theorem Step.guards {s s' : Session} (canonical : s.Canonical) (step : s.Step s') :
    s.Guards s' := by
  have fixed := canonical_iff.mp canonical
  have node {tree : Nat} {path : List Nat} {n : Marked} (found : s.node? tree path = some n) :
      n.Fixed := by
    obtain ⟨t, at_, found⟩ := Option.bind_eq_some_iff.mp found
    have here := Tree.Rel.at? (fixed t (List.mem_of_getElem? at_)) path
    rw [found] at here
    cases here with
    | some here => exact here
  have refl : ∀ t ∈ s.trees, t.Guards t := fun t inside => (fixed t inside).guards
  cases step with
  | ask infers asked =>
    exact edit_rel refl (edit_of_ask asked) fun n found =>
      Question.ask_guards s.scope infers (node found)
  | spread spread =>
    exact edit_rel refl spread fun n found =>
      ((Marked.checker_advancing s.scope n).spread _ (node found)).guards

theorem run_guards {s s' : Session} (canonical : s.Canonical)
    (run : Relation.ReflTransGen Step s s') : s.Guards s' := by
  induction run with
  | refl => exact .refl canonical
  | tail _ step ih => exact ih.trans (step.guards ih.canonical)

/-! ### What loosens a type -/

/-- Whatever is asked, even to settle a type that is named, a node that is settled stays so. -/
theorem ask_cached? {s s' : Session} (canonical : s.Canonical) {q : Question} {tree : Nat}
    {path : List Nat} {reply : Reply} (asked : s.ask q tree path = some (reply, s')) {i : Nat}
    {p : List Nat} (entered : (s.cached? i p).isSome) : (s'.cached? i p).isSome := by
  by_cases infers : q.Infers
  · obtain ⟨type, entry⟩ := Option.isSome_iff_exists.mp entered
    rw [((Step.ask infers asked).guards canonical).cached? entry]
    rfl
  · obtain ⟨type, rfl⟩ : ∃ type, q = .settleAs type := by
      simpa [Question.Infers] using infers
    have nodes := rel_node? (edit_rel
      (fun t _ => Tree.rel_refl (fun _ bears => bears) t) (edit_of_ask asked)
      fun n _ => Marked.settleAs_bears type n) i p
    rw [cached?] at entered ⊢
    generalize s.node? i p = x at nodes entered
    generalize s'.node? i p = y at nodes ⊢
    cases nodes with
    | none => exact entered
    | some node => exact Marked.settledType_isSome.mpr (node.note (Marked.settledType_isSome.mp entered))

theorem enter_cached? (s : Session) (method : String) (tree : Nat) (path : List Nat) :
    (s.enter method).cached? tree path = none := by
  have loose : List.Forall₂ (Tree.Rel fun (m _ : Mark) => m.settled = false)
      (s.enter method).trees (s.enter method).trees := by
    refine List.forall₂_same.mpr fun t inside => ?_
    obtain ⟨u, -, rfl⟩ := List.mem_map.mp inside
    exact Tree.rel_map.mpr ((Tree.rel_eq_iff.mpr rfl : u.Rel (fun a b => a = b) u).mono
      fun {_ _} _ => rfl)
  have nodes := rel_node? loose tree path
  rw [cached?]
  generalize (s.enter method).node? tree path = x at nodes ⊢
  cases nodes with
  | none => rfl
  | some node => exact if_neg (by rw [node.note]; exact Bool.false_ne_true)

end Session

/-- Within a method, all questions leave every settled type as it is, and whatever they settle is
canonical. Even a type that is named replaces one, so that only taking up another method leaves a
settled node without. -/
theorem session_types_kept {s s' : Session} (canonical : s.Canonical)
    (run : Relation.ReflTransGen Session.Step s s') :
    s'.Canonical ∧
    (∀ tree path type, s.cached? tree path = some type → s'.cached? tree path = some type) ∧
    (∀ q tree path reply s'', s'.ask q tree path = some (reply, s'') →
      ∀ i p, (s'.cached? i p).isSome → (s''.cached? i p).isSome) ∧
    ∀ method tree path, (s'.enter method).cached? tree path = none := by
  have guards := Session.run_guards canonical run
  refine ⟨guards.canonical, fun tree path type => guards.cached?, ?_, s'.enter_cached?⟩
  intro q tree path reply s'' asked i p
  exact Session.ask_cached? guards.canonical asked

/-- A number is added to a settled operand, and the sum is then to be settled in another type. -/
theorem settled_operand_kept :
    let s : Session := ⟨default, ⟨[("x", some "byte")], [], [], []⟩,
      [.node "+" ⟨none, false⟩ [.node "load(x)" ⟨some "byte", true⟩ [],
        .node "const(dec(1))" ⟨none, false⟩ []]]⟩
    let once := ((s.ask .infer 0 []).map Prod.snd).getD default
    let twice := ((once.ask (.settle (some "long")) 0 []).map Prod.snd).getD default
    s.Canonical ∧ Relation.ReflTransGen Session.Step s twice ∧ twice.Canonical ∧
      twice.cached? 0 [0] = some "byte" ∧ twice.cached? 0 [1] = some "byte" := by
  intro s once twice
  have canonical : s.Canonical := by
    refine Session.canonical_iff.mpr (List.forall_mem_singleton.mpr ?_)
    have loose : Mark.Advances ⟨none, false⟩ ⟨none, false⟩ :=
      ⟨fun settled => (by cases settled), .inl rfl⟩
    have byte : Mark.Advances ⟨some "byte", true⟩ ⟨some "byte", true⟩ :=
      ⟨fun _ => ⟨"byte", rfl, by decide +kernel, by decide⟩, .inl rfl⟩
    exact Tree.rel_node.mpr ⟨rfl, loose, .cons (Tree.rel_node.mpr ⟨rfl, byte, .nil⟩)
      (.cons (Tree.rel_node.mpr ⟨rfl, loose, .nil⟩) .nil)⟩
  have asked : ∃ reply, s.ask .infer 0 [] = some (reply, once) := ⟨_, rfl⟩
  have again : ∃ reply, once.ask (.settle (some "long")) 0 [] = some (reply, twice) := ⟨_, rfl⟩
  obtain ⟨_, asked⟩ := asked
  obtain ⟨_, again⟩ := again
  have run : Relation.ReflTransGen Session.Step s twice :=
    .tail (.single (.ask (fun _ same => (by cases same)) asked))
      (.ask (fun _ same => (by cases same)) again)
  obtain ⟨still, kept, -⟩ := session_types_kept canonical run
  exact ⟨canonical, run, still, kept 0 [0] "byte" rfl, by decide +kernel⟩

end MethodLang
