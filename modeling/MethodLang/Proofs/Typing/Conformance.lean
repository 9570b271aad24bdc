import MethodLang.Proofs.Typing.Assigning

/-!
Calls and indices in typed trees. A node conforms if its arguments, or its index, bear the types
that its place asks for. Whether they could be given these types depends only on the types that
they have on their own.
-/
namespace MethodLang

open Checker

namespace Tree

variable {α β : Type}

/-- The trees in a tree, itself among them. -/
def subtrees (t : Tree α) : List (Tree α) :=
  t.compute fun label note kids => .node label note (kids.map (·.1)) :: kids.flatMap (·.2)

theorem subtrees_node (l : String) (a : α) (ts : List (Tree α)) :
    (node l a ts).subtrees = node l a ts :: ts.flatMap subtrees := by
  rw [subtrees, compute_node, List.map_map, List.flatMap_map]
  exact congrArg (fun ts => node l a ts :: _) (List.map_id ts)

theorem self_mem_subtrees (t : Tree α) : t ∈ t.subtrees := by
  obtain ⟨l, a, ts⟩ := t
  rw [subtrees_node]
  exact List.mem_cons_self

theorem forall_subtrees {P : Tree α → Prop} (t : Tree α) :
    (∀ n ∈ t.subtrees, P n) ↔ P t ∧ ∀ c ∈ t.children, ∀ n ∈ c.subtrees, P n := by
  obtain ⟨l, a, ts⟩ := t
  rw [subtrees_node, List.forall_mem_cons]
  simp only [List.mem_flatMap, children_node]
  exact and_congr_right fun _ =>
    ⟨fun h c inside n below => h n ⟨c, inside, below⟩, fun h n ⟨c, inside, below⟩ => h c inside n below⟩

end Tree

/-- A value of the given type can stand where a type is asked for: it has that type, or is a bare
number where a numeric type is asked for. -/
def Suits (own wanted : Option TypeName) : Prop :=
  own = wanted.map TypeName.normalize ∨
    own = some TypeName.untyped ∧ (wanted.map TypeName.normalize).any TypeName.isNumeric

instance (own wanted : Option TypeName) : Decidable (Suits own wanted) :=
  inferInstanceAs (Decidable (_ ∨ _))

namespace Operation

/-- The type that an operation has on its own, whatever types it bears. -/
def ownType (s : Scope) (op : Operation) : Option TypeName :=
  (Marked.infer s (op.map fun _ => ⟨none, false⟩)).type

/-- The arguments of a call bear the types of its parameters; an index is taken from an array and
bears the type `int`. -/
def Conforms (s : Scope) (n : Operation) : Prop :=
  match Role.ofLabel n.label with
  | .call (some function) => ∃ parameters, s.functions.lookup function = some parameters ∧
    n.children.map Tree.note = parameters.map fun p => p.2.map TypeName.normalize
  | .index => ∃ base position, n.children = [base, position] ∧
    (ownType s base).any TypeName.isArray ∧ position.note = some "int"
  | _ => True

/-- Whether a node conforms, as it is evaluated. -/
def conforms (s : Scope) (n : Operation) : Bool :=
  match Role.ofLabel n.label with
  | .call (some function) => (s.functions.lookup function).any fun parameters =>
    n.children.map Tree.note == parameters.map fun p => p.2.map TypeName.normalize
  | .index =>
    match n.children with
    | [base, position] => (ownType s base).any TypeName.isArray && position.note == some "int"
    | _ => false
  | _ => true

theorem conforms_eq_true {s : Scope} {n : Operation} : conforms s n = true ↔ Conforms s n := by
  unfold conforms Conforms
  split
  · simp [Option.any_eq_true]
  · split
    · rename_i is
      simp [is]
    · rename_i other
      simp only [Bool.false_eq_true, false_iff]
      rintro ⟨base, position, is, -⟩
      exact other base position is
  · simp

instance (s : Scope) (n : Operation) : Decidable (Conforms s n) :=
  decidable_of_iff _ conforms_eq_true

/-- The arguments of a call, on their own, suit its parameters; an index is taken from an array
and can be an `int`. -/
def Fits (s : Scope) (n : Operation) : Prop :=
  match Role.ofLabel n.label with
  | .call (some function) => ∃ parameters, s.functions.lookup function = some parameters ∧
    List.Forall₂ (fun c p => Suits (ownType s c) p.2) n.children parameters
  | .index => ∃ base position, n.children = [base, position] ∧
    (ownType s base).any TypeName.isArray ∧ Suits (ownType s position) (some "int")
  | _ => True

/-- A call is to a known function and has as many arguments as that has parameters. -/
def Called (s : Scope) (n : Operation) : Prop :=
  match Role.ofLabel n.label with
  | .call (some function) => ∃ parameters, s.functions.lookup function = some parameters ∧
    n.children.length = parameters.length
  | _ => True

/-- The arguments of a call, or the index of an array, bear types. -/
def Given (n : Operation) : Prop :=
  match Role.ofLabel n.label with
  | .call _ => ∀ c ∈ n.children, c.note.isSome
  | .index => ∀ position ∈ n.children[1]?, position.note.isSome
  | _ => True

theorem Conforms.called {s : Scope} {n : Operation} (conforms : Conforms s n) : Called s n := by
  unfold Conforms at conforms
  unfold Called
  split
  · rename_i role
    simp only [role] at conforms
    obtain ⟨parameters, known, same⟩ := conforms
    exact ⟨parameters, known, by simpa using congrArg List.length same⟩
  · trivial

theorem Fits.called {s : Scope} {n : Operation} (fits : Fits s n) : Called s n := by
  unfold Fits at fits
  unfold Called
  split
  · rename_i role
    simp only [role] at fits
    obtain ⟨parameters, known, each⟩ := fits
    exact ⟨parameters, known, each.length_eq⟩
  · trivial

/-- Nothing is asked of a node that is neither a call nor an index. -/
theorem plain {s : Scope} {n : Operation} {role : Role} (is : Role.ofLabel n.label = role)
    (call : ∀ name, role ≠ .call name) (index : role ≠ .index) :
    Conforms s n ∧ Fits s n ∧ Given n := by
  unfold Conforms Fits Given
  rw [is]
  cases role with
  | call name => exact absurd rfl (call name)
  | index => exact absurd rfl index
  | _ => exact ⟨trivial, trivial, trivial⟩

end Operation

/-- Whether a node assigns. -/
def Role.assigns : Role → Bool
  | .store _ | .storeAt _ => true
  | _ => false

theorem Operation.plain_of_assigns {s : Scope} {n : Operation}
    (assigns : (Role.ofLabel n.label).assigns) : Conforms s n ∧ Fits s n ∧ Given n := by
  refine plain rfl (fun name is => ?_) fun is => ?_
  · rw [is] at assigns
    cases assigns
  · rw [is] at assigns
    cases assigns

variable {s : Scope}

/-! ### Places -/

theorem settledAs_eq_iff {own : Option TypeName} (known : own ∈ answers) {p : TypeName}
    (proper : p.Proper) : settledAs (some p) own = some p ↔ Suits own (some p) := by
  have each : ∀ own ∈ answers, ∀ p ∈ TypeName.declarable,
      settledAs (some p) own = some p ↔ Suits own (some p) := by decide +kernel
  exact each own known p proper

/-- A node in its place bears the type asked for if it suits the place and bears any type. -/
theorem Mark.InPlace.type_eq_iff {m : Mark} {p : TypeName} {own now : Option TypeName}
    (place : m.InPlace (some p) own now) (known : own ∈ answers) (proper : p.Proper) :
    m.type = some p ↔ Suits own (some p) ∧ m.type.isSome := by
  rw [← settledAs_eq_iff known proper]
  rcases place.type with missing | settled
  · simp [missing]
  · rw [settled]
    exact ⟨fun same => ⟨same, by rw [same]; rfl⟩, And.left⟩

/-! ### Trees of a term's form -/

namespace Term

/-- A tree with the labels of the term. -/
def Shapes {α : Type} (e : Term) (n : Tree α) : Prop := n.bare = e.tree.bare

theorem shapes_iff {α : Type} {e : Term} {n : Tree α} :
    e.Shapes n ↔ n.label = e.label ∧ List.Forall₂ Shapes e.children n.children := by
  obtain ⟨l, a, ns⟩ := n
  have same : ns.map Tree.bare = e.children.map (Tree.bare ∘ tree) ↔
      List.Forall₂ Shapes e.children ns := by
    rw [eq_comm, ← List.forall₂_eq_eq_eq, List.forall₂_map_left_iff, List.forall₂_map_right_iff]
    exact ⟨List.Forall₂.imp fun _ _ => Eq.symm, List.Forall₂.imp fun _ _ => Eq.symm⟩
  rw [Shapes, tree_eq, Operation.make, Tree.bare_node, Tree.bare_node, List.map_map]
  simp only [Tree.node.injEq, true_and, same, Tree.label_node, Tree.children_node]

theorem fresh_eq_map (e : Term) : e.fresh = e.tree.map fun _ => unknownMark := by
  induction e using children_induction with
  | step e ih =>
    rw [fresh_eq, tree_eq, Operation.make, Tree.map, Tree.mapAll_eq_map, List.map_map]
    exact congrArg (Tree.node e.label unknownMark) (List.map_congr_left ih)

theorem Shapes.ownType_eq {e : Term} {n : Operation} (shapes : e.Shapes n) :
    n.ownType s = e.ownType s := by
  have fresh : (n.map fun _ => (⟨none, false⟩ : Mark)) = e.fresh := by
    rw [Tree.map_const, shapes, ← Tree.map_const, fresh_eq_map]
    rfl
  rw [Operation.ownType, fresh, Marked.infer, fresh_checker]
  rfl

theorem Shapes.ownTypes_eq {es : List Term} {ns : List Operation}
    (each : List.Forall₂ Shapes es ns) :
    ns.map (Operation.ownType s) = es.map (Term.ownType s) := by
  induction each with
  | nil => rfl
  | cons first _ ih => rw [List.map_cons, List.map_cons, ownType_eq first, ih]

/-! ### Counting arguments -/

theorem counted_of_children {e : Term} (below : ∀ x ∈ e.children, x.Counted s)
    (here : ∀ function args, e = .call function args → s.results.has function ∧
      args.length = (s.parameters function).length) : e.Counted s := by
  cases e with
  | literal | load => trivial
  | call function args =>
    obtain ⟨known, same⟩ := here function args rfl
    exact ⟨known, same, allCounted_iff.mpr below⟩
  | index base position => exact ⟨below base (by simp [children]), below position (by simp [children])⟩
  | binary op left right => exact ⟨below left (by simp [children]), below right (by simp [children])⟩
  | unary op operand => exact below operand (by simp [children])

/-- If all calls in its tree have the right number of arguments, so have those of the term. -/
theorem counted_of_called (complete : s.Complete) {e : Term} (spelled : e.Spelled) {n : Operation}
    (shapes : e.Shapes n) (called : ∀ m ∈ n.subtrees, Operation.Called s m) : e.Counted s := by
  induction e using children_induction generalizing n with
  | step e ih =>
    obtain ⟨label, each⟩ := shapes_iff.mp shapes
    obtain ⟨here, below⟩ := (Tree.forall_subtrees n).mp called
    refine counted_of_children (fun x inside => ?_) fun function args is => ?_
    · obtain ⟨c, isChild, same⟩ := exists_of_mem_left each inside
      exact ih x inside (spelled.children x inside) same (below c isChild)
    · subst is
      rw [Operation.Called, label, Term.label, Role.ofLabel_call spelled.1] at here
      obtain ⟨parameters, known, same⟩ := here
      have found : s.parameters function = parameters := by simp [Scope.parameters, known]
      rw [complete.known, known, found, ← same]
      exact ⟨rfl, each.length_eq⟩

/-! ### Sound terms -/

theorem ArgsBelow.sound {es : List Term} {ps : TypeTable} {cs : List Marked}
    (below : ArgsBelow s ps es cs) : AllSound s es cs := by
  induction below using ArgsBelow.induction with
  | nil => exact .nil
  | cons sound _ _ _ ih => exact .cons ⟨_, sound⟩ ih

/-- The children of a sound term are sound. -/
theorem Below.sound {e : Term} {cs : List Marked} {made : Option TypeName}
    (below : e.Below s cs made) : AllSound s e.children cs := by
  cases e with
  | literal | load =>
    obtain ⟨rfl, _⟩ := below
    exact List.Forall₂.nil
  | call function args => exact below.1.sound
  | index base position =>
    obtain ⟨b, p, array, at_, rfl, soundB, soundP, _⟩ := below
    exact .cons ⟨array, soundB⟩ (.cons ⟨at_, soundP⟩ .nil)
  | binary op left right =>
    obtain ⟨a, b, l, r, rfl, soundA, soundB, _⟩ := below
    exact .cons ⟨l, soundA⟩ (.cons ⟨r, soundB⟩ .nil)
  | unary op operand =>
    obtain ⟨a, type, rfl, sound, _⟩ := below
    exact .cons ⟨type, sound⟩ .nil

theorem operation_node (l : String) (m : Mark) (cs : List Marked) :
    Marked.operation (.node l m cs) = .node l m.type (cs.map Marked.operation) := by
  rw [Marked.operation, Tree.map, Tree.mapAll_eq_map]
  rfl

theorem operation_note (t : Marked) : t.operation.note = t.note.type := by
  obtain ⟨l, m, cs⟩ := t
  rw [operation_node]
  rfl

theorem Sound.shapes {e : Term} {t : Marked} {type : Option TypeName} (sound : e.Sound s t type) :
    e.Shapes t.operation := by
  induction e using children_induction generalizing t type with
  | step e ih =>
    obtain ⟨l, m, cs⟩ := t
    obtain ⟨label, made, below, _⟩ := sound
    rw [operation_node, shapes_iff]
    refine ⟨label, List.forall₂_map_right_iff.mpr ?_⟩
    have each : List.Forall₂ (fun x c => x ∈ e.children ∧ ∃ type, Sound s x c type) e.children cs :=
      (List.forall₂_and_left _ _).mpr ⟨fun x => id, below.sound⟩
    exact each.imp fun x c ⟨inside, type, sound⟩ => ih x inside sound

/-- The arguments of a sound call bear the parameters' types if they suit and bear any types. -/
theorem args_conform {ps : TypeTable} (typed : ∀ p ∈ ps, ∃ type, p.2 = some type ∧ type.Proper)
    {es : List Term} (known : ∀ e ∈ es, e.ownType s ∈ answers) {cs : List Marked}
    (below : ArgsBelow s ps es cs) :
    (cs.map Marked.operation).map Tree.note = ps.map (fun p => p.2.map TypeName.normalize) ↔
      List.Forall₂ (fun c p => Suits (Operation.ownType s c) p.2) (cs.map Marked.operation) ps ∧
        ∀ c ∈ cs.map Marked.operation, c.note.isSome := by
  induction below using ArgsBelow.induction with
  | nil => simp
  | @cons p ps e es c cs type sound place _ _ ih =>
    have ⟨knownFirst, knownRest⟩ := List.forall_mem_cons.mp known
    have ⟨⟨w, wanted, proper⟩, typedRest⟩ := List.forall_mem_cons.mp typed
    have first := ih typedRest knownRest
    have own := Shapes.ownType_eq (s := s) (Sound.shapes sound)
    have note := operation_note c
    rw [wanted] at place
    have here := place.type_eq_iff knownFirst proper
    simp only [List.map_cons, List.cons.injEq, first, List.forall₂_cons, List.forall_mem_cons, own,
      note, wanted, Option.map_some, proper.normalize_eq, here]
    exact and_and_and_comm

/-- The role of a term that is neither a call nor an index. -/
theorem plain_role {e : Term} (spelled : e.Spelled) (call : ∀ function args, e ≠ .call function args)
    (index : ∀ base position, e ≠ .index base position) :
    (∀ name, Role.ofLabel e.label ≠ .call name) ∧ Role.ofLabel e.label ≠ .index := by
  cases e with
  | literal kind text => simp [Role.ofLabel_literal]
  | load name => simp [label, Role.ofLabel_load spelled]
  | call function args => exact absurd rfl (call function args)
  | index base position => exact absurd rfl (index base position)
  | binary op left right =>
    rw [label, BinaryOp.ofLabel_text]
    rcases operator_cases op with ⟨role, _⟩ | ⟨role, _⟩ | ⟨role, _⟩ | ⟨role, _⟩ <;> simp [role]
  | unary op operand =>
    rw [label, UnaryOp.ofLabel_text]
    cases op <;> simp [UnaryOp.role]

theorem conforms_here (complete : s.Complete) {e : Term} (spelled : e.Spelled)
    (counted : e.Counted s) {cs : List Marked} {made : Option TypeName}
    (below : e.Below s cs made) (type : Option TypeName) :
    Operation.Conforms s (.node e.label type (cs.map Marked.operation)) ↔
      Operation.Fits s (.node e.label type (cs.map Marked.operation)) ∧
        Operation.Given (.node e.label type (cs.map Marked.operation)) := by
  have proper := complete.toProper
  have known := fun x inside =>
    (infer_fresh proper (spelled.children x inside) (counted.children x inside)).ownType_mem proper
  cases e with
  | call function args =>
    obtain ⟨args, _⟩ := below
    obtain ⟨parameters, found⟩ := Option.isSome_iff_exists.mp (complete.known function ▸ counted.1)
    have same : s.parameters function = parameters := by simp [Scope.parameters, found]
    have conform := args_conform (fun p => proper.parameters) known args
    simp only [Operation.Conforms, Operation.Fits, Operation.Given, Tree.label_node, label,
      Role.ofLabel_call spelled.1, Tree.children_node, found, Option.some.injEq, exists_eq_left',
      ← same, conform]
  | index base position =>
    obtain ⟨b, p, array, at_, rfl, soundB, soundP, place, _⟩ := below
    have own := Shapes.ownType_eq (s := s) (Sound.shapes soundP)
    have note := operation_note p
    have here := place.type_eq_iff (known position (by simp [children])) TypeName.proper_int
    simp [Operation.Conforms, Operation.Fits, Operation.Given, label, Role.ofLabel_index, own, note,
      here, and_assoc]
  | literal | load | binary | unary =>
    obtain ⟨noCall, noIndex⟩ := plain_role spelled (by simp) (by simp)
    obtain ⟨conforms, fits, given⟩ := Operation.plain (s := s)
      (n := .node _ type (cs.map Marked.operation)) rfl noCall noIndex
    exact ⟨fun _ => ⟨fits, given⟩, fun _ => conforms⟩

theorem Sound.conforms_iff (complete : s.Complete) {e : Term} (spelled : e.Spelled)
    (counted : e.Counted s) {t : Marked} {type : Option TypeName} (sound : e.Sound s t type) :
    ∀ n ∈ t.operation.subtrees,
      Operation.Conforms s n ↔ Operation.Fits s n ∧ Operation.Given n := by
  induction e using children_induction generalizing t type with
  | step e ih =>
    obtain ⟨l, m, cs⟩ := t
    obtain ⟨rfl, made, below, _⟩ := sound
    rw [operation_node, Tree.forall_subtrees]
    refine ⟨conforms_here complete spelled counted below m.type,
      List.forall_mem_map.mpr fun c isChild => ?_⟩
    obtain ⟨x, inside, type, sound⟩ := exists_of_mem_left (List.Forall₂.flip below.sound) isChild
    exact ih x inside (spelled.children x inside) (counted.children x inside) sound

/-! ### Terms without errors -/

theorem checkArgument_clean {l : String} {m : Mark} {before : List Checker} {kid : Checker}
    {after : List Checker} {pre : List Marked} {c : Marked} {post : List Marked}
    (same : before.length = pre.length) {function : String} {p : String × Option TypeName}
    (typed : ∃ type, p.2 = some type ∧ type.Proper)
    (clean : (checkArgument (before ++ kid :: after) function pre.length p
      (.node l m (pre ++ c :: post))).1 = []) :
    (kid.infer c).errors = [] ∧ Suits (kid.infer c).type p.2 := by
  obtain ⟨name, wanted⟩ := p
  obtain ⟨w, rfl, proper⟩ := typed
  rw [checkArgument, inferChild_at kid c same] at clean
  generalize kid.infer c = r at clean
  obtain ⟨type, errors, node⟩ := r
  cases type with
  | none => simp [voidError] at clean
  | some given =>
    simp only [Option.map_some, proper.normalize_eq] at clean
    unfold Suits
    simp only [Option.map_some, proper.normalize_eq, Option.any_some, Option.some.injEq]
    split at clean
    · rename_i takes
      obtain ⟨bare, numeric⟩ := Bool.and_eq_true_iff.mp takes
      have bare : given = TypeName.untyped := by simpa [TypeName.isUntyped] using bare
      exact ⟨by simpa [voidError] using clean, .inr ⟨bare, numeric⟩⟩
    · split at clean
      · simp at clean
      · rename_i same
        exact ⟨by simpa [voidError] using clean, .inl (not_not.mp same)⟩

theorem checkArguments_clean {function l : String} {m : Mark} {es : List Term} {ps : TypeTable}
    (typed : ∀ p ∈ ps, ∃ type, p.2 = some type ∧ type.Proper) (counted : es.length = ps.length)
    (before : List Checker) (pre : List Marked) (same : before.length = pre.length)
    (clean : (checkArguments (before ++ kids s es) function pre.length ps
      (.node l m (pre ++ es.map fresh))).1 = []) :
    (∀ e ∈ es, e.Clean s) ∧ List.Forall₂ (fun e p => Suits (e.ownType s) p.2) es ps := by
  induction es generalizing ps before pre with
  | nil =>
    obtain rfl : ps = [] := List.eq_nil_of_length_eq_zero counted.symm
    exact ⟨List.forall_mem_nil _, .nil⟩
  | cons e es ih =>
    obtain _ | ⟨p, ps⟩ := ps
    · cases counted
    have ⟨typedFirst, typedRest⟩ := List.forall_mem_cons.mp typed
    have inside : pre.length < (Tree.node l m (pre ++ e.fresh :: es.map fresh)).children.length := by
      simp
    have step : (checkArgument (before ++ e.kid s :: kids s es) function pre.length p
        (.node l m (pre ++ e.fresh :: es.map fresh))).2 =
          .node l m (pre ++ ((e.kid s).infer e.fresh).asArgument p.2 :: es.map fresh) :=
      checkArgument_at (e.kid s) e.fresh same function p
    rw [List.map_cons, kids, checkArguments, if_pos inside] at clean
    simp only [List.append_eq_nil_iff, step] at clean
    obtain ⟨first, suits⟩ := checkArgument_clean same typedFirst clean.1
    obtain ⟨rest, suitRest⟩ := ih typedRest (Nat.succ.inj counted) (before ++ [e.kid s])
      (pre ++ [((e.kid s).infer e.fresh).asArgument p.2]) (by simp [same]) (by simpa using clean.2)
    exact ⟨List.forall_mem_cons.mpr ⟨first, rest⟩, .cons suits suitRest⟩

/-- A call without errors is to a known function, whose parameters its arguments suit. -/
theorem Clean.call (proper : s.Proper) {function : String} {args : List Term}
    (named : IsName function) (clean : (call function args).Clean s) :
    (∀ e ∈ args, e.Clean s) ∧ s.results.has function ∧
      List.Forall₂ (fun e p => Suits (e.ownType s) p.2) args (s.parameters function) := by
  rw [Clean, infer_fresh_eq, label] at clean
  simp only [inferRole, Role.ofLabel_call named, inferCall, checkCall] at clean
  split at clean
  · cases clean
  · rename_i known
    obtain ⟨count, each⟩ := List.append_eq_nil_iff.mp clean
    have counted : args.length = (s.parameters function).length := by
      by_contra other
      simp [children, other] at count
    obtain ⟨below, suits⟩ :=
      checkArguments_clean (fun p => proper.parameters) counted [] [] rfl each
    exact ⟨below, by simpa using known, suits⟩

theorem Clean.index {base position : Term} (clean : (index base position).Clean s) :
    base.Clean s ∧ position.Clean s ∧ (∀ type, base.ownType s = some type → type.isArray) ∧
      Suits (position.ownType s) (some "int") := by
  rw [Clean, infer_fresh_eq, label] at clean
  simp only [inferRole, Role.ofLabel_index] at clean
  obtain ⟨-, -, parts⟩ := inferIndex_pair (base.kid s) (position.kid s) "index" unknownMark
    base.fresh position.fresh rfl
  obtain ⟨cleanB, cleanP, array, int⟩ := parts clean
  refine ⟨cleanB, cleanP, array, ?_⟩
  have each : ∀ type ∈ [some "int", some TypeName.untyped], Suits type (some "int") := by
    decide +kernel
  exact each (position.ownType s) (by simpa [ownType] using int)

theorem Clean.binary {op : Operator} {left right : Term} (clean : (binary op left right).Clean s) :
    left.Clean s ∧ right.Clean s := by
  rw [Clean, infer_fresh_eq, label] at clean
  simp only [inferRole, BinaryOp.ofLabel_text] at clean
  have check (o : Operands) (errorless : (checkBinary [left.kid s, right.kid s] op.1.text o
      (.node op.1.text unknownMark [left.fresh, right.fresh])).errors = []) :
      left.Clean s ∧ right.Clean s := by
    obtain ⟨-, -, parts⟩ := checkBinary_pair (left.kid s) (right.kid s) op.1.text unknownMark
      left.fresh right.fresh op.1.text o rfl rfl rfl
    exact ⟨(parts errorless).1, (parts errorless).2.1⟩
  rcases operator_cases op with ⟨role, o⟩ | ⟨role, o⟩ | ⟨role, o⟩ | ⟨role, o⟩
  · simp only [role] at clean
    obtain ⟨-, -, parts⟩ := inferArithmetic_pair (left.kid s) (right.kid s) op.1.text unknownMark
      left.fresh right.fresh op.1.text rfl rfl
    exact ⟨(parts clean).1, (parts clean).2.1⟩
  · simp only [role] at clean
    exact check .integers clean
  · simp only [role] at clean
    exact check .truthValues clean
  · simp only [role] at clean
    exact check .comparable clean

theorem Clean.not {operand : Term} (clean : (unary .not operand).Clean s) :
    operand.Clean s ∧ operand.ownType s = some "bool" := by
  rw [Clean, infer_fresh_eq, label] at clean
  simp only [inferRole, UnaryOp.ofLabel_text, UnaryOp.role] at clean
  exact inferNegation_clean _ _ _ _ clean

theorem Clean.invert {operand : Term} (clean : (unary .invert operand).Clean s) :
    operand.Clean s ∧
      ∃ type, operand.ownType s = some type ∧ Operands.integers.takes type = true := by
  rw [Clean, infer_fresh_eq, label] at clean
  simp only [inferRole, UnaryOp.ofLabel_text, UnaryOp.role] at clean
  exact inferInversion_clean _ _ _ _ clean

theorem Clean.unary {op : UnaryOp} {operand : Term} (clean : (unary op operand).Clean s) :
    operand.Clean s := by
  cases op with
  | not => exact clean.not.1
  | invert => exact clean.invert.1

theorem Clean.children (proper : s.Proper) {e : Term} (spelled : e.Spelled) (clean : e.Clean s) :
    ∀ x ∈ e.children, x.Clean s := by
  cases e with
  | literal | load => exact List.forall_mem_nil _
  | call function args => exact (clean.call proper spelled.1).1
  | index base position =>
    obtain ⟨cleanB, cleanP, _⟩ := clean.index
    simp [Term.children, cleanB, cleanP]
  | binary op left right => simpa [Term.children] using clean.binary
  | unary op operand => simpa [Term.children] using clean.unary

theorem ownType_index (base position : Term) :
    (index base position).ownType s = elementType (base.ownType s) := by
  rw [ownType, infer_fresh_eq, label]
  simp only [inferRole, Role.ofLabel_index]
  exact (inferIndex_pair _ _ _ _ _ _ rfl).2.1

/-- A place without errors has a type. -/
theorem Clean.place (proper : s.Proper) {e : Term} (spelled : e.Spelled) (place : e.isPlace)
    (clean : e.Clean s) : ∃ type, e.ownType s = some type ∧ type.Proper := by
  induction e using children_induction with
  | step e ih =>
    cases e with
    | load name =>
      rw [Clean, infer_fresh_eq, label] at clean
      rw [ownType, infer_fresh_eq, label]
      simp only [inferRole, Role.ofLabel_load spelled, inferLoad] at clean ⊢
      cases known : s.variableType name with
      | none => simp [known] at clean
      | some type => exact ⟨type, rfl, proper.named known⟩
    | index base position =>
      obtain ⟨cleanB, _, array, _⟩ := clean.index
      obtain ⟨type, own, properB⟩ := ih base (by simp [Term.children]) spelled.2.1 spelled.1 cleanB
      obtain ⟨element, read, properE⟩ := properB.element (array type own)
      refine ⟨element, ?_, properE⟩
      simp [ownType_index, own, elementType, array type own, read, properE.normalize_eq]
    | literal | call | binary | unary => cases place

/-- In a term without errors every node fits. -/
theorem Clean.fits (complete : s.Complete) {e : Term} (spelled : e.Spelled) (clean : e.Clean s)
    {n : Operation} (shapes : e.Shapes n) : ∀ m ∈ n.subtrees, Operation.Fits s m := by
  have proper := complete.toProper
  induction e using children_induction generalizing n with
  | step e ih =>
    obtain ⟨l, type, ns⟩ := n
    obtain ⟨rfl, each⟩ := shapes_iff.mp shapes
    simp only [Tree.children_node] at each
    refine (Tree.forall_subtrees _).mpr ⟨?_, fun c isChild => ?_⟩
    · cases e with
      | call function args =>
        obtain ⟨_, known, suits⟩ := clean.call proper spelled.1
        obtain ⟨parameters, found⟩ := Option.isSome_iff_exists.mp (complete.known function ▸ known)
        rw [Scope.parameters, found] at suits
        simp only [Operation.Fits, Tree.label_node, label, Role.ofLabel_call spelled.1]
        refine ⟨parameters, found, ?_⟩
        have suit : List.Forall₂ (fun own (p : String × Option TypeName) => Suits own p.2)
            (args.map (ownType s)) parameters := List.forall₂_map_left_iff.mpr suits
        have same : ns.map (Operation.ownType s) = args.map (ownType s) := Shapes.ownTypes_eq each
        exact List.forall₂_map_left_iff.mp (same ▸ suit)
      | index base position =>
        obtain ⟨cleanB, _, array, int⟩ := clean.index
        obtain ⟨b, rest, shapeB, last, rfl⟩ := List.forall₂_cons_left_iff.mp each
        obtain ⟨p, _, shapeP, rest, rfl⟩ := List.forall₂_cons_left_iff.mp last
        cases rest
        obtain ⟨type, own, _⟩ := cleanB.place proper spelled.2.1 spelled.1
        simp only [Operation.Fits, Tree.label_node, label, Role.ofLabel_index]
        refine ⟨b, p, rfl, ?_, shapeP.ownType_eq ▸ int⟩
        rw [shapeB.ownType_eq, own]
        exact array type own
      | literal | load | binary | unary =>
        obtain ⟨noCall, noIndex⟩ := plain_role spelled (by simp) (by simp)
        exact (Operation.plain (n := .node _ type ns) rfl noCall noIndex).2.1
    · obtain ⟨x, inside, same⟩ := exists_of_mem_left each.flip isChild
      exact ih x inside (spelled.children x inside) (clean.children proper spelled x inside) same

end Term

/-! ### Directives -/

namespace Directive

theorem parts_shapes {α : Type} {c : Directive} {n : Tree α} (same : n.bare = c.tree.bare) :
    List.Forall₂ Term.Shapes c.terms (c.parts n) := by
  cases c with
  | value e =>
    have tree : (value e).tree = e.tree := e.tree_eq.symm
    exact .cons (same.trans (congrArg Tree.bare tree)) .nil
  | store | storeAt =>
    have below := congrArg Tree.children same
    rw [Tree.bare_children, Tree.bare_children, tree, Operation.make, Tree.children_node,
      List.map_map] at below
    rw [eq_comm, ← List.forall₂_eq_eq_eq, List.forall₂_map_left_iff, List.forall₂_map_right_iff]
      at below
    exact below.imp fun _ _ => Eq.symm

theorem parts_operation (c : Directive) (t : Marked) :
    c.parts t.operation = (c.parts t).map Marked.operation := by
  obtain ⟨l, m, cs⟩ := t
  rw [Term.operation_node]
  cases c with
  | value e => rw [parts, parts, List.map_singleton, Term.operation_node]
  | store | storeAt => rfl

/-- What is not asked of an assignment holds of a directive if it holds of its terms. -/
theorem forall_parts {c : Directive} (spelled : c.Spelled) {n : Operation} (label : n.label = c.label)
    {P : Operation → Prop} (plain : (Role.ofLabel n.label).assigns → P n) :
    (∀ m ∈ n.subtrees, P m) ↔ ∀ t ∈ c.parts n, ∀ m ∈ t.subtrees, P m := by
  cases c with
  | value e => rw [parts, List.forall_mem_singleton]
  | store name right =>
    have role : Role.ofLabel n.label = .store (some name) := by
      rw [label]
      exact Role.ofLabel_store spelled.1
    rw [Tree.forall_subtrees]
    exact and_iff_right (plain (by rw [role]; rfl))
  | storeAt array indices right =>
    have role : Role.ofLabel n.label = .storeAt (some array) := by
      rw [label]
      exact Role.ofLabel_storeAt spelled.1
    rw [Tree.forall_subtrees]
    exact and_iff_right (plain (by rw [role]; rfl))

section
variable (complete : s.Complete) {c : Directive} (spelled : c.Spelled)
  (accepted : (c.fresh.assign s).errors = []) {op : Operation}
  (typed : (c.fresh.assign s).node.operation = op)
include typed

theorem assign_operation_bare : op.bare = c.tree.bare := by
  rw [← typed, Marked.operation, Tree.bare_map, Marked.assign_bare, fresh, Marked.unmarked,
    Tree.bare_map]

theorem assign_operation_label : op.label = c.label :=
  Tree.label_of_bare (assign_operation_bare typed)

include complete spelled

theorem counted_terms (called : ∀ n ∈ op.subtrees, Operation.Called s n) :
    ∀ e ∈ c.terms, e.Counted s := by
  have parts := (forall_parts spelled (assign_operation_label typed)
    fun _ => called op op.self_mem_subtrees).mp called
  intro e inside
  obtain ⟨t, isPart, shapes⟩ := exists_of_mem_left (parts_shapes (assign_operation_bare typed)) inside
  exact Term.counted_of_called complete (spelled.terms e inside) shapes (parts t isPart)

include accepted

/-- A typed directive conforms if all its calls and indices fit and were given types. -/
theorem conforms_iff : (∀ n ∈ op.subtrees, Operation.Conforms s n) ↔
    (∀ n ∈ op.subtrees, Operation.Fits s n) ∧ ∀ n ∈ op.subtrees, Operation.Given n := by
  have label := assign_operation_label typed
  have pointwise (called : ∀ n ∈ op.subtrees, Operation.Called s n) : ∀ n ∈ op.subtrees,
      Operation.Conforms s n ↔ Operation.Fits s n ∧ Operation.Given n := by
    refine (forall_parts spelled label fun assigns => ?_).mpr fun t isPart => ?_
    · obtain ⟨conforms, fits, given⟩ := Operation.plain_of_assigns (s := s) assigns
      exact ⟨fun _ => ⟨fits, given⟩, fun _ => conforms⟩
    · have counted := counted_terms complete spelled typed called
      have sound := assign_sound complete.toProper spelled counted accepted
      rw [← typed, parts_operation] at isPart
      obtain ⟨t, found, rfl⟩ := List.mem_map.mp isPart
      obtain ⟨e, inside, type, sound⟩ := exists_of_mem_left (List.Forall₂.flip sound) found
      exact sound.conforms_iff complete (spelled.terms e inside) (counted e inside)
  constructor
  · intro conforms
    have each := pointwise fun n inside => (conforms n inside).called
    exact ⟨fun n inside => ((each n inside).mp (conforms n inside)).1,
      fun n inside => ((each n inside).mp (conforms n inside)).2⟩
  · rintro ⟨fits, given⟩ n inside
    have each := pointwise fun n inside => (fits n inside).called
    exact (each n inside).mpr ⟨fits n inside, given n inside⟩

/-- In a typed directive that does not assign to a numeric variable all calls and indices fit. -/
theorem fits_of_accepted (other : c.storesNumber s = false) :
    ∀ n ∈ op.subtrees, Operation.Fits s n := by
  refine (forall_parts spelled (assign_operation_label typed) fun assigns => ?_).mpr
    fun t isPart => ?_
  · exact (Operation.plain_of_assigns assigns).2.1
  · obtain ⟨e, inside, shapes⟩ :=
      exists_of_mem_left (parts_shapes (assign_operation_bare typed)).flip isPart
    exact (assign_clean spelled other accepted e inside).fits complete (spelled.terms e inside) shapes

end

end Directive

end MethodLang
