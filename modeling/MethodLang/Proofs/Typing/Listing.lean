import MethodLang.Proofs.Typing.Declaring

/-!
Lists of declared names, in order. Every written method has such lists, flawed or not
(`orderedArguments_total`, `orderedVariables_total`). If it has no flaw they hold the names that the
checker has seen.
-/
namespace MethodLang

open Node Declaration TypeCheck

/-! ### Reading -/

/-- The reading has no fault. -/
def Total {α : Type} (x : Except Fault α) : Prop := ∃ a, x = .ok a

namespace Total

variable {α β : Type}

theorem ok (a : α) : Total (.ok a : Except Fault α) := ⟨a, rfl⟩

theorem bind {x : Except Fault α} {f : α → Except Fault β} (first : Total x)
    (later : ∀ a, Total (f a)) : Total (x >>= f) := by
  obtain ⟨a, rfl⟩ := first
  exact later a

theorem mapM {f : α → Except Fault β} {xs : List α} (each : ∀ x ∈ xs, Total (f x)) :
    Total (xs.mapM f) := by
  induction xs with
  | nil => exact ok []
  | cons x xs ih =>
    obtain ⟨first, rest⟩ := List.forall_mem_cons.mp each
    rw [List.mapM_cons]
    exact first.bind fun _ => (ih rest).bind fun _ => ok _

end Total

theorem simpleType_total {kind : View} (inner : kind.children ≠ []) : Total (simpleType kind) := by
  obtain ⟨c, cs, children⟩ := List.exists_cons_of_ne_nil inner
  have named : Total (firstName kind) := by
    simp only [firstName, first, children]
    exact .ok _
  unfold simpleType
  split
  · exact named.bind fun _ => .ok _
  · split
    · exact named.bind fun _ => .ok _
    · exact .ok _

/-- What a written type consists of. -/
theorem TypeRef.view_kind (t : TypeRef) :
    ∃ kind, t.view = .node "typeRef" (some .start) [kind] ∧ kind.children ≠ [] := by
  cases t with
  | builtin word => exact ⟨_, TypeRef.view_builtin word, List.cons_ne_nil _ _⟩
  | custom name => exact ⟨_, TypeRef.view_custom name, List.cons_ne_nil _ _⟩
  | array commas element => exact ⟨_, TypeRef.view_array commas element, List.cons_ne_nil _ _⟩

theorem arrayElement_total {part : View} (filled : part.children ≠ []) (isString : Bool) :
    Total (do
      if isString then .ok (none, some TypeFlaw.strings)
      else match ← simpleType part with
        | (_, some flaw) => .ok (none, some flaw)
        | (type, none) => .ok (type.map fun t =>
          TypeName.normalize ("array[] of " ++ TypeName.normalize t), none)) := by
  split
  · exact .ok _
  · refine (simpleType_total filled).bind fun read => ?_
    split <;> exact .ok _

theorem arrayType_total {kind : View} {element : TypeRef}
    (inner : labelled "typeRef" kind = some element.view) : Total (arrayType kind) := by
  obtain ⟨part, view, filled⟩ := element.view_kind
  obtain ⟨c, cs, children⟩ := List.exists_cons_of_ne_nil filled
  have named : Total (firstName part) := by
    simp only [firstName, first, children]
    exact .ok _
  unfold arrayType
  rw [inner, view]
  split
  · exact .ok _
  · change Total (if part.label = "array" then
      .ok (none, some TypeFlaw.multidimensional) else _)
    split
    · exact .ok _
    · split
      · exact named.bind fun _ => arrayElement_total filled _
      · exact arrayElement_total filled false

/-- Every written type can be read. -/
theorem typeOf_total (t : TypeRef) : Total (typeOf t.view) := by
  cases t with
  | builtin word => exact .ok _
  | custom name => exact .ok _
  | array commas element =>
    obtain ⟨kind, outer, inner⟩ := typeOf_array commas element
    rw [outer]
    exact arrayType_total inner

theorem IsType.typeOf_total {n : View} (written : IsType n) : Total (typeOf n) := by
  obtain ⟨t, -, rfl⟩ := written
  exact MethodLang.typeOf_total t

theorem groupClause_total {rest : List View} (types : TypesIn rest) : Total (groupClause rest) := by
  unfold groupClause
  split
  · split
    · split
      · split
        · rename_i n _ isType
          exact (types n (by simp) isType).typeOf_total.bind fun _ => .ok _
        · exact .ok _
      · exact .ok _
    · exact .ok _
  · exact .ok _

/-- Whatever is labelled as a list of names among the nodes lists names. -/
def NamesIn (nodes : List View) : Prop :=
  ∀ n ∈ nodes, n.label = "list<identifier>" → ∀ c ∈ n.children, c.label = "identifier" →
    Total (firstName c)

theorem groupsFrom_total {inGroup : Bool} {nodes : List View} (types : TypesIn nodes)
    (names : NamesIn nodes) : Total (groupsFrom inGroup nodes) := by
  fun_induction groupsFrom inGroup nodes with
  | case1 => exact .ok []
  | case2 n rest ih | case3 n rest _ ih =>
    exact ih (List.forall_mem_cons.mp types).2 (List.forall_mem_cons.mp names).2
  | case4 n rest isList ih =>
    obtain ⟨here, later⟩ := List.forall_mem_cons.mp names
    have laterTypes := (List.forall_mem_cons.mp types).2
    have read : Total ((n.children.filter fun c => c.label == "identifier").mapM firstName) :=
      .mapM fun c inside => by
        obtain ⟨isChild, label⟩ := List.mem_filter.mp inside
        exact here (Decidable.not_not.mp isList) c isChild (by simpa using label)
    exact read.bind fun _ => (groupClause_total laterTypes).bind fun _ =>
      (ih laterTypes later).bind fun _ => .ok _

theorem namesIn_group (group : VarGroup) : NamesIn group.views := by
  have clause : NamesIn (clauseViews group.type) := by
    cases group.type with
    | none => exact List.forall_mem_nil _
    | some t =>
      refine List.forall_mem_cons.mpr ⟨fun label => absurd label (by decide),
        List.forall_mem_singleton.mpr fun label => ?_⟩
      obtain ⟨kind, view, -⟩ := t.view_kind
      simp [view] at label
  refine List.forall_mem_append.mpr ⟨List.forall_mem_append.mpr ⟨?_, clause⟩,
    List.forall_mem_singleton.mpr fun label => absurd label (by decide)⟩
  split
  · exact List.forall_mem_nil _
  · refine List.forall_mem_singleton.mpr fun _ c isChild label => ?_
    rcases commaViews_mem isChild with item | rfl
    · obtain ⟨name, -, rfl⟩ := List.mem_map.mp item
      exact ⟨_, rfl⟩
    · exact absurd label (by decide)

/-- The variables of a written method can be read in order. -/
theorem orderedVariables_total {m : Method} (spelled : m.Spelled) :
    Total (orderedVariables m.view) := by
  unfold orderedVariables
  rw [Method.body?_view]
  cases has : m.body with
  | none => exact .ok []
  | some body =>
    have types := (Method.view_typed spelled).locals body.view (by
      rw [Method.body?_view, has]
      rfl)
    have inside {n : View} (variable_ : n ∈ variableNodes body.view) : n ∈ body.view.children :=
      List.dropLast_subset _ (List.mem_of_mem_drop variable_)
    have names : NamesIn (variableNodes body.view) := by
      refine fun n isNode => ?_
      have front : n ∈ varViews body.vars := by
        have nodes : variableNodes body.view = (varViews body.vars).drop 1 := by
          simp [variableNodes, Body.view]
        rw [nodes] at isNode
        exact List.mem_of_mem_drop isNode
      cases vars : body.vars with
      | none =>
        rw [vars] at front
        cases front
      | some groups =>
        rw [vars] at front
        rcases List.mem_cons.mp front with rfl | isVar
        · exact fun label => absurd label (by decide)
        · obtain ⟨group, -, isVar⟩ := List.mem_flatMap.mp isVar
          exact namesIn_group group n isVar
    exact (groupsFrom_total (fun n isNode => types n (inside isNode)) names).bind fun _ => .ok _

/-- How an argument with a type is read for the frame. -/
theorem orderedArgument_typed (x : String) (t : TypeRef) :
    orderedArgument (ArgDef.view ⟨x, some t⟩) = (do
      let name ← firstName (nameView x)
      let (type, _) ← typeOf t.view
      .ok (some (name, type.map TypeName.normalize))) := by
  cases t <;> rfl

theorem nameView_total (x : String) : Total (firstName (nameView x)) := ⟨_, rfl⟩

/-- What reads an argument, with or without a type, reads the arguments of every list. -/
theorem argDefs_total {β : Type} (read : View → Except Fault β) {args : List ArgDef}
    (plain : ∀ x, Total (read (ArgDef.view ⟨x, none⟩)))
    (typed : ∀ x t, Total (read (ArgDef.view ⟨x, some t⟩))) :
    Total (((argsView args).children.filter fun n => n.label == "argDef").mapM read) := by
  refine .mapM fun n inside => ?_
  obtain ⟨isNode, label⟩ := List.mem_filter.mp inside
  obtain ⟨⟨x, clause⟩, -, rfl⟩ := argsView_mem isNode (by simpa using label)
  cases clause with
  | none => exact plain x
  | some t => exact typed x t

/-- The arguments of a written method can be read in order. -/
theorem orderedArguments_total (m : Method) : Total (orderedArguments m.view) := by
  unfold orderedArguments
  rw [m.list_view]
  refine (argDefs_total orderedArgument (fun _ => ⟨_, rfl⟩) fun x t => ?_).bind fun _ => .ok _
  rw [orderedArgument_typed]
  exact (nameView_total x).bind fun _ => (typeOf_total t).bind fun _ => .ok _

/-! ### Lists of names -/

theorem TypeTable.set_names (table : TypeTable) (name : String) (type : Option TypeName)
    (x : String) : x ∈ (table.set name type).map (·.1) ↔ x ∈ table.map (·.1) ∨ x = name := by
  induction table with
  | nil => simp [TypeTable.set]
  | cons q rest ih =>
    obtain ⟨n, t⟩ := q
    rw [TypeTable.set]
    split
    · rename_i same
      subst same
      simp only [List.map_cons, List.mem_cons, or_right_comm, or_self]
    · rw [List.map_cons, List.mem_cons, ih, List.map_cons, List.mem_cons, or_assoc]

/-- The variables in order are those that the checker has seen, but for the result. -/
theorem orderedVariables_names {t : View} (typed : t.Typed) {name : String}
    {result : Option TypeName} {table vars : TypeTable}
    (declared : methodVariables name result t = .ok (table, []))
    (ordered : orderedVariables t = .ok vars) :
    (∀ p ∈ vars, p.2.isSome) ∧ ∀ x, x ∈ table.map (·.1) ↔
      x ∈ vars.map (·.1) ∨ result.isSome ∧ x = name := by
  obtain ⟨locals_, read, rfl⟩ := methodVariables_ok declared
  have names (same : locals_.map (·.1) = vars.map (·.1)) (x : String) :
      x ∈ (if result.isSome then locals_.set name result else locals_).map (·.1) ↔
        x ∈ vars.map (·.1) ∨ result.isSome ∧ x = name := by
    rw [← same]
    split
    · rename_i present
      rw [TypeTable.set_names]
      simp [present]
    · rename_i absent
      simp [absent]
  unfold orderedVariables at ordered
  cases body : body? t with
  | none =>
    simp only [body, Except.ok.injEq] at read ordered
    cases read
    subst ordered
    exact ⟨List.forall_mem_nil _, names rfl⟩
  | some b =>
    simp only [body] at read ordered
    obtain ⟨gs, isGroups, rfl, flawless⟩ := locals_clean read
    obtain ⟨gs', isGroups', h⟩ := Except.bind_eq_ok.mp ordered
    cases isGroups.symm.trans isGroups'
    cases h
    refine ⟨fun p inside => ?_, names ?_⟩
    · obtain ⟨g, isGroup, named⟩ := List.mem_flatMap.mp inside
      obtain ⟨n, -, rfl⟩ := List.mem_map.mp named
      have types : TypesIn (variableNodes b) := fun n inside =>
        typed.locals b body n (List.dropLast_subset _ (List.mem_of_mem_drop inside))
      obtain ⟨u, is, -⟩ := groupsFrom_proper types isGroups g isGroup (flawless g isGroup)
      rw [is]
      rfl
    · simp only [List.map_flatMap, List.map_map]
      rfl

/-- How an argument with a type is read for the checker. -/
theorem argument_typed (x : String) (t : TypeRef) :
    argument (ArgDef.view ⟨x, some t⟩) = (do
      let name ← firstName (nameView x)
      let (type, flaw) ← typeOf t.view
      .ok (name, type, flaw.map .type)) := by
  cases t <;> rfl

/-- Read for the frame, an argument without a flaw is the same. -/
theorem orderedArgument_view {arg : ArgDef} {name : String} {type : Option TypeName}
    (h : argument arg.view = .ok (name, type, none)) :
    orderedArgument arg.view = .ok (some (name, type.map TypeName.normalize)) := by
  obtain ⟨x, clause⟩ := arg
  cases clause with
  | none =>
    obtain ⟨_, -, h⟩ := Except.bind_eq_ok.mp (show (do
      let name ← firstName (nameView x)
      .ok (name, none, some ClauseFlaw.noColon)) = _ from h)
    cases h
  | some t =>
    rw [argument_typed] at h
    obtain ⟨_, named, h⟩ := Except.bind_eq_ok.mp h
    obtain ⟨⟨_, flaw⟩, typed, h⟩ := Except.bind_eq_ok.mp h
    cases flaw with
    | some flaw => cases h
    | none =>
      cases h
      rw [orderedArgument_typed, named, typed]
      rfl

/-- The arguments in order are those that the checker has seen. -/
theorem orderedArguments_names {m : Method} (spelled : m.Spelled) {table params : TypeTable}
    (declared : methodArguments m.view = .ok (table, []))
    (ordered : orderedArguments m.view = .ok params) :
    (∀ p ∈ params, p.2.isSome) ∧ params.map (·.1) = table.map (·.1) := by
  have proper := methodArguments_proper (Method.view_typed spelled) declared
  simp only [methodArguments, orderedArguments, m.list_view] at declared ordered
  obtain ⟨args, read, rfl, flawless⟩ := arguments_clean declared
  have again := mapM_ok (h := fun a => some (a.1, a.2.1.map TypeName.normalize)) read
    fun n inside a isArg here => by
      obtain ⟨isNode, label⟩ := List.mem_filter.mp inside
      obtain ⟨arg, -, rfl⟩ := argsView_mem isNode (by simpa using label)
      obtain ⟨name, type, flaw⟩ := a
      obtain rfl : flaw = none := flawless _ isArg
      exact orderedArgument_view here
  rw [again] at ordered
  cases ordered
  rw [List.filterMap_map, show (id ∘ fun a : String × Option TypeName × Option ClauseFlaw =>
    some (a.1, a.2.1.map TypeName.normalize)) = some ∘ _ from rfl, List.filterMap_eq_map]
  refine ⟨List.forall_mem_map.mpr fun a isArg => ?_, by simp⟩
  obtain ⟨u, is, -⟩ := proper _ (List.mem_map_of_mem isArg)
  rw [show a.2.1 = some u from is]
  rfl

end MethodLang
