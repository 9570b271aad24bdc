import MethodLang.Program.TypeCheck
import MethodLang.Proofs.Grammar.Heading
import MethodLang.Proofs.Typing.Proper

/-!
Declarations of spelled methods. A type that is declared without a flaw is a proper one, so the
tables of a method without flaws hold nothing but proper types.
-/
namespace MethodLang

open Node Declaration

/-! ### Written types -/

/-- What stands between two characters of the class is kept if it holds none of them. -/
theorem Text.trimBy_around {drop : Char → Bool} {c : Char} (dropped : drop c) {cs : List Char}
    (some_ : cs ≠ []) (kept : ∀ d ∈ cs, drop d = false) :
    Text.trimBy drop (c :: (cs ++ [c])) = cs := by
  have stays {ds : List Char} (some_ : ds ≠ []) (kept : ∀ d ∈ ds, drop d = false)
      (rest : List Char) : (ds ++ rest).dropWhile drop = ds ++ rest := by
    obtain ⟨d, ds, rfl⟩ := List.exists_cons_of_ne_nil some_
    exact List.dropWhile_cons_of_neg (by simp [kept d List.mem_cons_self])
  have reversed := stays (List.reverse_ne_nil_iff.mpr some_) (by simpa using kept) []
  rw [List.append_nil] at reversed
  rw [Text.trimBy, List.dropWhile_cons_of_pos dropped, stays some_ kept, List.reverse_append,
    List.reverse_singleton, List.singleton_append, List.dropWhile_cons_of_pos dropped, reversed,
    List.reverse_reverse]

theorem Text.trimQuotes_quoted {s : String} (named : IsName s) :
    Text.trimQuotes ("\"" ++ s ++ "\"") = s := by
  have chars : ("\"" ++ s ++ "\"").toList = '"' :: (s.toList ++ ['"']) := by simp
  have kept : ∀ d ∈ s.toList, (d == '"') = false := by
    intro d inside
    refine beq_eq_false_iff_ne.mpr ?_
    rintro rfl
    exact named.not_mem (by decide) inside
  rw [Text.trimQuotes, chars, Text.trimBy_around rfl named.ne_empty kept, String.ofList_toList]

theorem firstName_token (l : String) {name : String} (named : IsName name) :
    firstName (.node l (some Position.start) [tokenView name]) = .ok name := by
  simp [firstName, first, tokenView, Bind.bind, Except.bind, Text.trimQuotes_quoted named]

/-- A built-in word names a proper type, and so does an array of it, unless it is `string`. -/
theorem TypeRef.builtin_proper {word : String} (spelled : word ∈ builtinWords) :
    IsName word ∧ TypeName.Proper (TypeName.normalize word) ∧ (Text.lower word ≠ "string" →
      TypeName.Proper (TypeName.normalize ("array[] of " ++ TypeName.normalize word))) := by
  have each : ∀ word ∈ builtinWords, Text.isIdentifier word.toList = true ∧
      TypeName.Proper (TypeName.normalize word) ∧ (Text.lower word ≠ "string" →
        TypeName.Proper (TypeName.normalize ("array[] of " ++ TypeName.normalize word))) := by
    decide +kernel
  exact each word spelled

theorem typeOf_builtin {word : String} (named : IsName word) :
    typeOf (TypeRef.builtin word).view = .ok (some (TypeName.normalize word), none) := by
  have kind := firstName_token "builtin" named
  simp only [TypeRef.view_builtin, typeOf, first, Tree.children_node, Bind.bind, Except.bind,
    Tree.label_node, simpleType]
  simp [kind]

/-- An array type is read by the kind of its node, which has the type of the elements in it. -/
theorem typeOf_array (commas : Nat) (element : TypeRef) : ∃ kind : View,
    typeOf (TypeRef.array commas element).view = arrayType kind ∧
    labelled "typeRef" kind = some element.view := by
  refine ⟨.node "array" (some Position.start) (tokenView "array" :: tokenView "[" ::
    List.replicate commas (tokenView ",") ++ [tokenView "]", tokenView "of", element.view]), ?_, ?_⟩
  · rw [TypeRef.view_array]
    rfl
  · have pass : (List.replicate commas (tokenView ",")).find? (fun c => c.label == "typeRef") =
        none := List.find?_eq_none.mpr fun c inside => by
      rw [List.eq_of_mem_replicate inside]
      decide
    have label : (element.view.label == "typeRef") = true := by cases element <;> rfl
    simp only [labelled, Tree.children_node, List.cons_append, List.find?_cons, List.find?_append,
      pass, label]
    rfl

/-- A type that is written without a flaw is proper. -/
theorem typeOf_proper {t : TypeRef} (spelled : t.Spelled) {type : Option TypeName}
    (h : typeOf t.view = .ok (type, none)) : ∃ u, type = some u ∧ u.Proper := by
  cases t with
  | builtin word =>
    obtain ⟨named, proper, _⟩ := TypeRef.builtin_proper spelled
    rw [typeOf_builtin named] at h
    cases h
    exact ⟨_, rfl, proper⟩
  | custom name =>
    have kind := firstName_token "custom" spelled
    simp [TypeRef.view_custom, typeOf, first, simpleType, Bind.bind, Except.bind, kind] at h
  | array commas element =>
    obtain ⟨kind, outer, inner⟩ := typeOf_array commas element
    rw [outer, arrayType] at h
    split at h
    · cases h
    simp only [inner] at h
    cases element with
    | builtin word =>
      obtain ⟨named, simple, proper⟩ := TypeRef.builtin_proper spelled
      have kind := firstName_token "builtin" named
      simp only [TypeRef.view_builtin, first, Tree.children_node, Tree.label_node, Bind.bind,
        Except.bind, simpleType, kind] at h
      by_cases isString : Text.lower word = "string"
      · simp [isString, pure, Except.pure] at h
      · have other : (Text.lower word == "string") = false := beq_eq_false_iff_ne.mpr isString
        have distinct : "builtin" ≠ "array" := by decide
        simp only [other, pure, Except.pure, if_true, Bool.false_eq_true, if_false, distinct,
          Option.map_some, simple.normalize_eq] at h
        cases h
        exact ⟨_, rfl, proper isString⟩
    | custom name =>
      have kind := firstName_token "custom" spelled
      simp [TypeRef.view_custom, first, simpleType, Bind.bind, Except.bind, kind, pure,
        Except.pure] at h
    | array => simp [TypeRef.view_array, first, Bind.bind, Except.bind] at h

/-! ### Tables -/

/-- The view of a spelled type. -/
def IsType (n : View) : Prop := ∃ t : TypeRef, t.Spelled ∧ n = t.view

/-- Whatever is labelled as a type among the nodes is one. -/
def TypesIn (nodes : List View) : Prop := ∀ n ∈ nodes, n.label = "typeRef" → IsType n

theorem IsType.typeOf_proper {n : View} (written : IsType n) {type : Option TypeName}
    (h : typeOf n = .ok (type, none)) : ∃ u, type = some u ∧ u.Proper := by
  obtain ⟨t, spelled, rfl⟩ := written
  exact MethodLang.typeOf_proper spelled h

theorem groupClause_proper {rest : List View} (types : TypesIn rest) {type : Option TypeName}
    (h : groupClause rest = .ok (type, none)) : ∃ u, type = some u ∧ u.Proper := by
  unfold groupClause at h
  split at h
  · split at h
    · split at h
      · rename_i n _
        split at h
        · rename_i isType
          obtain ⟨⟨name, flaw⟩, read, h⟩ := Except.bind_eq_ok.mp h
          cases flaw with
          | none =>
            cases h
            exact (types n (by simp) isType).typeOf_proper read
          | some flaw => cases h
        · cases h
      · cases h
    · cases h
  · cases h

theorem groupsFrom_proper {inGroup : Bool} {nodes : List View} (types : TypesIn nodes)
    {groups : List Group} (h : groupsFrom inGroup nodes = .ok groups) :
    ∀ g ∈ groups, g.flaw = none → ∃ u, g.type = some u ∧ u.Proper := by
  fun_induction groupsFrom inGroup nodes generalizing groups with
  | case1 =>
    cases h
    exact List.forall_mem_nil _
  | case2 n rest ih | case3 n rest _ ih => exact ih (List.forall_mem_cons.mp types).2 h
  | case4 n rest _ ih =>
    have later := (List.forall_mem_cons.mp types).2
    obtain ⟨names, _, h⟩ := Except.bind_eq_ok.mp h
    obtain ⟨⟨type, flaw⟩, clause, h⟩ := Except.bind_eq_ok.mp h
    obtain ⟨others, rest, h⟩ := Except.bind_eq_ok.mp h
    cases h
    refine List.forall_mem_cons.mpr ⟨fun flawless => ?_, ih later rest⟩
    cases flawless
    exact groupClause_proper later clause

theorem addGroup_clean {table : TypeTable} {group : Group} (clean : (addGroup table group).2 = []) :
    (addGroup table group).1 = table ++ group.names.map (·, group.type) ∧ group.flaw = none := by
  unfold addGroup at clean ⊢
  obtain ⟨flawless, unflawed⟩ := List.append_eq_nil_iff.mp clean
  have step (acc : TypeTable × List DeclarationFlaw) (name : String)
      (silent : (if acc.1.has name then (acc.1, acc.2 ++ [DeclarationFlaw.repeatedVariable name])
        else (acc.1 ++ [(name, group.type)], acc.2)).2 = []) : acc.2 = [] ∧
      (if acc.1.has name then (acc.1, acc.2 ++ [DeclarationFlaw.repeatedVariable name])
        else (acc.1 ++ [(name, group.type)], acc.2)).1 = acc.1 ++ [(name, group.type)] ∧ True := by
    split at silent
    · simp at silent
    · rename_i fresh
      rw [if_neg fresh]
      exact ⟨silent, rfl, trivial⟩
  obtain ⟨_, all, _⟩ := foldl_clean (fun name => [(name, group.type)]) (fun _ => True) step
    group.names (table, []) flawless
  refine ⟨by rw [List.map_eq_flatMap]; exact all, ?_⟩
  cases flaw : group.flaw with
  | none => rfl
  | some flaw => simp [flaw] at unflawed

/-- Without a flaw, the table of variables has every name in order. -/
theorem locals_clean {nodes : List View} {table : TypeTable}
    (h : locals nodes = .ok (table, [])) : ∃ gs, groups nodes = .ok gs ∧
      table = gs.flatMap (fun g => g.names.map (·, g.type)) ∧ ∀ g ∈ gs, g.flaw = none := by
  obtain ⟨gs, read, h⟩ := Except.bind_eq_ok.mp h
  have h := Except.ok.inj h
  have step (acc : TypeTable × List DeclarationFlaw) (g : Group)
      (flawless : acc.2 ++ (addGroup acc.1 g).2 = []) : acc.2 = [] ∧
      (addGroup acc.1 g).1 = acc.1 ++ g.names.map (·, g.type) ∧ g.flaw = none := by
    obtain ⟨before, here⟩ := List.append_eq_nil_iff.mp flawless
    exact ⟨before, addGroup_clean here⟩
  obtain ⟨_, all, good⟩ := foldl_clean (fun g : Group => g.names.map (·, g.type))
    (fun g => g.flaw = none) step gs ([], []) (congrArg Prod.snd h)
  exact ⟨gs, read, (congrArg Prod.fst h).symm.trans all, good⟩

theorem locals_proper {nodes : List View} (types : TypesIn nodes) {table : TypeTable}
    (h : locals nodes = .ok (table, [])) : table.Proper := by
  obtain ⟨gs, read, rfl, good⟩ := locals_clean h
  intro p inside
  obtain ⟨g, isGroup, named⟩ := List.mem_flatMap.mp inside
  obtain ⟨name, _, rfl⟩ := List.mem_map.mp named
  exact groupsFrom_proper types read g isGroup (good g isGroup)

theorem addArgument_clean {acc : TypeTable × List DeclarationFlaw}
    {arg : String × Option TypeName × Option ClauseFlaw} (clean : (addArgument acc arg).2 = []) :
    acc.2 = [] ∧ (addArgument acc arg).1 = acc.1 ++ [(arg.1, arg.2.1)] ∧ arg.2.2 = none := by
  obtain ⟨name, type, flaw⟩ := arg
  unfold addArgument at clean ⊢
  obtain ⟨flawless, unflawed⟩ := List.append_eq_nil_iff.mp clean
  cases flaw with
  | some flaw => simp at unflawed
  | none =>
    simp only at flawless ⊢
    split at flawless
    · simp at flawless
    · rename_i fresh
      rw [if_neg fresh]
      exact ⟨flawless, rfl, trivial⟩

/-- Without a flaw, the table of arguments has every name in order. -/
theorem arguments_clean {nodes : List View} {table : TypeTable}
    (h : arguments nodes = .ok (table, [])) :
    ∃ args, (nodes.filter fun n => n.label == "argDef").mapM argument = .ok args ∧
      table = args.map (fun a => (a.1, a.2.1)) ∧ ∀ a ∈ args, a.2.2 = none := by
  obtain ⟨args, read, h⟩ := Except.bind_eq_ok.mp h
  have h := Except.ok.inj h
  obtain ⟨_, all, good⟩ := foldl_clean (fun arg : String × Option TypeName × Option ClauseFlaw =>
    [(arg.1, arg.2.1)]) (fun arg => arg.2.2 = none) (fun acc arg => addArgument_clean) args ([], [])
    (congrArg Prod.snd h)
  refine ⟨args, read, ?_, good⟩
  rw [List.map_eq_flatMap]
  exact (congrArg Prod.fst h).symm.trans all

theorem labelled_eq_some {α : Type} {label : String} {t c : Tree α} (h : labelled label t = some c) :
    c ∈ t.children ∧ c.label = label :=
  ⟨List.mem_of_find?_eq_some h, by simpa using List.find?_some h⟩

theorem argument_proper {n : View} (types : TypesIn n.children) {name : String}
    {type : Option TypeName} (h : argument n = .ok (name, type, none)) :
    ∃ u, type = some u ∧ u.Proper := by
  simp only [argument] at h
  split at h
  · obtain ⟨identifier, _, h⟩ := Except.bind_eq_ok.mp h
    obtain ⟨read, _, h⟩ := Except.bind_eq_ok.mp h
    split at h
    · split at h
      · rename_i written found
        obtain ⟨⟨type', flaw⟩, typed, h⟩ := Except.bind_eq_ok.mp h
        obtain ⟨inside, isType⟩ := labelled_eq_some found
        cases flaw with
        | none =>
          cases h
          exact (types written inside isType).typeOf_proper typed
        | some flaw => cases h
      · cases h
    · cases h
  · cases h

theorem arguments_proper {nodes : List View}
    (types : ∀ n ∈ nodes, n.label = "argDef" → TypesIn n.children) {table : TypeTable}
    (h : arguments nodes = .ok (table, [])) : table.Proper := by
  obtain ⟨args, read, rfl, good⟩ := arguments_clean h
  intro p inside
  obtain ⟨⟨name, type, flaw⟩, isArg, rfl⟩ := List.mem_map.mp inside
  obtain ⟨n, isNode, here⟩ := mapM_mem read isArg
  obtain ⟨isNode, label⟩ := List.mem_filter.mp isNode
  cases good _ isArg
  exact argument_proper (types n isNode (by simpa using label)) here

/-! ### Methods -/

/-- In the view of a method, what is labelled as a type is one, wherever a declaration looks for
types. -/
structure View.Typed (t : View) : Prop where
  signature : ∀ signature, signature? t = some signature → TypesIn signature.children
  arguments : ∀ list, (signature? t >>= labelled "list<argDef>") = some list →
    ∀ n ∈ list.children, n.label = "argDef" → TypesIn n.children
  locals : ∀ body, body? t = some body → TypesIn body.children

theorem result_proper {t : View} (typed : t.Typed) {type : Option TypeName} {written : Bool}
    (h : result t = .ok (type, written, none)) : ∀ u ∈ type, u.Proper := by
  unfold result at h
  split at h
  · cases h
  rename_i method rest children
  split at h
  · rename_i before signature after parts
    have isSignature : signature? t = some signature := by
      simp [signature?, children, parts]
    split at h
    · cases h
    rename_i last isLast
    split at h
    · cases h
      exact fun u is => by cases is
    rename_i isType
    obtain ⟨⟨type', flaw⟩, read, h⟩ := Except.bind_eq_ok.mp h
    cases flaw with
    | some flaw => cases h
    | none =>
      cases h
      have inside := List.mem_of_getLast? isLast
      obtain ⟨u, rfl, proper⟩ :=
        (typed.signature signature isSignature last inside (Decidable.not_not.mp isType)).typeOf_proper read
      exact fun v is => Option.mem_some_iff.mp is ▸ proper
  · cases h

theorem typesIn_append {ns ms : List View} : TypesIn (ns ++ ms) ↔ TypesIn ns ∧ TypesIn ms :=
  List.forall_mem_append

theorem typesIn_other {n : View} (other : n.label ≠ "typeRef") : TypesIn [n] :=
  List.forall_mem_singleton.mpr fun same => absurd same other

theorem typesIn_cons {n : View} (other : n.label ≠ "typeRef") {ns : List View} (rest : TypesIn ns) :
    TypesIn (n :: ns) :=
  List.forall_mem_cons.mpr ⟨fun same => absurd same other, rest⟩

theorem typesIn_clause {type : Option TypeRef} (spelled : ∀ t ∈ type, t.Spelled) :
    TypesIn (clauseViews type) := by
  cases type with
  | none => exact List.forall_mem_nil _
  | some t =>
    exact typesIn_cons (by decide) (List.forall_mem_singleton.mpr fun _ => ⟨t, spelled t rfl, rfl⟩)

theorem commaViews_mem {vs : List View} {v : View} (inside : v ∈ commaViews vs) :
    v ∈ vs ∨ v = tokenView "," := by
  fun_induction commaViews vs with
  | case1 => exact .inl inside
  | case2 => exact .inl inside
  | case3 w vs _ ih =>
    rcases List.mem_cons.mp inside with rfl | inside
    · exact .inl List.mem_cons_self
    rcases List.mem_cons.mp inside with rfl | inside
    · exact .inr rfl
    · exact (ih inside).imp_left (List.mem_cons_of_mem w)

theorem Method.signature?_view (m : Method) : signature? m.view = some m.signature.view := by
  rw [Method.view_eq]
  rfl

theorem Method.body?_view (m : Method) : body? m.view = m.body.map Body.view := by
  rw [Method.view_eq]
  cases m.body <;> rfl

theorem Signature.list_view (s : Signature) :
    labelled "list<argDef>" s.view = some (argsView s.args) := by
  obtain ⟨name, args, result⟩ := s
  cases args <;> rfl

theorem Method.list_view (m : Method) : (signature? m.view >>= labelled "list<argDef>") =
    some (argsView m.signature.args) := by
  rw [Method.signature?_view]
  exact Signature.list_view _

theorem argsView_mem {args : List ArgDef} {n : View} (inside : n ∈ (argsView args).children)
    (label : n.label = "argDef") : ∃ arg ∈ args, n = arg.view := by
  cases args with
  | nil => cases inside
  | cons a as =>
    rcases commaViews_mem inside with item | rfl
    · obtain ⟨arg, isArg, same⟩ := List.mem_map.mp item
      exact ⟨arg, isArg, same.symm⟩
    · exact absurd label (by decide)

theorem typesIn_group {group : VarGroup} (spelled : group.Spelled) : TypesIn group.views := by
  refine typesIn_append.mpr ⟨typesIn_append.mpr ⟨?_, typesIn_clause spelled.2⟩,
    typesIn_other (by decide)⟩
  split
  · exact List.forall_mem_nil _
  · exact typesIn_other (by simp)

theorem Method.view_typed {m : Method} (spelled : m.Spelled) : m.view.Typed where
  signature := by
    intro signature is
    rw [Method.signature?_view] at is
    cases is
    have list : (argsView m.signature.args).label ≠ "typeRef" := by
      cases m.signature.args <;> simp [argsView]
    exact typesIn_cons (by simp [nameView]) (typesIn_cons (by decide) (typesIn_cons list
      (typesIn_cons (by decide) (typesIn_clause spelled.signature.result))))
  arguments := by
    intro list is n inside label
    rw [Method.signature?_view] at is
    cases (Signature.list_view m.signature).symm.trans is
    obtain ⟨arg, isArg, rfl⟩ := argsView_mem inside label
    exact typesIn_cons (by simp [nameView]) (typesIn_clause (spelled.signature.args arg isArg).2)
  locals := by
    intro body is
    rw [Method.body?_view] at is
    obtain ⟨written, has, rfl⟩ := Option.map_eq_some_iff.mp is
    refine typesIn_append.mpr ⟨?_, typesIn_other (by simp)⟩
    cases vars : written.vars with
    | none => exact List.forall_mem_nil _
    | some groups =>
      refine typesIn_cons (by decide) fun n inside => ?_
      obtain ⟨group, isGroup, inside⟩ := List.mem_flatMap.mp inside
      exact typesIn_group ((spelled.body written has).vars groups vars group isGroup) n inside

theorem methodArguments_proper {t : View} (typed : t.Typed) {table : TypeTable}
    (h : TypeCheck.methodArguments t = .ok (table, [])) : table.Proper := by
  unfold TypeCheck.methodArguments at h
  split at h
  · rename_i list found
    exact arguments_proper (typed.arguments list found) h
  · cases h
    exact List.forall_mem_nil _

theorem TypeTable.set_mem {table : TypeTable} {name : String} {type : Option TypeName}
    {p : String × Option TypeName} (inside : p ∈ table.set name type) :
    p ∈ table ∨ p = (name, type) := by
  induction table with
  | nil => exact .inr (List.mem_singleton.mp inside)
  | cons q rest ih =>
    obtain ⟨n, t⟩ := q
    rw [TypeTable.set] at inside
    split at inside
    · rename_i same
      subst same
      rcases List.mem_cons.mp inside with rfl | later
      · exact .inr rfl
      · exact .inl (List.mem_cons_of_mem _ later)
    · rcases List.mem_cons.mp inside with rfl | later
      · exact .inl List.mem_cons_self
      · exact (ih later).imp_left (List.mem_cons_of_mem _)

/-- The variables of a method are those of its body, and its result under its own name. -/
theorem methodVariables_ok {t : View} {name : String} {result : Option TypeName}
    {table : TypeTable} {flaws : List DeclarationFlaw}
    (h : TypeCheck.methodVariables name result t = .ok (table, flaws)) :
    ∃ vars, (match body? t with
        | some body => locals (variableNodes body)
        | none => .ok ([], [])) = .ok (vars, flaws) ∧
      table = if result.isSome then vars.set name result else vars := by
  revert h
  rw [TypeCheck.methodVariables]
  cases body? t with
  | some _ | none =>
    intro h
    obtain ⟨⟨vars, flaws'⟩, read, h⟩ := Except.bind_eq_ok.mp h
    cases result <;> cases h <;> exact ⟨_, read, rfl⟩

theorem methodVariables_proper {t : View} (typed : t.Typed) {name : String}
    {result : Option TypeName} (proper : ∀ u ∈ result, u.Proper) {table : TypeTable}
    (h : TypeCheck.methodVariables name result t = .ok (table, [])) : table.Proper := by
  obtain ⟨vars, read, rfl⟩ := methodVariables_ok h
  have varsProper : vars.Proper := by
    split at read
    · rename_i body found
      refine locals_proper (fun n inside => ?_) read
      exact typed.locals body found n (List.dropLast_subset _ (List.mem_of_mem_drop inside))
    · cases read
      exact List.forall_mem_nil _
  cases result with
  | none => exact varsProper
  | some u =>
    intro p inside
    rcases TypeTable.set_mem inside with old | rfl
    · exact varsProper p old
    · exact ⟨u, rfl, proper u rfl⟩

end MethodLang
