import MethodLang.Proofs.Typing.Listing

/-!
Two readings of one declaration. The checker keeps a table with the first declaration of every name
and reports the others; the frame is laid out from a list that keeps them all. Both are read off
what the method writes, so the table is the list without its repetitions, and a name is reported
just when the list repeats it (`arguments_agree`, `locals_agree`).
-/
namespace MethodLang

open Node Declaration TypeCheck

/-! ### First declarations -/

namespace TypeTable

theorem has_iff {table : TypeTable} {x : String} : table.has x ↔ x ∈ table.map (·.1) := by
  simp [has]

/-- The first declaration of every name, in order. -/
def firsts : TypeTable → TypeTable
  | [] => []
  | p :: rest => p :: (firsts rest).filter fun q => q.1 ≠ p.1

theorem mem_firsts_names {ps : TypeTable} {x : String} :
    x ∈ ps.firsts.map (·.1) ↔ x ∈ ps.map (·.1) := by
  induction ps with
  | nil => rfl
  | cons p rest ih =>
    by_cases same : x = p.1
    · simp [firsts, same]
    · have later : x ∈ ((firsts rest).filter fun q => q.1 ≠ p.1).map (·.1) ↔
          x ∈ (firsts rest).map (·.1) := by
        simp only [List.mem_map, List.mem_filter, decide_eq_true_eq]
        constructor
        · rintro ⟨q, ⟨inside, -⟩, rfl⟩
          exact ⟨q, inside, rfl⟩
        · rintro ⟨q, inside, rfl⟩
          exact ⟨q, ⟨inside, same⟩, rfl⟩
      rw [firsts, List.map_cons, List.mem_cons, later, ih, List.map_cons, List.mem_cons]

/-- A declaration behind others counts if its name is new. -/
theorem firsts_concat (ps : TypeTable) (p : String × Option TypeName) :
    firsts (ps ++ [p]) = if p.1 ∈ ps.map (·.1) then ps.firsts else ps.firsts ++ [p] := by
  induction ps with
  | nil => simp [firsts]
  | cons q rest ih =>
    rw [List.cons_append, firsts, ih, firsts]
    by_cases later : p.1 ∈ rest.map (·.1)
    · have inside : p.1 ∈ (q :: rest).map (·.1) := List.mem_cons_of_mem _ later
      rw [if_pos later, if_pos inside]
    · rw [if_neg later, List.filter_append]
      by_cases same : p.1 = q.1
      · simp [same]
      · simp only [List.map_cons, List.mem_cons, same, later, or_self, if_false]
        simp [same]

theorem firsts_of_nodup {ps : TypeTable} (distinct : (ps.map (·.1)).Nodup) : ps.firsts = ps := by
  induction ps with
  | nil => rfl
  | cons p rest ih =>
    rw [List.map_cons, List.nodup_cons] at distinct
    rw [firsts, ih distinct.2, List.filter_eq_self.mpr]
    intro q inside
    refine decide_eq_true fun same => distinct.1 ?_
    rw [← same]
    exact List.mem_map_of_mem inside

theorem firsts_map (f : Option TypeName → Option TypeName) (ps : TypeTable) :
    firsts (ps.map fun p => (p.1, f p.2)) = ps.firsts.map fun p => (p.1, f p.2) := by
  induction ps with
  | nil => rfl
  | cons p rest ih => simp only [List.map_cons, firsts, ih, List.filter_map, Function.comp_def]

/-- Enters a declaration whose name is new, and reports any other. -/
def enter (report : String → DeclarationFlaw) (acc : TypeTable × List DeclarationFlaw)
    (p : String × Option TypeName) : TypeTable × List DeclarationFlaw :=
  if acc.1.has p.1 then (acc.1, acc.2 ++ [report p.1]) else (acc.1 ++ [p], acc.2)

/-- The table and the reports when the declarations were entered. -/
structure Entered (report : String → DeclarationFlaw) (ps : TypeTable)
    (acc : TypeTable × List DeclarationFlaw) : Prop where
  table : acc.1 = ps.firsts
  reports : ∀ x, report x ∈ acc.2 ↔ 1 < (ps.map (·.1)).count x

namespace Entered

variable {report : String → DeclarationFlaw} {ps : TypeTable}
  {acc : TypeTable × List DeclarationFlaw}

theorem nothing (report : String → DeclarationFlaw) : Entered report [] ([], []) :=
  ⟨rfl, by simp⟩

theorem step (injective : ∀ x y, report x = report y → x = y) (entered : Entered report ps acc)
    (p : String × Option TypeName) : Entered report (ps ++ [p]) (enter report acc p) := by
  have taken : acc.1.has p.1 ↔ p.1 ∈ ps.map (·.1) := by
    rw [has_iff, entered.table, mem_firsts_names]
  have counted (x : String) : ((ps ++ [p]).map (·.1)).count x =
      (ps.map (·.1)).count x + if p.1 = x then 1 else 0 := by
    rw [List.map_append, List.count_append]
    simp [List.count_singleton]
  unfold enter
  by_cases old : p.1 ∈ ps.map (·.1)
  · rw [if_pos (taken.mpr old)]
    refine ⟨?_, fun x => ?_⟩
    · rw [firsts_concat, if_pos old, entered.table]
    · have before : 0 < (ps.map (·.1)).count p.1 := List.count_pos_iff.mpr old
      rw [counted, List.mem_append, entered.reports, List.mem_singleton]
      by_cases same : p.1 = x
      · subst same
        simp [before]
      · have other : report x ≠ report p.1 := fun h => same (injective x p.1 h).symm
        simp [same, other]
  · rw [if_neg (mt taken.mp old)]
    refine ⟨?_, fun x => ?_⟩
    · rw [firsts_concat, if_neg old, entered.table]
    · have before : (ps.map (·.1)).count p.1 = 0 := List.count_eq_zero.mpr old
      rw [counted, entered.reports]
      by_cases same : p.1 = x
      · subst same
        simp [before]
      · simp [same]

/-- Reports of another kind change nothing. -/
theorem add (entered : Entered report ps acc) {others : List DeclarationFlaw}
    (apart : ∀ x, report x ∉ others) : Entered report ps (acc.1, acc.2 ++ others) :=
  ⟨entered.table, fun x => by simp [entered.reports x, apart x]⟩

theorem run (injective : ∀ x y, report x = report y → x = y) (entered : Entered report ps acc)
    (qs : TypeTable) : Entered report (ps ++ qs) (qs.foldl (enter report) acc) := by
  induction qs generalizing ps acc with
  | nil => rwa [List.append_nil]
  | cons q qs ih =>
    rw [List.append_cons]
    exact ih (entered.step injective q)

end Entered

/-- Reports made before stay in front. -/
theorem foldl_enter (report : String → DeclarationFlaw) (ps : TypeTable) (table : TypeTable)
    (flaws : List DeclarationFlaw) : ps.foldl (enter report) (table, flaws) =
      ((ps.foldl (enter report) (table, [])).1,
        flaws ++ (ps.foldl (enter report) (table, [])).2) := by
  induction ps generalizing table flaws with
  | nil => simp
  | cons p ps ih =>
    have step : enter report (table, flaws) p =
        ((enter report (table, []) p).1, flaws ++ (enter report (table, []) p).2) := by
      unfold enter
      split <;> simp
    have later := ih (enter report (table, []) p).1 (enter report (table, []) p).2
    rw [List.foldl_cons, step, ih, List.foldl_cons, later, List.append_assoc]

end TypeTable

open TypeTable

namespace Declaration

theorem addArgument_eq (acc : TypeTable × List DeclarationFlaw)
    (arg : String × Option TypeName × Option ClauseFlaw) : addArgument acc arg =
      ((enter .repeatedArgument acc (arg.1, arg.2.1)).1,
        (enter .repeatedArgument acc (arg.1, arg.2.1)).2 ++
          (arg.2.2.map fun f => .argument f arg.1).toList) := rfl

theorem arguments_entered {ps : TypeTable} {acc : TypeTable × List DeclarationFlaw}
    (entered : Entered .repeatedArgument ps acc)
    (args : List (String × Option TypeName × Option ClauseFlaw)) :
    Entered .repeatedArgument (ps ++ args.map fun a => (a.1, a.2.1))
      (args.foldl addArgument acc) := by
  induction args generalizing ps acc with
  | nil => simpa using entered
  | cons a args ih =>
    rw [List.map_cons, List.append_cons, List.foldl_cons, addArgument_eq]
    refine ih ((entered.step (fun _ _ => DeclarationFlaw.repeatedArgument.inj) _).add ?_)
    cases a.2.2 <;> simp

theorem addGroup_eq (table : TypeTable) (g : Group) : addGroup table g =
    (((g.names.map (·, g.type)).foldl (enter .repeatedVariable) (table, [])).1,
      ((g.names.map (·, g.type)).foldl (enter .repeatedVariable) (table, [])).2 ++
        (g.flaw.map fun f => .variables f g.names).toList) := by
  rw [List.foldl_map]
  rfl

theorem groups_entered {ps : TypeTable} {acc : TypeTable × List DeclarationFlaw}
    (entered : Entered .repeatedVariable ps acc) (gs : List Group) :
    Entered .repeatedVariable (ps ++ gs.flatMap fun g => g.names.map (·, g.type))
      (gs.foldl (fun acc g => ((addGroup acc.1 g).1, acc.2 ++ (addGroup acc.1 g).2)) acc) := by
  induction gs generalizing ps acc with
  | nil => simpa using entered
  | cons g gs ih =>
    have apart : ∀ x, .repeatedVariable x ∉
        (g.flaw.map fun f => DeclarationFlaw.variables f g.names).toList := by
      cases g.flaw <;> simp
    have here := (entered.run (fun _ _ => DeclarationFlaw.repeatedVariable.inj)
      (g.names.map (·, g.type))).add apart
    rw [List.flatMap_cons, ← List.append_assoc, List.foldl_cons]
    refine ih ?_
    rw [foldl_enter, List.append_assoc] at here
    rw [addGroup_eq]
    exact here

end Declaration

/-! ### Clauses -/

/-- What a type clause says: a type, and what is wrong. -/
def clauseReading : Option TypeRef → Option TypeName × Option ClauseFlaw
  | none => (none, some .noColon)
  | some t =>
    match typeOf t.view with
    | .ok (type, flaw) => (type, flaw.map .type)
    | .error _ => (none, none)

theorem typeOf_clause (t : TypeRef) : ∃ flaw, typeOf t.view = .ok ((clauseReading (some t)).1, flaw) ∧
    (clauseReading (some t)).2 = flaw.map .type := by
  obtain ⟨⟨type, flaw⟩, read⟩ := typeOf_total t
  exact ⟨flaw, by simp [clauseReading, read], by simp [clauseReading, read]⟩

theorem firstName_name {name : String} (named : IsName name) :
    firstName (nameView name) = .ok name :=
  firstName_token "identifier" named

theorem argument_view {arg : ArgDef} (named : IsName arg.name) :
    argument arg.view = .ok (arg.name, clauseReading arg.type) := by
  obtain ⟨name, clause⟩ := arg
  cases clause with
  | none =>
    have read : argument (ArgDef.view ⟨name, none⟩) = (do
      let name ← firstName (nameView name)
      .ok (name, none, some ClauseFlaw.noColon)) := rfl
    rw [read, firstName_name named]
    rfl
  | some t =>
    obtain ⟨flaw, read, same⟩ := typeOf_clause t
    rw [argument_typed, firstName_name named, read]
    exact congrArg (fun f => Except.ok (name, (clauseReading (some t)).1, f)) same.symm

theorem orderedArgument_written {arg : ArgDef} (named : IsName arg.name) :
    orderedArgument arg.view =
      .ok (some (arg.name, (clauseReading arg.type).1.map TypeName.normalize)) := by
  obtain ⟨name, clause⟩ := arg
  cases clause with
  | none =>
    have read : orderedArgument (ArgDef.view ⟨name, none⟩) = (do
      let name ← firstName (nameView name)
      .ok (some (name, none))) := rfl
    rw [read, firstName_name named]
    rfl
  | some t =>
    obtain ⟨flaw, read, -⟩ := typeOf_clause t
    rw [orderedArgument_typed, firstName_name named, read]
    rfl

theorem groupClause_view (type : Option TypeRef) (rest : List View) :
    groupClause (clauseViews type ++ tokenView ";" :: rest) = .ok (clauseReading type) := by
  cases type with
  | none => rfl
  | some t =>
    obtain ⟨flaw, read, same⟩ := typeOf_clause t
    have isType : t.view.label = "typeRef" := by cases t <;> rfl
    have opened : groupClause (clauseViews (some t) ++ tokenView ";" :: rest) =
        if t.view.label = "typeRef" then (do
          let read ← typeOf t.view
          .ok (read.1, read.2.map .type))
        else .ok (none, some ClauseFlaw.noType) := rfl
    rw [opened, if_pos isType, read]
    exact congrArg (fun f => Except.ok ((clauseReading (some t)).1, f)) same.symm

/-! ### Written declarations -/

/-- The names that a signature declares, with their clauses. -/
def Signature.declared (s : Signature) : List (String × Option TypeRef) :=
  s.args.map fun a => (a.name, a.type)

/-- The names that a body declares, with the clauses of their groups. -/
def Body.declared (b : Body) : List (String × Option TypeRef) :=
  (b.vars.getD []).flatMap fun g => g.names.map (·, g.type)

theorem commaViews_filter {p : View → Bool} {vs : List View} (all : ∀ v ∈ vs, p v)
    (comma : p (tokenView ",") = false) : (commaViews vs).filter p = vs := by
  fun_induction commaViews vs with
  | case1 => rfl
  | case2 v => simpa using all
  | case3 v vs _ ih =>
    obtain ⟨here, later⟩ := List.forall_mem_cons.mp all
    rw [List.filter_cons_of_pos here, List.filter_cons_of_neg (by simp [comma]), ih later]

theorem argsView_filter (args : List ArgDef) :
    (argsView args).children.filter (fun n => n.label == "argDef") = args.map ArgDef.view := by
  cases args with
  | nil => rfl
  | cons a as =>
    refine commaViews_filter (fun v inside => ?_) (by decide)
    obtain ⟨b, -, rfl⟩ := List.mem_map.mp inside
    rfl

/-- The arguments of a list are read one by one. -/
theorem argsView_mapM {β : Type} {f : View → Except Fault β} {g : ArgDef → β} {args : List ArgDef}
    (each : ∀ a ∈ args, f a.view = .ok (g a)) :
    ((argsView args).children.filter fun n => n.label == "argDef").mapM f = .ok (args.map g) := by
  rw [argsView_filter, List.mapM_map]
  exact mapM_eq_ok each

/-- The group that is read from a written one. -/
def VarGroup.reading (g : VarGroup) : Group :=
  ⟨g.names, (clauseReading g.type).1, (clauseReading g.type).2⟩

/-- Behind the names of a group its clause is passed over. -/
theorem groupsFrom_clause (type : Option TypeRef) (inGroup : Bool) (rest : List View) :
    groupsFrom inGroup (clauseViews type ++ tokenView ";" :: rest) = groupsFrom false rest := by
  cases type with
  | none => cases inGroup <;> rfl
  | some t =>
    cases t <;> cases inGroup <;> rfl

theorem groupsFrom_group {g : VarGroup} (named : ∀ n ∈ g.names, IsName n) (rest : List View) :
    groupsFrom false (g.views ++ rest) = (do
      let later ← groupsFrom false rest
      .ok ((if g.names.isEmpty then [] else [g.reading]) ++ later)) := by
  obtain ⟨names, type⟩ := g
  unfold VarGroup.views
  rw [List.append_assoc, List.append_assoc, List.singleton_append]
  cases names with
  | nil =>
    refine (groupsFrom_clause type false rest).trans ?_
    cases groupsFrom false rest <;> rfl
  | cons n ns =>
    have read : ((commaViews ((n :: ns).map nameView)).filter
        fun c => c.label == "identifier").mapM firstName = .ok (n :: ns) := by
      have all : ∀ v ∈ (n :: ns).map nameView, (v.label == "identifier") = true :=
        List.forall_mem_map.mpr fun _ _ => rfl
      rw [commaViews_filter all (by decide), List.mapM_map]
      refine (mapM_eq_ok fun x inside => firstName_name (named x inside)).trans ?_
      rw [List.map_id']
    have opened : groupsFrom false (Tree.node "list<identifier>" (some Position.start)
        (commaViews ((n :: ns).map nameView)) :: (clauseViews type ++ tokenView ";" :: rest)) = (do
          let names ← ((commaViews ((n :: ns).map nameView)).filter
            fun c => c.label == "identifier").mapM firstName
          let clause ← groupClause (clauseViews type ++ tokenView ";" :: rest)
          let groups ← groupsFrom true (clauseViews type ++ tokenView ";" :: rest)
          .ok (⟨names, clause.1, clause.2⟩ :: groups)) := rfl
    refine opened.trans ?_
    rw [read, groupClause_view, groupsFrom_clause]
    rfl

/-- The groups of a written `var` section: those that have names. -/
theorem groups_views {groups : List VarGroup} (named : ∀ g ∈ groups, ∀ n ∈ g.names, IsName n) :
    groupsFrom false (groups.flatMap VarGroup.views) =
      .ok ((groups.filter fun g => !g.names.isEmpty).map VarGroup.reading) := by
  induction groups with
  | nil => rfl
  | cons g groups ih =>
    obtain ⟨here, later⟩ := List.forall_mem_cons.mp named
    rw [List.flatMap_cons, groupsFrom_group here, ih later]
    cases empty : g.names.isEmpty <;> simp [empty, Bind.bind, Except.bind]

/-- What the groups that are read declare is what is written. -/
theorem readings_declared (groups : List VarGroup) (f : Option TypeName → Option TypeName) :
    ((groups.filter fun g => !g.names.isEmpty).map VarGroup.reading).flatMap
        (fun g => g.names.map fun n => (n, f g.type)) =
      (groups.flatMap fun g => g.names.map (·, g.type)).map fun d =>
        (d.1, f (clauseReading d.2).1) := by
  induction groups with
  | nil => rfl
  | cons g groups ih =>
    rw [List.flatMap_cons, List.map_append, ← ih, List.map_map]
    cases names : g.names with
    | nil => simp [names]
    | cons n ns => simp [names, VarGroup.reading]

theorem Body.variableNodes_view (body : Body) :
    variableNodes body.view = (body.vars.getD []).flatMap VarGroup.views := by
  have front : variableNodes body.view = (varViews body.vars).drop 1 := by
    simp [variableNodes, Body.view]
  rw [front]
  cases body.vars <;> rfl

/-! ### Agreement -/

/-- A list of declarations and a table of them, both read off what is written. The list has every
name, the table the first declaration of each, and just the names that the list repeats are
reported. -/
structure Agree (declared : List (String × Option TypeRef)) (list table : TypeTable)
    (report : String → DeclarationFlaw) (flaws : List DeclarationFlaw) : Prop where
  every : list = declared.map fun d => (d.1, (clauseReading d.2).1.map TypeName.normalize)
  first : list.firsts = table.map fun p => (p.1, p.2.map TypeName.normalize)
  reports : ∀ x, report x ∈ flaws ↔ 1 < (list.map (·.1)).count x

theorem Agree.of_entered {declared : List (String × Option TypeRef)}
    {acc : TypeTable × List DeclarationFlaw} {report : String → DeclarationFlaw}
    (entered : Entered report (declared.map fun d => (d.1, (clauseReading d.2).1)) acc) :
    Agree declared (declared.map fun d => (d.1, (clauseReading d.2).1.map TypeName.normalize))
      acc.1 report acc.2 where
  every := rfl
  first := by
    have mapped := firsts_map (Option.map TypeName.normalize)
      (declared.map fun d => (d.1, (clauseReading d.2).1))
    rw [List.map_map] at mapped
    rw [entered.table]
    exact mapped
  reports x := by
    have reports := entered.reports x
    rw [List.map_map] at reports ⊢
    exact reports

/-- Without a report the list and the table are the same, but for the spelling of types. -/
theorem Agree.unreported {declared : List (String × Option TypeRef)} {list table : TypeTable}
    {report : String → DeclarationFlaw} (agree : Agree declared list table report []) :
    (list.map (·.1)).Nodup ∧ list = table.map fun p => (p.1, p.2.map TypeName.normalize) := by
  have distinct : (list.map (·.1)).Nodup := by
    refine List.nodup_iff_count.mpr fun x => Nat.le_of_not_lt fun repeated => ?_
    simpa using (agree.reports x).mpr repeated
  exact ⟨distinct, (firsts_of_nodup distinct).symm.trans agree.first⟩

theorem arguments_agree {m : Method} (spelled : m.Spelled) : ∃ params table flaws,
    orderedArguments m.view = .ok params ∧ methodArguments m.view = .ok (table, flaws) ∧
      Agree m.signature.declared params table .repeatedArgument flaws := by
  have named (a : ArgDef) (inside : a ∈ m.signature.args) : IsName a.name :=
    (spelled.signature.args a inside).1
  have entered := arguments_entered (.nothing .repeatedArgument)
    (m.signature.args.map fun a => (a.name, clauseReading a.type))
  have written : (m.signature.args.map fun a => (a.name, clauseReading a.type)).map
      (fun a => (a.1, a.2.1)) = m.signature.declared.map fun d => (d.1, (clauseReading d.2).1) := by
    rw [Signature.declared, List.map_map, List.map_map]
    rfl
  rw [List.nil_append, written] at entered
  have agree := Agree.of_entered entered
  refine ⟨_, _, _, ?_, ?_, agree⟩
  · unfold orderedArguments
    simp only [m.list_view]
    rw [argsView_mapM fun a inside => orderedArgument_written (named a inside),
      Signature.declared, List.map_map]
    simp only [Bind.bind, Except.bind, List.filterMap_map]
    exact congrArg Except.ok (congrFun List.filterMap_eq_map _)
  · unfold methodArguments arguments
    simp only [m.list_view]
    rw [argsView_mapM fun a inside => argument_view (named a inside)]
    rfl

theorem locals_agree {m : Method} (spelled : m.Spelled) {body : Body} (has : m.body = some body) :
    ∃ vars table flaws, orderedVariables m.view = .ok vars ∧
      locals (variableNodes body.view) = .ok (table, flaws) ∧
      Agree body.declared vars table .repeatedVariable flaws := by
  have named : ∀ g ∈ body.vars.getD [], ∀ n ∈ g.names, IsName n := by
    intro g isGroup
    cases vars : body.vars with
    | none => simp [vars] at isGroup
    | some groups =>
      rw [vars] at isGroup
      exact ((spelled.body body has).vars groups vars g isGroup).1
  have read := groups_views named
  rw [← Body.variableNodes_view] at read
  have entered := groups_entered (.nothing .repeatedVariable)
    (((body.vars.getD []).filter fun g => !g.names.isEmpty).map VarGroup.reading)
  have written : (((body.vars.getD []).filter fun g => !g.names.isEmpty).map
      VarGroup.reading).flatMap (fun g => g.names.map (·, g.type)) =
        body.declared.map fun d => (d.1, (clauseReading d.2).1) := readings_declared _ id
  rw [List.nil_append, written] at entered
  refine ⟨_, _, _, ?_, ?_, Agree.of_entered entered⟩
  · unfold orderedVariables
    rw [Method.body?_view, has]
    simp only [Option.map_some, groups, read, Bind.bind, Except.bind,
      readings_declared _ (Option.map TypeName.normalize), Body.declared]
  · unfold locals groups
    rw [read]
    rfl

end MethodLang
