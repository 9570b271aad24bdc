import MethodLang.Machine.Method
import MethodLang.Proofs.Flow.Refusal
import MethodLang.Proofs.Machine.Depth
import MethodLang.Proofs.Program.Checked
import MethodLang.Proofs.Typing.Visiting

/-!
The stack between blocks. A block is balanced if its code leaves just the word that its choice
takes, if it has one to make. Then the stack is as deep wherever a walk comes by. A directive
leaves one word if it gives a value and none if it does not, but nothing keeps a value from
standing as a statement, or an assignment as a condition.

The depth is counted on the code; what is counted is what a run of it does to the stack of the
machine (`accepted_trees_raise_stack`).
-/
namespace MethodLang

variable {s : Scope} {ctx : CodeContext}

/-! ### Typed terms -/

/-- A literal that is not cut in the wrong place. -/
def Term.IsWhole : Term → Prop
  | .literal _ text => '(' ∉ text.toList
  | _ => True

/-- Every literal in the directive is whole. -/
def Directive.Whole (c : Directive) : Prop := ∀ e ∈ c.terms, ∀ t ∈ e.subterms, t.IsWhole

/-- The directive is a term with a type, and not an assignment or a call of a procedure. -/
def Directive.GivesValue (s : Scope) : Directive → Prop
  | .value e => ∃ type, e.HasType s type
  | .store _ _ | .storeAt _ _ _ => False

/-- The generator and the checker agree on which functions have results. -/
def CodeContext.Agrees (ctx : CodeContext) (s : Scope) : Prop :=
  ∀ function, ctx.hasResult function = (s.resultType function).isSome

namespace Term

theorem ArgsHaveTypes.each {es : List Term} {ps : TypeTable} (args : ArgsHaveTypes s es ps) :
    ∀ e ∈ es, ∃ type, e.HasType s type := by
  induction es generalizing ps with
  | nil => exact List.forall_mem_nil _
  | cons e es ih =>
    obtain _ | ⟨first, rest⟩ := args
    exact List.forall_mem_cons.mpr ⟨⟨_, first⟩, ih rest⟩

/-- The terms right below one with a type have types. -/
theorem HasType.children {e : Term} {type : TypeName} (has : e.HasType s type) :
    ∀ x ∈ Term.children e, ∃ type, x.HasType s type := by
  cases has with
  | number | bool | char | string | load => exact List.forall_mem_nil _
  | call _ args _ => exact args.each
  | index base _ _ position => simp [Term.children, Exists.intro _ base, Exists.intro _ position]
  | numeric _ _ left right | comparison _ _ left right | logical _ left right =>
    simp [Term.children, Exists.intro _ left, Exists.intro _ right]
  | not operand | invert _ operand => simp [Term.children, Exists.intro _ operand]

theorem sum_ones {es : List Term} {f : Term → Int} (each : ∀ e ∈ es, f e = 1) :
    (es.map f).sum = es.length := by
  induction es with
  | nil => rfl
  | cons e es ih =>
    obtain ⟨first, rest⟩ := List.forall_mem_cons.mp each
    rw [List.map_cons, List.sum_cons, first, ih rest, List.length_cons]
    omega

/-- The code of a whole term with a type leaves one word. -/
theorem HasType.rise (agrees : ctx.Agrees s) {e : Term} {type : TypeName} (has : e.HasType s type)
    (whole : ∀ t ∈ e.subterms, t.IsWhole) : e.rise ctx = 1 := by
  induction e using children_induction generalizing type with
  | step e ih =>
    obtain ⟨here, below⟩ := (forall_subterms e).mp whole
    have each : ∀ x ∈ e.children, x.rise ctx = 1 := by
      intro x inside
      obtain ⟨type, typed⟩ := has.children x inside
      exact ih x inside typed (below x inside)
    have sum := sum_ones each
    rw [rise_eq]
    cases e with
    | literal kind text => exact if_neg here
    | load name => rfl
    | call function args =>
      obtain _ | _ | _ | _ | _ | ⟨_, _, result⟩ := has
      rw [riseOver, sum, agrees function, result]
      simp [Term.children]
    | index base position => rw [riseOver, sum]; rfl
    | binary op left right => rw [riseOver, sum]; rfl
    | unary op operand => rw [riseOver, sum]; rfl

/-- The code of a call of a procedure leaves nothing. -/
theorem IsProcedureCall.rise (agrees : ctx.Agrees s) {e : Term} (procedure : e.IsProcedureCall s)
    (whole : ∀ t ∈ e.subterms, t.IsWhole) : e.rise ctx = 0 := by
  obtain ⟨function, args, rfl, -, result, typed⟩ := procedure
  have each : ∀ x ∈ args, x.rise ctx = 1 := by
    intro x inside
    obtain ⟨type, has⟩ := typed.each x inside
    exact has.rise agrees (((forall_subterms _).mp whole).2 x inside)
  rw [rise_eq, riseOver, Term.children, sum_ones each, agrees function, result]
  simp

/-- A term that has no errors once a numeric type is asked of it has that type. -/
theorem Aims.hasType (proper : s.Proper) {e : Term} (spelled : e.Spelled) {type : TypeName}
    (numeric : type ∈ TypeName.numbers) (aims : e.Aims s type) : e.HasType s type := by
  induction e using children_induction with
  | step e ih =>
    cases is : e.isNumeric with
    | false =>
      obtain ⟨clean, shares⟩ := (aims_other is).mp aims
      exact (clean.rated proper spelled).shares shares
    | true =>
      obtain ⟨op, left, right, rfl, -⟩ := binary_of_isNumeric spelled is
      obtain ⟨aimsL, aimsR⟩ := (aims_pair is).mp aims
      refine .numeric ?_ numeric (ih left (by simp [children]) spelled.1 aimsL)
        (ih right (by simp [children]) spelled.2 aimsR)
      simpa [isNumeric_binary] using is

end Term

/-- A term that is settled in a type has it. -/
theorem Way.Valid.hasType (proper : s.Proper) {e : Term} (spelled : e.Spelled) {w : Way}
    {type : TypeName} (valid : w.Valid s e) (given : w = .settled type ∨ w = .aimed type) :
    e.HasType s type := by
  rcases given with rfl | rfl
  · exact (valid.1.rated proper spelled).shares valid.2
  · exact valid.2.hasType proper spelled valid.1

namespace Directive

section
variable (proper : s.Proper) {c : Directive} (spelled : c.Spelled) (checked : c.Checked s)
  (accepted : (c.fresh.assign s).errors = [])
include proper spelled checked accepted

/-- What is assigned, and every index it is assigned at, has a type. -/
theorem assigned_hasType (assigns : ∀ e, c ≠ .value e) :
    ∀ e ∈ c.terms, ∃ type, e.HasType s type := by
  have valid := (assign_outcome proper spelled checked accepted).2
  intro e inside
  have given (w : Way) (type : TypeName) (is : w = .settled type ∨ w = .aimed type)
      (at_ : (e, w) ∈ c.terms.zip (c.ways s)) : ∃ type, e.HasType s type :=
    ⟨type, (valid _ at_).hasType proper (spelled.terms e inside) is⟩
  cases c with
  | value e => exact absurd rfl (assigns e)
  | store name right =>
    obtain rfl := List.mem_singleton.mp inside
    have at_ : (e, if ((s.variableType name).getD "int").isNumeric then
        Way.aimed ((s.variableType name).getD "int") else .settled ((s.variableType name).getD "int")) ∈
        (store name e).terms.zip ((store name e).ways s) := List.mem_singleton.mpr rfl
    refine given _ ((s.variableType name).getD "int") ?_ at_
    split
    · exact .inr rfl
    · exact .inl rfl
  | storeAt array indices right =>
    have zipped : (storeAt array indices right).terms.zip ((storeAt array indices right).ways s) =
        indices.map (fun e => (e, Way.settled "int")) ++
          [(right, .settled ((elementType (s.variableType array)).getD "int"))] := by
      rw [terms, ways, List.zip_append (by simp), ← List.map_prod_left_eq_zip]
      rfl
    rw [zipped] at given
    rcases List.mem_append.mp inside with isIndex | isValue
    · refine given (.settled "int") "int" (.inl rfl) (List.mem_append_left _ ?_)
      exact List.mem_map.mpr ⟨e, isIndex, rfl⟩
    · obtain rfl := List.mem_singleton.mp isValue
      exact given _ _ (.inl rfl) (List.mem_append_right _ (List.mem_singleton.mpr rfl))

/-- The code of a whole directive leaves one word if it gives a value, and else nothing. -/
theorem rise_eq (agrees : ctx.Agrees s) (whole : c.Whole) (assignable : c.Assignable ctx.frame) :
    (c.GivesValue s → c.rise ctx = 1) ∧ (¬ c.GivesValue s → c.rise ctx = 0) := by
  have ones (assigns : ∀ e, c ≠ .value e) : ∀ e ∈ c.terms, e.rise ctx = 1 := by
    intro e inside
    obtain ⟨type, has⟩ := assigned_hasType proper spelled checked accepted assigns e inside
    exact has.rise agrees (whole e inside)
  cases c with
  | value e =>
    have wholeE := whole e (List.mem_singleton_self e)
    have rated := (assign_value_clean accepted).rated proper spelled
    refine ⟨fun ⟨type, has⟩ => has.rise agrees wholeE, fun valueless => ?_⟩
    cases own : e.ownType s with
    | none =>
      rw [own] at rated
      exact Term.IsProcedureCall.rise agrees rated wholeE
    | some type =>
      rw [own] at rated
      by_cases bare : type = TypeName.untyped
      · subst bare
        exact absurd ⟨"int", rated.numeric (by decide)⟩ valueless
      · exact absurd ⟨type, rated.hasType bare⟩ valueless
  | store name right =>
    refine ⟨False.elim, fun _ => ?_⟩
    rw [rise, ones (by simp) right (List.mem_singleton_self right)]
    rfl
  | storeAt array indices right =>
    refine ⟨False.elim, fun _ => ?_⟩
    have sum : ((indices ++ [right]).map (Term.rise ctx)).sum = _ := Term.sum_ones (ones (by simp))
    rw [rise, sum, List.length_append, assignable.1]
    rfl

end

end Directive

/-! ### Blocks and walks -/

namespace Code

theorem depth_jumps {edges : List Edge} (written : (jumps edges).fault = none) :
    (jumps edges).depth = if edges.length ≤ 1 then 0 else -1 := by
  unfold jumps at written ⊢
  split
  · rfl
  · rfl
  · rename_i nonempty one
    have many : ¬ edges.length ≤ 1 := by
      obtain _ | ⟨e, _ | ⟨f, rest⟩⟩ := edges
      · exact absurd rfl nonempty
      · exact absurd rfl (one e.1 e.2)
      · simp
    rw [if_neg many]
    split
    · simp_all
    · split
      · simp_all
      · rfl

end Code

/-- The code of a block's tree. -/
def Block.treeCode (ctx : CodeContext) (b : Block) : Code :=
  match b.tree with
  | some op => op.code ctx
  | none => .nothing

/-- The code of the block's tree leaves one word if the block makes a choice, and else nothing. -/
def Block.Balanced (ctx : CodeContext) (b : Block) : Prop :=
  (b.treeCode ctx).depth = if b.succs.length ≤ 1 then 0 else 1

instance (ctx : CodeContext) (b : Block) : Decidable (b.Balanced ctx) :=
  inferInstanceAs (Decidable (_ = _))

theorem Block.code_eq (ctx : CodeContext) (id : BlockId) (b : Block) :
    Code.block ctx id b = .write [.place (.block id)] ++ b.treeCode ctx ++ Code.jumps b.succs := rfl

/-- The whole code of a balanced block leaves the stack as deep as it was. -/
theorem Block.Balanced.depth {b : Block} (balanced : b.Balanced ctx) {id : BlockId}
    (written : (Code.block ctx id b).fault = none) : (Code.block ctx id b).depth = 0 := by
  rw [code_eq] at written ⊢
  obtain ⟨before, jumps⟩ := Code.fault_append_iff.mp written
  rw [Code.depth_append before, Code.depth_append rfl, balanced, Code.depth_jumps jumps,
    Code.depth_write]
  split <;> rfl

namespace Graph

/-- By how many words the code of the blocks that a walk leaves raises the stack. -/
def depthAlong (ctx : CodeContext) (g : Graph) (p : List Step) : Int :=
  (p.map fun step => ((g.block? step.src).map fun b => (Code.block ctx step.src b).depth).getD 0).sum

/-- If all blocks are balanced, the stack is equally deep wherever a walk comes to a block. -/
theorem Walk.level {g : Graph}
    (balanced : ∀ p ∈ g.blocks, p.2.Balanced ctx ∧ (Code.block ctx p.1 p.2).fault = none)
    {a z : BlockId} {p : List Step} (walk : g.Walk a p z) : g.depthAlong ctx p = 0 := by
  induction walk with
  | nil => rfl
  | @cons a z b e p here _ _ ih =>
    obtain ⟨level, written⟩ := balanced _ (mem_of_block? here)
    have first : ((g.block? a).map fun b => (Code.block ctx a b).depth).getD 0 = 0 := by
      rw [here]
      exact level.depth written
    rw [depthAlong] at ih ⊢
    rw [List.map_cons, List.sum_cons, ih, first]
    rfl

end Graph

/-! ### Programs -/

/-- What the code of a method depends on. -/
def Entry.context (results : TypeTable) (e : Entry) : CodeContext :=
  ⟨Frame.ofMethod e.params e.vars, results⟩

theorem checkedTables_results {entries : Entries} {tables : Tables}
    (found : checkedTables entries = .ok tables) : tables.results ≠ [] := by
  obtain ⟨d, -, h⟩ := Except.bind_eq_ok.mp found
  cases h
  simp [TypeCheck.withBuiltins, Builtin.signatures]

theorem agrees_scope {tables : Tables} (nonempty : tables.results ≠ []) (frame : Frame)
    (name : String) :
    CodeContext.Agrees ⟨frame, tables.results⟩ (tables.scope name) := by
  intro function
  have full : tables.results.isEmpty = false := by simpa using nonempty
  rw [CodeContext.hasResult, Scope.resultType, full, Option.isSome_map]
  rfl

/-- Typing keeps the edges of a block, and whether it has a tree. -/
theorem TypedFrom.plain_block {tables : Tables} {name : String} {e e₀ : Entry} {g g₀ : Graph}
    (from_ : TypedFrom tables name e g e₀ g₀) {m : Method} (read : e₀.ReadFrom m)
    (quiet : g.errors = []) {p : BlockId × Block} (inside : p ∈ g.blocks)
    (plain : p.2.tree = none) : p.2.succs.length ≤ 1 := by
  obtain ⟨body, built, has, build, rfl, -⟩ := read.graph _ from_.untyped
  rw [from_.blocks] at inside
  rw [from_.graph] at quiet
  obtain ⟨q, isBlock, rfl⟩ := List.mem_map.mp inside
  cases tree : q.2.tree with
  | some op => simp [TypeCheck.checkBlock, tree] at plain
  | none =>
    simp only [TypeCheck.checkBlock, tree]
    exact prune_choice has build quiet isBlock tree

/-- What holds of the code of a block with a tree. -/
structure Directive.Balance (s : Scope) (ctx : CodeContext) (c : Directive) (b : Block)
    (op : Operation) : Prop where
  spelled : c.Spelled
  shape : op.bare = c.tree.bare
  /-- Only what is assigned to a numeric variable can have errors. -/
  checked : c.storesNumber s = false → c.Checked s
  /-- Code that is written to its end raises the stack as its directive says. -/
  depth : (op.code ctx).fault = none → (op.code ctx).depth = c.rise ctx
  /-- Where there are no errors and no cut literals, a block is balanced just if it makes a choice
  by a value, or makes none and has no value. -/
  balanced_iff : (op.code ctx).fault = none → c.Checked s → c.Whole →
    (b.Balanced ctx ↔ (1 < b.succs.length ↔ c.GivesValue s))

theorem Directive.balance {s : Scope} (complete : s.Complete) {ctx : CodeContext}
    (agrees : ctx.Agrees s) {c : Directive} (spelled : c.Spelled)
    (accepted : (c.fresh.assign s).errors = []) {op : Operation}
    (typed : (c.fresh.assign s).node.operation = op) {b : Block} (tree : b.tree = some op) :
    c.Balance s ctx b op := by
  have shape := assign_operation_bare typed
  have depth := depth_code ctx spelled shape
  refine ⟨spelled, shape, checked_of_storesNumber, depth, fun written checked whole => ?_⟩
  have assignable := ((fault_code_iff ctx spelled shape).mp written).2
  obtain ⟨one, valueless⟩ :=
    rise_eq complete.toProper spelled checked accepted agrees whole assignable
  have code : b.treeCode ctx = op.code ctx := by rw [Block.treeCode, tree]
  rw [Block.Balanced, code, depth written]
  by_cases value : c.GivesValue s
  · rw [one value]
    by_cases few : b.succs.length ≤ 1
    · simp [few, value]
    · simp [few, value, Nat.lt_of_not_le few]
  · rw [valueless value]
    by_cases few : b.succs.length ≤ 1
    · simp [few, value]
    · simp [few, value]

theorem TypedFrom.balance {entries : Entries} {tables : Tables}
    (found : checkedTables entries = .ok tables) {name : String} {e e₀ : Entry} {g g₀ : Graph}
    (from_ : TypedFrom tables name e g e₀ g₀) (complete : (tables.scope name).Complete)
    {m : Method} (read : e₀.ReadFrom m) {p : BlockId × Block} (inside : p ∈ g.blocks)
    {op : Operation} (tree : p.2.tree = some op) :
    ∃ c : Directive, c.Balance (tables.scope name) (e.context tables.results) p.2 op := by
  obtain ⟨c, spelled, accepted, typed⟩ := from_.directive read inside tree
  have agrees := agrees_scope (checkedTables_results found) (Frame.ofMethod e.params e.vars) name
  exact ⟨c, Directive.balance complete agrees spelled accepted typed tree⟩

/-- In an accepted program, the code of a block is balanced if it has a choice to make just where
the directive of its tree gives a value; and where all blocks of a method are balanced, the stack is
equally deep whichever way and however often a block is come to. -/
theorem accepted_blocks_balanced {files : List SourceFile}
    (texts : ∀ f ∈ files, ∃ text, f.content = .text text) {a : Analysis}
    (analysed : analyze files = .ok a) {typed : Entries} {results : TypeTable}
    (checked : checkTypes a.entries = .ok (.typed typed results)) :
    ∃ tables, checkedTables a.entries = .ok tables ∧ ∀ name e g, (name, e, g) ∈ typed.defined →
      (∀ p ∈ g.blocks, ∀ op, p.2.tree = some op →
        ∃ c : Directive, c.Balance (tables.scope name) (e.context results) p.2 op) ∧
      (g.errors = [] → ∀ p ∈ g.blocks, p.2.tree = none → p.2.Balanced (e.context results)) ∧
      ((∀ p ∈ g.blocks, p.2.Balanced (e.context results) ∧
          (Code.block (e.context results) p.1 p.2).fault = none) →
        ∀ first walk last, g.Walk first walk last → g.depthAlong (e.context results) walk = 0) := by
  obtain ⟨tables, found, rfl, each⟩ := typed_method texts analysed checked
  refine ⟨tables, found, fun name e g inside => ?_⟩
  obtain ⟨complete, m, e₀, g₀, -, read, from_, -⟩ := each name e g inside
  refine ⟨fun p isBlock op tree => ?_, fun quiet p isBlock plain => ?_, fun balanced _ _ _ walk =>
    walk.level balanced⟩
  · exact from_.balance found complete read isBlock tree
  · have few := from_.plain_block read quiet isBlock plain
    rw [Block.Balanced, Block.treeCode, plain, if_pos few]
    rfl

/-- A loop with a call of a procedure in it, whose condition calls a function. -/
theorem calling_loop_balanced :
    let files : List SourceFile := [⟨"a.txt", .text
      ("method f(x: long): bool begin f := x > 1; end;" ++
        "method main() var a: array[] of byte; x: long; begin " ++
        "while f(x - 1) do begin send_byte(a[2]); a[1] := 'b'; end; end;")⟩]
    ∃ a typed results tables, typedProgram? files = some (a, typed, results, tables) ∧
      (∀ d ∈ typed.defined, ∀ p ∈ d.2.2.blocks, p.2.Balanced (d.2.1.context results) ∧
        (Code.block (d.2.1.context results) p.1 p.2).fault = none) ∧
      ∀ name e g, (name, e, g) ∈ typed.defined →
        (∀ p ∈ g.blocks, ∀ op, p.2.tree = some op →
          ∃ c : Directive, c.Balance (tables.scope name) (e.context results) p.2 op) ∧
        ∀ first walk last, g.Walk first walk last → g.depthAlong (e.context results) walk = 0 := by
  intro files
  obtain ⟨a, typed, results, tables, found, balanced⟩ := exists_typedProgram files
    (P := fun _ typed results _ => ∀ d ∈ typed.defined, ∀ p ∈ d.2.2.blocks,
      p.2.Balanced (d.2.1.context results) ∧
        (Code.block (d.2.1.context results) p.1 p.2).fault = none) (by decide +kernel)
  obtain ⟨analysed, checked, same⟩ := typedProgram_eq_some.mp found
  obtain ⟨_, same', each⟩ := accepted_blocks_balanced (by simp [files]) analysed checked
  cases same.symm.trans same'
  refine ⟨a, typed, results, tables, found, balanced, fun name e g inside => ?_⟩
  obtain ⟨directives, -, level⟩ := each name e g inside
  exact ⟨directives, level (balanced _ inside)⟩

/-- A value that stands as a statement is never taken off the stack. -/
theorem value_statement_unbalanced :
    let files : List SourceFile := [⟨"a.txt", .text
      "method main() var b: bool; begin while b do 1; end;"⟩]
    ∃ a typed results tables, typedProgram? files = some (a, typed, results, tables) ∧
      ∃ d ∈ typed.defined, ∃ p ∈ d.2.2.blocks,
        (Code.block (d.2.1.context results) p.1 p.2).fault = none ∧
          ¬ p.2.Balanced (d.2.1.context results) := by
  intro files
  exact exists_typedProgram files (by decide +kernel)

/-- On the machine: where the code of a tree in an accepted program runs to its end, the stack has
grown as the directive says, and in a balanced block by just the word that a choice takes. -/
theorem accepted_trees_raise_stack {files : List SourceFile}
    (texts : ∀ f ∈ files, ∃ text, f.content = .text text) {a : Analysis}
    (analysed : analyze files = .ok a) {typed : Entries} {results : TypeTable}
    (checked : checkTypes a.entries = .ok (.typed typed results)) :
    ∃ tables, checkedTables a.entries = .ok tables ∧ ∀ name e g, (name, e, g) ∈ typed.defined →
      ∀ p ∈ g.blocks, ∀ op, p.2.tree = some op → (op.code (e.context results)).fault = none →
        ∃ c : Directive, c.Balance (tables.scope name) (e.context results) p.2 op ∧
          ∀ m m', Machine.run (op.code (e.context results)).instrs m = some m' →
            (m'.stack.length : Int) = m.stack.length + c.rise (e.context results) ∧
            (p.2.Balanced (e.context results) →
              m'.stack.length = m.stack.length + if p.2.succs.length ≤ 1 then 0 else 1) := by
  obtain ⟨tables, found, rfl, each⟩ := typed_method texts analysed checked
  refine ⟨tables, found, fun name e g inside p isBlock op tree written => ?_⟩
  obtain ⟨complete, m, e₀, g₀, -, read, from_, -⟩ := each name e g inside
  obtain ⟨c, balance⟩ := from_.balance found complete read isBlock tree
  refine ⟨c, balance, fun before behind runs => ?_⟩
  have grown := Machine.run_length runs
  have depth : _ = c.rise _ := balance.depth written
  refine ⟨grown.trans (congrArg _ depth), fun balanced => ?_⟩
  rw [Block.Balanced, Block.treeCode, tree] at balanced
  have words := grown.trans (congrArg _ balanced)
  by_cases few : p.2.succs.length ≤ 1
  · rw [if_pos few] at words ⊢
    omega
  · rw [if_neg few] at words ⊢
    omega

end MethodLang
