import MethodLang.Proofs.Machine.Generation

/-!
Labels and targets in code. A file is divided into functions by their labels; places stand inside
a function, and jumps lead to places of their own function. The code of a tree has no labels, places
or jumps, and calls what the tree calls (`Directive.code_within`).
-/
namespace MethodLang

/-! ### Lines -/

namespace Instr

/-- The place that an instruction may jump to. -/
def target? : Instr → Option Target
  | .jump target | .jumpIf target => some target
  | _ => none

/-- The function that an instruction calls. -/
def callee? : Instr → Option String
  | .call function => some function
  | _ => none

end Instr

namespace Statement

def label? : Statement → Option String
  | .function name => some name
  | _ => none

def place? : Statement → Option Target
  | .place target => some target
  | _ => none

end Statement

namespace Line

/-- The labels of functions among lines. -/
def labels (lines : List Line) : List String := lines.filterMap (·.statement.label?)

def places (lines : List Line) : List Target := lines.filterMap (·.statement.place?)

def targets (lines : List Line) : List Target := (instrs lines).filterMap Instr.target?

def callees (lines : List Line) : List String := (instrs lines).filterMap Instr.callee?

/-- The lines in front of all functions, and the functions, each with the lines behind its label. -/
def functions : List Line → List Line × List (String × List Line)
  | [] => ([], [])
  | l :: ls =>
    match l.statement.label? with
    | some name => ([], (name, (functions ls).1) :: (functions ls).2)
    | none => (l :: (functions ls).1, (functions ls).2)

/-- Every jump leads to one place. -/
def Closed (lines : List Line) : Prop := ∀ target ∈ targets lines, (places lines).count target = 1

instance (lines : List Line) : Decidable (Closed lines) :=
  inferInstanceAs (Decidable (∀ target ∈ targets lines, _))

section
variable (xs ys : List Line)

@[simp] theorem labels_append : labels (xs ++ ys) = labels xs ++ labels ys := List.filterMap_append

@[simp] theorem places_append : places (xs ++ ys) = places xs ++ places ys := List.filterMap_append

@[simp] theorem instrs_append : instrs (xs ++ ys) = instrs xs ++ instrs ys := List.filterMap_append

@[simp] theorem targets_append : targets (xs ++ ys) = targets xs ++ targets ys := by
  simp [targets]

@[simp] theorem callees_append : callees (xs ++ ys) = callees xs ++ callees ys := by
  simp [callees]

end

/-- Lines without labels belong to what is in front of them. -/
theorem functions_append {xs : List Line} (unlabelled : labels xs = []) (ys : List Line) :
    functions (xs ++ ys) = (xs ++ (functions ys).1, (functions ys).2) := by
  induction xs with
  | nil => rfl
  | cons x xs ih =>
    cases here : x.statement.label? with
    | some name => simp [labels, here] at unlabelled
    | none =>
      have rest : labels xs = [] := by simpa [labels, here] using unlabelled
      rw [List.cons_append, functions, here, ih rest]
      rfl

theorem functions_label {x : Line} {name : String} (labelled : x.statement = .function name)
    (ys : List Line) :
    functions (x :: ys) = ([], (name, (functions ys).1) :: (functions ys).2) := by
  rw [functions, labelled]
  rfl

/-- An instruction that goes on to the next one, or calls one of the given functions. -/
def Simple (names : List String) (l : Line) : Prop :=
  ∃ i, l.statement = .instr i ∧ i.target? = none ∧ ∀ f ∈ i.callee?, f ∈ names

variable {names more : List String} {lines : List Line}

theorem Simple.mono {l : Line} (simple : l.Simple names) (sub : names ⊆ more) : l.Simple more := by
  obtain ⟨i, is, straight, calls⟩ := simple
  exact ⟨i, is, straight, fun f called => sub (calls f called)⟩

theorem simple_code {i : Instr} :
    (code i).Simple names ↔ i.target? = none ∧ ∀ f ∈ i.callee?, f ∈ names := by
  simp [Simple, code]

theorem simple_noted {i : Instr} {gap : Nat} {remark : String} :
    (noted i gap remark).Simple names ↔ i.target? = none ∧ ∀ f ∈ i.callee?, f ∈ names := by
  simp [Simple, noted]

/-- Simple lines hold no labels, no places and no jumps. -/
theorem of_simple (simple : ∀ l ∈ lines, l.Simple names) :
    labels lines = [] ∧ places lines = [] ∧ targets lines = [] ∧ callees lines ⊆ names := by
  induction lines with
  | nil => exact ⟨rfl, rfl, rfl, List.nil_subset _⟩
  | cons l rest ih =>
    obtain ⟨⟨i, is, straight, calls⟩, later⟩ := List.forall_mem_cons.mp simple
    obtain ⟨noLabel, noPlace, noTarget, callees⟩ := ih later
    refine ⟨?_, ?_, ?_, fun f called => ?_⟩
    · simpa [labels, is, Statement.label?] using noLabel
    · simpa [places, is, Statement.place?] using noPlace
    · simpa [targets, instrs, instr?, is, straight] using noTarget
    · have split : Line.callees (l :: rest) = i.callee?.toList ++ Line.callees rest := by
        cases callee : i.callee? <;> simp [Line.callees, instrs, instr?, is, callee]
      rcases List.mem_append.mp (split ▸ called) with here | later
      · exact calls f (Option.mem_toList.mp here)
      · exact callees later

end Line

/-! ### Code of trees -/

namespace Code

/-- The code goes straight on and calls only the given functions. -/
def Within (names : List String) (c : Code) : Prop := ∀ l ∈ c.lines, l.Simple names

variable {names more : List String} {a b : Code}

theorem Within.mono (within : a.Within names) (sub : names ⊆ more) : a.Within more :=
  fun l inside => (within l inside).mono sub

theorem Within.append (first : a.Within names) (second : b.Within names) :
    (a ++ b).Within names := by
  obtain ⟨lines, _ | fault⟩ := a
  · exact List.forall_mem_append.mpr ⟨first, second⟩
  · exact first

theorem within_nothing : nothing.Within names := List.forall_mem_nil _

theorem within_stop (fault : Fault) : (stop fault).Within names := List.forall_mem_nil _

theorem within_instr {i : Instr} (straight : i.target? = none)
    (calls : ∀ f ∈ i.callee?, f ∈ names) : (instr i).Within names :=
  List.forall_mem_singleton.mpr (Line.simple_code.mpr ⟨straight, calls⟩)

/-- An instruction that is neither a jump nor a call. -/
theorem within_plain {i : Instr} (straight : i.target? = none) (plain : i.callee? = none) :
    (instr i).Within names :=
  within_instr straight (by simp [plain])

theorem within_write {lines : List Line} (each : ∀ l ∈ lines, l.Simple names) :
    (write lines).Within names := each

theorem Within.join {cs : List Code} (each : ∀ c ∈ cs, c.Within names) :
    (join cs).Within names := by
  induction cs with
  | nil => exact within_nothing
  | cons c cs ih =>
    obtain ⟨first, rest⟩ := List.forall_mem_cons.mp each
    exact first.append (ih rest)

theorem within_narrow (type : Option TypeName) : (narrow type).Within names := by
  unfold narrow
  split
  · rename_i type
    refine within_write ?_
    unfold Line.narrow
    split
    · exact List.forall_mem_nil _
    · split <;> simp [Line.simple_noted, Line.extendSign, Instr.target?, Instr.callee?]
  · exact within_nothing

theorem Within.withSlot {c : CodeContext} {name : String} {write : Slot → Code}
    (each : ∀ slot, (write slot).Within names) : (withSlot c name write).Within names := by
  unfold Code.withSlot
  split
  · exact each _
  · exact within_stop _

theorem Within.binary {op : String} {leftType type : Option TypeName} (left : a.Within names)
    (right : b.Within names) : (binary op leftType type a b).Within names := by
  refine (left.append right).append ?_
  split
  · refine (within_plain rfl rfl).append ?_
    split
    · exact within_narrow _
    · exact within_nothing
  · exact within_stop _

theorem Within.unary {op : String} {type : Option TypeName} (operand : a.Within names) :
    (unary op type a).Within names := by
  refine operand.append ?_
  split
  · exact (within_plain rfl rfl).append (within_narrow _)
  · exact within_plain rfl rfl
  · exact within_stop _

theorem within_scale (width : Option Width) : (write (Line.scale width)).Within names := by
  refine within_write ?_
  obtain _ | _ | _ | _ := width <;>
    simp [Line.scale, Line.simple_code, Instr.target?, Instr.callee?]

theorem Within.index {type : Option TypeName} (array : a.Within names)
    (position : b.Within names) : (index type a b).Within names := by
  refine ((((array.append position).append (within_scale _)).append
    (within_plain rfl rfl)).append (within_plain rfl rfl)).append (within_write ?_)
  split <;> simp [Line.simple_noted, Line.extendSign, Instr.target?, Instr.callee?]

theorem Within.storeAt {c : CodeContext} {name : String} {type : Option TypeName}
    (position : a.Within names) (value : b.Within names) :
    (storeAt c name type a b).Within names := by
  refine Within.withSlot fun slot => ((within_plain rfl rfl).append position).append ?_
  split
  · exact within_stop _
  · exact (((within_scale _).append (within_plain rfl rfl)).append value).append
      (within_plain rfl rfl)

theorem Within.call {c : CodeContext} {function : String} (named : function ∈ names)
    {arguments : List Code} (each : ∀ code ∈ arguments, code.Within names) :
    (call c function arguments).Within names := by
  refine (((Within.join each).append (within_write ?_)).append
    (within_instr rfl (by simpa [Instr.callee?] using named))).append (within_write ?_)
  · split <;> simp [Line.simple_noted, Instr.target?, Instr.callee?]
  · split
    · refine List.forall_mem_flatten.mpr fun pair isPair => ?_
      rw [List.eq_of_mem_replicate isPair]
      simp [Line.simple_code, Instr.target?, Instr.callee?]
    · refine fun l inside => ?_
      rw [List.eq_of_mem_replicate inside]
      simp [Line.simple_code, Instr.target?, Instr.callee?]

end Code

/-- A string is made by a call of the constructor of its array. -/
theorem Literal.code_within {names : List String} (bytes : "byte" ∈ names) (kind text : String) :
    (code kind text).Within names := by
  have pushes (n : Int) (kind text : String) : (pushed n kind text).Simple names := by
    simp [pushed, Line.simple_noted, Instr.target?, Instr.callee?]
  have number (kind text : String) (value : Option Int) :
      (number kind text value).Within names := by
    unfold Literal.number
    split
    · split
      · exact Code.within_write (List.forall_mem_singleton.mpr (pushes _ _ _))
      · exact Code.within_stop _
    · exact Code.within_stop _
  unfold code
  split
  · exact Code.within_write (List.forall_mem_singleton.mpr (pushes _ _ _))
  · split
    · exact Code.within_write (List.forall_mem_singleton.mpr (pushes _ _ _))
    · exact Code.within_stop _
  · exact number _ _ _
  · exact number _ _ _
  · exact number _ _ _
  · refine Code.within_write (List.forall_mem_cons.mpr ⟨pushes _ _ _, List.forall_mem_cons.mpr
      ⟨by simpa [Line.simple_code, Instr.target?, Instr.callee?] using bytes, ?_⟩⟩)
    refine List.forall_mem_flatMap.mpr fun p _ => ?_
    simp [storeChar, Line.simple_code, pushes, Instr.target?, Instr.callee?]
  · exact Code.within_stop _
  · exact Code.within_nothing

/-- A node calls what its operands call, and the function that its own label names. -/
theorem Code.ofNode_within {names : List String} (c : CodeContext) {label : String}
    (type : Option TypeName) {operands : List (Operation × Code)} (bytes : "byte" ∈ names)
    (called : ∀ f, Action.ofLabel? label = some (.call f) → f ∈ names)
    (below : ∀ p ∈ operands, p.2.Within names) : (ofNode c label type operands).Within names := by
  have slot (name : String) (i : Slot → Instr) (straight : ∀ s, (i s).target? = none)
      (plain : ∀ s, (i s).callee? = none) :
      (withSlot c name fun s => instr (i s)).Within names :=
    .withSlot fun s => within_plain (straight s) (plain s)
  have both {x y : Operation × Code} (each : ∀ p ∈ [x, y], p.2.Within names) :
      x.2.Within names ∧ y.2.Within names := ⟨each x (by simp), each y (by simp)⟩
  unfold ofNode
  split
  · have value := List.forall_mem_singleton.mp below
    exact value.append (slot _ _ (fun _ => rfl) fun _ => rfl)
  · obtain ⟨left, right⟩ := both below
    exact left.binary right
  · exact (List.forall_mem_singleton.mp below).unary
  · obtain ⟨array, position⟩ := both below
    exact array.index position
  · exact slot _ _ (fun _ => rfl) fun _ => rfl
  · obtain ⟨position, value⟩ := both below
    exact position.storeAt value
  · rename_i function is
    exact .call (called function is) (List.forall_mem_map.mpr below)
  · exact Literal.code_within bytes _ _
  · exact within_stop _
  · exact within_stop _

/-! ### Called names -/

namespace Operation

theorem calledNamesAll_eq {α : Type} (ts : List (Tree α)) :
    calledNamesAll ts = ts.flatMap calledNames := by
  induction ts with
  | nil => rfl
  | cons t ts ih => rw [calledNamesAll, ih, List.flatMap_cons]

theorem calledNames_bare {α : Type} (t : Tree α) : calledNames t.bare = calledNames t := by
  induction t using Tree.induction with
  | node l a ts ih =>
    rw [Tree.bare_node, calledNames, calledNames, calledNamesAll_eq, calledNamesAll_eq,
      List.flatMap_map]
    congr 1
    exact List.flatMap_congr ih

theorem calledNames_child {label : String} {type : Option TypeName} {ns : List Operation}
    {m : Operation} (inside : m ∈ ns) : calledNames m ⊆ calledNames (.node label type ns) := by
  intro f called
  rw [calledNames, calledNamesAll_eq]
  exact List.mem_append_right _ (List.mem_flatMap.mpr ⟨m, inside, called⟩)

theorem calledName?_call (function : String) :
    calledName? ("call(" ++ function ++ ")") = some function := by
  rw [calledName?, String.append_assoc, Text.after?_append]
  simp

end Operation

namespace Term

/-- Only the label of a call is read as a call. -/
theorem eq_call {e : Term} (spelled : e.Spelled) {f : String}
    (read : Action.ofLabel? e.label = some (.call f)) : Operation.calledName? e.label = some f := by
  cases e with
  | literal kind text =>
    have label : (Term.literal kind text).label =
        "const(" ++ (kind.name ++ "(" ++ text) ++ "))" := by
      simp [Term.label, String.append_assoc]
    rw [label, Action.ofLabel?_const] at read
    simp at read
  | load name =>
    obtain ⟨x, named, rfl | rfl⟩ := spelled
    · rw [label, Action.ofLabel?_load named] at read
      cases read
    · rw [label, Action.ofLabel?_loadArray named] at read
      cases read
  | call function args =>
    rw [label, Action.ofLabel?_call spelled.1] at read
    cases read
    exact Operation.calledName?_call f
  | index base position =>
    rw [label, Action.ofLabel?_index] at read
    cases read
  | binary op left right =>
    rw [label, Action.ofLabel?_binary] at read
    cases read
  | unary op operand =>
    rw [label, Action.ofLabel?_unary] at read
    cases read

/-- The code of a term's tree calls what the tree calls, and the constructor of strings. -/
theorem code_within (c : CodeContext) {e : Term} (spelled : e.Spelled) {n : Operation}
    (shapes : e.Shapes n) : (n.code c).Within ("byte" :: Operation.calledNames n) := by
  induction e using children_induction generalizing n with
  | step e ih =>
    obtain ⟨type, ns, rfl, each⟩ := shapes.node
    rw [Operation.code_node]
    refine Code.ofNode_within c type List.mem_cons_self (fun f read => ?_) ?_
    · rw [Operation.calledNames, eq_call spelled read]
      simp
    · refine List.forall_mem_map.mpr fun m inside => ?_
      obtain ⟨x, isChild, same⟩ := exists_of_mem_left each.flip inside
      exact (ih x isChild (spelled.children x isChild) same).mono
        (List.cons_subset_cons _ (Operation.calledNames_child inside))

end Term

namespace Directive

theorem code_within (ctx : CodeContext) {c : Directive} (spelled : c.Spelled) {op : Operation}
    (shape : op.bare = c.tree.bare) :
    (op.code ctx).Within ("byte" :: Operation.calledNames op) := by
  have each := parts_shapes shape
  have label : op.label = c.label := Tree.label_of_bare shape
  obtain ⟨l, type, ns⟩ := op
  obtain rfl := label
  have below (isParts : c.parts (.node c.label type ns) = ns) :
      ∀ p ∈ ns.map (fun n => (n, Operation.code ctx n)),
        p.2.Within ("byte" :: Operation.calledNames (.node c.label type ns)) := by
    refine List.forall_mem_map.mpr fun m inside => ?_
    rw [isParts] at each
    obtain ⟨x, isTerm, same⟩ := exists_of_mem_left each.flip inside
    exact (Term.code_within ctx (spelled.terms x isTerm) same).mono
      (List.cons_subset_cons _ (Operation.calledNames_child inside))
  cases c with
  | value e =>
    obtain _ | ⟨shapes, _⟩ := each
    exact Term.code_within ctx spelled shapes
  | store name right =>
    rw [Operation.code_node]
    refine Code.ofNode_within ctx type List.mem_cons_self (fun f read => ?_) (below rfl)
    rw [Directive.label, Action.ofLabel?_store spelled.1] at read
    cases read
  | storeAt array indices right =>
    rw [Operation.code_node]
    refine Code.ofNode_within ctx type List.mem_cons_self (fun f read => ?_) (below rfl)
    rw [Directive.label, Action.ofLabel?_storeAt spelled.1] at read
    cases read

end Directive

end MethodLang
