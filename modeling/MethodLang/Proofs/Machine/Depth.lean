import Mathlib.Algebra.Ring.Int.Defs
import MethodLang.Proofs.Machine.Execution
import MethodLang.Proofs.Machine.Generation

/-!
How far code raises the stack. Every instruction changes the depth by a fixed number of words
(`Machine.run_length`), and so does the code of a tree: by how much can be told from the term or
directive that the tree comes from (`Term.rise`, `Directive.rise`).
-/
namespace MethodLang

/-- By how many words an instruction changes the depth of the stack. A call leaves it to the callee
to put things right. -/
def Instr.effect : Instr → Int
  | .push _ | .dup | .loadFrame _ | .readByte | .pushHeap => 1
  | .binary _ | .drop | .storeFrame _ | .jumpIf _ | .sendByte | .growHeap => -1
  | .store _ => -2
  | .unary _ | .swap | .load _ | .call _ | .ret | .jump _ | .setStack _ | .setHeap _ | .setBase
  | .halt => 0

namespace Machine

theorem step_length {i : Instr} {m m' : Machine} (steps : step i m = some m') :
    (m'.stack.length : Int) = m.stack.length + i.effect := by
  unfold step at steps
  split at steps
  case h_1 value m =>
    obtain ⟨w, -, rfl⟩ := Option.map_eq_some_iff.mp steps
    simp [push, Instr.effect]
  case h_2 op b a rest frame memory =>
    obtain ⟨w, -, rfl⟩ := Option.map_eq_some_iff.mp steps
    simp only [List.length_cons, Instr.effect]
    omega
  case h_11 => cases steps
  all_goals
    cases steps
    simp only [push, List.length_cons, Instr.effect]
    omega

/-- The effects of instructions add up to the change of depth. -/
theorem run_length {is : List Instr} {m m' : Machine} (runs : run is m = some m') :
    (m'.stack.length : Int) = m.stack.length + (is.map Instr.effect).sum := by
  induction is generalizing m with
  | nil =>
    cases runs
    simp
  | cons i rest ih =>
    obtain ⟨next, first, later⟩ := Option.bind_eq_some_iff.mp runs
    rw [ih later, step_length first, List.map_cons, List.sum_cons]
    omega

end Machine

/-! ### Depths of code -/

/-- The sum of the effects of the instructions among lines. -/
def Line.depth (lines : List Line) : Int := ((Line.instrs lines).map Instr.effect).sum

namespace Line

@[simp] theorem depth_nil : depth [] = 0 := rfl

@[simp] theorem depth_code (i : Instr) (rest : List Line) :
    depth (code i :: rest) = i.effect + depth rest := rfl

@[simp] theorem depth_noted (i : Instr) (gap : Nat) (remark : String) (rest : List Line) :
    depth (noted i gap remark :: rest) = i.effect + depth rest := rfl

@[simp] theorem depth_append (a b : List Line) : depth (a ++ b) = depth a + depth b := by
  simp [depth, instrs]

@[simp] theorem depth_narrow (type : TypeName) : depth (narrow type) = 0 := by
  unfold narrow
  split
  · rfl
  · split <;> rfl

@[simp] theorem depth_scale (width : Option Width) : depth (scale width) = 0 := by
  obtain _ | _ | _ | _ := width <;> rfl

end Line

/-- By how many words code raises the stack. -/
def Code.depth (c : Code) : Int := Line.depth c.lines

namespace Code

variable {a b : Code}

@[simp] theorem depth_write (lines : List Line) : (write lines).depth = Line.depth lines := rfl

@[simp] theorem depth_nothing : nothing.depth = 0 := rfl

@[simp] theorem depth_instr (i : Instr) : (instr i).depth = i.effect := Int.add_zero _

theorem depth_append (written : a.fault = none) : (a ++ b).depth = a.depth + b.depth := by
  obtain ⟨lines, _ | _⟩ := a
  · exact Line.depth_append _ _
  · cases written

theorem depth_join {cs : List Code} (written : ∀ c ∈ cs, c.fault = none) :
    (join cs).depth = (cs.map depth).sum := by
  induction cs with
  | nil => rfl
  | cons c cs ih =>
    obtain ⟨first, rest⟩ := List.forall_mem_cons.mp written
    rw [join_cons, depth_append first, ih rest, List.map_cons, List.sum_cons]

@[simp] theorem depth_narrow (type : Option TypeName) : (narrow type).depth = 0 := by
  cases type with
  | none => rfl
  | some type => rw [narrow, depth_write, Line.depth_narrow]

theorem depth_withSlot {c : CodeContext} {name : String} {write : Slot → Code} {d : Int}
    (each : ∀ slot, (write slot).depth = d) (written : (withSlot c name write).fault = none) :
    (withSlot c name write).depth = d := by
  obtain ⟨slot, is, -⟩ := fault_withSlot.mp written
  rw [withSlot, is]
  exact each slot

theorem depth_binary (op : Operator) (leftType type : Option TypeName) (left right : Code)
    (writtenL : left.fault = none) (writtenR : right.fault = none) :
    (binary op.1.text leftType type left right).depth = left.depth + right.depth - 1 := by
  obtain ⟨i, is⟩ := Option.isSome_iff_exists.mp
    (ofOperator?_isSome (leftType.any TypeName.isUnsigned) op)
  have narrows : (if i.isArithmetic then narrow type else nothing).depth = 0 := by
    split <;> simp
  simp only [binary, is]
  rw [depth_append (fault_append_iff.mpr ⟨writtenL, writtenR⟩), depth_append writtenL,
    depth_append (fault_instr _), depth_instr, narrows]
  rfl

theorem depth_unary (op : UnaryOp) (type : Option TypeName) (operand : Code)
    (written : operand.fault = none) :
    (unary op.text type operand).depth = operand.depth := by
  cases op with
  | not =>
    rw [unary, depth_append written]
    exact Int.add_zero _
  | invert =>
    have narrows : (instr (.unary .complement) ++ narrow type).depth = 0 := by
      rw [depth_append (fault_instr _), depth_narrow]
      rfl
    rw [unary, depth_append written]
    exact (congrArg (operand.depth + ·) narrows).trans (Int.add_zero _)

theorem depth_index (type : Option TypeName) (array position : Code)
    (writtenA : array.fault = none) (writtenP : position.fault = none) :
    (index type array position).depth = array.depth + position.depth - 1 := by
  have extends_ : Line.depth (if type = some "int" then Line.extendSign else []) = 0 := by
    split <;> rfl
  simp only [index, append_assoc]
  rw [depth_append writtenA, depth_append writtenP, depth_append (fault_write _),
    depth_append (fault_instr _), depth_append (fault_instr _), depth_write, depth_write, extends_,
    Line.depth_scale, depth_instr, depth_instr]
  simp only [Instr.effect]
  omega

/-- Storing an element takes the index and the value off the stack. -/
theorem depth_storeAt {c : CodeContext} {name : String} {type : Option TypeName}
    {position value : Code} (writtenP : position.fault = none) (writtenV : value.fault = none)
    (written : (storeAt c name type position value).fault = none) :
    (storeAt c name type position value).depth = position.depth + value.depth - 2 := by
  obtain ⟨-, -, slot, is, typed⟩ := fault_storeAt.mp written
  obtain ⟨array, typed⟩ := Option.isSome_iff_exists.mp typed
  simp only [storeAt, withSlot, is, typed, append_assoc]
  rw [depth_append (fault_instr _), depth_append writtenP, depth_append (fault_write _),
    depth_append (fault_instr _), depth_append writtenV, depth_write, Line.depth_scale]
  simp only [depth_instr, Instr.effect]
  omega

/-- A call takes its arguments off the stack and leaves its result there, if it has one. -/
theorem depth_call (c : CodeContext) (function : String) (arguments : List Code)
    (written : ∀ code ∈ arguments, code.fault = none) :
    (call c function arguments).depth =
      (arguments.map depth).sum - arguments.length + if c.hasResult function then 1 else 0 := by
  have drops (n : Nat) : Line.depth (List.replicate n (Line.code .drop)) = -n := by
    induction n with
    | zero => rfl
    | succ n ih =>
      rw [List.replicate_succ, Line.depth_code, ih, Instr.effect]
      omega
  have swaps (n : Nat) :
      Line.depth (List.replicate n [Line.code .swap, Line.code .drop]).flatten = -n := by
    induction n with
    | zero => rfl
    | succ n ih =>
      rw [List.replicate_succ, List.flatten_cons, Line.depth_append, ih]
      simp only [Line.depth_code, Line.depth_nil, Instr.effect]
      omega
  simp only [call, append_assoc]
  rw [depth_append (fault_join.mpr written), depth_join written, depth_append (fault_write _),
    depth_append (fault_instr _), depth_instr, depth_write, depth_write]
  cases c.hasResult function with
  | false =>
    simp only [Bool.and_false, Bool.false_eq_true, if_false, Line.depth_nil, drops, Instr.effect]
    omega
  | true =>
    simp only [Bool.and_true, if_true, swaps, Instr.effect]
    cases arguments with
    | nil => rfl
    | cons first rest =>
      simp only [List.isEmpty_cons, Bool.false_eq_true, if_false, Line.depth_nil, List.length_cons]
      omega

end Code

/-! ### Literals -/

theorem Literal.depth_storeChars (ps : List (Char × Nat)) :
    Line.depth (ps.flatMap fun (c, i) => Literal.storeChar c i) = 0 := by
  induction ps with
  | nil => rfl
  | cons p ps ih =>
    rw [List.flatMap_cons, Line.depth_append, ih]
    rfl

theorem Literal.depth_string (cs : List Char) : Line.depth (Literal.string cs) = 1 := by
  rw [Literal.string, Literal.pushed, Line.depth_noted, Line.depth_code, depth_storeChars]
  rfl

/-- A literal is pushed, unless it was cut in the wrong place. -/
theorem LiteralKind.depth_code {kind : LiteralKind} {text : String} (spells : kind.Spells text)
    (written : (kind.code text).fault = none) :
    (kind.code text).depth = if '(' ∈ text.toList then 0 else 1 := by
  obtain ⟨line, convertible⟩ := (fault_code spells).mp written
  rw [code, if_neg line]
  split
  · rfl
  cases number : kind.isNumber with
  | true =>
    rw [Literal.code_number number spells, if_pos (convertible number)]
    rfl
  | false =>
    cases kind with
    | hex | bits | dec => cases number
    | bool => rfl
    | str => exact Literal.depth_string _
    | char =>
      obtain ⟨c, is⟩ := spells
      simp [Literal.code, LiteralKind.name, is, Literal.pushed, Instr.effect]

/-! ### Terms and directives -/

namespace Term

/-- By how many words the code of a node raises the stack, given by how many its operands do. -/
def riseOver (c : CodeContext) (e : Term) (below : List Int) : Int :=
  match e with
  | .literal _ text => if '(' ∈ text.toList then 0 else 1
  | .load _ => 1
  | .call function args => below.sum - args.length + if c.hasResult function then 1 else 0
  | .index _ _ | .binary _ _ _ => below.sum - 1
  | .unary _ _ => below.sum

/-- By how many words the code of a term raises the stack. -/
def rise (c : CodeContext) (e : Term) : Int := e.fold (riseOver c)

theorem rise_eq (c : CodeContext) (e : Term) :
    e.rise c = e.riseOver c (e.children.map (rise c)) := fold_eq _ e

/-- The parts of code without a fault have none. -/
theorem children_written {c : CodeContext} {e : Term} (spelled : e.Spelled) {l : String}
    {type : Option TypeName} {ns : List Operation} (shapes : e.Shapes (.node l type ns))
    (written : (Operation.code c (.node l type ns)).fault = none) :
    List.Forall₂ (fun x m => x ∈ e.children ∧ x.Shapes m ∧ (Operation.code c m).fault = none)
      e.children ns := by
  have codable := ((forall_subterms e).mp ((fault_code_iff c spelled shapes).mp written)).2
  have each : List.Forall₂ (fun x m => x ∈ e.children ∧ x.Shapes m) e.children ns :=
    (List.forall₂_and_left _ _).mpr ⟨fun x => id, (shapes_iff.mp shapes).2⟩
  exact each.imp fun x m ⟨inside, same⟩ =>
    ⟨inside, same, (fault_code_iff c (spelled.children x inside) same).mpr (codable x inside)⟩

/-- The code of a tree raises the stack as its term says. -/
theorem depth_code (c : CodeContext) {e : Term} (spelled : e.Spelled) {n : Operation}
    (shapes : e.Shapes n) (written : (n.code c).fault = none) : (n.code c).depth = e.rise c := by
  induction e using children_induction generalizing n with
  | step e ih =>
    obtain ⟨type, ns, rfl, -⟩ := shapes.node
    have each := children_written spelled shapes written
    have depths : ns.map (fun m => (Operation.code c m).depth) = e.children.map (rise c) := by
      rw [← List.forall₂_eq_eq_eq, List.forall₂_map_left_iff, List.forall₂_map_right_iff]
      exact each.flip.imp fun m x ⟨inside, same, ok⟩ =>
        ih x inside (spelled.children x inside) same ok
    rw [rise_eq, ← depths]
    clear ih depths
    cases e with
    | literal kind text =>
      obtain _ | _ := each
      rw [Operation.code_writtenLiteral] at written ⊢
      exact LiteralKind.depth_code spelled written
    | load name =>
      obtain _ | _ := each
      rw [Operation.code_spelledLoad spelled] at written ⊢
      exact Code.depth_withSlot (fun slot => Code.depth_instr _) written
    | call function args =>
      have all : ∀ code ∈ ns.map (Operation.code c), code.fault = none := by
        intro code inside
        obtain ⟨m, isArg, rfl⟩ := List.mem_map.mp inside
        obtain ⟨x, -, -, -, ok⟩ := exists_of_mem_left each.flip isArg
        exact ok
      rw [Operation.code_call spelled.1, Code.depth_call c function _ all, List.length_map,
        List.map_map, ← each.length_eq]
      rfl
    | index base position =>
      obtain _ | ⟨⟨-, -, okB⟩, _ | ⟨⟨-, -, okP⟩, _ | _⟩⟩ := each
      rw [label, Operation.code_index Action.ofLabel?_index, Code.depth_index _ _ _ okB okP]
      simp [riseOver]
    | binary op left right =>
      obtain _ | ⟨⟨-, -, okL⟩, _ | ⟨⟨-, -, okR⟩, _ | _⟩⟩ := each
      rw [label, Operation.code_binary (Action.ofLabel?_binary op), Code.depth_binary _ _ _ _ _ okL okR]
      simp [riseOver]
    | unary op operand =>
      obtain _ | ⟨⟨-, -, ok⟩, _ | _⟩ := each
      rw [label, Operation.code_unary (Action.ofLabel?_unary op), Code.depth_unary _ _ _ ok]
      simp [riseOver]

end Term

namespace Directive

/-- By how many words the code of a directive raises the stack. -/
def rise (ctx : CodeContext) : Directive → Int
  | .value e => e.rise ctx
  | .store _ right => right.rise ctx - 1
  | .storeAt _ indices right => ((indices ++ [right]).map (Term.rise ctx)).sum - 2

/-- The code of a tree raises the stack as its directive says. -/
theorem depth_code (ctx : CodeContext) {c : Directive} (spelled : c.Spelled) {op : Operation}
    (shape : op.bare = c.tree.bare) (written : (op.code ctx).fault = none) :
    (op.code ctx).depth = c.rise ctx := by
  obtain ⟨codable, -⟩ := (fault_code_iff ctx spelled shape).mp written
  have each : List.Forall₂ (fun m e => (Operation.code ctx m).fault = none ∧
      (Operation.code ctx m).depth = e.rise ctx) (c.parts op) c.terms := by
    have shapes := (List.forall₂_and_left _ _).mpr ⟨fun x => id, parts_shapes shape⟩
    refine shapes.flip.imp fun m e ⟨inside, same⟩ => ?_
    have ok := (Term.fault_code_iff ctx (spelled.terms e inside) same).mpr (codable e inside)
    exact ⟨ok, Term.depth_code ctx (spelled.terms e inside) same ok⟩
  have label : op.label = c.label := Tree.label_of_bare shape
  obtain ⟨l, type, ns⟩ := op
  obtain rfl := label
  cases c with
  | value e =>
    obtain _ | ⟨⟨-, depth⟩, _ | _⟩ := each
    exact depth
  | store name right =>
    obtain ⟨n, rfl⟩ := List.length_eq_one_iff.mp each.length_eq
    obtain _ | ⟨⟨ok, depth⟩, _ | _⟩ := each
    rw [Directive.label, Operation.code_store (Action.ofLabel?_store spelled.1)] at written ⊢
    have pops := Code.depth_withSlot (d := -1) (fun slot => Code.depth_instr _)
      (Code.fault_append_iff.mp written).2
    rw [Code.depth_append ok, depth, pops]
    rfl
  | storeAt array indices right =>
    have depths : ns.map (fun m => (Operation.code ctx m).depth) =
        (indices ++ [right]).map (Term.rise ctx) := by
      rw [← List.forall₂_eq_eq_eq, List.forall₂_map_left_iff, List.forall₂_map_right_iff]
      exact each.imp fun _ _ => And.right
    rw [Directive.label, Operation.code_storeAt (Action.ofLabel?_storeAt spelled.1)] at written ⊢
    split at written
    · rename_i position value
      obtain ⟨okP, okV, -⟩ := Code.fault_storeAt.mp written
      rw [Code.depth_storeAt okP okV written, rise, ← depths]
      simp
    · cases written

end Directive

end MethodLang
