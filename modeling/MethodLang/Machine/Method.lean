import MethodLang.Machine.Expression
import MethodLang.Machine.Library
import MethodLang.Program.Entry

/-!
Code of blocks, methods and programs. A block ends in jumps to its successors; one without
successors leaves the method.
-/
namespace MethodLang

namespace Code

/-- The first edge with a given label; an edge without a label stops the search. -/
def edgeLabelled (outcome : String) : List Edge → Except Fault BlockId
  | [] => .error .missingEdge
  | (_, none) :: _ => .error .unlabelledEdge
  | (id, some label) :: rest =>
    if Text.lower label = outcome then .ok id else edgeLabelled outcome rest

/-- The jumps at the end of a block. -/
def jumps : List Edge → Code
  | [] => instr (.jump .exit)
  | [(id, _)] => instr (.jump (.block id))
  | edges =>
    match edgeLabelled "true" edges with
    | .error fault => stop fault
    | .ok yes =>
      match edgeLabelled "false" edges with
      | .error fault => stop fault
      | .ok no => instr (.jumpIf (.block yes)) ++ instr (.jump (.block no))

def block (c : CodeContext) (id : BlockId) (b : Block) : Code :=
  write [.place (.block id)] ++
    (match b.tree with
    | some op => op.code c
    | none => nothing) ++
    jumps b.succs

/-- Moves the result from the variable of the method's own name to where the caller finds it. -/
def result (frame : Frame) (name : String) : List Line :=
  match Frame.find? frame.locals name with
  | some slot =>
    [.noted (.loadFrame slot.offset) 2 ("load return value from " ++ name),
      .noted (.storeFrame Frame.resultOffset) 2 "store return value at bp + 8"]
  | none => []

def method (results : TypeTable) (name : String) (entry : Entry) (g : Graph) : Code :=
  let frame := Frame.ofMethod entry.params entry.vars
  write (Line.blank :: Line.function name ::
      entry.vars.map fun (v, _) => Line.noted (.push (.decimal 0)) 4 v) ++
    join (g.blocks.map fun (id, b) => block ⟨frame, results⟩ id b) ++
    write ([Line.place .exit] ++
      (if (results.lookup name).join.isSome then result frame name else []) ++
      [Line.code .ret])

/-- The code of all methods with a graph. -/
def methods (results : TypeTable) (entries : Entries) : Code :=
  join (entries.defined.map fun (name, entry, g) => method results name entry g)

/-- A whole program: the start, the builtins, the methods. -/
def program (results : TypeTable) (entries : Entries) : Code :=
  write Library.opening ++ methods results entries

end Code

end MethodLang
