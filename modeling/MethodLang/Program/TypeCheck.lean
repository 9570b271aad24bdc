import MethodLang.Builtin
import MethodLang.Flow.Drawing
import MethodLang.Pathname
import MethodLang.Program.Entry
import MethodLang.Typing.Session

/-!
Type checking of a whole program: first what the methods declare, then every operation in their
graphs. A flaw of any kind stops the program; otherwise the operations get their types, and a
method with a result gets a variable of its own name to hold it.
-/
namespace MethodLang

/-- Messages by method, in the order in which methods first had one. -/
abbrev Messages := List (String × List String)

def Messages.add (name : String) (texts : List String) : Messages → Messages
  | [] => [(name, texts)]
  | (n, ts) :: rest => if n = name then (n, ts ++ texts) :: rest else (n, ts) :: add name texts rest

inductive Checked where
  | flawed (messages : Messages)
  | typed (entries : Entries) (results : TypeTable)

namespace TypeCheck

/-- What the methods declare, and the flaws found. -/
structure Declared where
  tables : Tables
  messages : Messages

def Declared.complain (d : Declared) (name : String) (flaws : List DeclarationFlaw) : Declared :=
  if flaws.isEmpty then d
  else { d with messages := d.messages.add name (flaws.map DeclarationFlaw.message) }

/-- The variables of a method, with its result among them. -/
def methodVariables (name : String) (result : Option TypeName) (t : View) :
    Except Fault (TypeTable × List DeclarationFlaw) := do
  let (vars, flaws) ←
    match Declaration.body? t with
    | some body => Declaration.locals (Declaration.variableNodes body)
    | none => .ok ([], [])
  match result with
  | some _ => .ok (vars.set name result, flaws)
  | none => .ok (vars, flaws)

def methodArguments (t : View) : Except Fault (TypeTable × List DeclarationFlaw) :=
  match Declaration.signature? t >>= Declaration.labelled "list<argDef>" with
  | some list => Declaration.arguments list.children
  | none => .ok ([], [])

/-- The flaw of a tree that is not the tree of a method. -/
def structureFlaw? (t : View) : Option DeclarationFlaw :=
  match t.children with
  | [] => some .unknownStructure
  | method :: _ => if method.children.length < 2 then some .noSignature else none

/-- Adds what one method declares. -/
def declare (d : Declared) (method : String × Entry × Graph) : Except Fault Declared := do
  let (name, entry, _) := method
  let t ←
    match entry.tree with
    | some t => .ok t
    | none => .error .missingTree
  let (result, _, flaw) ← Declaration.result t
  let d := d.complain name flaw.toList
  let d := { d with tables := { d.tables with results := d.tables.results.set name result } }
  match structureFlaw? t with
  | some flaw => .ok (d.complain name [flaw])
  | none => do
    let (vars, flaws) ← methodVariables name result t
    let d := d.complain name flaws
    let (args, flaws) ← methodArguments t
    let d := d.complain name flaws
    .ok { d with tables := { d.tables with
      vars := d.tables.vars ++ [(name, vars)]
      functions := d.tables.functions ++ [(name, args)] } }

/-- Methods must not take the names of builtins. -/
def complainReserved (d : Declared) : Declared :=
  let names := ((d.tables.results.map (·.1)).filter Builtin.isBuiltin).mergeSort (· ≤ ·)
  names.foldl (fun d name => d.complain name [.reserved name]) d

/-- Methods whose variables and arguments share names. -/
def clashes (tables : Tables) : Messages :=
  tables.vars.filterMap fun (name, vars) =>
    match Declaration.clashes vars ((tables.functions.lookup name).getD []) with
    | [] => none
    | names => some (name, [(DeclarationFlaw.clash names).message])

/-- The tables with the builtins behind the methods. -/
def withBuiltins (tables : Tables) : Tables where
  vars := tables.vars
  functions := tables.functions ++ Builtin.signatures.map fun (n, params, _) => (n, params)
  results := tables.results ++ Builtin.signatures.map fun (n, _, result) => (n, result)

/-- The block with types, and the texts of its errors. -/
def checkBlock (s : Scope) (b : Block) : Block × List String :=
  match b.tree with
  | none => (b, [])
  | some op =>
    let t := Marked.unmarked op
    let r := t.assign s
    ({ b with tree := some r.node.operation }, r.errors.map (TypeError.text t))

def checkGraph (s : Scope) (g : Graph) : Graph × List String :=
  let blocks := g.blocks.map fun (id, b) => (id, checkBlock s b)
  ({ g with blocks := blocks.map fun (id, b, _) => (id, b) }, blocks.flatMap fun (_, _, texts) => texts)

/-- The entry with types, and the texts of the errors in its graph. -/
def checkEntry (tables : Tables) (name : String) (e : Entry) : Entry × List String :=
  let vars :=
    match (tables.results.lookup name).join with
    | some result => e.vars ++ [(name, some result)]
    | none => e.vars
  match e.graph with
  | some g =>
    if Entries.isFile name then ({ e with vars := vars }, [])
    else
      let (typed, texts) := checkGraph (tables.scope name) g
      ({ e with graph := some typed, vars := vars }, texts)
  | none => ({ e with vars := vars }, [])

def checkTyped (tables : Tables) (entries : Entries) : Checked :=
  let tables := withBuiltins tables
  let checked := entries.map fun (name, e) => (name, checkEntry tables name e)
  match checked.filterMap fun (n, _, texts) => if texts.isEmpty then none else some (n, texts) with
  | [] => .typed (checked.map fun (name, e, _) => (name, e)) tables.results
  | messages => .flawed messages

end TypeCheck

open TypeCheck in
/-- Checks a program's declarations and operations. -/
def checkTypes (entries : Entries) : Except Fault Checked := do
  let d ← entries.defined.foldlM declare ⟨⟨[], [], []⟩, []⟩
  let d := complainReserved d
  if !d.messages.isEmpty then .ok (.flawed d.messages)
  else match clashes d.tables with
    | [] => .ok (checkTyped d.tables entries)
    | messages => .ok (.flawed messages)

namespace Messages

/-- The text that lists the messages. -/
def listing (messages : Messages) : String :=
  String.join (messages.map fun (name, texts) =>
    "=== " ++ name ++ " ===\n" ++ String.join (texts.map (· ++ "\n")) ++ "\n")

/-- What is printed when the messages are written to a file. -/
def notice (path : String) : String := "Ошибки типизации записаны в " ++ path ++ "\n"

end Messages

/-- The pictures of all typed graphs, by the path each is saved under. -/
def typedPictures (directory : String) (entries : Entries) : List (String × Picture) :=
  entries.defined.map fun (name, _, g) =>
    let safe := String.ofList (name.toList.filter fun c => !(['"', '<', '>'].contains c))
    (Pathname.inside directory safe, g.typedPicture)

end MethodLang
