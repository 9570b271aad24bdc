import MethodLang.Flow.Build
import MethodLang.Grammar.Parser
import MethodLang.Pathname
import MethodLang.Program.Entry

/-!
Analysis of files. A method may be declared any number of times before it is defined, always with
the same signature; anything else is an error of its entry. The entry that came up last gets its
frame lists at the end of each file if it has no graph yet.
-/
namespace MethodLang

inductive Content where
  | text (source : String)
  | node (root : Node)

structure SourceFile where
  path : String
  content : Content

def SourceFile.root (file : SourceFile) : Except Fault Node :=
  match file.content with
  | .node root => .ok root
  | .text source =>
    match parseSource source with
    | some methods => .ok (Source.node methods)
    | none => .error (.notInLanguage file.path)

/-- What was found so far. `last` names the entry that came up last; `views` and `graphs` are
kept under the names they are saved by. -/
structure Analysis where
  entries : Entries
  seen : List String
  last : Option String
  views : List (String × View)
  graphs : List (String × Graph)

namespace Analysis

def empty : Analysis := ⟨[], [], none, [], []⟩

def child {α : Type} (i : Nat) (t : Tree α) : Except Fault (Tree α) :=
  match t.children[i]? with
  | some c => .ok c
  | none => .error .missingChild

def lastChild {α : Type} (t : Tree α) : Except Fault (Tree α) :=
  match t.children.getLast? with
  | some c => .ok c
  | none => .error .missingChild

/-- The signature in a method's tree. -/
def signature {α : Type} (t : Tree α) : Except Fault (Tree α) := child 0 t >>= child 1

def methodName {α : Type} (t : Tree α) : Except Fault String := do
  let name ← signature t >>= child 0 >>= child 0
  .ok (Text.trimQuotes (Text.trim name.label))

/-- The graph of a method; a declaration has none. -/
def buildGraph (t : View) : Except Fault (Option Graph) := do
  let body ← child 0 t >>= lastChild
  if body.label ≠ "body" then .ok none
  else do
    let block ← lastChild body
    let g ← Graph.ofBlock block
    .ok (some g)

def update (a : Analysis) (name : String) (entry : Entry) : Analysis :=
  { a with entries := a.entries.put name entry }

def addError (entry : Entry) (text : String) : Entry := { entry with errors := entry.errors ++ [text] }

def overloadText (name path : String) : String :=
  "Ошибка: попытка перегрузки функции '" ++ name ++ "' в файле '" ++ path ++ "'"

def brokenText (name path reason : String) : String :=
  "SyntaxError while building graph for '" ++ name ++ "' in file '" ++ path ++ "': " ++ reason

/-- Faults of the source that become an error of the method's entry. -/
def sourceFault? : Fault → Option String
  | .unknownExpression label => (Fault.unknownExpression label).message?
  | .misplacedBreak stop => (Fault.misplacedBreak stop).message?
  | _ => none

/-- Names of calls as entries keep them, each once. -/
def cleanCalls (calls : List String) (names : List String) : List String :=
  let add (calls : List String) (name : String) :=
    let name := Text.trimQuotes (Text.trim name)
    if name.isEmpty || calls.contains name then calls else calls ++ [name]
  names.foldl add calls

/-- Takes the graph of a method into its entry. -/
def define (a : Analysis) (path name : String) (entry : Entry) (t : View) :
    Except Fault Analysis :=
  match buildGraph t with
  | .error fault =>
    match sourceFault? fault with
    | some reason => .ok (a.update name (addError entry (brokenText name path reason)))
    | none => .error fault
  | .ok none => .ok (a.update name entry)
  | .ok (some g) => do
    let pruned := g.prune 0 1
    let params ← Declaration.orderedArguments t
    let vars ← Declaration.orderedVariables t
    let entry := { entry with
      errors := entry.errors ++ g.errors.map fun r => path ++ ": " ++ r.message
      calls := cleanCalls entry.calls g.calls
      graph := some pruned
      params := params
      vars := vars }
    let saved := Pathname.stem path ++ "_" ++ name
    .ok { a.update name entry with graphs := a.graphs ++ [(saved, pruned)] }

/-- Whether a further occurrence of a method fits its entry. -/
def fits (entry : Entry) (t : View) : Except Fault Bool :=
  match entry.graph, entry.errors, entry.tree with
  | none, [], some previous => do
    let before ← signature previous
    let now ← signature t
    .ok (before.same now)
  | _, _, _ => .ok false

/-- Takes up one method of a file. A method without a name is passed over. -/
def method (path : String) (a : Analysis) (t : View) : Except Fault Analysis := do
  let name ← methodName t
  if name.isEmpty then .ok a
  else do
    let entry := (a.entries.get? name).getD ⟨[], [], none, some t, [], []⟩
    let a := { a with last := some name }
    if a.seen.contains name then do
      if ← fits entry t then define a path name { entry with tree := some t } t
      else .ok (a.update name (addError entry (overloadText name path)))
    else define { a with seen := a.seen ++ [name] } path name { entry with tree := some t } t

/-- Gives the entry that came up last its frame lists, if it has no graph. -/
def closeFile (a : Analysis) : Except Fault Analysis :=
  match a.last with
  | none => .error .nothingSeen
  | some name =>
    match a.entries.get? name with
    | some entry =>
      match entry.graph, entry.tree with
      | none, some t => do
        let params ← Declaration.orderedArguments t
        let vars ← Declaration.orderedVariables t
        .ok (a.update name { entry with params := params, vars := vars })
      | _, _ => .ok a
    | none => .ok a

/-- A file with marked nodes gets an entry of its own and is not looked into. -/
def flawedFile (a : Analysis) (path : String) (root : Node) : Analysis :=
  let name := Entries.fileName (Pathname.stem path)
  let entry := (a.entries.get? name).getD ⟨[], [], none, some root.view, [], []⟩
  let texts := root.flaws.map fun flaw => path ++ ": " ++ flaw.message
  { a.update name { entry with errors := entry.errors ++ texts } with last := some name }

def file (a : Analysis) (f : SourceFile) : Except Fault Analysis := do
  let root ← f.root
  if root.flaws.isEmpty then do
    let a := { a with views := a.views ++ [(Pathname.stem f.path, root.view)] }
    let a ← root.view.children.foldlM (method f.path) a
    a.closeFile
  else .ok (a.flawedFile f.path root)

end Analysis

/-- The analysis of a list of files. -/
def analyze (files : List SourceFile) : Except Fault Analysis := files.foldlM Analysis.file .empty

end MethodLang
