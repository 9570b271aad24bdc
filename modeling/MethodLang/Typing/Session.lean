import MethodLang.Typing.Checker

/-!
Tables of all declared types, and a checker in use: trees that keep their types from one question
to the next while the method under check may change.
-/
namespace MethodLang

/-- The types of all methods' variables, parameters and results. -/
structure Tables where
  vars : List (String × TypeTable)
  functions : List (String × TypeTable)
  results : TypeTable
  deriving Repr, Inhabited

def Tables.scope (t : Tables) (method : String) : Scope :=
  ⟨(t.vars.lookup method).getD [], (t.functions.lookup method).getD [], t.functions, t.results⟩

/-- What can be asked of a node in a session. -/
inductive Question where
  | assign
  | infer
  | resolve (wanted : Option TypeName)
  | settleAs (type : Option TypeName)
  | settle (wanted : Option TypeName)
  | fill
  | void (use : String)
  deriving Repr

/-- A type, and errors seen from the node that was asked. -/
structure Reply where
  type : Option TypeName
  errors : List TypeError
  deriving Repr

def Question.ask (s : Scope) (q : Question) (t : Marked) : Reply × Marked :=
  let settled (t : Marked) : Reply × Marked := (⟨t.settledType, []⟩, t)
  let inferred (r : Inference) : Reply × Marked := (⟨r.type, r.errors⟩, r.node)
  match q with
  | .assign => inferred (t.assign s)
  | .infer => inferred (t.infer s)
  | .resolve wanted => inferred (t.inferAndSettle s wanted)
  | .settleAs type => settled (t.settleAs type)
  | .settle wanted => settled (t.settle s wanted)
  | .fill =>
    let t := t.fill s
    (⟨t.note.type, []⟩, t)
  | .void use =>
    let (error, t) := t.voidError? s use
    (⟨none, error.toList⟩, t)

structure Session where
  tables : Tables
  scope : Scope
  trees : List Marked
  deriving Inhabited

namespace Session

/-- Outside any method nothing but functions can be named. -/
def start (tables : Tables) (trees : List Marked) : Session :=
  ⟨tables, ⟨[], [], tables.functions, tables.results⟩, trees⟩

/-- Takes up another method. Types stay, but nothing is settled any more. -/
def enter (s : Session) (method : String) : Session :=
  { s with scope := s.tables.scope method, trees := s.trees.map Marked.unsettle }

/-- Asks the node at a path of one tree. -/
def ask (s : Session) (q : Question) (tree : Nat) (path : List Nat) : Option (Reply × Session) := do
  let root ← s.trees[tree]?
  let t ← root.at? path
  let (reply, t) := q.ask s.scope t
  some (reply, { s with trees := s.trees.set tree (root.modifyAt (fun _ => t) path) })

end Session

end MethodLang
