import MethodLang.Flow.Graph
import MethodLang.Typing.Declaration
import MethodLang.View

/-!
What is known of a method, or of a file that could not be read. A file's entry is named for the
file in angle brackets.
-/
namespace MethodLang

structure Entry where
  calls : List String
  errors : List String
  graph : Option Graph
  tree : Option View
  params : TypeTable
  vars : TypeTable
  deriving Inhabited

/-- Entries by name, in the order in which the names first came up. -/
abbrev Entries := List (String × Entry)

namespace Entries

def isFile (name : String) : Bool := Text.startsWith "<file:" name

def fileName (stem : String) : String := "<file:" ++ stem ++ ">"

def get? (entries : Entries) (name : String) : Option Entry := entries.lookup name

/-- Puts an entry in its old place, or at the end if its name is new. -/
def put (name : String) (entry : Entry) : Entries → Entries
  | [] => [(name, entry)]
  | (n, e) :: rest => if n = name then (n, entry) :: rest else (n, e) :: put name entry rest

/-- The entries of methods. -/
def methods (entries : Entries) : Entries := entries.filter fun (name, _) => !isFile name

/-- The methods that have a graph. -/
def defined (entries : Entries) : List (String × Entry × Graph) :=
  entries.methods.filterMap fun (name, e) => e.graph.map fun g => (name, e, g)

end Entries

end MethodLang
