/-!
File names as texts with slashes.
-/
namespace MethodLang

namespace Pathname

/-- The texts between slashes. -/
def split : List Char → List (List Char)
  | [] => [[]]
  | '/' :: cs => [] :: split cs
  | c :: cs =>
    match split cs with
    | [] => [[c]]
    | part :: rest => (c :: part) :: rest

/-- The parts of a path, without empty parts and single dots. -/
def parts (path : String) : List String :=
  ((split path.toList).filter fun p => !p.isEmpty && p != ['.']).map String.ofList

def isAbsolute (path : String) : Bool := path.toList.head? == some '/'

/-- A path without superfluous slashes and dots. -/
def clean (path : String) : String :=
  let joined := "/".intercalate (parts path)
  if isAbsolute path then "/" ++ joined else if joined.isEmpty then "." else joined

/-- A name inside a directory; an absolute name stands for itself. -/
def inside (directory name : String) : String :=
  if isAbsolute name then clean name else clean (directory ++ "/" ++ name)

/-- A name behind a directory as it is written; an absolute name stands for itself. -/
def join (directory name : String) : String :=
  if isAbsolute name then name
  else if directory.isEmpty || directory.toList.getLast? == some '/' then directory ++ name
  else directory ++ "/" ++ name

/-- One step down from a place, or up for a double dot. -/
def step (place : List String) (part : String) : List String :=
  if part = ".." ∧ place.getLast?.any (· != "..") then place.dropLast else place ++ [part]

/-- The place that a path leads to. -/
def place (path : String) : List String := (parts path).foldl step []

/-- All places on the way along a path, its end included. -/
def placesAlong (path : String) : List (List String) :=
  let ps := parts path
  (List.range' 1 ps.length).map fun n => (ps.take n).foldl step []

/-- The path without its last part, as it is written. -/
def directory (path : String) : String :=
  String.ofList ((path.toList.reverse.dropWhile (· != '/')).drop 1).reverse

/-- The last part of a path. -/
def name (path : String) : String := (parts path).getLast?.getD ""

/-- The last part without its last extension; a leading or a trailing dot starts none. -/
def stem (path : String) : String :=
  let cs := (name path).toList
  let extension := cs.reverse.takeWhile (· != '.')
  let before := cs.reverse.drop (extension.length + 1)
  if extension.isEmpty || before.isEmpty then String.ofList cs else String.ofList before.reverse

example : stem "dir/a.b.c" = "a.b" := by decide +kernel
example : stem ".so" = ".so" := by decide +kernel
example : stem "x." = "x." := by decide +kernel
example : stem "plain" = "plain" := by decide +kernel

example : place "./g/../h//build" = ["h", "build"] := by decide +kernel
example : placesAlong "a/../b" = [["a"], [], ["b"]] := by decide +kernel
example : join "g/" "build" = "g/build" := by decide +kernel

end Pathname

end MethodLang
