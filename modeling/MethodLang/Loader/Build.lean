import MethodLang.Pathname

/-!
Building a parser library from a grammar: the directory made for it and the commands that fill it.
-/
namespace MethodLang

structure Command where
  words : List String
  /-- Where the command runs. -/
  directory : String
  deriving DecidableEq, Repr

/-- The commands that were started, and the library's path if all of them succeeded. -/
structure LibraryBuild where
  commands : List Command
  path : Option String
  deriving DecidableEq, Repr

namespace LibraryBuild

/-- The version of the tables that the generated parser is to have. -/
def tableVersion : Nat := 13

def directoryOf (grammar : String) : String := Pathname.join grammar "build"

def pathOf (grammar language : String) : String :=
  Pathname.join (directoryOf grammar) (language ++ ".dll")

def commandsFor (grammar language : String) : List Command := [
  ⟨["tree-sitter", "generate", "--abi", toString tableVersion], grammar⟩,
  ⟨["tree-sitter", "build", "-o", pathOf grammar language], grammar⟩]

/-- Runs the commands up to the first that fails; `failing` is its number, counted from one. -/
def run (grammar language : String) (failing : Option Nat) : LibraryBuild :=
  let commands := commandsFor grammar language
  match failing with
  | some n =>
    if 1 ≤ n ∧ n ≤ commands.length then ⟨commands.take n, none⟩
    else ⟨commands, some (pathOf grammar language)⟩
  | none => ⟨commands, some (pathOf grammar language)⟩

/-- The directories below the working directory that come with the given ones, sorted. -/
def directoriesWith (paths : List String) : List String :=
  let places := (paths.flatMap Pathname.placesAlong).filter fun place =>
    !place.isEmpty && place.head? != some ".."
  (places.map ("/".intercalate ·)).eraseDups.mergeSort (· ≤ ·)

end LibraryBuild

end MethodLang
