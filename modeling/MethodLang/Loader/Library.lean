import MethodLang.Grammar.Parser
import MethodLang.Tree.Drawing
import MethodLang.View

/-!
Parser libraries. A library gives its parser by a function named for the language; the name may
carry a suffix.
-/
namespace MethodLang

/-- A library, by the functions it exports. -/
structure ParserLibrary where
  exports : List String
  deriving DecidableEq, Repr

inductive LoadFlaw where
  | noLibrary
  | noFunction
  | noFile
  | notInLanguage (file : String)
  deriving DecidableEq, Repr

namespace ParserLibrary

def functionName (language : String) : String := "tree_sitter_" ++ language

/-- The function for a language: the plain name wins over the suffixed one. -/
def function? (l : ParserLibrary) (language : String) : Option String :=
  [functionName language, functionName language ++ "_language"].find? l.exports.contains

end ParserLibrary

/-- The view of a file, read with a library that may be missing. What is wrong with the library
counts before what is wrong with the file. -/
def loadView (library : Option ParserLibrary) (language file : String) (source : Option String) :
    Except LoadFlaw View :=
  match library with
  | none => .error .noLibrary
  | some l =>
    match l.function? language, source with
    | none, _ => .error .noFunction
    | some _, none => .error .noFile
    | some _, some text =>
      match parseSource text with
      | some methods => .ok (Source.node methods).view
      | none => .error (.notInLanguage file)

end MethodLang
