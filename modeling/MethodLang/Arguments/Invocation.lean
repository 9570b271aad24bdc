import MethodLang.Arguments.Basic
import MethodLang.Pathname

/-!
The two command lines: one compiles files into a directory, the other draws the tree of a file.
Both name the language after the parser library unless a flag names it.
-/
namespace MethodLang

/-- Where the parser comes from: a library that is there, or one to be built from a grammar. -/
inductive ParserOrigin where
  | library (path : Option String)
  | grammar (directory : String)
  deriving DecidableEq, Repr

/-- What a run was asked to do. A library, a file or an output whose only word is a double dash has
no name. -/
structure Invocation where
  parser : ParserOrigin
  language : String
  files : List String
  output : Option String
  deriving DecidableEq, Repr

inductive InvocationFlaw where
  | arguments (flaw : Arguments.Flaw)
  | tooFewFiles
  | libraryAndGrammar
  | noGrammar
  /-- The language is to be named after a library that has no name. -/
  | namelessLibrary
  deriving DecidableEq, Repr

namespace InvocationFlaw

def message : InvocationFlaw → String
  | .arguments flaw => flaw.message
  | .tooFewFiles =>
    "Необходимо указать хотя бы один входной файл и выходную директорию.\n" ++
      "Пример: python main.py path/to/lib.dll input1.c [input2.c ...] out_dir"
  | .libraryAndGrammar =>
    "Нельзя одновременно указывать --lib и grammar_dir/lang_name.\n" ++
      "Выберите один из двух вариантов:\n" ++
      "  1) --lib path/to/lib [--lang foo] file_path out_file_path\n" ++
      "  2) grammar_dir lang_name file_path out_file_path"
  | .noGrammar =>
    "В режиме сборки из грамматики нужно указать grammar_dir и lang_name.\n" ++
      "Пример: python main.py path/to/grammar foo input.txt output.txt"
  | .namelessLibrary => "the library has no name"

/-- The code with which a run ends. -/
def exitCode : InvocationFlaw → Nat
  | .arguments .help => 0
  | .namelessLibrary => 1
  | _ => 2

end InvocationFlaw

namespace Invocation

/-- The language that a library is named for. -/
def languageOf (library : String) : String :=
  let stem := Pathname.stem library
  if Text.startsWith "lib" stem then String.ofList (stem.toList.drop 3) else stem

/-- A name that was given and is not empty, else the library's. -/
def language? (given library : Option String) : Option String :=
  (given.filter fun name => !name.isEmpty).or (library.map languageOf)

/-- A run with a library that is there. -/
def withLibrary (given library : Option String) (files : List String) (output : Option String) :
    Except InvocationFlaw Invocation :=
  match language? given library with
  | some language => .ok ⟨.library library, language, files, output⟩
  | none => .error .namelessLibrary

def compileSpec : Arguments.Spec where
  flags := ["--lib"]
  positionals := [⟨"lib_path", .one⟩, ⟨"rest", .atLeastOne⟩]

/-- The command line that compiles: a library, files, and a directory. -/
def ofCompileLine (argv : List String) : Except InvocationFlaw Invocation :=
  match compileSpec.read argv with
  | .error flaw => .error (.arguments flaw)
  | .ok r =>
    let rest := r.words "rest"
    if rest.length < 2 then .error .tooFewFiles
    else withLibrary (r.value? "--lib") (r.word? "lib_path") rest.dropLast rest.getLast?

def drawSpec : Arguments.Spec where
  flags := ["--lib", "--lang"]
  positionals :=
    [⟨"grammar_dir", .atMostOne⟩, ⟨"lang_name", .atMostOne⟩, ⟨"file_path", .one⟩,
      ⟨"out_file_path", .one⟩]

/-- The command line that draws a tree: a library by flag, or a grammar and its language. -/
def ofDrawLine (argv : List String) : Except InvocationFlaw Invocation :=
  match drawSpec.read argv with
  | .error flaw => .error (.arguments flaw)
  | .ok r =>
    let files := r.words "file_path"
    let output := r.word? "out_file_path"
    match r.word? "grammar_dir", r.word? "lang_name" with
    | none, none =>
      if r.has "--lib" then withLibrary (r.value? "--lang") (r.value? "--lib") files output
      else .error .noGrammar
    | grammar, language =>
      if r.has "--lib" then .error .libraryAndGrammar
      else match grammar.filter (!·.isEmpty), language.filter (!·.isEmpty) with
        | some grammar, some language => .ok ⟨.grammar grammar, language, files, output⟩
        | _, _ => .error .noGrammar

end Invocation

end MethodLang
