import MethodLang.Arguments.Invocation
import MethodLang.Program.Compile

/-!
The compiler's command line: a parser library, source files, and the directory for what comes out.
Pictures are written in the DOT language.
-/
namespace MethodLang

/-- Reads a source file. -/
def readSource (path : String) : IO SourceFile := do
  return ⟨path, .text (← IO.FS.readFile path)⟩

/-- Writes a file below a directory, and makes the directories on its way. -/
def writeBelow (directory path text : String) : IO Unit := do
  let path := Pathname.inside directory path
  IO.FS.createDirAll (Pathname.directory path)
  IO.FS.writeFile path text

def writeOutcome (directory : String) (outcome : Outcome) : IO Unit := do
  for (path, text) in outcome.files do
    writeBelow directory path text
  for (path, picture) in outcome.pictures do
    writeBelow directory (path ++ ".dot") picture.dot
  IO.print outcome.printed

def runCompiler (i : Invocation) : IO UInt32 := do
  let directory := i.output.getD "."
  let files ← i.files.mapM readSource
  match compile directory files with
  | .ok outcome =>
    writeOutcome directory outcome
    return 0
  | .error fault =>
    IO.print fault.printed
    IO.eprintln ("error: " ++ fault.message?.getD "the program cannot be compiled")
    return 1

end MethodLang

open MethodLang in
def main (args : List String) : IO UInt32 := do
  match Invocation.ofCompileLine args with
  | .ok i => runCompiler i
  | .error flaw =>
    IO.eprintln ("error: " ++ flaw.message)
    return flaw.exitCode.toUInt32
