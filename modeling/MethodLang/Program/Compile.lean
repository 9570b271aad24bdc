import MethodLang.Machine.Method
import MethodLang.Program.Analysis
import MethodLang.Program.MainMethod
import MethodLang.Program.Report
import MethodLang.Program.TypeCheck

/-!
The whole run: from source files to an assembly file, or to the reports that say why there is
none. The files are analysed first; a report on them, errors of types, or a flaw of the main
method end the run, each with files of its own.
-/
namespace MethodLang

/-- What a run leaves in its directory. A later file replaces an earlier one of the same path, and
so does a picture. -/
structure Outcome where
  files : List (String × String)
  pictures : List (String × Picture)
  printed : String

namespace Outcome

def treeDirectory : String := "tree"

def graphDirectory : String := "graph"

def typedDirectory : String := "typed_graph"

def reportPath : String := "call_graph.errors.txt"

def typeErrorsPath : String := "type_errors.txt"

def codePath : String := "result.asm"

/-- The trees of the files, the graphs of the methods, and the picture of their calls. -/
def ofAnalysis (a : Analysis) : Outcome where
  files := a.views.map fun (stem, view) => (Pathname.inside treeDirectory stem, view.draw .box)
  pictures :=
    a.graphs.map (fun (name, g) => (Pathname.inside graphDirectory name, g.picture)) ++
      [("call_graph", a.entries.callPicture)]
  printed := ""

def addFile (o : Outcome) (path text notice : String) : Outcome :=
  { o with files := o.files ++ [(path, text)], printed := o.printed ++ notice }

def addPictures (o : Outcome) (pictures : List (String × Picture)) : Outcome :=
  { o with pictures := o.pictures ++ pictures }

end Outcome

open Outcome in
/-- Compiles files into a directory, whose name appears in what is printed. -/
def compile (directory : String) (files : List SourceFile) : Except Fault Outcome := do
  let path (name : String) := Pathname.inside directory name
  let a ← analyze files
  let outcome := ofAnalysis a
  match a.entries.report? with
  | some report => .ok (outcome.addFile reportPath report (Entries.reportNotice (path reportPath)))
  | none =>
    match ← checkTypes a.entries with
    | .flawed messages =>
      .ok (outcome.addFile typeErrorsPath messages.listing (Messages.notice (path typeErrorsPath)))
    | .typed entries results => do
      let outcome := outcome.addPictures (typedPictures typedDirectory entries)
      match ← mainFlaw? a.entries with
      | some flaw => .ok (outcome.addFile reportPath flaw.text (flaw.notice (path reportPath)))
      | none =>
        let code := Code.program results entries
        match code.fault with
        | some fault => .error fault
        | none =>
          .ok (outcome.addFile codePath code.text
            ("Ассемблерный код сохранен в " ++ path codePath ++ "\n"))

end MethodLang
