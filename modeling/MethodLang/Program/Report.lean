import MethodLang.Builtin
import MethodLang.Picture
import MethodLang.Program.Entry

/-!
The report on an analysis and the picture of who calls whom.
-/
namespace MethodLang

namespace Entries

def sortedByName (entries : Entries) : Entries := entries.mergeSort fun a b => a.1 ≤ b.1

/-- The file that a file's entry is about. -/
def reportedFile (name : String) : String :=
  if Text.endsWith ">" name then
    String.ofList ((name.toList.drop "<file:".length).dropLast)
  else name

def fileLines (entries : Entries) : List String :=
  let flawed := (sortedByName (entries.filter fun (n, _) => isFile n)).filter
    fun (_, e) => !e.errors.isEmpty
  let body := flawed.flatMap fun (n, e) =>
    ("\n[File: " ++ reportedFile n ++ "]") :: e.errors.map fun err => "  - " ++ err
  if body.isEmpty then [] else "=== FILE-LEVEL ERRORS ===" :: body

/-- What is wrong with a method, in a few words. -/
def status (e : Entry) : List String :=
  (if e.errors.isEmpty then [] else ["ERROR"]) ++ (if e.graph.isNone then ["NOT DEFINED"] else [])

def methodLines (entries : Entries) : List String :=
  let faulty := (sortedByName entries.methods).filter fun (_, e) => !(status e).isEmpty
  let body := faulty.flatMap fun (n, e) =>
    ["\nFunction: " ++ n, "Status: " ++ " / ".intercalate (status e)] ++
      (if e.errors.isEmpty then [] else "Errors:" :: e.errors.map fun err => "  - " ++ err)
  if body.isEmpty then [] else "\n=== FUNCTION ERRORS ===" :: body

/-- All names that methods call, sorted, each once. -/
def calledNames (entries : Entries) : List String :=
  (entries.methods.flatMap fun (_, e) => e.calls).eraseDups.mergeSort (· ≤ ·)

def isMethod (entries : Entries) (name : String) : Bool :=
  entries.methods.any fun (n, _) => n == name

def missingLines (entries : Entries) : List String :=
  let missing := entries.calledNames.filter fun n =>
    !entries.isMethod n && !Builtin.isBuiltin n
  if missing.isEmpty then []
  else "\n=== REFERENCED BUT NOT DEFINED ===" :: missing.map fun n => "  - " ++ n

/-- The report, if there is anything to report. -/
def report? (entries : Entries) : Option String :=
  match entries.fileLines ++ entries.methodLines ++ entries.missingLines with
  | [] => none
  | lines => some ("\n".intercalate lines)

/-- What is printed when a report is written. -/
def reportNotice (path : String) : String := "Ошибки записаны в " ++ path ++ "\n"

def callBox (entries : Entries) (name : String) : String × String :=
  let status :=
    match entries.methods.get? name with
    | some e =>
      if !e.errors.isEmpty then "ERROR" else if e.graph.isNone then "NOT DEFINED" else ""
    | none => if Builtin.isBuiltin name then "BUILTIN" else "NOT DEFINED"
  (name, if status.isEmpty then name else name ++ "\n" ++ status)

/-- Boxes are sorted by name, arrows by caller and callee. -/
def callPicture (entries : Entries) : Picture where
  name := "CallGraph"
  boxes :=
    let names := (entries.methods.map (·.1) ++ entries.calledNames).eraseDups.mergeSort (· ≤ ·)
    names.map entries.callBox
  arrows :=
    (sortedByName entries.methods).flatMap fun (caller, e) =>
      (e.calls.mergeSort (· ≤ ·)).map fun callee => (caller, callee, none)

end Entries

end MethodLang
