import MethodLang.Fault
import MethodLang.Text.Lower
import MethodLang.Tree.Basic
import MethodLang.Typing.TypeName

/-!
Declared types: what the viewed tree of a method says about its variables, arguments and result.
Each reading comes in two forms. The table (`variables`, `arguments`) keeps the first declaration
of a name and reports the flaws; the ordered list (`orderedVariables`, `orderedArguments`) keeps
every name, for the frame.
-/
namespace MethodLang

/-- Why a written type cannot be used. -/
inductive TypeFlaw where
  | custom
  | multidimensional
  | strings
  | unknownForm (label : String)
  deriving DecidableEq, Repr

def TypeFlaw.message : TypeFlaw → String
  | .custom => "классы не поддерживаются"
  | .multidimensional => "многомерные массивы не поддерживаются"
  | .strings => "массивы строк не поддерживаются"
  | .unknownForm label => "неподдерживаемый вид typeRef: " ++ label

/-- Why a declared name has no usable type. -/
inductive ClauseFlaw where
  | noColon
  | noType
  | type (flaw : TypeFlaw)
  deriving DecidableEq, Repr

def ClauseFlaw.message : ClauseFlaw → String
  | .noColon => "тип не задан"
  | .noType => "ожидался typeRef после ':'"
  | .type flaw => flaw.message

/-- What is wrong with the declarations of a method. -/
inductive DeclarationFlaw where
  | repeatedVariable (name : String)
  | repeatedArgument (name : String)
  | variables (flaw : ClauseFlaw) (names : List String)
  | argument (flaw : ClauseFlaw) (name : String)
  | noMethod
  | noSignature
  | emptySignature
  | result (flaw : TypeFlaw)
  | unknownStructure
  | reserved (name : String)
  | clash (names : List String)
  deriving DecidableEq, Repr

def DeclarationFlaw.message : DeclarationFlaw → String
  | .repeatedVariable name => "повторное объявление переменной '" ++ name ++ "'"
  | .repeatedArgument name => "повторное объявление аргумента '" ++ name ++ "'"
  | .variables flaw names => flaw.message ++ " (переменные: " ++ ", ".intercalate names ++ ")"
  | .argument flaw name => flaw.message ++ " (аргумент: " ++ name ++ ")"
  | .noMethod => "Неожиданная структура дерева функции: отсутствуют дочерние узлы"
  | .noSignature => "Неожиданная структура дерева функции: отсутствует funcSignature"
  | .emptySignature => "Неожиданная структура дерева функции: funcSignature пуст"
  | .result flaw => flaw.message
  | .unknownStructure => "Неожиданная структура дерева функции"
  | .reserved name =>
    "имя функции '" ++ name ++ "' зарезервировано для встроенной функции " ++
      "и не может быть переопределено"
  | .clash names =>
    "имена параметров и локальных переменных совпадают: " ++ ", ".intercalate names

/-- Names with their types in order of declaration; a type may be missing. -/
abbrev TypeTable := List (String × Option TypeName)

namespace TypeTable

def has (table : TypeTable) (name : String) : Bool := table.any fun (n, _) => n == name

/-- Gives a name a type, in its old place if it has one. -/
def set (name : String) (type : Option TypeName) : TypeTable → TypeTable
  | [] => [(name, type)]
  | (n, t) :: rest => if n = name then (n, type) :: rest else (n, t) :: set name type rest

end TypeTable

namespace Declaration

variable {α : Type}

def first (t : Tree α) : Except Fault (Tree α) :=
  match t.children with
  | [] => .error .missingChild
  | c :: _ => .ok c

/-- The text of a node's first child, without the quotes around it. -/
def firstName (t : Tree α) : Except Fault String := do
  let c ← first t
  .ok (Text.trimQuotes c.label)

def labelled (label : String) (t : Tree α) : Option (Tree α) :=
  t.children.find? fun c => c.label == label

def lastLabelled (label : String) (t : Tree α) : Option (Tree α) :=
  t.children.reverse.find? fun c => c.label == label

/-- A type that is not an array, and its flaw. -/
def simpleType (kind : Tree α) : Except Fault (Option TypeName × Option TypeFlaw) :=
  if kind.label = "builtin" then do
    let name ← firstName kind
    .ok (some (TypeName.normalize name), none)
  else if kind.label = "custom" ∨ kind.label = "identifier" then do
    let name ← firstName kind
    .ok (some name, some .custom)
  else .ok (none, some (.unknownForm kind.label))

def arrayType (kind : Tree α) : Except Fault (Option TypeName × Option TypeFlaw) :=
  if kind.children.any fun c => c.label == "\",\"" then .ok (none, some .multidimensional)
  else match labelled "typeRef" kind with
    | none => .error .missingPart
    | some inner => do
      let element ← first inner
      if element.label = "array" then .ok (none, some .multidimensional)
      else do
        let isString ←
          if element.label = "builtin" then do
            let name ← firstName element
            pure (Text.lower name == "string")
          else pure false
        if isString then .ok (none, some .strings)
        else match ← simpleType element with
          | (_, some flaw) => .ok (none, some flaw)
          | (type, none) =>
            .ok (type.map fun t => TypeName.normalize ("array[] of " ++ TypeName.normalize t), none)

/-- The type that a `typeRef` writes, and its flaw. -/
def typeOf (t : Tree α) : Except Fault (Option TypeName × Option TypeFlaw) := do
  let kind ← first t
  if kind.label = "array" then arrayType kind else simpleType kind

/-- The names of one group of variables and what follows them. -/
structure Group where
  names : List String
  type : Option TypeName
  flaw : Option ClauseFlaw
  deriving DecidableEq, Repr

/-- The type clause at the front of the nodes behind a list of names. -/
def groupClause (rest : List (Tree α)) : Except Fault (Option TypeName × Option ClauseFlaw) :=
  match rest with
  | colon :: rest =>
    if colon.label = "\":\"" then
      match rest with
      | type :: _ =>
        if type.label = "typeRef" then do
          let (name, flaw) ← typeOf type
          .ok (name, flaw.map .type)
        else .ok (none, some .noType)
      | [] => .ok (none, some .noType)
    else .ok (none, some .noColon)
  | [] => .ok (none, some .noColon)

/-- The groups of a `var` section. Behind the names of a group all is passed over up to the next
semicolon. -/
def groupsFrom : (inGroup : Bool) → List (Tree α) → Except Fault (List Group)
  | _, [] => .ok []
  | true, n :: rest => groupsFrom (n.label != "\";\"") rest
  | false, n :: rest =>
    if n.label ≠ "list<identifier>" then groupsFrom false rest
    else do
      let names ← (n.children.filter fun c => c.label == "identifier").mapM firstName
      let (type, flaw) ← groupClause rest
      let groups ← groupsFrom true rest
      .ok (⟨names, type, flaw⟩ :: groups)

def groups (nodes : List (Tree α)) : Except Fault (List Group) := groupsFrom false nodes

/-- Adds the names of a group that are new, and reports the others. -/
def addGroup (table : TypeTable) (group : Group) : TypeTable × List DeclarationFlaw :=
  let add (acc : TypeTable × List DeclarationFlaw) (name : String) :=
    if acc.1.has name then (acc.1, acc.2 ++ [.repeatedVariable name])
    else (acc.1 ++ [(name, group.type)], acc.2)
  let (table, flaws) := group.names.foldl add (table, [])
  (table, flaws ++ (group.flaw.map fun f => .variables f group.names).toList)

/-- The variables declared by the nodes of a `var` section. -/
def locals (nodes : List (Tree α)) : Except Fault (TypeTable × List DeclarationFlaw) := do
  let groups ← groups nodes
  let add (acc : TypeTable × List DeclarationFlaw) (group : Group) :=
    let (table, flaws) := addGroup acc.1 group
    (table, acc.2 ++ flaws)
  .ok (groups.foldl add ([], []))

/-- One argument: its name, its type and what is wrong with it. -/
def argument (t : Tree α) : Except Fault (String × Option TypeName × Option ClauseFlaw) := do
  let identifier ←
    match labelled "identifier" t with
    | some c => .ok c
    | none => .error .missingPart
  let name ← firstName identifier
  if t.children.any fun c => c.label == "\":\"" then
    match labelled "typeRef" t with
    | some type => do
      let (type, flaw) ← typeOf type
      .ok (name, type, flaw.map .type)
    | none => .ok (name, none, some .noType)
  else .ok (name, none, some .noColon)

def addArgument (acc : TypeTable × List DeclarationFlaw)
    (arg : String × Option TypeName × Option ClauseFlaw) : TypeTable × List DeclarationFlaw :=
  let (name, type, flaw) := arg
  let (table, flaws) :=
    if acc.1.has name then (acc.1, acc.2 ++ [.repeatedArgument name])
    else (acc.1 ++ [(name, type)], acc.2)
  (table, flaws ++ (flaw.map fun f => .argument f name).toList)

/-- The arguments among the nodes of an argument list. -/
def arguments (nodes : List (Tree α)) : Except Fault (TypeTable × List DeclarationFlaw) := do
  let args ← (nodes.filter fun n => n.label == "argDef").mapM argument
  .ok (args.foldl addArgument ([], []))

/-- The declared result: its type, whether a type is written, and the flaw. -/
def result (t : Tree α) : Except Fault (Option TypeName × Bool × Option DeclarationFlaw) :=
  match t.children with
  | [] => .ok (none, false, some .noMethod)
  | method :: _ =>
    match method.children with
    | _ :: signature :: _ =>
      match signature.children.getLast? with
      | none => .ok (none, false, some .emptySignature)
      | some last =>
        if last.label ≠ "typeRef" then .ok (none, false, none)
        else do
          match ← typeOf last with
          | (_, some flaw) => .ok (none, true, some (.result flaw))
          | (type, none) => .ok (type, true, none)
    | _ => .ok (none, false, some .noSignature)

def signature? (t : Tree α) : Option (Tree α) := do
  let method ← t.children[0]?
  method.children[1]?

/-- The body of a method's tree, if that is what its third child is. -/
def body? (t : Tree α) : Option (Tree α) := do
  let method ← t.children[0]?
  let body ← method.children[2]?
  if body.label = "body" then some body else none

/-- The nodes between the first and the last child of a body. -/
def variableNodes (body : Tree α) : List (Tree α) := body.children.dropLast.drop 1

/-- One argument for the frame; a node without a name is passed over. -/
def orderedArgument (t : Tree α) : Except Fault (Option (String × Option TypeName)) :=
  match lastLabelled "identifier" t with
  | none => .ok none
  | some identifier => do
    let name ← firstName identifier
    match lastLabelled "typeRef" t with
    | none => .ok (some (name, none))
    | some type => do
      let (type, _) ← typeOf type
      .ok (some (name, type.map TypeName.normalize))

/-- The arguments of a method's tree, every name in order. -/
def orderedArguments (t : Tree α) : Except Fault TypeTable :=
  match signature? t >>= labelled "list<argDef>" with
  | none => .ok []
  | some list => do
    let args ← (list.children.filter fun n => n.label == "argDef").mapM orderedArgument
    .ok (args.filterMap id)

/-- The variables of a method's tree, every name in order. -/
def orderedVariables (t : Tree α) : Except Fault TypeTable :=
  match body? t with
  | none => .ok []
  | some body => do
    let groups ← groups (variableNodes body)
    .ok (groups.flatMap fun g => g.names.map fun n => (n, g.type.map TypeName.normalize))

/-- Names that stand in both tables, sorted. -/
def clashes (vars args : TypeTable) : List String :=
  ((vars.map (·.1)).filter fun n => args.has n).mergeSort (· ≤ ·)

end Declaration

end MethodLang
