import MethodLang.Program.Entry

/-!
The method that a program starts with: `main`, without arguments and without a result.
-/
namespace MethodLang

inductive MainFlaw where
  | missing
  | badResult (flaw : DeclarationFlaw)
  | hasResult (type : TypeName)
  | hasArguments (names : List String)
  deriving DecidableEq, Repr

namespace MainFlaw

/-- The lines added to the report. -/
def text (flaw : MainFlaw) : String :=
  "\n=== MAIN FUNCTION ERROR ===\n" ++
    (match flaw with
    | .missing => "Функция main без аргументов и без возвращаемого значения не найдена"
    | .badResult flaw =>
      "Ошибка при проверке возвращаемого типа функции main: " ++ flaw.message
    | .hasResult type =>
      "Функция main имеет возвращаемый тип: " ++ type ++
        ", ожидается void (без возвращаемого значения)"
    | .hasArguments names =>
      "Функция main имеет аргументы: " ++ ", ".intercalate names ++
        ", ожидается функция без аргументов") ++ "\n"

/-- What is printed beside. -/
def notice (flaw : MainFlaw) (path : String) : String :=
  "Ошибка: функция main " ++
    (match flaw with
    | .missing => "не найдена"
    | .badResult _ | .hasResult _ => "имеет возвращаемое значение"
    | .hasArguments _ => "имеет аргументы") ++
    ". Детали в " ++ path ++ "\n"

end MainFlaw

/-- What is wrong with a program's main method, if anything is. -/
def mainFlaw? (entries : Entries) : Except Fault (Option MainFlaw) :=
  match entries.defined.lookup "main" with
  | none => .ok (some .missing)
  | some (entry, _) =>
    match entry.tree with
    | none => .error .missingTree
    | some t => do
      match ← Declaration.result t with
      | (_, _, some flaw) => .ok (some (.badResult flaw))
      | (some type, _, none) => .ok (some (.hasResult type))
      | (none, _, none) =>
        match Declaration.signature? t >>= Declaration.labelled "list<argDef>" with
        | none => .ok none
        | some list => do
          let (args, _) ← Declaration.arguments list.children
          .ok (if args.isEmpty then none else some (.hasArguments (args.map (·.1))))

end MethodLang
