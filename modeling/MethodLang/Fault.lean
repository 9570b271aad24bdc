import MethodLang.Position
import MethodLang.Text.Quoted

/-!
Causes for which a step of the compiler stops, and their wording.
-/
namespace MethodLang

/-- Why an expression cannot be lowered although its form is known. `role` says in whose place
the expression stands. -/
inductive Refusal where
  | nestedAssignment
  | notExpression (role label : String)
  | emptyExpression (role : String)
  | notVariable (role label : String)
  | emptyVariable (role : String)
  | targetNotExpression
  | notAssignable (label : String)
  | noIndices
  deriving DecidableEq, Repr

def Refusal.message : Refusal → String
  | .nestedAssignment =>
    "Присваивание не может использоваться внутри выражения. " ++
      "Присваивания допускаются только как отдельные операторы."
  | .notExpression role label => role ++ ": ожидается expr, а не " ++ Text.quoted label
  | .emptyExpression role => role ++ ": expr без детей"
  | .notVariable role label =>
    role ++ ": ожидается place (простая переменная), а не " ++ Text.quoted label
  | .emptyVariable role => role ++ ": place без идентификатора"
  | .targetNotExpression => "Левая часть присваивания: ожидается expr"
  | .notAssignable label =>
    "Левая часть присваивания: ожидается переменная или индексатор, а не " ++ Text.quoted label
  | .noIndices => "Индексатор в присваивании без индексов"

inductive Fault where
  /-- A node has fewer children than its form requires. -/
  | missingChild
  /-- No child has the label that the form requires. -/
  | missingPart
  /-- An entry with a graph has no tree. -/
  | missingTree
  | refused (reason : Refusal)
  | unknownExpression (label : String)
  | unknownStatement (label : String)
  | misplacedBreak (stop : Position)
  /-- A break outside any loop whose position is not known. -/
  | unplacedBreak
  | unknownBlock
  /-- A file without methods comes before any method was seen. -/
  | nothingSeen
  | notInLanguage (file : String)
  /-- An operation has another number of operands than its label requires. -/
  | wrongArity
  | unknownVariable (name : String)
  | unknownBinary (op : String)
  | unknownUnary (op : String)
  | unknownOperation (label : String)
  | unknownLiteral (kind : String)
  | unreadableNumber
  | shortLiteral
  /-- An element is stored in a variable without a type. -/
  | untypedVariable
  /-- One of several edges out of a block has no label. -/
  | unlabelledEdge
  /-- Of several edges out of a block none is labelled with the outcome. -/
  | missingEdge
  deriving DecidableEq, Repr

/-- The wording, for causes that have one of their own. -/
def Fault.message? : Fault → Option String
  | .refused reason => some reason.message
  | .unknownExpression label => some ("Неизвестный вид expr: " ++ label)
  | .misplacedBreak stop => some ("Error: break without cycle at " ++ stop.text)
  | .unknownVariable name => some ("Не нашел переменную " ++ name)
  | .unknownBinary op => some ("Не обработанная бинарная инструкция " ++ op)
  | .unknownUnary op => some ("Не обработанная унарная инструкция " ++ op)
  | .unknownOperation label => some ("Неизвестный элемент " ++ label)
  | .unknownLiteral kind => some ("Неизвестное обозначение " ++ kind)
  | .notInLanguage file => some file
  | _ => none

/-- What is printed before the run stops. -/
def Fault.printed : Fault → String
  | .unknownStatement label => label ++ "\n"
  | _ => ""

end MethodLang
