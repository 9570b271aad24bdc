import MethodLang.Tree.Drawing
import MethodLang.Typing.TypeName

/-!
Errors of type checking: a cause, and the path from the checked node to the node at fault.
-/
namespace MethodLang

/-- The place of a call that gives no value. -/
inductive ValueUse where
  | assigned (name : String)
  | storedIndex (array : String)
  | storedValue (array : String)
  | index
  | argument (name function : String)
  | leftOperand (op : String)
  | rightOperand (op : String)
  | operand (op : String)
  | other (text : String)
  deriving DecidableEq, Repr

def ValueUse.text : ValueUse → String
  | .assigned v => "в правой части присваивания переменной '" ++ v ++ "'"
  | .storedIndex a => "как индекс массива '" ++ a ++ "'"
  | .storedValue a => "как значение для записи в массив '" ++ a ++ "'"
  | .index => "как индекс массива"
  | .argument name function => "как аргумент '" ++ name ++ "' функции '" ++ function ++ "'"
  | .leftOperand op => "как левый операнд оператора '" ++ op ++ "'"
  | .rightOperand op => "как правый операнд оператора '" ++ op ++ "'"
  | .operand op => "как операнд унарного оператора '" ++ op ++ "'"
  | .other text => text

/-- The types that an operator takes. -/
inductive Operands where
  | numbers | integers | truthValues | comparable
  deriving DecidableEq, Repr

namespace Operands

def text : Operands → String
  | .numbers => "числовой тип"
  | .integers => "целочисленный тип"
  | .truthValues => "bool"
  | .comparable => "сравнимый тип"

def takes (o : Operands) (t : TypeName) : Bool :=
  match o with
  | .numbers | .integers => TypeName.isNumeric t || TypeName.isUntyped t
  | .truthValues => t == "bool"
  | .comparable => TypeName.isNumeric t || t == "bool" || TypeName.isUntyped t

end Operands

inductive TypeCause where
  | unreadableConst (label : String)
  | unreadableLoad (label : String)
  | unreadableCall (label : String)
  | unknownVariable (name : String)
  | unknownTarget (name : String)
  | unknownArray (name : String)
  | noValue (use : ValueUse)
  | assignment (name : String) (expected given : TypeName)
  | notArray (name : String) (type : TypeName)
  | storeOperands
  | badIndex (given : TypeName)
  | element (array : String) (expected given : TypeName)
  | indexOperands
  | notIndexable (type : TypeName)
  | unknownFunction (name : String)
  | argumentCount (function : String) (expected given : Nat)
  | argumentType (name function : String) (expected given : TypeName)
  | operandCount (op : String)
  | operandType (op : String) (given : Option TypeName) (expected : Operands)
  | operandMismatch (op : String) (left right : TypeName)
  | unaryCount (op : String)
  | notTruthValue (op : String) (given : TypeName)
  | notInteger (op : String) (given : TypeName)
  | unknownNode (label : String)
  deriving DecidableEq, Repr

def quoteName (name : String) : String := "'" ++ name ++ "'"

def TypeCause.message : TypeCause → String
  | .unreadableConst label => "Не удалось распознать константу: " ++ label
  | .unreadableLoad label => "Не удалось распознать load: " ++ label
  | .unreadableCall label => "Не удалось распознать вызов функции: " ++ label
  | .unknownVariable name => "Неизвестная переменная: " ++ name
  | .unknownTarget name => "Неизвестная переменная для записи: " ++ name
  | .unknownArray name => "Неизвестный массив для записи: " ++ name
  | .noValue use => "Функция не возвращает значение и не может использоваться " ++ use.text
  | .assignment name expected given =>
    "Несоответствие типов при присваивании: переменная " ++ quoteName name ++
      " имеет тип " ++ quoteName expected ++ ", а выражение имеет тип " ++ quoteName given
  | .notArray name type =>
    "Переменная " ++ quoteName name ++ " не является массивом: " ++ quoteName type
  | .storeOperands => "store_at требует минимум индекс и значение"
  | .badIndex given => "Индекс массива должен иметь тип 'int', а не " ++ quoteName given
  | .element array expected given =>
    "Несоответствие типов при присваивании в массив: элемент массива " ++ quoteName array ++
      " имеет тип " ++ quoteName expected ++ ", а выражение имеет тип " ++ quoteName given
  | .indexOperands => "Некорректная индексация: ожидается 2 потомка"
  | .notIndexable type => "Индексация применима только к массивам, а не к " ++ quoteName type
  | .unknownFunction name => "Вызов неизвестной функции: " ++ quoteName name
  | .argumentCount function expected given =>
    "Функция " ++ quoteName function ++ " ожидает " ++ toString expected ++
      " аргумент(ов), но передано " ++ toString given
  | .argumentType name function expected given =>
    "Несоответствие типа аргумента " ++ quoteName name ++ " в вызове " ++ quoteName function ++
      ": ожидается " ++ quoteName expected ++ ", но передан " ++ quoteName given
  | .operandCount op => "Оператор " ++ quoteName op ++ " требует 2 операнда"
  | .operandType op given expected =>
    "Оператор " ++ quoteName op ++ " не применим к типу " ++ quoteName (TypeName.shown given) ++
      " (ожидается " ++ expected.text ++ ")"
  | .operandMismatch op left right =>
    "Несоответствие типов операндов для " ++ quoteName op ++ ": " ++ quoteName left ++ " и " ++
      quoteName right ++ " (строгая типизация: типы должны совпадать)"
  | .unaryCount op => "Унарный оператор " ++ quoteName op ++ " требует 1 операнд"
  | .notTruthValue op given =>
    "Оператор " ++ quoteName op ++ " применим только к типу 'bool', а не к " ++ quoteName given
  | .notInteger op given =>
    "Оператор " ++ quoteName op ++ " применим только к целочисленным типам, а не к " ++
      quoteName given
  | .unknownNode label => "Неизвестный тип узла: " ++ label

structure TypeError where
  cause : TypeCause
  path : List Nat
  deriving DecidableEq, Repr

namespace TypeError

/-- The error as seen from the parent of the checked node. -/
def under (i : Nat) (e : TypeError) : TypeError := { e with path := i :: e.path }

/-- The drawn tree of the node at fault. -/
def drawn {α : Type} (root : Tree α) (e : TypeError) : String :=
  match root.at? e.path with
  | some t => t.draw .box
  | none => ""

def text {α : Type} (root : Tree α) (e : TypeError) : String :=
  e.cause.message ++ "\n  Дерево:\n" ++ e.drawn root

end TypeError

end MethodLang
