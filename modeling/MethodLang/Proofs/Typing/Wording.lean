import Mathlib.Data.List.Pairwise
import MethodLang.Typing.Inference

/-!
What the messages of type errors tell. A message says of which kind its cause is, so two errors at
one node with one message are of one kind (`TypeError.spot_of_report`).
-/
namespace MethodLang

namespace TypeCause

/-- The kinds of causes: what is wrong, whatever the names and the types are. -/
inductive Kind where
  | unreadableConst | unreadableLoad | unreadableCall
  | unknownVariable | unknownTarget | unknownArray
  | noValue | assignment | notArray | storeOperands | badIndex | element
  | indexOperands | notIndexable
  | unknownFunction | argumentCount | argumentType
  | operandCount | operandType | operandMismatch
  | unaryCount | notTruthValue | notInteger
  | unknownNode
  deriving DecidableEq

def kind : TypeCause → Kind
  | .unreadableConst _ => .unreadableConst
  | .unreadableLoad _ => .unreadableLoad
  | .unreadableCall _ => .unreadableCall
  | .unknownVariable _ => .unknownVariable
  | .unknownTarget _ => .unknownTarget
  | .unknownArray _ => .unknownArray
  | .noValue _ => .noValue
  | .assignment _ _ _ => .assignment
  | .notArray _ _ => .notArray
  | .storeOperands => .storeOperands
  | .badIndex _ => .badIndex
  | .element _ _ _ => .element
  | .indexOperands => .indexOperands
  | .notIndexable _ => .notIndexable
  | .unknownFunction _ => .unknownFunction
  | .argumentCount _ _ _ => .argumentCount
  | .argumentType _ _ _ _ => .argumentType
  | .operandCount _ => .operandCount
  | .operandType _ _ _ => .operandType
  | .operandMismatch _ _ _ => .operandMismatch
  | .unaryCount _ => .unaryCount
  | .notTruthValue _ _ => .notTruthValue
  | .notInteger _ _ => .notInteger
  | .unknownNode _ => .unknownNode

/-- Whether the fault of a node is found by the check of the node above it. -/
def Kind.ofOperand : Kind → Bool
  | .noValue | .badIndex | .notIndexable | .argumentType | .operandType | .notTruthValue
  | .notInteger => true
  | _ => false

def ofOperand (c : TypeCause) : Bool := c.kind.ofOperand

/-- No operator has a quote in its name. -/
def Worded : TypeCause → Prop
  | .operandCount op | .operandType op _ _ | .notTruthValue op _ | .notInteger op _ =>
    '\'' ∉ op.toList
  | _ => True

/-! ### Wordings -/

/-- The words that the message begins with, and those behind the name of the operator if it begins
with one. -/
def Kind.wording : Kind → String × Option String
  | .unreadableConst => ("Не удалось распознать константу: ", none)
  | .unreadableLoad => ("Не удалось распознать load: ", none)
  | .unreadableCall => ("Не удалось распознать вызов функции: ", none)
  | .unknownVariable => ("Неизвестная переменная: ", none)
  | .unknownTarget => ("Неизвестная переменная для записи: ", none)
  | .unknownArray => ("Неизвестный массив для записи: ", none)
  | .noValue => ("Функция не возвращает значение и не может использоваться ", none)
  | .assignment => ("Несоответствие типов при присваивании: переменная ", none)
  | .notArray => ("Переменная ", none)
  | .storeOperands => ("store_at требует минимум индекс и значение", none)
  | .badIndex => ("Индекс массива должен иметь тип 'int', а не ", none)
  | .element => ("Несоответствие типов при присваивании в массив: элемент массива ", none)
  | .indexOperands => ("Некорректная индексация: ожидается 2 потомка", none)
  | .notIndexable => ("Индексация применима только к массивам, а не к ", none)
  | .unknownFunction => ("Вызов неизвестной функции: ", none)
  | .argumentCount => ("Функция " ++ "'", none)
  | .argumentType => ("Несоответствие типа аргумента ", none)
  | .operandCount => ("Оператор ", some " требует 2 операнда")
  | .operandType => ("Оператор ", some " не применим к типу ")
  | .operandMismatch => ("Несоответствие типов операндов для ", none)
  | .unaryCount => ("Унарный оператор ", none)
  | .notTruthValue => ("Оператор ", some " применим только к типу 'bool', а не к ")
  | .notInteger => ("Оператор ", some " применим только к целочисленным типам, а не к ")
  | .unknownNode => ("Неизвестный тип узла: ", none)

/-- The wording, letter by letter. -/
def letters (words : String × Option String) : List Char × Option (List Char) :=
  (words.1.toList, words.2.map String.toList)

def wording (c : TypeCause) : String × Option String := c.kind.wording

/-- Whether one of two texts begins with the other. -/
def Meet (a b : List Char) : Prop := a <+: b ∨ b <+: a

instance (a b : List Char) : Decidable (Meet a b) := inferInstanceAs (Decidable (_ ∨ _))

theorem meet_of_common {a b text : List Char} (first : a <+: text) (second : b <+: text) :
    Meet a b :=
  List.prefix_or_prefix_of_prefix first second

/-- Two wordings that no message can both have. -/
def Apart : List Char × Option (List Char) → List Char × Option (List Char) → Prop
  | (_, some x), (_, some y) => ¬ Meet x y
  | (a, _), (b, _) => ¬ Meet a b

instance : DecidableRel Apart
  | (_, some _), (_, some _) => inferInstanceAs (Decidable (¬ _))
  | (_, none), (_, some _) => inferInstanceAs (Decidable (¬ _))
  | (_, some _), (_, none) => inferInstanceAs (Decidable (¬ _))
  | (_, none), (_, none) => inferInstanceAs (Decidable (¬ _))

theorem Apart.symm {a b : List Char × Option (List Char)} (apart : Apart a b) : Apart b a := by
  obtain ⟨x, _ | v⟩ := a <;> obtain ⟨y, _ | w⟩ := b <;> exact fun meet => apart meet.symm

def Kind.all : List Kind :=
  [.unreadableConst, .unreadableLoad, .unreadableCall, .unknownVariable, .unknownTarget,
    .unknownArray, .noValue, .assignment, .notArray, .storeOperands, .badIndex, .element,
    .indexOperands, .notIndexable, .unknownFunction, .argumentCount, .argumentType, .operandCount,
    .operandType, .operandMismatch, .unaryCount, .notTruthValue, .notInteger, .unknownNode]

theorem Kind.mem_all (k : Kind) : k ∈ all := by
  cases k <;> decide

theorem wordings_apart : (Kind.all.map fun k => letters k.wording).Pairwise Apart := by
  simp only [Kind.all, Kind.wording, letters, List.map_cons, List.map_nil, Option.map_some,
    Option.map_none, String.toList_append]
  repeat rw [String.toList_ofList]
  decide +kernel

theorem wording_apart {k k' : Kind} (other : k ≠ k') :
    Apart (letters k.wording) (letters k'.wording) := by
  have symmetric : Std.Symm fun k k' : Kind => Apart (letters k.wording) (letters k'.wording) :=
    ⟨fun _ _ => Apart.symm⟩
  exact (List.pairwise_map.mp wordings_apart).forall k.mem_all k'.mem_all other

theorem begins (a b : String) : a.toList <+: (a ++ b).toList := by
  rw [String.toList_append]
  exact List.prefix_append _ _

theorem begins_append {a b : String} (first : a.toList <+: b.toList) (c : String) :
    a.toList <+: (b ++ c).toList :=
  first.trans (begins b c)

theorem message_begins (c : TypeCause) : c.wording.1.toList <+: c.message.toList := by
  cases c with
  | storeOperands | indexOperands => exact List.prefix_rfl
  | argumentCount function expected given =>
    have quoted : "Функция " ++ "'" ++ (function ++ "'") = "Функция " ++ quoteName function := by
      rw [quoteName, String.append_assoc, String.append_assoc]
    have opens := begins ("Функция " ++ "'") (function ++ "'")
    rw [quoted] at opens
    exact begins_append (begins_append (begins_append (begins_append opens _) _) _) _
  | operandCount | unaryCount => exact begins_append (begins _ _) _
  | notArray | notTruthValue | notInteger =>
    exact begins_append (begins_append (begins _ _) _) _
  | assignment | element =>
    exact begins_append (begins_append (begins_append (begins_append (begins _ _) _) _) _) _
  | operandType | operandMismatch =>
    exact begins_append (begins_append (begins_append (begins_append (begins_append
      (begins _ _) _) _) _) _) _
  | argumentType =>
    exact begins_append (begins_append (begins_append (begins_append (begins_append
      (begins_append (begins _ _) _) _) _) _) _) _
  | _ => exact begins _ _

/-- A message that begins with the name of an operator. -/
theorem message_behind {c : TypeCause} (worded : c.Worded) {words : String}
    (behind : c.wording.2 = some words) : ∃ op rest : String, '\'' ∉ op.toList ∧
      c.message = "Оператор " ++ quoteName op ++ rest ∧ words.toList <+: rest.toList := by
  cases c with
  | operandCount op =>
    cases behind
    exact ⟨op, _, worded, rfl, List.prefix_rfl⟩
  | operandType op given expected =>
    cases behind
    refine ⟨op, " не применим к типу " ++ (quoteName (TypeName.shown given) ++
      (" (ожидается " ++ (expected.text ++ ")"))), worded, ?_, begins _ _⟩
    simp only [← String.append_assoc]
    rfl
  | notTruthValue op given | notInteger op given =>
    cases behind
    exact ⟨op, _, worded, String.append_assoc .., begins _ _⟩
  | _ => cases behind

theorem behind_name {op : List Char} (plain : '\'' ∉ op) (rest : List Char) :
    (op ++ '\'' :: rest).dropWhile (· != '\'') = '\'' :: rest := by
  have each : ∀ c ∈ op, (c != '\'') = true := fun c inside =>
    bne_iff_ne.mpr fun quote => plain (quote ▸ inside)
  rw [List.dropWhile_append_of_pos each, List.dropWhile_cons_of_neg (by simp)]

/-- A message tells the kind of its cause. -/
theorem kind_of_message {c c' : TypeCause} (worded : c.Worded) (worded' : c'.Worded)
    (same : c.message = c'.message) : c.kind = c'.kind := by
  by_contra other
  have apart : Apart (letters c.wording) (letters c'.wording) := wording_apart other
  have opens : Meet c.wording.1.toList c'.wording.1.toList := by
    have opens' := message_begins c'
    rw [← same] at opens'
    exact meet_of_common (message_begins c) opens'
  unfold letters at apart
  cases behind : c.wording.2 with
  | none =>
    rw [behind] at apart
    exact apart opens
  | some words =>
    cases behind' : c'.wording.2 with
    | none =>
      rw [behind, behind'] at apart
      exact apart opens
    | some words' =>
      -- both begin with the name of an operator, which ends at the first quote behind it
      rw [behind, behind'] at apart
      obtain ⟨op, rest, plain, reads, first⟩ := message_behind worded behind
      obtain ⟨op', rest', plain', reads', second⟩ := message_behind worded' behind'
      have named : op.toList ++ '\'' :: rest.toList = op'.toList ++ '\'' :: rest'.toList := by
        have letters := congrArg String.toList (reads.symm.trans (same.trans reads'))
        simpa [quoteName] using letters
      have behindName := congrArg (List.dropWhile (· != '\'')) named
      rw [behind_name plain, behind_name plain'] at behindName
      rw [← (List.cons.inj behindName).2] at second
      exact apart (meet_of_common first second)

end TypeCause

namespace TypeError

/-- The node whose check finds the error. -/
def finder (e : TypeError) : List Nat := if e.cause.ofOperand then e.path.dropLast else e.path

/-- What is reported: a message at a node. -/
def report (e : TypeError) : String × List Nat := (e.cause.message, e.path)

/-- A node, and the kind of what is found there. -/
abbrev Spot := List Nat × TypeCause.Kind

def spot (e : TypeError) : Spot := (e.path, e.cause.kind)

/-- The node at fault is below the one that finds it, and the message can be told from others. -/
structure Worded (e : TypeError) : Prop where
  cause : e.cause.Worded
  below : e.cause.ofOperand → e.path ≠ []

theorem spot_of_report {e e' : TypeError} (worded : e.Worded) (worded' : e'.Worded)
    (same : e.report = e'.report) : e.spot = e'.spot :=
  Prod.ext (congrArg Prod.snd same)
    (TypeCause.kind_of_message worded.cause worded'.cause (congrArg Prod.fst same))

theorem finder_of_spot {e e' : TypeError} (same : e.spot = e'.spot) : e.finder = e'.finder := by
  obtain ⟨path, kind⟩ := Prod.mk.inj same
  rw [finder, finder, TypeCause.ofOperand, TypeCause.ofOperand, path, kind]

theorem Worded.finder_under {e : TypeError} (worded : e.Worded) (i : Nat) :
    (e.under i).finder = i :: e.finder := by
  unfold finder under
  simp only
  split
  · exact List.dropLast_cons_of_ne_nil (worded.below ‹_›)
  · rfl

end TypeError

end MethodLang
