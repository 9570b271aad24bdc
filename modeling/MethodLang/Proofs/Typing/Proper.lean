import MethodLang.Proofs.ListLemmas
import MethodLang.Proofs.Typing.Reading
import MethodLang.Typing.Checker

/-!
Types that a source can declare, and the scopes in which all declared types are such. Names of
types are texts with many odd values; of these types the checker's rules read as one would expect.
-/
namespace MethodLang

namespace TypeName

/-- The types that a source can declare: the simple ones and their arrays. -/
def declarable : List TypeName :=
  ["bool", "byte", "int", "uint", "long", "ulong", "array[] of bool", "array[] of byte",
    "array[] of int", "array[] of uint", "array[] of long", "array[] of ulong"]

def Proper (t : TypeName) : Prop := t ∈ declarable

instance (t : TypeName) : Decidable (Proper t) := inferInstanceAs (Decidable (t ∈ declarable))

/-- A type that an expression can have: a proper one, or that of a bare number. -/
def Known (t : TypeName) : Prop := t = untyped ∨ Proper t

theorem Proper.known {t : TypeName} (h : Proper t) : Known t := .inr h

/-- What holds of each of the declarable types, looked up. -/
theorem declarable_looked_up : ∀ t ∈ declarable, normalize t = t ∧ t ≠ untyped ∧
    t.isEmpty = false ∧ (isArray t → ∃ e ∈ declarable, element? t = some e) := by
  decide +kernel

theorem Proper.normalize_eq {t : TypeName} (h : Proper t) : normalize t = t :=
  (declarable_looked_up t h).1

theorem Proper.ne_untyped {t : TypeName} (h : Proper t) : t ≠ untyped :=
  (declarable_looked_up t h).2.1

theorem Proper.isUntyped_eq {t : TypeName} (h : Proper t) : isUntyped t = false := by
  simpa [isUntyped] using h.ne_untyped

theorem Proper.resolve_eq {t : TypeName} (h : Proper t) : resolve t = t := by
  simp [resolve, h.normalize_eq, h.ne_untyped]

theorem Proper.not_isEmpty {t : TypeName} (h : Proper t) : t.isEmpty = false :=
  (declarable_looked_up t h).2.2.1

theorem Proper.element {t : TypeName} (h : Proper t) (array : isArray t) :
    ∃ e, element? t = some e ∧ Proper e := by
  obtain ⟨e, proper, element⟩ := (declarable_looked_up t h).2.2.2 array
  exact ⟨e, element, proper⟩

theorem isUntyped_untyped : isUntyped untyped = true := by decide

theorem normalize_untyped : normalize untyped = untyped := by decide +kernel

theorem resolve_untyped : resolve untyped = "int" := by
  rw [resolve, normalize_untyped, if_pos rfl]

theorem proper_int : Proper "int" := by decide

theorem proper_bool : Proper "bool" := by decide

theorem Known.not_isEmpty {t : TypeName} (h : Known t) : t.isEmpty = false := by
  rcases h with rfl | proper
  · decide
  · exact proper.not_isEmpty

theorem Known.proper_resolve {t : TypeName} (h : Known t) : Proper (resolve t) := by
  rcases h with rfl | proper
  · exact resolve_untyped ▸ proper_int
  · exact proper.resolve_eq.symm ▸ proper

theorem normalizeWithin_ne_char (depth : Nat) (t : TypeName) (deep : t = "char" → depth ≠ 0) :
    normalizeWithin depth t ≠ "char" := by
  cases depth with
  | zero => exact fun same => deep same rfl
  | succ depth =>
    unfold normalizeWithin
    split
    · decide
    split
    · decide
    split
    · split
      · intro same
        have chars := congrArg String.toList same
        simp at chars
      · assumption
    · assumption

/-- A canonical numeric type is proper: `char` is not canonical. -/
theorem proper_of_numeric {t : TypeName} (numeric : isNumeric (normalize t)) :
    Proper (normalize t) := by
  have other : normalize t ≠ "char" := by
    apply normalizeWithin_ne_char
    rintro rfl
    decide
  have cases : normalize t ∈ TypeName.numeric := by simpa [isNumeric] using numeric
  have each : ∀ u ∈ TypeName.numeric, u ≠ "char" → Proper u := by decide
  exact each _ cases other

end TypeName

/-- All names of the table have proper types. -/
def TypeTable.Proper (table : TypeTable) : Prop :=
  ∀ p ∈ table, ∃ type, p.2 = some type ∧ TypeName.Proper type

theorem lookup_proper {tables : List (String × TypeTable)} (proper : ∀ p ∈ tables, p.2.Proper)
    (name : String) : TypeTable.Proper ((tables.lookup name).getD []) := by
  cases found : tables.lookup name with
  | none => exact List.forall_mem_nil _
  | some table => exact proper (name, table) (mem_of_lookup found)

theorem TypeTable.Proper.lookup {table : TypeTable} (proper : table.Proper) {name : String}
    {type : TypeName} (found : (table.lookup name).join = some type) : type.Proper := by
  obtain ⟨u, same, properU⟩ := proper _ (mem_of_lookup (Option.join_eq_some_iff.mp found))
  exact Option.some.inj same ▸ properU

/-- Every type that can be named in the scope is proper. -/
structure Scope.Proper (s : Scope) : Prop where
  named : ∀ {name type}, s.variableType name = some type → TypeName.Proper type
  results : ∀ {function type}, s.resultType function = some type → TypeName.Proper type
  parameters : ∀ {function p}, p ∈ s.parameters function →
    ∃ type, p.2 = some type ∧ TypeName.Proper type

theorem Scope.proper_of_tables {s : Scope} (vars : s.vars.Proper) (args : s.args.Proper)
    (functions : ∀ p ∈ s.functions, p.2.Proper)
    (results : ∀ p ∈ s.results, ∀ u ∈ p.2, TypeName.Proper u) : s.Proper := by
  refine ⟨?_, ?_, fun {function} p => lookup_proper functions function p⟩
  · intro name type typed
    obtain ⟨raw, declared, rfl⟩ := Option.map_eq_some_iff.mp typed
    have first (base : String)
        (declared : ((s.vars.lookup base).orElse fun _ => s.args.lookup base).join = some raw) :
        raw.Proper := by
      cases found : s.vars.lookup base with
      | none =>
        rw [found] at declared
        exact args.lookup declared
      | some own =>
        rw [found] at declared
        exact vars.lookup ((congrArg Option.join found).trans declared)
    have properRaw := first _ declared
    exact properRaw.normalize_eq.symm ▸ properRaw
  · intro function type typed
    obtain ⟨raw, declared, rfl⟩ := Option.map_eq_some_iff.mp typed
    have properRaw := results _ (mem_of_lookup (Option.join_eq_some_iff.mp declared)) raw rfl
    exact properRaw.normalize_eq.symm ▸ properRaw

/-- Besides, exactly the functions with a result, even if it is none, have parameters. -/
structure Scope.Complete (s : Scope) : Prop extends Scope.Proper s where
  known : ∀ function, s.results.has function = (s.functions.lookup function).isSome

theorem LiteralKind.known_type (kind : LiteralKind) : TypeName.Known (TypeName.ofLiteral kind.name) := by
  cases kind
  case bool => exact .inr (by decide)
  case str => exact .inr (by decide)
  case char => exact .inr (by decide)
  all_goals exact .inl (by decide)

end MethodLang
