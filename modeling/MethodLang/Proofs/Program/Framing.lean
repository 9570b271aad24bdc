import MethodLang.Machine.Method
import MethodLang.Proofs.Machine.Generation
import MethodLang.Proofs.Program.Checked
import MethodLang.Proofs.Typing.Listing

/-!
Frames of typed methods. A method's frame is laid out from lists that are read from its tree a
second time, every name in order. If the method has no flaw these lists hold what the checker has
seen: just the variables with a type have a slot, and the slot has a type (`TypedFrom.framed`).
-/
namespace MethodLang

open TypeCheck

/-! ### Slots -/

namespace Frame

variable {offset : Nat → Int} {names : TypeTable} {name : String}

theorem place_names (offset : Nat → Int) (names : TypeTable) :
    (place offset names).map (·.1) = names.map (·.1) := by
  rw [place, List.map_map]
  conv_rhs => rw [← List.zipIdx_map_fst 0 names, List.map_map]
  rfl

theorem find?_isSome (offset : Nat → Int) :
    (find? (place offset names) name).isSome ↔ name ∈ names.map (·.1) := by
  rw [find?, lookup_isSome, List.any_reverse, ← place_names offset]
  simp

theorem find?_typed (typed : ∀ p ∈ names, p.2.isSome) {slot : Slot}
    (found : find? (place offset names) name = some slot) : slot.type.isSome := by
  obtain ⟨before, after, split, -⟩ := List.lookup_eq_some_iff.mp found
  have inside : (name, slot) ∈ place offset names := by
    rw [← List.mem_reverse, split]
    simp
  obtain ⟨⟨p, i⟩, isName, same⟩ := List.mem_map.mp inside
  cases same
  exact typed p (List.fst_mem_of_mem_zipIdx isName)

variable {params vars : TypeTable}

theorem slot?_isSome : ((ofMethod params vars).slot? name).isSome ↔
    name ∈ vars.map (·.1) ∨ name ∈ params.map (·.1) := by
  rw [slot?, Option.isSome_or, Bool.or_eq_true]
  exact or_congr (find?_isSome _) (find?_isSome _)

/-- Slots of names with types have types. -/
theorem slot?_typed (typedP : ∀ p ∈ params, p.2.isSome) (typedV : ∀ p ∈ vars, p.2.isSome)
    {slot : Slot} (found : (ofMethod params vars).slot? name = some slot) : slot.type.isSome := by
  rcases Option.or_eq_some_iff.mp found with isVar | ⟨-, isParam⟩
  · exact find?_typed typedV isVar
  · exact find?_typed typedP isParam

end Frame

/-! ### Frames -/

theorem Scope.variableType_isSome {s : Scope} (vars : s.vars.Proper) (args : s.args.Proper)
    (x : String) : (s.variableType x).isSome ↔
      loadedName x ∈ s.vars.map (·.1) ∨ loadedName x ∈ s.args.map (·.1) := by
  have isName (table : TypeTable) (y : String) :
      (table.lookup y).isSome ↔ y ∈ table.map (·.1) := by
    rw [lookup_isSome]
    simp
  have typed {table : TypeTable} (proper : table.Proper) {y : String} {type : Option TypeName}
      (found : table.lookup y = some type) : type.isSome := by
    obtain ⟨u, rfl, -⟩ := proper _ (mem_of_lookup found)
    rfl
  have raw : s.variableType x = (((s.vars.lookup (loadedName x)).orElse fun _ =>
      s.args.lookup (loadedName x)).join).map TypeName.normalize := rfl
  rw [raw, Option.isSome_map, ← isName, ← isName]
  cases own : s.vars.lookup (loadedName x) with
  | some type => simpa using typed vars own
  | none =>
    cases given : s.args.lookup (loadedName x) with
    | some type => simpa using typed args given
    | none => simp

/-- Just the variables to which the scope gives a type have a slot in the frame, and it has a
type. -/
theorem TypedFrom.framed {tables : Tables} {name : String} {e e₀ : Entry} {g g₀ : Graph}
    (from_ : TypedFrom tables name e g e₀ g₀) {m : Method} (read : e₀.ReadFrom m) {hd : Heading}
    (named : hd.name = name) (of : hd.Of m.view) (lists : tables.Lists hd) (x : String) :
    (((Frame.ofMethod e.params e.vars).slot? (loadedName x)).isSome ↔
        ((tables.scope name).variableType x).isSome) ∧
      ∀ slot, (Frame.ofMethod e.params e.vars).slot? x = some slot → slot.type.isSome := by
  subst named
  obtain ⟨_, _, _, _, _, readParams, readVars⟩ := read.graph g₀ from_.untyped
  obtain ⟨typedV, isVar⟩ := orderedVariables_names (Method.view_typed read.spelled) of.vars readVars
  obtain ⟨typedP, isParam⟩ := orderedArguments_names read.spelled of.args readParams
  have proper := of.proper (Method.view_typed read.spelled)
  have params : e.params = e₀.params := by
    rw [from_.entry, checkEntry, from_.untyped]
    simp only
    split <;> rfl
  -- The checker adds the result to the variables under the method's name.
  have vars : e.vars = e₀.vars ++ (hd.result.map fun result => (hd.name, some result)).toList := by
    rw [from_.entry, checkEntry, from_.untyped, lists.result]
    cases hd.result <;> simp only [Option.join_some] <;> split <;> simp
  have scope : (tables.scope hd.name).vars = hd.vars ∧ (tables.scope hd.name).args = hd.args := by
    simp [Tables.scope, lists.vars, lists.args]
  have isE (y : String) : y ∈ e.vars.map (·.1) ↔ y ∈ hd.vars.map (·.1) := by
    rw [isVar, vars]
    cases hd.result <;> simp
  refine ⟨?_, fun slot found => ?_⟩
  · rw [Frame.slot?_isSome, Scope.variableType_isSome (scope.1 ▸ proper.vars)
      (scope.2 ▸ proper.args), scope.1, scope.2, isE, params, isParam]
  · refine Frame.slot?_typed (params ▸ typedP) ?_ found
    rw [vars]
    refine List.forall_mem_append.mpr ⟨typedV, ?_⟩
    cases hd.result <;> simp

end MethodLang
