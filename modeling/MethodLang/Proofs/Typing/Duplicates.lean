import MethodLang.Proofs.Operation.Domain
import MethodLang.Proofs.Typing.Inferring
import MethodLang.Proofs.Typing.Tally

/-!
Errors that are reported more than once. Each arithmetic operator above the node that finds an error
at most doubles its reports, and sums reach that bound at every depth (`reports_at_most_doubled`).
-/
namespace MethodLang

open Checker

theorem Tree.arithmeticAbove_map {α β : Type} (f : α → β) (path : List Nat) (t : Tree α) :
    (t.map f).arithmeticAbove path = t.arithmeticAbove path := by
  induction path generalizing t with
  | nil => rfl
  | cons i path ih =>
    obtain ⟨l, a, ts⟩ := t
    rw [Tree.map, Tree.mapAll_eq_map, arithmeticAbove, arithmeticAbove, children_node,
      children_node, List.getElem?_map]
    cases ts[i]? with
    | none => rfl
    | some c => exact congrArg (_ + ·) (ih c)

/-- What is reported of an operation of which no node was looked at before. -/
def Scope.reports (s : Scope) (op : Operation) : List TypeError :=
  ((Marked.unmarked op).infer s).errors

theorem Scope.reports_tally (s : Scope) (op : Operation) :
    Tally (fun path => op.arithmeticAbove path) (s.reports op) :=
  (Marked.infer_tally s (Marked.unmarked op) (Marked.unmarked op)).congr
    fun _ _ => (Tree.arithmeticAbove_map _ _ op).symm

namespace Tally

variable {n : List Nat → Nat} {es : List TypeError} (tally : Tally n es)
include tally

/-- Reports in the same words are of one kind. -/
theorem count_report_le {e : TypeError} (inside : e ∈ es) :
    (es.map TypeError.report).count e.report ≤ 2 ^ n e.finder := by
  refine Nat.le_trans ?_ (tally.count e inside)
  rw [List.count_eq_countP, List.count_eq_countP, List.countP_map, List.countP_map]
  refine List.countP_mono_left fun e' inside' same => ?_
  exact beq_iff_eq.mpr (TypeError.spot_of_report (tally.worded e' inside') (tally.worded e inside)
    (eq_of_beq same))

theorem nodup_reports (once : ∀ e ∈ es, n e.finder = 0) : (es.map TypeError.report).Nodup := by
  refine List.nodup_iff_count_le_one.mpr fun report => ?_
  by_cases inside : report ∈ es.map TypeError.report
  · obtain ⟨e, among, rfl⟩ := List.mem_map.mp inside
    have count := tally.count_report_le among
    rwa [once e among] at count
  · rw [List.count_eq_zero_of_not_mem inside]
    exact Nat.zero_le 1

end Tally

/-! ### Sums -/

/-- The sum `x + 1 + ... + 1` with as many ones as given. -/
def Expr.raised (name : String) : Nat → Expr
  | 0 => .place name
  | k + 1 => .binary (raised name k) .add (.literal .dec "1")

def Operation.raised (name : String) : Nat → Operation
  | 0 => .leaf ("load(" ++ name ++ ")")
  | k + 1 => .make "+" [raised name k, .leaf "const(dec(1))"]

theorem LiteralKind.spells_one : LiteralKind.dec.Spells "1" :=
  ⟨'1', [], rfl, List.all_eq_true.mp (by decide)⟩

theorem Expr.raised_spelled {name : String} (named : IsName name) (k : Nat) :
    (Expr.raised name k).Spelled := by
  induction k with
  | zero => exact named
  | succ k ih => exact ⟨ih, LiteralKind.spells_one⟩

theorem Expr.raised_operation (name : String) (k : Nat) :
    (Expr.raised name k).operation = .ok (Operation.raised name k) ∧
      Operation.hasStore (Operation.raised name k) = false := by
  induction k with
  | zero => exact ⟨Expr.operation_place name, Term.hasStore_tree (.load name)⟩
  | succ k ih =>
    obtain ⟨lowered, storeless⟩ := ih
    have one : Operation.hasStore (Operation.leaf "const(dec(1))") = false := by decide
    refine ⟨?_, ?_⟩
    · rw [raised, operation_binary (by decide), lowered, operation_literal LiteralKind.spells_one]
      have kept : Operation.withoutStore (Term.literal .dec "1").tree = .ok _ := if_neg (by decide)
      have kept' : Operation.withoutStore (Operation.raised name k) = .ok _ :=
        if_neg (by simp [storeless])
      simp only [bind, Except.bind, kept, kept']
      rfl
    · have plus : Operation.isStore "+" = false := by decide
      simp [Operation.raised, Operation.make, Operation.hasStore, Operation.hasStoreAll, storeless,
        one, plus]

theorem Operation.raised_above (name : String) (k : Nat) :
    (Operation.raised name k).arithmeticAbove (List.replicate k 0) = k := by
  induction k with
  | zero => rfl
  | succ k ih =>
    have role : Role.ofLabel "+" = .arithmetic := by decide
    simp [raised, make, List.replicate_succ, Tree.arithmeticAbove, role, ih, Nat.add_comm]

theorem TypeError.under_injective (i : Nat) : Function.Injective (TypeError.under i) := by
  intro e e' same
  obtain ⟨cause, path⟩ := TypeError.mk.inj same
  cases e
  cases e'
  cases cause
  cases (List.cons.inj path).2
  rfl

/-- A sum whose first part has no type tells twice what that part tells. -/
theorem Marked.infer_sum {s : Scope} {a b : Marked} {errors : List TypeError}
    (first : a.infer s = ⟨none, errors, a⟩) (second : b.infer s = ⟨some TypeName.untyped, [], b⟩) :
    infer s (.node "+" ⟨none, false⟩ [a, b]) = ⟨none, errors.map (TypeError.under 0) ++
      (errors.map (TypeError.under 0) ++ [atChild 0 (.noValue (.leftOperand "+")),
        atChild 0 (.operandType "+" none .numbers)]), .node "+" ⟨none, false⟩ [a, b]⟩ := by
  have role : Role.ofLabel "+" = .arithmetic := by decide
  have takes : Operands.numbers.takes TypeName.untyped = true := by decide
  unfold infer at first second
  rw [infer, checker_node]
  simp [Checker.node, inferNode, settledType, inferRole, role, inferArithmetic, checkBinary, first,
    second, allowed, voidError, operandError, takes, TypeName.firstOf]

theorem Marked.infer_raised {s : Scope} {name : String} (named : IsName name)
    (unknown : s.variableType name = none) (k : Nat) :
    ∃ errors, (unmarked (Operation.raised name k)).infer s =
        ⟨none, errors, unmarked (Operation.raised name k)⟩ ∧
      errors.count ⟨.unknownVariable name, List.replicate k 0⟩ = 2 ^ k := by
  induction k with
  | zero =>
    have role := Role.ofLabel_load ⟨name, named, .inl rfl⟩
    refine ⟨[here (.unknownVariable name)], ?_, List.count_singleton_self⟩
    rw [infer, Operation.raised, Operation.leaf, Operation.make, unmarked, Tree.map, checker_node]
    simp [Tree.mapAll, Checker.node, inferNode, settledType, inferRole, role, inferLoad, unknown]
  | succ k ih =>
    obtain ⟨errors, below, count⟩ := ih
    have one : (unmarked (Operation.leaf "const(dec(1))")).infer s =
        ⟨some TypeName.untyped, [], unmarked (Operation.leaf "const(dec(1))")⟩ := rfl
    refine ⟨_, infer_sum below one, ?_⟩
    have told : (errors.map (TypeError.under 0)).count
        ⟨.unknownVariable name, List.replicate (k + 1) 0⟩ = 2 ^ k :=
      (List.count_map_of_injective errors _ (TypeError.under_injective 0) _).trans count
    rw [List.count_append, List.count_append, told, Nat.pow_succ, Nat.mul_two]
    simp [atChild]

/-- How often an error is reported of an operation that was not looked at before: in the same words
at the same node at most once, doubled by each arithmetic operator above the node that finds it. So
nothing is said twice if no arithmetic operator stands above a finder. The bound is reached at every
depth: a sum of a variable that is not known and some ones says so once, doubled by each one. -/
theorem reports_at_most_doubled (s : Scope) :
    (∀ op : Operation, (∀ x ∈ s.reports op, ((s.reports op).map TypeError.report).count x.report ≤
        2 ^ op.arithmeticAbove x.finder) ∧
      ((∀ x ∈ s.reports op, op.arithmeticAbove x.finder = 0) →
        ((s.reports op).map TypeError.report).Nodup)) ∧
    ∀ name, IsName name → s.variableType name = none → ∀ k, ∃ (e : Expr) (op : Operation)
      (x : TypeError), e.Spelled ∧ e.operation = .ok op ∧ x.cause = .unknownVariable name ∧
        op.arithmeticAbove x.finder = k ∧
        ((s.reports op).map TypeError.report).count x.report = 2 ^ k := by
  refine ⟨fun op => ⟨fun x inside => (s.reports_tally op).count_report_le inside,
    (s.reports_tally op).nodup_reports⟩, fun name named unknown k => ?_⟩
  obtain ⟨errors, run, told⟩ := Marked.infer_raised named unknown k
  have reports : s.reports (Operation.raised name k) = errors := congrArg Inference.errors run
  rw [← reports] at told
  refine ⟨_, _, ⟨.unknownVariable name, List.replicate k 0⟩, Expr.raised_spelled named k,
    (Expr.raised_operation name k).1, rfl, Operation.raised_above name k, Nat.le_antisymm ?_ ?_⟩
  · have inside := List.count_pos_iff.mp (told ▸ Nat.two_pow_pos k)
    have most := (s.reports_tally (Operation.raised name k)).count_report_le inside
    exact most.trans (Nat.le_of_eq (congrArg (2 ^ ·) (Operation.raised_above name k)))
  · rw [← told]
    exact List.count_le_count_map

/-- Where nothing is declared, sums of any depth repeat that their variable is unknown. -/
theorem undeclared_in_sums_told_doubled :
    let s : Scope := ⟨[], [], [], []⟩
    ∀ k, ∃ (e : Expr) (op : Operation) (x : TypeError), e.Spelled ∧ e.operation = .ok op ∧
      x.cause = .unknownVariable "u" ∧ op.arithmeticAbove x.finder = k ∧
      ((s.reports op).map TypeError.report).count x.report = 2 ^ k :=
  (reports_at_most_doubled ⟨[], [], [], []⟩).2 "u" rfl rfl

/-- A sum with an unknown variable says twice that it is unknown. -/
theorem unknown_in_sum_told_twice :
    let s : Scope := ⟨[], [], [], []⟩
    let e : Expr := .binary (.place "u") .add (.literal .dec "1")
    let op : Operation := .make "+" [.leaf "load(u)", .leaf "const(dec(1))"]
    e.Spelled ∧ e.operation = .ok op ∧ ¬((s.reports op).map TypeError.report).Nodup := by
  intro s e op
  have twice : s.reports op = [⟨.unknownVariable "u", [0]⟩, ⟨.unknownVariable "u", [0]⟩,
      ⟨.noValue (.leftOperand "+"), [0]⟩, ⟨.operandType "+" none .numbers, [0]⟩] := by
    decide +kernel
  refine ⟨⟨rfl, '1', [], rfl, List.all_eq_true.mp (by decide)⟩, rfl, ?_⟩
  rw [twice, List.map_cons, List.map_cons, List.nodup_cons]
  exact fun nodup => nodup.1 List.mem_cons_self

end MethodLang
