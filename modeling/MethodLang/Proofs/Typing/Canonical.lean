import Mathlib.Data.List.TakeWhile
import MethodLang.Proofs.Typing.Reading
import MethodLang.Typing.TypeName

/-!
Canonical names of types. A name is taken apart as far as it reads `array[] of`, whatever blanks
stand between the words, and put together again with single spaces (`Normalizes`). The result is
canonical: taken apart once more it gives itself (`normalize_of_canonical`). The common type of two
operands depends on their canonical names only.
-/
namespace MethodLang.TypeName

/-! ### The element in a name -/

/-- One line that starts with no blank. -/
def IsLine (cs : List Char) : Prop :=
  ∃ c rest, cs = c :: rest ∧ Text.isBlank c = false ∧ '\n' ∉ cs

/-- What can stand behind `of` and its blanks: a line, or one blank that is left over where nothing
else follows. -/
def Stands (cs : List Char) : Prop :=
  (∃ c, cs = [c] ∧ Text.isBlank c = true ∧ c ≠ '\n') ∨ IsLine cs

theorem no_feed_firstLine (cs : List Char) : '\n' ∉ Text.firstLine cs := by
  intro inside
  have other := List.mem_takeWhile_imp inside
  simp at other

theorem afterBlanks?_stands {cs e : List Char} (h : afterBlanks? cs = some e) : Stands e := by
  unfold afterBlanks? at h
  simp only at h
  split at h
  · cases h
  split at h
  · -- nothing but blanks
    obtain ⟨c, found, rfl⟩ := Option.map_eq_some_iff.mp h
    have inside : c ∈ cs.takeWhile Text.isBlank :=
      List.mem_of_mem_drop (List.mem_reverse.mp (List.mem_of_find?_eq_some found))
    exact .inl ⟨c, rfl, List.mem_takeWhile_imp inside, by simpa using List.find?_some found⟩
  · rename_i text
    rw [List.isEmpty_iff] at text
    obtain ⟨c, rest, split⟩ := List.exists_cons_of_ne_nil text
    have first : Text.isBlank c = false := by
      have head := List.head?_dropWhile_not Text.isBlank cs
      rw [split] at head
      simpa using head
    have line : Text.firstLine (c :: rest) = c :: rest.takeWhile (· != '\n') := by
      have other : c ≠ '\n' := by
        rintro rfl
        exact absurd first (by decide)
      simp [Text.firstLine, other]
    rw [split, line] at h
    cases h
    exact .inr ⟨c, _, rfl, first, line ▸ no_feed_firstLine (c :: rest)⟩

/-- Behind any blanks, a line is found again. -/
theorem afterBlanks?_append {blanks line : List Char} (some_ : blanks ≠ [])
    (each : ∀ c ∈ blanks, Text.isBlank c = true) (isLine : IsLine line) :
    afterBlanks? (blanks ++ line) = some line := by
  obtain ⟨c, rest, rfl, first, plain⟩ := isLine
  have taken : (blanks ++ c :: rest).takeWhile Text.isBlank = blanks := by
    rw [List.takeWhile_append_of_pos each, List.takeWhile_cons_of_neg (by simp [first]),
      List.append_nil]
  have left : (blanks ++ c :: rest).dropWhile Text.isBlank = c :: rest := by
    rw [List.dropWhile_append_of_pos each, List.dropWhile_cons_of_neg (by simp [first])]
  simp [afterBlanks?, taken, left, some_, Text.firstLine_eq_self plain]

theorem afterBlanks?_space {e : List Char} (stands : Stands e) :
    afterBlanks? (' ' :: e) = some e := by
  rcases stands with ⟨c, rfl, blank, other⟩ | isLine
  · have space : Text.isBlank ' ' = true := by decide
    simp [afterBlanks?, space, blank, other]
  · have space : ∀ c ∈ [' '], Text.isBlank c = true := List.forall_mem_singleton.mpr (by decide)
    exact afterBlanks?_append (List.cons_ne_nil _ _) space isLine

theorem element?_eq_some_iff {t e : TypeName} : element? t = some e ↔
    ∃ blanks rest, t.toList = "array[]".toList ++ (blanks ++ 'o' :: 'f' :: rest) ∧ blanks ≠ [] ∧
      (∀ c ∈ blanks, Text.isBlank c = true) ∧ afterBlanks? rest = some e.toList := by
  have letter : Text.isBlank 'o' = false := by decide
  unfold element?
  constructor
  · intro h
    obtain ⟨behind, opened, h⟩ := Option.bind_eq_some_iff.mp h
    split at h
    · cases h
    rename_i blank
    obtain ⟨rest, word, h⟩ := Option.bind_eq_some_iff.mp h
    obtain ⟨found, element, rfl⟩ := Option.map_eq_some_iff.mp h
    rw [Text.after?, List.isPrefixOf?_eq_some_iff_append_eq] at opened
    rw [List.isPrefixOf?_eq_some_iff_append_eq] at word
    refine ⟨behind.takeWhile Text.isBlank, rest, ?_, by rwa [List.isEmpty_iff] at blank,
      fun c => List.mem_takeWhile_imp, by rw [element, String.toList_ofList]⟩
    have parts := List.takeWhile_append_dropWhile (p := Text.isBlank) (l := behind)
    rw [← word] at parts
    rw [← opened]
    exact congrArg ("array[]".toList ++ ·) parts.symm
  · rintro ⟨blanks, rest, text, some_, each, element⟩
    have taken : (blanks ++ 'o' :: 'f' :: rest).takeWhile Text.isBlank = blanks := by
      rw [List.takeWhile_append_of_pos each, List.takeWhile_cons_of_neg (by simp [letter]),
        List.append_nil]
    have left : (blanks ++ 'o' :: 'f' :: rest).dropWhile Text.isBlank = 'o' :: 'f' :: rest := by
      rw [List.dropWhile_append_of_pos each, List.dropWhile_cons_of_neg (by simp [letter])]
    have opened : Text.after? "array[]" t = some (blanks ++ 'o' :: 'f' :: rest) := by
      rw [Text.after?, List.isPrefixOf?_eq_some_iff_append_eq, text]
    have word : ['o', 'f'].isPrefixOf? ('o' :: 'f' :: rest) = some rest := by
      rw [List.isPrefixOf?_eq_some_iff_append_eq]
      rfl
    have kept : ¬ blanks.isEmpty = true := by rwa [List.isEmpty_iff]
    simp only [opened, taken, left, kept, word, element, Option.bind_eq_bind, Option.bind_some,
      Bool.false_eq_true, if_false, Option.map_some, String.ofList_toList]

/-- Whatever blanks stand around `of`, the element is the same. -/
theorem element?_spaced {before after : List Char} (someBefore : before ≠ [])
    (someAfter : after ≠ []) (each : ∀ c ∈ before ++ after, Text.isBlank c = true) {e : TypeName}
    (isLine : IsLine e.toList) :
    element? (String.ofList ("array[]".toList ++ before ++ "of".toList ++ after) ++ e) = some e := by
  obtain ⟨blankBefore, blankAfter⟩ := List.forall_mem_append.mp each
  exact element?_eq_some_iff.mpr ⟨before, after ++ e.toList, by simp, someBefore, blankBefore,
    afterBlanks?_append someAfter blankAfter isLine⟩

theorem element?_array {e : TypeName} (stands : Stands e.toList) :
    element? ("array[] of " ++ e) = some e :=
  element?_eq_some_iff.mpr ⟨[' '], ' ' :: e.toList, by simp, List.cons_ne_nil _ _,
    List.forall_mem_singleton.mpr (by decide), afterBlanks?_space stands⟩

theorem element?_stands {t e : TypeName} (h : element? t = some e) : Stands e.toList := by
  obtain ⟨_, _, _, _, _, element⟩ := element?_eq_some_iff.mp h
  exact afterBlanks?_stands element

theorem afterBlanks?_length {cs e : List Char} (h : afterBlanks? cs = some e) :
    e.length ≤ cs.length := by
  unfold afterBlanks? at h
  simp only at h
  split at h
  · cases h
  rename_i blank
  split at h
  · obtain ⟨c, _, rfl⟩ := Option.map_eq_some_iff.mp h
    cases cs with
    | nil => simp at blank
    | cons c cs => simp
  · cases h
    exact (List.takeWhile_prefix _).length_le.trans (List.dropWhile_suffix _).length_le

theorem element?_length {t e : TypeName} (h : element? t = some e) : e.length < t.length := by
  obtain ⟨blanks, rest, text, _, _, element⟩ := element?_eq_some_iff.mp h
  have whole := congrArg List.length text
  have short := afterBlanks?_length element
  simp only [List.length_append, List.length_cons, String.length_toList] at whole short
  omega

theorem isArray_of_element? {t e : TypeName} (h : element? t = some e) : isArray t = true := by
  obtain ⟨blanks, rest, text, _⟩ := element?_eq_some_iff.mp h
  rw [isArray, Text.startsWith, List.isPrefixOf_iff_prefix, text]
  exact List.prefix_append _ _

/-! ### Canonical names -/

/-- How a name is made canonical. -/
inductive Normalizes : TypeName → TypeName → Prop
  | char : Normalizes "char" "byte"
  | string : Normalizes "string" "array[] of byte"
  | array {t e n} (element : element? t = some e) (below : Normalizes e n) :
    Normalizes t ("array[] of " ++ n)
  | other {t} (notChar : t ≠ "char") (notString : t ≠ "string") (noElement : element? t = none) :
    Normalizes t t

/-- A name that is neither `char` nor `string` and has no element, or is that of an array of
such, in single spaces. -/
inductive Canonical : TypeName → Prop
  | other {t} (notChar : t ≠ "char") (notString : t ≠ "string") (noElement : element? t = none) :
    Canonical t
  | array {e} (stands : Stands e.toList) (below : Canonical e) : Canonical ("array[] of " ++ e)

/-- One step of taking a name apart, whatever bound on the depth is left. -/
theorem normalizeWithin_succ (depth : Nat) (t : TypeName) : normalizeWithin (depth + 1) t =
    if t = "char" then "byte" else if t = "string" then "array[] of byte"
    else match element? t with
      | some e => "array[] of " ++ normalizeWithin depth e
      | none => t := by
  rw [normalizeWithin]
  cases found : element? t with
  | some e => rw [if_pos (isArray_of_element? found)]
  | none => simp only [ite_self]

/-- The length of a name bounds the depth: more makes no difference. -/
theorem normalizeWithin_eq {t : TypeName} {depth more : Nat} (deep : t.length ≤ depth)
    (deeper : t.length ≤ more) : normalizeWithin depth t = normalizeWithin more t := by
  have empty {t : TypeName} (short : t.length ≤ 0) (more : Nat) : normalizeWithin more t = t := by
    obtain rfl : t = "" := by simpa using short
    cases more with
    | zero => rfl
    | succ more =>
      have noElement : element? "" = none := by decide
      simp [normalizeWithin_succ, noElement]
  induction depth generalizing t more with
  | zero => rw [empty deep, empty deep]
  | succ depth ih =>
    cases more with
    | zero => rw [empty deeper, empty deeper]
    | succ more =>
      rw [normalizeWithin_succ, normalizeWithin_succ]
      cases found : element? t with
      | none => rfl
      | some e =>
        have shorter := element?_length found
        have same : normalizeWithin depth e = normalizeWithin more e := ih (by omega) (by omega)
        simp only [same]

theorem normalize_eq (t : TypeName) : normalize t =
    if t = "char" then "byte" else if t = "string" then "array[] of byte"
    else match element? t with
      | some e => "array[] of " ++ normalize e
      | none => t := by
  have deeper : normalize t = normalizeWithin (t.length + 1) t :=
    normalizeWithin_eq (Nat.le_refl _) (Nat.le_succ _)
  rw [deeper, normalizeWithin_succ]
  cases found : element? t with
  | none => rfl
  | some e =>
    have shorter := element?_length found
    simp only [normalize, normalizeWithin_eq (Nat.le_of_lt shorter) (Nat.le_refl e.length)]

theorem Stands.array {e : List Char} (stands : Stands e) :
    Stands ("array[] of ".toList ++ e) := by
  have line : '\n' ∉ e := by
    rcases stands with ⟨c, rfl, _, other⟩ | ⟨c, rest, rfl, _, plain⟩
    · simpa using other.symm
    · exact plain
  exact .inr ⟨'a', _, rfl, by decide, by simpa using line⟩

/-- The canonical name of an element can stand where the element stood. -/
theorem Normalizes.stands {t n : TypeName} (made : Normalizes t n) (stands : Stands t.toList) :
    Stands n.toList := by
  induction made with
  | char => exact .inr ⟨'b', _, rfl, by decide, by decide⟩
  | string => exact .inr ⟨'a', _, rfl, by decide, by decide⟩
  | array element _ ih =>
    rw [String.toList_append]
    exact (ih (element?_stands element)).array
  | other => exact stands

theorem Normalizes.canonical {t n : TypeName} (made : Normalizes t n) : Canonical n := by
  have byte : Canonical "byte" := .other (by decide) (by decide) (by decide)
  induction made with
  | char => exact byte
  | string => exact .array (.inr ⟨'b', _, rfl, by decide, by decide⟩) byte
  | array element below ih => exact .array (below.stands (element?_stands element)) ih
  | other notChar notString noElement => exact .other notChar notString noElement

/-- Every name is taken apart in finitely many steps. -/
theorem normalizes_normalize (t : TypeName) : Normalizes t (normalize t) := by
  induction length : t.length using Nat.strongRecOn generalizing t with
  | ind n ih =>
    rw [normalize_eq]
    split
    · subst_vars
      exact .char
    split
    · subst_vars
      exact .string
    split
    · rename_i e found
      exact .array found (ih e.length (length ▸ element?_length found) e rfl)
    · exact .other ‹_› ‹_› ‹_›

theorem normalize_array {t e : TypeName} (found : element? t = some e) :
    normalize t = "array[] of " ++ normalize e := by
  have array := isArray_of_element? found
  rw [normalize_eq, if_neg, if_neg, found]
  · rintro rfl
    exact absurd array (by decide)
  · rintro rfl
    exact absurd array (by decide)

theorem normalize_of_canonical {t : TypeName} (canonical : Canonical t) : normalize t = t := by
  induction canonical with
  | other notChar notString noElement => simp [normalize_eq, notChar, notString, noElement]
  | array stands _ ih => rw [normalize_array (element?_array stands), ih]

theorem canonical_normalize (t : TypeName) : Canonical (normalize t) :=
  (normalizes_normalize t).canonical

theorem normalize_normalize (t : TypeName) : normalize (normalize t) = normalize t :=
  normalize_of_canonical (canonical_normalize t)

/-! ### The common type -/

theorem unify_some (t u : TypeName) : unify (some t) (some u) =
    if isUntyped (normalize t) && isUntyped (normalize u) then some "int"
    else if isUntyped (normalize t) && isNumeric (normalize u) then some (normalize u)
    else if isUntyped (normalize u) && isNumeric (normalize t) then some (normalize t)
    else if normalize t = normalize u then some (normalize t)
    else none := rfl

theorem unify_normalize (t u : TypeName) :
    unify (some (normalize t)) (some (normalize u)) = unify (some t) (some u) := by
  simp only [unify_some, normalize_normalize]

theorem unify_comm (t u : TypeName) : unify (some t) (some u) = unify (some u) (some t) := by
  have same (a b : TypeName) :
      (if a = b then some a else none) = if b = a then some b else none := by
    by_cases h : a = b
    · rw [h]
    · rw [if_neg h, if_neg (Ne.symm h)]
  rw [unify_some, unify_some, same]
  cases isUntyped (normalize t) <;> cases isUntyped (normalize u) <;> rfl

theorem unify_canonical {t u common : TypeName} (unified : unify (some t) (some u) = some common) :
    Canonical common ∧ common ≠ untyped := by
  have numeric_ne {t : TypeName} (numeric : isNumeric t = true) : t ≠ untyped := by
    rintro rfl
    exact absurd numeric (by decide)
  rw [unify_some] at unified
  split at unified
  · cases unified
    exact ⟨.other (by decide) (by decide) (by decide), by decide⟩
  rename_i notBoth
  split at unified
  · rename_i takes
    cases unified
    exact ⟨canonical_normalize u, numeric_ne (Bool.and_eq_true_iff.mp takes).2⟩
  split at unified
  · rename_i takes
    cases unified
    exact ⟨canonical_normalize t, numeric_ne (Bool.and_eq_true_iff.mp takes).2⟩
  split at unified
  · rename_i same
    cases unified
    refine ⟨canonical_normalize t, fun bare => notBoth ?_⟩
    rw [← same, bare]
    decide
  · cases unified

/-- A name has one canonical form, reached in finitely many steps, in which blanks around `of` leave
no trace. Two types have a common one whichever comes first and however they are written, and that
is canonical and not the type of a bare number. -/
theorem canonical_forms_unify :
    (∀ t, Normalizes t (normalize t) ∧ normalize (normalize t) = normalize t) ∧
    (∀ before after e, before ≠ [] → after ≠ [] →
      (∀ c ∈ before ++ after, Text.isBlank c = true) → IsLine e.toList →
      normalize (String.ofList ("array[]".toList ++ before ++ "of".toList ++ after) ++ e) =
        "array[] of " ++ normalize e) ∧
    ∀ t u, unify (some t) (some u) = unify (some u) (some t) ∧
      unify (some t) (some u) = unify (some (normalize t)) (some (normalize u)) ∧
      ∀ common, unify (some t) (some u) = some common →
        normalize common = common ∧ common ≠ untyped := by
  refine ⟨fun t => ⟨normalizes_normalize t, normalize_normalize t⟩, ?_, fun t u => ?_⟩
  · intro before after e someBefore someAfter each isLine
    exact normalize_array (element?_spaced someBefore someAfter each isLine)
  · refine ⟨unify_comm t u, (unify_normalize t u).symm, fun common unified => ?_⟩
    obtain ⟨canonical, typed⟩ := unify_canonical unified
    exact ⟨normalize_of_canonical canonical, typed⟩

theorem spaced_bytes_unify :
    unify (some "array[]\t of\n char") (some "string") = some "array[] of byte" ∧
      normalize "array[] of byte" = "array[] of byte" ∧ "array[] of byte" ≠ untyped := by
  have unified : unify (some "array[]\t of\n char") (some "string") = some "array[] of byte" := by
    decide +kernel
  exact ⟨unified, (canonical_forms_unify.2.2 _ _).2.2 _ unified⟩

end MethodLang.TypeName
