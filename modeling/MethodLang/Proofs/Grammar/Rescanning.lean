import MethodLang.Proofs.Grammar.Rereading

/-!
Scanning what was joined. The texts of lexemes with white space between them are scanned into
these lexemes again (`Token.scan_spaced`), so a clear tree is parsed back from its leaves with
single spaces between them (`parseSource_joined`).
-/
namespace MethodLang

open Grammar

/-! ### Patterns -/

namespace Pattern

variable {isIn : Char → Bool} {p : Pattern} {ps : List Pattern} {cs : List Char}

theorem matches_one_iff : (one isIn).Matches cs ↔ ∃ c, cs = [c] ∧ isIn c := by
  constructor
  · intro h
    cases h with | one inside => exact ⟨_, rfl, inside⟩
  · rintro ⟨c, rfl, inside⟩
    exact .one inside

theorem matches_nil_iff : (seq []).Matches cs ↔ cs = [] := by
  constructor
  · intro h
    cases h
    rfl
  · rintro rfl
    exact .nil

theorem matches_cons_iff :
    (seq (p :: ps)).Matches cs ↔ ∃ xs ys, cs = xs ++ ys ∧ p.Matches xs ∧ (seq ps).Matches ys := by
  constructor
  · intro h
    cases h with | cons first later => exact ⟨_, _, rfl, first, later⟩
  · rintro ⟨xs, ys, rfl, first, later⟩
    exact .cons first later

theorem matches_many_iff : (many (.one isIn)).Matches cs ↔ ∀ c ∈ cs, isIn c := by
  refine ⟨fun h => ?_, matches_many⟩
  generalize same : many (.one isIn) = q at h
  induction h with
  | done => exact List.forall_mem_nil _
  | more first later _ ih =>
    cases same
    obtain ⟨c, rfl, inside⟩ := matches_one_iff.mp first
    exact List.forall_mem_cons.mpr ⟨inside, ih rfl⟩
  | _ => cases same

theorem matches_last_iff : (seq [p]).Matches cs ↔ p.Matches cs := by
  refine ⟨fun h => ?_, matches_last⟩
  obtain ⟨xs, ys, rfl, only, nothing⟩ := matches_cons_iff.mp h
  rw [matches_nil_iff.mp nothing, List.append_nil]
  exact only

/-- A character of a class in front of what follows. -/
theorem matches_one_cons_iff : (seq (.one isIn :: ps)).Matches cs ↔
    ∃ c rest, cs = c :: rest ∧ isIn c ∧ (seq ps).Matches rest := by
  rw [matches_cons_iff]
  constructor
  · rintro ⟨xs, ys, rfl, first, later⟩
    obtain ⟨c, rfl, inside⟩ := matches_one_iff.mp first
    exact ⟨c, ys, rfl, inside, later⟩
  · rintro ⟨c, rest, rfl, inside, later⟩
    exact ⟨[c], rest, rfl, .one inside, later⟩

theorem matches_plus_iff :
    (plus isIn).Matches cs ↔ ∃ d ds, cs = d :: ds ∧ ∀ c ∈ d :: ds, isIn c := by
  simp only [plus, matches_one_cons_iff, matches_last_iff, matches_many_iff, List.forall_mem_cons]

end Pattern

/-! ### Lexemes -/

/-- The text of the lexeme can be scanned. -/
def Lexeme.Whole : Lexeme → Prop
  | .word text => IsName text
  | .literal kind text => kind.Scans text
  | .sign _ => True

namespace Token

/-- Nothing, or white space first. -/
def Parted (cs : List Char) : Prop := cs = [] ∨ ∃ c rest, cs = c :: rest ∧ c ∈ whiteSpace

section
variable {p : Char → Bool} {cs rest : List Char}

theorem takeWhile_parted (inside : ∀ c ∈ cs, p c) (ends : whiteSpace.any p = false)
    (parted : Parted rest) : (cs ++ rest).takeWhile p = cs := by
  rw [List.takeWhile_append_of_pos inside]
  rcases parted with rfl | ⟨c, rest, rfl, white⟩
  · simp
  · simp [List.any_eq_false.mp ends c white]

theorem dropWhile_parted (inside : ∀ c ∈ cs, p c) (ends : whiteSpace.any p = false)
    (parted : Parted rest) : (cs ++ rest).dropWhile p = rest := by
  rw [List.dropWhile_append_of_pos inside]
  rcases parted with rfl | ⟨c, rest, rfl, white⟩
  · simp
  · simp [List.any_eq_false.mp ends c white]

end

section
variable {text : String} {rest : List Char}

theorem readLexeme_word (isName : IsName text) (parted : Parted rest) :
    readLexeme (text.toList ++ rest) = some (.word text, rest) := by
  unfold IsName Text.isIdentifier at isName
  split at isName
  · cases isName
  · rename_i c cs chars
    obtain ⟨starts, continues⟩ := Bool.and_eq_true_iff.mp isName
    have inside : ∀ d ∈ cs, continuesWord d := List.all_eq_true.mp continues
    have starts : startsWord c = true := starts
    obtain rfl : text = String.ofList (c :: cs) := by rw [← chars, String.ofList_toList]
    simp [readLexeme.eq_def, starts, takeWhile_parted inside (by decide) parted,
      dropWhile_parted inside (by decide) parted]

theorem startsWord_digit {c : Char} (digit : c.isDigit) : startsWord c = false := by
  have code : 48 ≤ c.toNat ∧ c.toNat ≤ 57 :=
    (Bool.and_eq_true_iff.mp digit).imp of_decide_eq_true of_decide_eq_true
  rw [Bool.eq_false_iff]
  intro starts
  rcases Bool.or_eq_true_iff.mp starts with alpha | line
  · rcases Text.isAlpha_iff.mp alpha with upper | lower
    · have := Text.isUpper_iff.mp upper
      omega
    · have := Text.isLower_iff.mp lower
      omega
  · rw [beq_iff_eq] at line
    subst line
    exact absurd code (by decide)

theorem readLexeme_number {kind : LiteralKind} {c : Char} {cs : List Char} (digit : c.isDigit)
    (chars : text.toList = c :: cs)
    (read : readNumber c (cs ++ rest) = (kind, text.toList, rest)) :
    readLexeme (text.toList ++ rest) = some (.literal kind text, rest) := by
  obtain rfl : text = String.ofList (c :: cs) := by rw [← chars, String.ofList_toList]
  rw [String.toList_ofList] at read
  simp [readLexeme.eq_def, startsWord_digit digit, digit, read]

theorem readLexeme_hex (spelled : Spells "hex" text) (parted : Parted rest) :
    readLexeme (text.toList ++ rest) = some (.literal .hex text, rest) := by
  obtain ⟨_, found, spelled⟩ := spelled
  cases found
  simp only [Pattern.char, Pattern.matches_one_cons_iff, Pattern.matches_last_iff,
    Pattern.matches_plus_iff, beq_iff_eq] at spelled
  obtain ⟨_, _, chars, rfl, m, _, rfl, marker, d, ds, rfl, digits⟩ := spelled
  obtain ⟨first, later⟩ := List.forall_mem_cons.mp digits
  refine readLexeme_number (by decide) chars ?_
  have later : ∀ c ∈ ds, isHexDigit c := fun c inside => isHex_eq c ▸ later c inside
  have first : isHexDigit d := isHex_eq d ▸ first
  simp [readNumber, marker, first, takeWhile_parted later (by decide) parted,
    dropWhile_parted later (by decide) parted, chars]

theorem readLexeme_bits (spelled : Spells "bits" text) (parted : Parted rest) :
    readLexeme (text.toList ++ rest) = some (.literal .bits text, rest) := by
  obtain ⟨_, found, spelled⟩ := spelled
  cases found
  simp only [Pattern.char, Pattern.matches_one_cons_iff, Pattern.matches_last_iff,
    Pattern.matches_plus_iff, beq_iff_eq] at spelled
  obtain ⟨_, _, chars, rfl, m, _, rfl, marker, d, ds, rfl, digits⟩ := spelled
  obtain ⟨first, later⟩ := List.forall_mem_cons.mp digits
  refine readLexeme_number (by decide) chars ?_
  have later : ∀ c ∈ ds, isBit c := later
  have first : isBit d := first
  have noHex : (m == 'x' || m == 'X') = false := by
    rcases Bool.or_eq_true_iff.mp marker with is | is <;> rw [beq_iff_eq] at is <;> subst is <;> rfl
  simp [readNumber, marker, noHex, first, takeWhile_parted later (by decide) parted,
    dropWhile_parted later (by decide) parted, chars]

theorem readLexeme_dec (spelled : Spells "dec" text) (parted : Parted rest) :
    readLexeme (text.toList ++ rest) = some (.literal .dec text, rest) := by
  obtain ⟨_, found, spelled⟩ := spelled
  cases found
  obtain ⟨d, ds, chars, digits⟩ := Pattern.matches_plus_iff.mp spelled
  obtain ⟨first, later⟩ := List.forall_mem_cons.mp digits
  have first : d.isDigit := first
  have later : ∀ c ∈ ds, c.isDigit := later
  refine readLexeme_number first chars ?_
  have decimal : (LiteralKind.dec, d :: (ds ++ rest).takeWhile Char.isDigit,
      (ds ++ rest).dropWhile Char.isDigit) = (.dec, text.toList, rest) := by
    rw [takeWhile_parted later (by decide) parted, dropWhile_parted later (by decide) parted, chars]
  unfold readNumber
  split
  · rename_i m c more split
    -- a digit or white space follows, so no marker of another base
    have next : m.isDigit ∨ m ∈ whiteSpace := by
      cases ds with
      | nil =>
        rcases parted with rfl | ⟨_, _, rfl, white⟩ <;> cases split
        exact .inr white
      | cons e es =>
        obtain ⟨rfl, -⟩ := List.cons.inj split
        exact .inl (later e List.mem_cons_self)
    have noMarker : m ∉ ['x', 'X', 'b', 'B'] := by
      intro marker
      simp only [List.mem_cons, List.not_mem_nil, or_false] at marker
      rcases marker with rfl | rfl | rfl | rfl <;> exact absurd next (by decide)
    simp only [List.mem_cons, List.not_mem_nil, or_false, not_or] at noMarker
    simpa [noMarker] using decimal
  · exact decimal

theorem readString_plain {plain cs : List Char} (plains : ∀ c ∈ plain, isPlain c)
    (clear : ∀ c ∈ plain, isNull c = false) :
    readString (plain ++ cs) = (readString cs).map fun (body, rest) => (plain ++ body, rest) := by
  induction plain with
  | nil => simp
  | cons c plain ih =>
    obtain ⟨plainC, plains⟩ := List.forall_mem_cons.mp plains
    obtain ⟨clearC, clear⟩ := List.forall_mem_cons.mp clear
    simp only [isPlain, Bool.and_eq_true, bne_iff_ne] at plainC
    rw [List.cons_append, readString.eq_4 _ _ plainC.1 fun _ _ is => absurd is plainC.2,
      ih plains clear]
    simp [plainC.2, clearC, Function.comp_def]

/-- A backslash with what it takes along, and plain characters. -/
def escapes : Pattern := .many (.seq [.char '\\', .one (· != '\n'), .many (.one isPlain)])

theorem readString_escapes {cs : List Char} (matched : escapes.Matches cs)
    (clear : ∀ c ∈ cs, isNull c = false) :
    readString (cs ++ '"' :: rest) = some (cs ++ ['"'], rest) := by
  generalize same : escapes = q at matched
  induction matched with
  | done => rfl
  | @more p xs ys first later _ ih =>
    cases same
    obtain ⟨clearX, clearY⟩ := List.forall_mem_append.mp clear
    simp only [Pattern.char, Pattern.matches_one_cons_iff, Pattern.matches_last_iff,
      Pattern.matches_many_iff, beq_iff_eq, bne_iff_ne] at first
    obtain ⟨_, _, rfl, rfl, c, plain, rfl, sameLine, plains⟩ := first
    simp only [List.forall_mem_cons] at clearX
    rw [List.cons_append, List.cons_append, List.cons_append, List.cons_append, readString,
      List.append_assoc, readString_plain plains clearX.2.2, ih clearY rfl]
    simp [sameLine, clearX.2.1]
  | _ => cases same

theorem readLexeme_string (spelled : Spells "str" text)
    (clear : ∀ c ∈ text.toList, isNull c = false) :
    readLexeme (text.toList ++ rest) = some (.literal .str text, rest) := by
  obtain ⟨_, found, spelled⟩ := spelled
  cases found
  rw [Pattern.char, Pattern.matches_one_cons_iff] at spelled
  obtain ⟨_, _, chars, quote, spelled⟩ := spelled
  obtain ⟨plain, _, rfl, plains, spelled⟩ := Pattern.matches_cons_iff.mp spelled
  obtain ⟨escaped, _, rfl, matched, spelled⟩ := Pattern.matches_cons_iff.mp spelled
  obtain ⟨_, rfl, closing⟩ := Pattern.matches_one_iff.mp (Pattern.matches_last_iff.mp spelled)
  rw [beq_iff_eq] at quote closing
  subst quote closing
  obtain rfl : text = String.ofList ('"' :: (plain ++ (escaped ++ ['"']))) := by
    rw [← chars, String.ofList_toList]
  simp only [String.toList_ofList, List.forall_mem_cons, List.forall_mem_append] at clear
  have read : readString (plain ++ (escaped ++ '"' :: rest)) =
      some (plain ++ (escaped ++ ['"']), rest) := by
    rw [readString_plain (Pattern.matches_many_iff.mp plains) clear.2.1,
      readString_escapes matched clear.2.2.1]
    rfl
  simp [readLexeme.eq_def, read, show startsWord '"' = false from rfl]

theorem readLexeme_char (spelled : Spells "char" text)
    (clear : ∀ c ∈ text.toList, isNull c = false) :
    readLexeme (text.toList ++ rest) = some (.literal .char text, rest) := by
  obtain ⟨_, found, spelled⟩ := spelled
  cases found
  simp only [Pattern.char, Pattern.matches_one_cons_iff, Pattern.matches_nil_iff,
    beq_iff_eq] at spelled
  obtain ⟨_, _, chars, rfl, c, _, rfl, inner, _, _, rfl, rfl, rfl⟩ := spelled
  have notNull : isNull c = false := clear c (by simp [chars])
  have notQuote : c ≠ '\'' := by simpa using inner
  obtain rfl : text = String.ofList ['\'', c, '\''] := by rw [← chars, String.ofList_toList]
  simp [readLexeme.eq_def, notNull, notQuote, show startsWord '\'' = false from rfl]

theorem readLexeme_sign (s : Sign) (parted : Parted rest) :
    readLexeme (s.text.toList ++ rest) = some (.sign s, rest) := by
  rcases parted with rfl | ⟨c, rest, rfl, white⟩
  · rcases s with _ | _ | _ | _ | _ | _ | _ | ⟨_ | _⟩ | op
    case binary => cases op <;> rfl
    all_goals rfl
  · simp only [whiteSpace, List.mem_cons, List.not_mem_nil, or_false] at white
    rcases s with _ | _ | _ | _ | _ | _ | _ | ⟨_ | _⟩ | op
    case binary => cases op <;> rcases white with rfl | rfl | rfl | rfl | rfl | rfl <;> rfl
    all_goals rcases white with rfl | rfl | rfl | rfl | rfl | rfl <;> rfl

end

theorem readLexeme_whole {l : Lexeme} (whole : l.Whole) {rest : List Char} (parted : Parted rest) :
    readLexeme (l.text.toList ++ rest) = some (l, rest) := by
  cases l with
  | word text => exact readLexeme_word whole parted
  | sign s => exact readLexeme_sign s parted
  | literal kind text =>
    obtain ⟨spelled, clear⟩ := whole
    cases kind with
    | bool => exact absurd rfl (LiteralKind.ne_bool spelled)
    | str => exact readLexeme_string spelled (clear rfl)
    | char => exact readLexeme_char spelled (clear rfl)
    | hex => exact readLexeme_hex spelled parted
    | bits => exact readLexeme_bits spelled parted
    | dec => exact readLexeme_dec spelled parted

theorem readLexeme_blank {c : Char} (blank : c ∈ byteOrderMark :: whiteSpace) (cs : List Char) :
    readLexeme (c :: cs) = none := by
  simp only [whiteSpace, List.mem_cons, List.not_mem_nil, or_false] at blank
  rcases blank with rfl | rfl | rfl | rfl | rfl | rfl | rfl <;> rfl

theorem whole_first {l : Lexeme} (whole : l.Whole) :
    ∃ c cs, l.text.toList = c :: cs ∧ c ∉ byteOrderMark :: whiteSpace := by
  have read := readLexeme_whole whole (.inl rfl)
  rw [List.append_nil] at read
  cases chars : l.text.toList with
  | nil =>
    rw [chars] at read
    cases read
  | cons c cs =>
    refine ⟨c, cs, rfl, fun blank => ?_⟩
    rw [chars, readLexeme_blank blank] at read
    cases read

/-! ### Texts -/

theorem scanFrom_whole {l : Lexeme} (whole : l.Whole) {rest : List Char} (parted : Parted rest)
    (fuel : Nat) (p : Position) :
    ∃ t, t.lexeme = l ∧ scanFrom (fuel + 1) p (l.text.toList ++ rest) =
      (scanFrom fuel t.stop rest).map (t :: ·) := by
  refine ⟨⟨l, l.text.toList.foldl Position.after p⟩, rfl, ?_⟩
  have read := readLexeme_whole whole parted
  obtain ⟨c, cs, chars, noBlank⟩ := whole_first whole
  have noSpace : isSpace c = false :=
    Bool.eq_false_iff.mpr fun space => noBlank (List.mem_cons_of_mem _ (isSpace_white space))
  rw [chars, List.cons_append] at read ⊢
  simp [scanFrom, noSpace, read, chars]

theorem Parted.of_white {cs : List Char} (white : ∀ c ∈ cs, c ∈ whiteSpace) : Parted cs := by
  cases cs with
  | nil => exact .inl rfl
  | cons c cs => exact .inr ⟨c, cs, rfl, white c List.mem_cons_self⟩

theorem Parted.append {gap : List Char} (inhabited : gap ≠ [])
    (white : ∀ c ∈ gap, c ∈ whiteSpace) (rest : List Char) : Parted (gap ++ rest) := by
  obtain ⟨c, gap, rfl⟩ := List.exists_cons_of_ne_nil inhabited
  exact .inr ⟨c, gap ++ rest, rfl, white c List.mem_cons_self⟩

theorem scanFrom_blanks {blanks : List Char} (white : ∀ c ∈ blanks, c ∈ whiteSpace) (fuel : Nat)
    (p : Position) (rest : List Char) : scanFrom (fuel + blanks.length) p (blanks ++ rest) =
      scanFrom fuel (blanks.foldl Position.after p) rest := by
  have spaces := List.all_eq_true.mp (by decide : whiteSpace.all isSpace = true)
  induction blanks generalizing p with
  | nil => rfl
  | cons c blanks ih =>
    obtain ⟨first, later⟩ := List.forall_mem_cons.mp white
    rw [List.length_cons, ← Nat.add_assoc, List.cons_append, scanFrom, if_pos (spaces c first),
      ih later, List.foldl_cons]

theorem scanFrom_spaced {ls : List Lexeme} (whole : ∀ l ∈ ls, l.Whole) {cs : List Char}
    (spaced : Spaced (ls.map Lexeme.text) cs) {back : List Char}
    (white : ∀ c ∈ back, c ∈ whiteSpace) {fuel : Nat} (p : Position)
    (enough : (cs ++ back).length ≤ fuel) :
    ∃ tokens, scanFrom fuel p (cs ++ back) = some tokens ∧ Writes tokens ls := by
  have ending {n : Nat} (p : Position) (enough : back.length ≤ n) :
      scanFrom n p back = some [] := by
    have blanks := scanFrom_blanks white (n - back.length) p []
    rwa [Nat.sub_add_cancel enough, List.append_nil, scanFrom] at blanks
  induction ls generalizing cs fuel p with
  | nil =>
    cases spaced
    exact ⟨[], ending p enough, rfl⟩
  | cons l ls ih =>
    obtain ⟨wholeL, others⟩ := List.forall_mem_cons.mp whole
    obtain ⟨c, text, chars, -⟩ := whole_first wholeL
    have positive : 0 < l.text.toList.length := by simp [chars]
    cases ls with
    | nil =>
      cases spaced
      simp only [List.length_append] at enough
      obtain ⟨fuel, rfl⟩ : ∃ n, fuel = n + 1 := ⟨fuel - 1, by omega⟩
      obtain ⟨t, is, read⟩ := scanFrom_whole wholeL (.of_white white) fuel p
      refine ⟨[t], ?_, by rw [Writes, List.map_singleton, is]⟩
      rw [read, ending t.stop (by omega)]
      rfl
    | cons next ls =>
      cases spaced with | @cons gap rest _ _ _ inhabited blanks later =>
      simp only [List.length_append] at enough
      -- one step for the lexeme, then one for each blank
      obtain ⟨fuel, rfl⟩ : ∃ n, fuel = n + gap.length + 1 := ⟨fuel - gap.length - 1, by omega⟩
      obtain ⟨t, is, read⟩ := scanFrom_whole wholeL (.append inhabited blanks (rest ++ back))
        (fuel + gap.length) p
      obtain ⟨tokens, scanned, written⟩ := ih others later (gap.foldl Position.after t.stop)
        (show (rest ++ back).length ≤ fuel by rw [List.length_append]; omega)
      refine ⟨t :: tokens, ?_, by rw [Writes, List.map_cons, is, written]⟩
      rw [List.append_assoc, List.append_assoc, read, scanFrom_blanks blanks, scanned]
      rfl

theorem scan_unmarked {cs : List Char} (unmarked : cs.head? ≠ some byteOrderMark) :
    scan (String.ofList cs) = scanFrom cs.length .start cs := by
  rw [scan, String.toList_ofList]
  cases cs with
  | nil => rfl
  | cons c cs =>
    have noMark : c ≠ byteOrderMark := fun is => unmarked (congrArg some is)
    simp [noMark]

theorem spaced_first {ls : List Lexeme} (whole : ∀ l ∈ ls, l.Whole) {cs : List Char}
    (spaced : Spaced (ls.map Lexeme.text) cs) :
    cs = [] ∨ ∃ c rest, cs = c :: rest ∧ c ≠ byteOrderMark := by
  cases ls with
  | nil =>
    cases spaced
    exact .inl rfl
  | cons l ls =>
    obtain ⟨c, text, chars, noBlank⟩ := whole_first (whole l List.mem_cons_self)
    have noMark : c ≠ byteOrderMark := fun is => noBlank (is ▸ List.mem_cons_self)
    refine .inr ?_
    rw [List.map_cons] at spaced
    generalize ls.map Lexeme.text = texts at spaced
    cases spaced with
    | one => exact ⟨c, text, chars, noMark⟩
    | cons => exact ⟨c, _, by rw [chars]; rfl, noMark⟩

/-- Whole lexemes with white space between them, before and behind are scanned. -/
theorem scan_spaced {ls : List Lexeme} (whole : ∀ l ∈ ls, l.Whole) {front cs back : List Char}
    (before : ∀ c ∈ front, c ∈ whiteSpace) (spaced : Spaced (ls.map Lexeme.text) cs)
    (behind : ∀ c ∈ back, c ∈ whiteSpace) :
    ∃ tokens, scan (String.ofList (front ++ cs ++ back)) = some tokens ∧ Writes tokens ls := by
  have whiteFirst {c : Char} {cs rest : List Char} (white : ∀ d ∈ c :: cs, d ∈ whiteSpace) :
      (c :: cs ++ rest).head? ≠ some byteOrderMark := by
    intro first
    exact absurd (white c List.mem_cons_self) (Option.some.inj first ▸ by decide)
  have unmarked : (front ++ (cs ++ back)).head? ≠ some byteOrderMark := by
    cases front with
    | cons c front => exact whiteFirst before
    | nil =>
      rcases spaced_first whole spaced with rfl | ⟨c, rest, rfl, noMark⟩
      · cases back with
        | nil => simp
        | cons c back => exact List.append_nil (c :: back) ▸ whiteFirst behind
      · exact fun first => noMark (Option.some.inj first)
  obtain ⟨tokens, scanned, written⟩ := scanFrom_spaced whole spaced behind
    (front.foldl Position.after .start) (Nat.le_refl _)
  refine ⟨tokens, ?_, written⟩
  rw [List.append_assoc, scan_unmarked unmarked, List.length_append, Nat.add_comm,
    scanFrom_blanks before, scanned]

/-- The texts of lexemes with single spaces between them. -/
def joined (ls : List Lexeme) : List Char := [' '].intercalate (ls.map (·.text.toList))

theorem joined_spaced (ls : List Lexeme) : Spaced (ls.map Lexeme.text) (joined ls) := by
  induction ls with
  | nil => exact .nil
  | cons l ls ih =>
    cases ls with
    | nil =>
      have only : joined [l] = l.text.toList := List.intercalate_singleton
      exact only ▸ .one l.text
    | cons next ls =>
      have split : joined (l :: next :: ls) = l.text.toList ++ [' '] ++ joined (next :: ls) := by
        simp [joined, List.intercalate_cons_cons]
      rw [split]
      exact .cons (List.cons_ne_nil _ _) (List.forall_mem_singleton.mpr (by decide)) ih

theorem scan_joined {ls : List Lexeme} (whole : ∀ l ∈ ls, l.Whole) :
    ∃ tokens, scan (" ".intercalate (ls.map Lexeme.text)) = some tokens ∧ Writes tokens ls := by
  have chars : (" ".intercalate (ls.map Lexeme.text)).toList = joined ls := by
    rw [String.toList_intercalate, List.map_map]
    rfl
  obtain ⟨tokens, scanned, written⟩ :=
    scan_spaced whole (List.forall_mem_nil _) (joined_spaced ls) (List.forall_mem_nil _)
  rw [List.nil_append, List.append_nil, ← chars, String.ofList_toList] at scanned
  exact ⟨tokens, scanned, written⟩

end Token

/-! ### Clear trees -/

/-- All lexemes can be scanned. -/
def AllWhole (ls : List Lexeme) : Prop := ∀ l ∈ ls, l.Whole

@[simp] theorem allWhole_nil : AllWhole [] := List.forall_mem_nil _

@[simp] theorem allWhole_cons {l : Lexeme} {ls : List Lexeme} :
    AllWhole (l :: ls) ↔ l.Whole ∧ AllWhole ls := List.forall_mem_cons

@[simp] theorem allWhole_append {xs ys : List Lexeme} :
    AllWhole (xs ++ ys) ↔ AllWhole xs ∧ AllWhole ys := List.forall_mem_append

@[simp] theorem whole_sign (s : Sign) : (Lexeme.sign s).Whole := trivial

@[simp] theorem whole_word {text : String} : (Lexeme.word text).Whole ↔ IsName text := Iff.rfl

theorem allWhole_commas {items : List (List Lexeme)} (each : ∀ item ∈ items, AllWhole item) :
    AllWhole (commas items) := by
  fun_induction commas items with
  | case1 => exact allWhole_nil
  | case2 item => exact each item List.mem_cons_self
  | case3 item items _ ih =>
    obtain ⟨first, later⟩ := List.forall_mem_cons.mp each
    simp [first, ih later]

theorem LiteralKind.dec_clear {d : Char} {ds : List Char}
    (digits : (d :: ds).all (between '0' '9')) : dec.Clear (String.ofList (d :: ds)) :=
  ⟨⟨_, rfl, String.toList_ofList ▸ Pattern.matches_plus (List.all_eq_true.mp digits)⟩, nofun⟩

theorem LiteralKind.Clear.allWhole {kind : LiteralKind} {text : String} (clear : kind.Clear text) :
    AllWhole (Expr.literal kind text).lexemes := by
  cases kind with
  | bool => rcases clear with rfl | rfl <;> simp +decide [Expr.lexemes]
  | _ => exact allWhole_cons.mpr ⟨clear, allWhole_nil⟩

theorem Expr.allWhole (e : Expr) (clear : e.Clear) : AllWhole e.lexemes := by
  have listed {es : List Expr} (all : AllClear es) (each : ∀ e ∈ es, e.Clear → AllWhole e.lexemes) :
      AllWhole (commas (lexemesAll es)) := by
    rw [lexemesAll_eq_map]
    exact allWhole_commas (List.forall_mem_map.mpr fun e inside =>
      each e inside (allClear_iff.mp all e inside))
  induction e using Expr.induction with
  | unary op operand ih => simpa [lexemes] using ih clear
  | binary left op right ihl ihr => simpa [lexemes] using ⟨ihl clear.1, ihr clear.2⟩
  | braces inner ih => simpa [lexemes] using ih clear
  | call callee args ih each | indexer base indices ih each =>
    simpa [lexemes] using ⟨ih clear.1, listed clear.2 each⟩
  | place name => simpa [lexemes] using clear.1
  | literal kind text => exact clear.allWhole

theorem TypeRef.allWhole {t : TypeRef} (clear : t.Clear) : AllWhole t.lexemes := by
  induction t with
  | builtin word =>
    have names : ∀ w ∈ builtinWords, IsName w := by decide
    simpa [lexemes] using names word clear
  | custom name => simpa [lexemes] using clear.1
  | array n element ih =>
    have commas : AllWhole (List.replicate n (.sign .comma)) := fun l inside =>
      List.eq_of_mem_replicate inside ▸ whole_sign _
    simpa +decide [lexemes, commas] using ih clear

theorem typeClause_allWhole {type : Option TypeRef} (clear : ∀ t ∈ type, t.Clear) :
    AllWhole (typeClauseLexemes type) := by
  cases type with
  | none => exact allWhole_nil
  | some t => simpa [typeClauseLexemes] using TypeRef.allWhole (clear t rfl)

theorem Stmt.allWhole (s : Stmt) (clear : ∀ e ∈ s.exprs, e.Clear) : AllWhole s.lexemes := by
  induction s using Stmt.induction with
  | expr e => simpa [lexemes] using e.allWhole (clear e List.mem_cons_self)
  | leave stop => simp +decide [lexemes]
  | block body ih =>
    have inner : AllWhole (lexemesAll body) := by
      induction body with
      | nil => exact allWhole_nil
      | cons s ss more =>
        obtain ⟨first, later⟩ := List.forall_mem_cons.mp ih
        obtain ⟨clearS, clear⟩ := List.forall_mem_append.mp clear
        exact allWhole_append.mpr ⟨first clearS, more later clear⟩
    simpa +decide [lexemes] using inner
  | ifThen c body ih =>
    simp only [exprs, List.forall_mem_cons] at clear
    simpa +decide [lexemes] using ⟨c.allWhole clear.1, ih clear.2⟩
  | ifElse c body other ihb iho =>
    simp only [exprs, List.cons_append, List.forall_mem_cons, List.forall_mem_append] at clear
    simpa +decide [lexemes] using ⟨c.allWhole clear.1, ihb clear.2.1, iho clear.2.2⟩
  | whileDo c body ih =>
    simp only [exprs, List.forall_mem_cons] at clear
    simpa +decide [lexemes] using ⟨c.allWhole clear.1, ih clear.2⟩
  | repeatWhile body c ih | repeatUntil body c ih =>
    simp only [exprs, List.forall_mem_append, List.forall_mem_singleton] at clear
    simpa +decide [lexemes] using ⟨ih clear.1, c.allWhole clear.2⟩

theorem VarGroup.allWhole {group : VarGroup} (clear : group.Clear) : AllWhole group.lexemes := by
  have names : AllWhole (commas (group.names.map fun name => [.word name])) :=
    allWhole_commas (List.forall_mem_map.mpr fun name inside =>
      allWhole_cons.mpr ⟨(clear.1 name inside).1, allWhole_nil⟩)
  simp [lexemes, names, typeClause_allWhole clear.2]

theorem Signature.allWhole {s : Signature} (clear : s.Clear) : AllWhole s.lexemes := by
  have args : AllWhole (commas (s.args.map ArgDef.lexemes)) := by
    refine allWhole_commas (List.forall_mem_map.mpr fun arg inside => ?_)
    obtain ⟨name, type⟩ := clear.args arg inside
    simpa [ArgDef.lexemes, typeClause_allWhole type] using name.1
  simpa [lexemes, args, typeClause_allWhole clear.result] using clear.name.1

theorem Method.allWhole {m : Method} (clear : m.Clear) : AllWhole m.lexemes := by
  obtain ⟨signature, body⟩ := m
  have head := Signature.allWhole clear.signature
  cases body with
  | none => simp +decide [lexemes, head]
  | some body =>
    obtain ⟨vars, block⟩ := body
    have clear := clear.body _ rfl
    have inner := (Stmt.block block).allWhole clear.block
    cases vars with
    | none => simp +decide [lexemes, Body.lexemes, head, inner]
    | some groups =>
      have groups' : AllWhole (groups.flatMap VarGroup.lexemes) := by
        refine List.forall_mem_flatMap.mpr fun group inside => ?_
        exact VarGroup.allWhole (clear.vars groups rfl group inside)
      simp +decide [lexemes, Body.lexemes, head, inner, groups']

/-! ### Instances -/

theorem Lexeme.Whole.spelled {l : Lexeme} (whole : l.Whole) : l.Spelled :=
  Token.readLexeme_spelled (Token.readLexeme_whole whole (.inl rfl))

theorem Lexeme.Whole.proper {l : Lexeme} (whole : l.Whole) : l.Proper :=
  (Token.readLexeme_proper (Token.readLexeme_whole whole (.inl rfl))).2

theorem Expr.spelled_of_clear (e : Expr) (clear : e.Clear) : e.Spelled := by
  have listed {es : List Expr} (all : AllClear es) (each : ∀ e ∈ es, e.Clear → e.Spelled) :
      AllSpelled es := by
    induction es with
    | nil => trivial
    | cons e es ih =>
      obtain ⟨first, later⟩ := List.forall_mem_cons.mp each
      exact ⟨first all.1, ih all.2 later⟩
  induction e using Expr.induction with
  | unary op operand ih => exact ih clear
  | binary left op right ihl ihr => exact ⟨ihl clear.1, ihr clear.2⟩
  | braces inner ih => exact ih clear
  | call callee args ih each | indexer base indices ih each =>
    exact ⟨ih clear.1, listed clear.2 each⟩
  | place name => exact clear.1
  | literal kind text =>
    have whole := clear.allWhole
    rw [lexemes_literal] at whole
    split at whole
    · rename_i isBool
      subst isBool
      exact clear
    · exact (allWhole_cons.mp whole).1.spelled

theorem TypeRef.spelled_of_clear {t : TypeRef} (clear : t.Clear) : t.Spelled := by
  induction t with
  | builtin word => exact clear
  | custom name => exact clear.1
  | array n element ih => exact ih clear

theorem Method.spelled_of_clear {m : Method} (clear : m.Clear) : m.Spelled := by
  have type {type : Option TypeRef} (clear : ∀ t ∈ type, t.Clear) : ∀ t ∈ type, t.Spelled :=
    fun t given => TypeRef.spelled_of_clear (clear t given)
  refine ⟨⟨clear.signature.name.1, fun arg inside => ?_, type clear.signature.result⟩,
    fun body given => ⟨fun groups declared group inside => ?_, fun e inside => ?_⟩⟩
  · obtain ⟨name, typed⟩ := clear.signature.args arg inside
    exact ⟨name.1, type typed⟩
  · obtain ⟨names, typed⟩ := (clear.body body given).vars groups declared group inside
    exact ⟨fun name inside => (names name inside).1, type typed⟩
  · exact e.spelled_of_clear ((clear.body body given).block e inside)

/-- The tree of a clear source is an instance of the grammar. -/
theorem Source.instance_of_clear {source : Source} (clear : ∀ m ∈ source, m.Clear) :
    (Source.node source).Instance := by
  refine Source.node_instance (fun m inside => Method.spelled_of_clear (clear m inside)) ?_
  refine List.forall_mem_flatMap.mpr fun m inside l isLexeme => ?_
  exact (Method.allWhole (clear m inside) l isLexeme).proper

/-- A clear source that is grouped by the levels of its operators is parsed back from its lexemes
with single spaces between them. -/
theorem parseSource_joined {source : Source} (each : ∀ m ∈ source, m.Ordered ∧ m.Clear) :
    ∃ source', parseSource (" ".intercalate ((source.flatMap Method.lexemes).map Lexeme.text)) =
      some source' ∧ source'.map Method.unplaced = source.map Method.unplaced := by
  have whole : AllWhole (source.flatMap Method.lexemes) :=
    List.forall_mem_flatMap.mpr fun m inside => Method.allWhole (each m inside).2
  obtain ⟨tokens, scanned, written⟩ := Token.scan_joined whole
  obtain ⟨source', read, same⟩ := Source.readAll_written each written (Nat.le_refl _)
  exact ⟨source', by simp [parseSource, scanned, read], same⟩

end MethodLang
