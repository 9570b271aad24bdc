import MethodLang.Proofs.Grammar.Rules
import MethodLang.Proofs.Grammar.Spelling

/-!
Scanning loses nothing. The tokens of a text are spelled as the grammar wants them, and the text is
their spellings in order with white space between them (`scan_laid`).
-/
namespace MethodLang

open Grammar

/-! ### Patterns -/

namespace Pattern

variable {isIn : Char → Bool}

theorem matches_many {cs : List Char} (inside : ∀ c ∈ cs, isIn c) :
    (many (.one isIn)).Matches cs := by
  induction cs with
  | nil => exact .done
  | cons c cs ih =>
    obtain ⟨first, later⟩ := List.forall_mem_cons.mp inside
    exact .more (.one first) (ih later)

theorem matches_last {p : Pattern} {xs : List Char} (only : p.Matches xs) : (seq [p]).Matches xs :=
  List.append_nil xs ▸ .cons only .nil

theorem matches_char (c : Char) : (char c).Matches [c] := .one (beq_self_eq_true c)

theorem matches_plus {d : Char} {ds : List Char} (inside : ∀ c ∈ d :: ds, isIn c) :
    (plus isIn).Matches (d :: ds) := by
  obtain ⟨first, later⟩ := List.forall_mem_cons.mp inside
  exact .cons (.one first) (matches_last (matches_many later))

end Pattern

/-! ### Layout and spelling -/

theorem Laid.white {c : Char} {texts : List String} {cs : List Char} (white : c ∈ whiteSpace)
    (laid : Laid texts cs) : Laid texts (c :: cs) := by
  cases laid with
  | nil blanks => exact .nil (List.forall_mem_cons.mpr ⟨white, blanks⟩)
  | cons blanks later =>
    exact .cons (List.forall_mem_cons.mpr ⟨white, blanks⟩) later

/-- A lexeme with a text of its own is spelled as its kind says. -/
def Lexeme.Proper : Lexeme → Prop
  | .word text => Spells "identifier" text
  | .literal kind text => Spells kind.name text
  | .sign _ => True

/-- A literal that is a lexeme of its own is no boolean. -/
theorem LiteralKind.ne_bool {kind : LiteralKind} {text : String}
    (spelled : Grammar.Spells kind.name text) : kind ≠ .bool := by
  rintro rfl
  obtain ⟨_, found, -⟩ := spelled
  cases found

namespace Token

/-! ### Classes of characters -/

theorem isLetter_eq (c : Char) : isLetter c = startsWord c := by
  have upper : between 'A' 'Z' c = c.isUpper := by
    rw [Bool.eq_iff_iff, Text.isUpper_iff, between, Bool.and_eq_true, decide_eq_true_iff,
      decide_eq_true_iff]
    exact Iff.rfl
  have alpha : c.isAlpha = (c.isUpper || between 'a' 'z' c) := rfl
  rw [isLetter, startsWord, alpha, upper, Bool.or_comm (between 'a' 'z' c)]

theorem isHex_eq (c : Char) : isHex c = isHexDigit c := by
  rw [isHex, isHexDigit, Bool.or_right_comm]
  rfl

theorem continuesWord_eq (c : Char) : (isLetter c || between '0' '9' c) = continuesWord c := by
  rw [isLetter_eq, startsWord, continuesWord, Char.isAlphanum, Bool.or_right_comm]
  rfl

theorem isSpace_white {c : Char} (space : isSpace c) : c ∈ whiteSpace := by
  simp only [isSpace, Bool.or_eq_true, Bool.and_eq_true, decide_eq_true_eq, beq_iff_eq] at space
  rcases space with ⟨low, high⟩ | rfl
  · have code : c.toNat = 9 ∨ c.toNat = 10 ∨ c.toNat = 11 ∨ c.toNat = 12 ∨ c.toNat = 13 := by omega
    rw [← Char.ofNat_toNat c]
    rcases code with code | code | code | code | code <;> rw [code] <;> decide
  · decide

/-! ### Lexemes -/

/-- What a string literal has between its quotes. -/
def Body (inner : List Char) : Prop :=
  ∃ plain groups, inner = plain ++ groups ∧ (∀ c ∈ plain, isPlain c) ∧
    (Pattern.many (.seq [.char '\\', .one (· != '\n'), .many (.one isPlain)])).Matches groups

theorem Body.nil : Body [] := ⟨[], [], rfl, List.forall_mem_nil _, .done⟩

theorem Body.plain {c : Char} {inner : List Char} (isIn : isPlain c) (h : Body inner) :
    Body (c :: inner) := by
  obtain ⟨plain, groups, rfl, plains, later⟩ := h
  exact ⟨c :: plain, groups, rfl, List.forall_mem_cons.mpr ⟨isIn, plains⟩, later⟩

theorem Body.escape {c : Char} {inner : List Char} (sameLine : c ≠ '\n') (h : Body inner) :
    Body ('\\' :: c :: inner) := by
  obtain ⟨plain, groups, rfl, plains, later⟩ := h
  refine ⟨[], '\\' :: c :: plain ++ groups, rfl, List.forall_mem_nil _, .more ?_ later⟩
  have escaped : Pattern.Matches (.one (· != '\n')) [c] := .one (bne_iff_ne.mpr sameLine)
  exact .cons (Pattern.matches_char '\\')
    (.cons escaped (Pattern.matches_last (Pattern.matches_many plains)))

theorem Body.spells {inner : List Char} (h : Body inner) :
    Spells "str" (String.ofList ('"' :: inner ++ ['"'])) := by
  obtain ⟨plain, groups, rfl, plains, later⟩ := h
  refine ⟨_, rfl, ?_⟩
  rw [String.toList_ofList, List.cons_append, List.append_assoc]
  exact .cons (Pattern.matches_char '"') (.cons (Pattern.matches_many plains)
    (.cons later (Pattern.matches_last (Pattern.matches_char '"'))))

theorem readString_body {cs body rest : List Char} (h : readString cs = some (body, rest)) :
    cs = body ++ rest ∧ ∃ inner, body = inner ++ ['"'] ∧ Body inner := by
  fun_induction readString cs generalizing body rest with
  | case1 => cases h
  | case2 cs =>
    cases h
    exact ⟨rfl, [], rfl, .nil⟩
  | case3 => cases h
  | case4 c cs allowed ih =>
    obtain ⟨⟨later, after⟩, read, same⟩ := Option.map_eq_some_iff.mp h
    cases same
    obtain ⟨rfl, inner, rfl, proper⟩ := ih read
    refine ⟨rfl, '\\' :: c :: inner, rfl, proper.escape fun feed => allowed ?_⟩
    simp [feed]
  | case5 => cases h
  | case6 c cs notQuote _ allowed ih =>
    obtain ⟨⟨later, after⟩, read, same⟩ := Option.map_eq_some_iff.mp h
    cases same
    obtain ⟨rfl, inner, rfl, proper⟩ := ih read
    refine ⟨rfl, c :: inner, rfl, proper.plain ?_⟩
    simp only [Bool.or_eq_true, beq_iff_eq, not_or] at allowed
    have quote : c ≠ '"' := fun is => notQuote is
    simp [isPlain, quote, allowed.1]

theorem spells_word {name : String} (isName : IsName name) : Spells "identifier" name := by
  refine ⟨_, rfl, ?_⟩
  unfold IsName Text.isIdentifier at isName
  split at isName
  · cases isName
  · rename_i c cs chars
    obtain ⟨starts, continues⟩ := Bool.and_eq_true_iff.mp isName
    rw [chars]
    refine .cons (.one (isLetter_eq c ▸ starts)) (Pattern.matches_last (Pattern.matches_many ?_))
    exact fun d inside => continuesWord_eq d ▸ List.all_eq_true.mp continues d inside

theorem spells_number {kind : LiteralKind} {text : String} (spelled : kind.Spells text)
    (number : kind = .hex ∨ kind = .bits ∨ kind = .dec) : Spells kind.name text := by
  rcases number with rfl | rfl | rfl <;> refine ⟨_, rfl, ?_⟩
  · obtain ⟨m, d, ds, marker, chars, digits⟩ := spelled
    rw [chars]
    have marked : Pattern.Matches (.one fun c => c == 'x' || c == 'X') [m] :=
      .one (by simp [marker])
    refine .cons (Pattern.matches_char '0') (.cons marked (Pattern.matches_last ?_))
    exact Pattern.matches_plus fun c inside => isHex_eq c ▸ digits c inside
  · obtain ⟨m, d, ds, marker, chars, digits⟩ := spelled
    rw [chars]
    have marked : Pattern.Matches (.one fun c => c == 'b' || c == 'B') [m] :=
      .one (by simp [marker])
    exact .cons (Pattern.matches_char '0')
      (.cons marked (Pattern.matches_last (Pattern.matches_plus digits)))
  · obtain ⟨d, ds, chars, digits⟩ := spelled
    rw [chars]
    exact Pattern.matches_plus digits

theorem readNumber_text {first : Char} {cs text rest : List Char} {kind : LiteralKind}
    (h : readNumber first cs = (kind, text, rest)) :
    first :: cs = text ++ rest ∧ (kind = .hex ∨ kind = .bits ∨ kind = .dec) := by
  unfold readNumber at h
  split at h
  · split at h
    · cases h
      simp
    · split at h <;> cases h <;> simp
  · cases h
    simp

theorem readSign_text {cs rest : List Char} {s : Sign} (h : readSign cs = some (s, rest)) :
    cs = s.text.toList ++ rest := by
  unfold readSign at h
  split at h <;> cases h <;> rfl

theorem readLexeme_proper {cs rest : List Char} {lexeme : Lexeme}
    (h : readLexeme cs = some (lexeme, rest)) :
    cs = lexeme.text.toList ++ rest ∧ lexeme.Proper := by
  have spelled := readLexeme_spelled h
  unfold readLexeme at h
  split at h
  · cases h
  · rename_i c cs
    split at h
    · cases h
      exact ⟨by simp [Lexeme.text], spells_word spelled⟩
    split at h
    · cases h
      obtain ⟨split, number⟩ := readNumber_text (rfl : readNumber c cs = _)
      exact ⟨by rw [Lexeme.text, String.toList_ofList, ← split], spells_number spelled number⟩
    split at h
    · rename_i quote
      obtain ⟨⟨body, after⟩, read, same⟩ := Option.map_eq_some_iff.mp h
      cases same
      obtain ⟨rfl, inner, rfl, proper⟩ := readString_body read
      rw [beq_iff_eq] at quote
      subst quote
      exact ⟨by simp [Lexeme.text], proper.spells⟩
    split at h
    · rename_i quote
      rw [beq_iff_eq] at quote
      subst quote
      split at h
      · rename_i d after
        split at h
        · cases h
        · rename_i allowed
          cases h
          refine ⟨by simp [Lexeme.text], _, rfl, ?_⟩
          have inner : Pattern.Matches (.one (· != '\'')) [d] := .one (by simp_all)
          exact String.toList_ofList ▸ .cons (Pattern.matches_char '\'')
            (.cons inner (Pattern.matches_last (Pattern.matches_char '\'')))
      · cases h
    · obtain ⟨⟨s, after⟩, sign, same⟩ := Option.map_eq_some_iff.mp h
      cases same
      exact ⟨readSign_text sign, trivial⟩

/-! ### Texts -/

theorem scanFrom_laid {fuel : Nat} {p : Position} {cs : List Char} {tokens : List Token}
    (h : scanFrom fuel p cs = some tokens) : Laid (tokens.map (·.lexeme.text)) cs := by
  fun_induction scanFrom fuel p cs generalizing tokens with
  | case1 =>
    cases h
    exact .nil (List.forall_mem_nil _)
  | case2 => cases h
  | case3 fuel p c cs space ih => exact (ih h).white (isSpace_white space)
  | case4 => cases h
  | case5 fuel p c cs _ lexeme rest read =>
    rename_i ih
    obtain ⟨later, scanned, rfl⟩ := Option.map_eq_some_iff.mp h
    rw [(readLexeme_proper read).1]
    exact .cons (List.forall_mem_nil _) (ih scanned)

/-- A scanned text is laid out from its tokens, behind a mark if it has one. -/
theorem scan_laid {text : String} {tokens : List Token} (h : scan text = some tokens) :
    (∃ chars, (text.toList = chars ∨ text.toList = byteOrderMark :: chars) ∧
      Laid (tokens.map (·.lexeme.text)) chars) ∧ ∀ t ∈ tokens, t.lexeme.Proper := by
  refine ⟨?_, scan_each (fun read => (readLexeme_proper read).2) h⟩
  unfold scan at h
  split at h
  · rename_i empty
    cases h
    exact ⟨[], .inl empty, .nil (List.forall_mem_nil _)⟩
  · rename_i c cs chars
    split at h
    · rename_i mark
      exact ⟨cs, .inr (eq_of_beq mark ▸ chars), scanFrom_laid h⟩
    · exact ⟨c :: cs, .inl chars, scanFrom_laid h⟩

end Token

end MethodLang
