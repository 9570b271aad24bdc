import MethodLang.Grammar.Parser
import MethodLang.Proofs.Shape
import MethodLang.Text.Identifier

/-!
How names, literals and types are spelled in a source. Every token of a scanned text is spelled
as its kind says (`Token.scan_spelled`).
-/
namespace MethodLang

namespace Text

variable {c : Char}

theorem isUpper_iff : c.isUpper ↔ 65 ≤ c.toNat ∧ c.toNat ≤ 90 := decide_eq_true_iff

theorem isLower_iff : c.isLower ↔ 97 ≤ c.toNat ∧ c.toNat ≤ 122 :=
  Bool.and_eq_true_iff.trans (and_congr decide_eq_true_iff decide_eq_true_iff)

theorem isAlpha_iff : c.isAlpha ↔ c.isUpper ∨ c.isLower := Bool.or_eq_true_iff

end Text

/-- A name: ASCII letters, digits and underscores, not starting with a digit. -/
def IsName (name : String) : Prop := Text.isIdentifier name.toList = true

instance (name : String) : Decidable (IsName name) := inferInstanceAs (Decidable (_ = true))

/-- The texts of the literals of a kind. -/
def LiteralKind.Spells (text : String) : LiteralKind → Prop
  | .bool => text = "true" ∨ text = "false"
  | .str => ∃ body, text.toList = '"' :: body ++ ['"']
  | .char => ∃ c, text.toList = ['\'', c, '\'']
  | .hex => ∃ m d ds, (m = 'x' ∨ m = 'X') ∧ text.toList = '0' :: m :: d :: ds ∧
      ∀ c ∈ d :: ds, Token.isHexDigit c
  | .bits => ∃ m d ds, (m = 'b' ∨ m = 'B') ∧ text.toList = '0' :: m :: d :: ds ∧
      ∀ c ∈ d :: ds, Token.isBit c
  | .dec => ∃ d ds, text.toList = d :: ds ∧ ∀ c ∈ d :: ds, c.isDigit

def Lexeme.Spelled : Lexeme → Prop
  | .word text => IsName text
  | .literal kind text => kind.Spells text
  | .sign _ => True

mutual
def Expr.Spelled : Expr → Prop
  | .unary _ operand => operand.Spelled
  | .binary left _ right => left.Spelled ∧ right.Spelled
  | .braces inner => inner.Spelled
  | .call callee args => callee.Spelled ∧ Expr.AllSpelled args
  | .indexer base indices => base.Spelled ∧ Expr.AllSpelled indices
  | .place name => IsName name
  | .literal kind text => kind.Spells text

def Expr.AllSpelled : List Expr → Prop
  | [] => True
  | e :: es => e.Spelled ∧ Expr.AllSpelled es
end

def TypeRef.Spelled : TypeRef → Prop
  | .builtin word => word ∈ TypeRef.builtinWords
  | .custom name => IsName name
  | .array _ element => element.Spelled

def ArgDef.Spelled (arg : ArgDef) : Prop := IsName arg.name ∧ ∀ t ∈ arg.type, t.Spelled

def VarGroup.Spelled (group : VarGroup) : Prop :=
  (∀ name ∈ group.names, IsName name) ∧ ∀ t ∈ group.type, t.Spelled

structure Signature.Spelled (s : Signature) : Prop where
  name : IsName s.name
  args : ∀ arg ∈ s.args, arg.Spelled
  result : ∀ t ∈ s.result, t.Spelled

structure Body.Spelled (body : Body) : Prop where
  vars : ∀ groups ∈ body.vars, ∀ group ∈ groups, group.Spelled
  block : ∀ e ∈ Stmt.exprsAll body.block, e.Spelled

structure Method.Spelled (m : Method) : Prop where
  signature : m.signature.Spelled
  body : ∀ body ∈ m.body, body.Spelled

/-! ### Tokens -/

namespace Token

theorem isIdentifier_word {c : Char} (starts : startsWord c) (cs : List Char) :
    Text.isIdentifier (c :: cs.takeWhile continuesWord) := by
  simp only [Text.isIdentifier, Bool.and_eq_true]
  exact ⟨starts, List.all_takeWhile⟩

theorem readString_closed {cs body rest : List Char} (h : readString cs = some (body, rest)) :
    ∃ inner, body = inner ++ ['"'] := by
  fun_induction readString cs generalizing body rest with
  | case1 => cases h
  | case2 cs =>
    cases h
    exact ⟨[], rfl⟩
  | case3 => cases h
  | case4 c cs _ ih =>
    obtain ⟨⟨inner, after⟩, read, same⟩ := Option.map_eq_some_iff.mp h
    cases same
    obtain ⟨inner, rfl⟩ := ih read
    exact ⟨'\\' :: c :: inner, rfl⟩
  | case5 => cases h
  | case6 c cs _ _ _ ih =>
    obtain ⟨⟨inner, after⟩, read, same⟩ := Option.map_eq_some_iff.mp h
    cases same
    obtain ⟨inner, rfl⟩ := ih read
    exact ⟨c :: inner, rfl⟩

theorem digits_takeWhile {p : Char → Bool} {d : Char} (first : p d) (cs : List Char) :
    ∀ c ∈ d :: cs.takeWhile p, p c := by
  intro c inside
  rcases List.mem_cons.mp inside with rfl | later
  · exact first
  · exact List.all_eq_true.mp List.all_takeWhile c later

theorem readNumber_spells {first : Char} {cs : List Char} (digit : first.isDigit)
    {kind : LiteralKind} {text rest : List Char}
    (h : readNumber first cs = (kind, text, rest)) : kind.Spells (String.ofList text) := by
  have decimal : LiteralKind.dec.Spells (String.ofList (first :: cs.takeWhile Char.isDigit)) :=
    ⟨first, _, String.toList_ofList, digits_takeWhile digit cs⟩
  unfold readNumber at h
  split at h
  · rename_i m d after
    split at h
    · rename_i isHex
      simp only [Bool.and_eq_true, Bool.or_eq_true, beq_iff_eq] at isHex
      obtain ⟨⟨rfl, marker⟩, hex⟩ := isHex
      cases h
      exact ⟨m, d, _, marker, String.toList_ofList, digits_takeWhile hex after⟩
    · split at h
      · rename_i isBits
        simp only [Bool.and_eq_true, Bool.or_eq_true, beq_iff_eq] at isBits
        obtain ⟨⟨rfl, marker⟩, bit⟩ := isBits
        cases h
        exact ⟨m, d, _, marker, String.toList_ofList, digits_takeWhile bit after⟩
      · cases h
        exact decimal
  · cases h
    exact decimal

theorem readLexeme_spelled {cs rest : List Char} {lexeme : Lexeme}
    (h : readLexeme cs = some (lexeme, rest)) : lexeme.Spelled := by
  unfold readLexeme at h
  split at h
  · cases h
  · rename_i c cs
    split at h
    · rename_i starts
      cases h
      rw [Lexeme.Spelled, IsName, String.toList_ofList]
      exact isIdentifier_word starts cs
    split at h
    · rename_i digit
      cases h
      exact readNumber_spells digit rfl
    split at h
    · rename_i quote
      obtain ⟨⟨body, after⟩, read, same⟩ := Option.map_eq_some_iff.mp h
      cases same
      obtain ⟨inner, rfl⟩ := readString_closed read
      rw [beq_iff_eq] at quote
      subst quote
      exact ⟨inner, String.toList_ofList⟩
    split at h
    · rename_i quote
      rw [beq_iff_eq] at quote
      subst quote
      split at h
      · rename_i d after
        split at h
        · cases h
        · cases h
          exact ⟨d, String.toList_ofList⟩
      · cases h
    · obtain ⟨⟨s, after⟩, _, same⟩ := Option.map_eq_some_iff.mp h
      cases same
      trivial

section
variable {P : Lexeme → Prop}
  (each : ∀ {cs rest : List Char} {l : Lexeme}, readLexeme cs = some (l, rest) → P l)
include each

/-- What holds of every lexeme that is read holds of all tokens of a text. -/
theorem scanFrom_each {fuel : Nat} {p : Position} {cs : List Char} {tokens : List Token}
    (h : scanFrom fuel p cs = some tokens) : ∀ t ∈ tokens, P t.lexeme := by
  fun_induction scanFrom fuel p cs generalizing tokens with
  | case1 =>
    cases h
    exact List.forall_mem_nil _
  | case2 => cases h
  | case3 fuel p c cs _ ih => exact ih h
  | case4 => cases h
  | case5 fuel p c cs _ lexeme rest read =>
    rename_i ih
    obtain ⟨later, scanned, rfl⟩ := Option.map_eq_some_iff.mp h
    exact List.forall_mem_cons.mpr ⟨each read, ih scanned⟩

theorem scan_each {text : String} {tokens : List Token} (h : scan text = some tokens) :
    ∀ t ∈ tokens, P t.lexeme := by
  unfold scan at h
  split at h
  · cases h
    exact List.forall_mem_nil _
  · split at h <;> exact scanFrom_each each h

end

theorem scan_spelled {text : String} {tokens : List Token} (h : scan text = some tokens) :
    ∀ t ∈ tokens, t.lexeme.Spelled := scan_each readLexeme_spelled h

end Token

end MethodLang
