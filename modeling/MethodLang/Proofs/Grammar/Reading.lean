import MethodLang.Proofs.Grammar.Grouping
import MethodLang.Proofs.Grammar.Scanning

/-!
Reading takes what it reads. A reader takes just the lexemes of the tree it returns, and the tree is
grouped by the levels of its operators and spelled as the language wants it (`Source.readAll_takes`).
-/
namespace MethodLang

/-! ### Taking tokens -/

/-- Every token is spelled as its kind says and as the grammar wants it. -/
def Tokens.Proper (tokens : List Token) : Prop := ∀ t ∈ tokens, t.lexeme.Proper ∧ t.lexeme.Spelled

/-- The tokens are the lexemes, and behind them what is left. -/
def Takes (tokens : List Token) (lexemes : List Lexeme) (rest : List Token) : Prop :=
  tokens.map Token.lexeme = lexemes ++ rest.map Token.lexeme

namespace Takes

variable {tokens middle rest : List Token} {xs ys : List Lexeme}

theorem refl (tokens : List Token) : Takes tokens [] tokens := rfl

theorem trans (first : Takes tokens xs middle) (later : Takes middle ys rest) :
    Takes tokens (xs ++ ys) rest := by
  rw [Takes, first, later, List.append_assoc]

theorem proper_lexemes (h : Takes tokens xs rest) (proper : Tokens.Proper tokens) :
    (∀ l ∈ xs, l.Proper ∧ l.Spelled) ∧ Tokens.Proper rest := by
  have all : ∀ l ∈ xs ++ rest.map Token.lexeme, l.Proper ∧ l.Spelled := by
    rw [← h]
    exact List.forall_mem_map.mpr proper
  obtain ⟨taken, left⟩ := List.forall_mem_append.mp all
  exact ⟨taken, List.forall_mem_map.mp left⟩

theorem proper (h : Takes tokens xs rest) (proper : Tokens.Proper tokens) : Tokens.Proper rest :=
  (h.proper_lexemes proper).2

theorem one {t : Token} {lexeme : Lexeme} (is : t.lexeme = lexeme) (rest : List Token) :
    Takes (t :: rest) [lexeme] rest := is ▸ rfl

theorem expect {lexeme : Lexeme} (h : MethodLang.expect lexeme tokens = some rest) :
    Takes tokens [lexeme] rest := by
  cases tokens with
  | nil => cases h
  | cons t ts =>
    simp only [MethodLang.expect] at h
    split at h
    · cases h
      exact one ‹_› _
    · cases h

theorem readWord {name : String} (h : MethodLang.readWord tokens = some (name, rest)) :
    Takes tokens [.word name] rest := by
  unfold MethodLang.readWord at h
  split at h
  · cases h
    exact one rfl _
  · cases h

theorem isName {name : String} (h : Takes tokens [.word name] rest)
    (proper : Tokens.Proper tokens) : IsName name :=
  ((h.proper_lexemes proper).1 _ List.mem_cons_self).2

end Takes

/-! ### Expressions -/

/-- An expression whose operators have at least the level cannot go on at the tokens. -/
def Stops (level : Nat) (tokens : List Token) : Prop :=
  ∀ t ∈ tokens.head?, t.lexeme ≠ .sign .openParen ∧ t.lexeme ≠ .sign .openBracket ∧
    ∀ op, t.lexeme = .sign (.binary op) → op.level < level

/-- The last operand of the expression cannot go on at the tokens. -/
def Expr.Fits : Expr → List Token → Prop
  | .binary _ op _, tokens => Stops op.rightLevel tokens
  | .unary _ _, tokens => Stops UnaryOp.level tokens
  | _, _ => True

namespace Expr

/-- What an expression is that has been read up to the rest of the tokens, and may go on. -/
structure Begun (level : Nat) (tokens : List Token) (e : Expr) (rest : List Token) : Prop where
  takes : Takes tokens e.lexemes rest
  ordered : e.Ordered
  spelled : e.Spelled
  least : ∀ o ∈ e.operator?, level ≤ o.level
  fits : e.Fits rest

/-- What an expression is that has been read and does not go on. -/
structure Taken (level : Nat) (tokens : List Token) (e : Expr) (rest : List Token) : Prop where
  takes : Takes tokens e.lexemes rest
  ordered : e.Ordered
  spelled : e.Spelled
  least : ∀ o ∈ e.operator?, level ≤ o.level
  stops : Stops level rest

variable {level : Nat} {tokens rest : List Token} {e : Expr}

theorem Begun.ends (h : Begun level tokens e rest) (stops : Stops level rest) :
    Taken level tokens e rest := ⟨h.takes, h.ordered, h.spelled, h.least, stops⟩

/-- What may be called or indexed is neither a binary nor a unary expression. -/
theorem Begun.base {t : Token} (h : Begun level tokens e (t :: rest))
    (opens : t.lexeme = .sign .openParen ∨ t.lexeme = .sign .openBracket) :
    e.operator? = none ∧ e.isUnary = false := by
  have goesOn {l : Nat} (stops : Stops l (t :: rest)) : False := by
    obtain ⟨paren, bracket, -⟩ := stops t rfl
    exact opens.elim paren bracket
  have fits := h.fits
  cases e with
  | binary | unary => exact (goesOn fits).elim
  | braces | call | indexer | place | literal => exact ⟨rfl, rfl⟩

theorem Begun.left {t : Token} {op : BinaryOp} (h : Begun level tokens e (t :: rest))
    (is : t.lexeme = .sign (.binary op)) : ∀ o ∈ e.operator?, op.level < o.rightLevel := by
  have fits := h.fits
  cases e with
  | binary left own right =>
    intro o same
    cases same
    exact (fits t rfl).2.2 op is
  | unary | braces | call | indexer | place | literal => exact fun _ found => nomatch found

/-- An expression without operators at its top may always go on. -/
theorem Begun.simple (takes : Takes tokens e.lexemes rest) (ordered : e.Ordered)
    (spelled : e.Spelled) (binary : e.operator? = none) (unary : e.isUnary = false) :
    Begun level tokens e rest := by
  refine ⟨takes, ordered, spelled, fun o is => ?_, ?_⟩
  · rw [binary] at is
    cases is
  · cases e with
    | binary => cases binary
    | unary => cases unary
    | braces | call | indexer | place | literal => trivial

theorem lexemes_literal (kind : LiteralKind) (text : String) : (literal kind text).lexemes =
    if kind = .bool then [.word text] else [.literal kind text] := by
  cases kind <;> rfl

theorem lexemesAll_ne_nil {es : List Expr} (nonempty : es ≠ []) : lexemesAll es ≠ [] := by
  cases es with
  | nil => exact absurd rfl nonempty
  | cons e es => exact List.cons_ne_nil _ _

/-- What a reader of lists takes: items between commas, and the closing sign. -/
def ListTaken (close : Sign) (tokens : List Token) (es : List Expr) (rest : List Token) : Prop :=
  Takes tokens (commas (lexemesAll es) ++ [.sign close]) rest ∧ AllOrdered es ∧ AllSpelled es

/-- What the four readers of expressions take, given a bound on their calls. -/
structure ReadTaken (fuel : Nat) : Prop where
  read : ∀ {level tokens e rest}, Expr.read fuel level tokens = some (e, rest) →
    Tokens.Proper tokens → Taken level tokens e rest
  extend : ∀ {level all left tokens e rest}, Expr.extend fuel level left tokens = some (e, rest) →
    Tokens.Proper tokens → Begun level all left tokens → Taken level all e rest
  readList : ∀ {close tokens es rest}, Expr.readList fuel close tokens = some (es, rest) →
    Tokens.Proper tokens → ListTaken close tokens es rest
  readItems : ∀ {close tokens es rest}, Expr.readItems fuel close tokens = some (es, rest) →
    Tokens.Proper tokens → es ≠ [] ∧ ListTaken close tokens es rest

variable {fuel : Nat}

theorem read_taken (ih : ReadTaken fuel) (h : Expr.read (fuel + 1) level tokens = some (e, rest))
    (proper : Tokens.Proper tokens) : Taken level tokens e rest := by
  cases tokens with
  | nil => cases h
  | cons t ts =>
    obtain ⟨first, later⟩ := List.forall_mem_cons.mp proper
    simp only [Expr.read] at h
    split at h
    case h_1 text word =>
      have takes := Takes.one word ts
      split at h
      · exact ih.extend h later (.simple takes trivial ‹_› rfl rfl)
      · exact ih.extend h later (.simple takes trivial (takes.isName proper) rfl rfl)
    case h_2 kind text literal =>
      rw [literal] at first
      have takes : Takes (t :: ts) (Expr.literal kind text).lexemes ts := by
        rw [lexemes_literal, if_neg (LiteralKind.ne_bool first.1)]
        exact .one literal ts
      exact ih.extend h later (.simple takes trivial first.2 rfl rfl)
    case h_3 op sign =>
      obtain ⟨⟨operand, after⟩, read, h⟩ := Option.bind_eq_some_iff.mp h
      have inner := ih.read read later
      have simple : operand.operator? = none := Option.eq_none_iff_forall_not_mem.mpr fun o is =>
        Nat.not_lt.mpr (inner.least o is) o.level_lt_unary
      exact ih.extend h (inner.takes.proper later)
        ⟨(Takes.one sign ts).trans inner.takes, ⟨simple, inner.ordered⟩,
          inner.spelled, fun _ is => (by cases is), inner.stops⟩
    case h_4 sign =>
      obtain ⟨⟨inner, after⟩, read, h⟩ := Option.bind_eq_some_iff.mp h
      obtain ⟨closed, close, h⟩ := Option.bind_eq_some_iff.mp h
      have inner := ih.read read later
      have takes := inner.takes.trans (Takes.expect close)
      exact ih.extend h (takes.proper later)
        (.simple ((Takes.one sign ts).trans takes) inner.ordered inner.spelled rfl rfl)
    case h_5 => cases h

theorem extend_taken (ih : ReadTaken fuel) {all : List Token} {left : Expr}
    (h : Expr.extend (fuel + 1) level left tokens = some (e, rest))
    (proper : Tokens.Proper tokens) (begun : Begun level all left tokens) :
    Taken level all e rest := by
  cases tokens with
  | nil =>
    cases h
    exact begun.ends nofun
  | cons t ts =>
    obtain ⟨-, later⟩ := List.forall_mem_cons.mp proper
    simp only [Expr.extend] at h
    split at h
    case h_1 sign =>
      obtain ⟨⟨args, after⟩, read, h⟩ := Option.bind_eq_some_iff.mp h
      obtain ⟨takes, ordered, spelled⟩ := ih.readList read later
      obtain ⟨binary, unary⟩ := begun.base (.inl sign)
      exact ih.extend h (takes.proper later)
        (.simple (begun.takes.trans ((Takes.one sign ts).trans takes))
          ⟨⟨⟨binary, unary⟩, begun.ordered⟩, ordered⟩ ⟨begun.spelled, spelled⟩ rfl rfl)
    case h_2 sign =>
      obtain ⟨⟨indices, after⟩, read, h⟩ := Option.bind_eq_some_iff.mp h
      obtain ⟨takes, ordered, spelled⟩ := ih.readList read later
      obtain ⟨binary, unary⟩ := begun.base (.inr sign)
      exact ih.extend h (takes.proper later)
        (.simple (begun.takes.trans ((Takes.one sign ts).trans takes))
          ⟨⟨⟨binary, unary⟩, begun.ordered⟩, ordered⟩ ⟨begun.spelled, spelled⟩ rfl rfl)
    case h_3 op sign =>
      split at h
      · rename_i enough
        obtain ⟨⟨right, after⟩, read, h⟩ := Option.bind_eq_some_iff.mp h
        have inner := ih.read read later
        refine ih.extend h (inner.takes.proper later)
          ⟨begun.takes.trans ((Takes.one sign ts).trans inner.takes),
            ⟨⟨begun.left sign, begun.ordered⟩, inner.least, inner.ordered⟩,
            ⟨begun.spelled, inner.spelled⟩, ?_, inner.stops⟩
        exact fun o same => Option.mem_some_iff.mp same ▸ enough
      · rename_i less
        cases h
        refine begun.ends fun u same => ?_
        cases same
        rw [sign]
        refine ⟨by simp, by simp, fun o same => ?_⟩
        cases same
        exact Nat.lt_of_not_le less
    case h_4 notParen notBracket notBinary =>
      cases h
      refine begun.ends fun u same => ?_
      cases same
      exact ⟨notParen, notBracket, fun op is => absurd is (notBinary op)⟩

theorem readItems_taken (ih : ReadTaken fuel) {close : Sign} {es : List Expr}
    (h : Expr.readItems (fuel + 1) close tokens = some (es, rest)) (proper : Tokens.Proper tokens) :
    es ≠ [] ∧ ListTaken close tokens es rest := by
  simp only [Expr.readItems] at h
  obtain ⟨⟨e, after⟩, read, h⟩ := Option.bind_eq_some_iff.mp h
  have inner := ih.read read proper
  split at h
  · rename_i closed
    cases h
    exact ⟨List.cons_ne_nil _ _, inner.takes.trans (Takes.expect closed),
      ⟨inner.ordered, trivial⟩, inner.spelled, trivial⟩
  · obtain ⟨behind, comma, h⟩ := Option.bind_eq_some_iff.mp h
    obtain ⟨⟨others, last⟩, items, h⟩ := Option.bind_eq_some_iff.mp h
    cases h
    have first := inner.takes.trans (Takes.expect comma)
    obtain ⟨nonempty, takes, ordered, spelled⟩ := ih.readItems items (first.proper proper)
    refine ⟨List.cons_ne_nil _ _, ?_, ⟨inner.ordered, ordered⟩, inner.spelled, spelled⟩
    rw [lexemesAll, commas_cons (lexemesAll_ne_nil nonempty)]
    simpa using first.trans takes

theorem readTaken (fuel : Nat) : ReadTaken fuel := by
  induction fuel with
  | zero =>
    refine ⟨?_, ?_, ?_, ?_⟩ <;> intros <;> contradiction
  | succ fuel ih =>
    refine ⟨read_taken ih, extend_taken ih, ?_, readItems_taken ih⟩
    intro close tokens es rest h proper
    simp only [Expr.readList] at h
    split at h
    · rename_i closed
      cases h
      exact ⟨Takes.expect closed, trivial, trivial⟩
    · exact (ih.readItems h proper).2

end Expr

theorem parseExpr_taken {tokens rest : List Token} {e : Expr}
    (h : parseExpr tokens = some (e, rest)) (proper : Tokens.Proper tokens) :
    Expr.Taken 0 tokens e rest := (Expr.readTaken _).read h proper

/-! ### Statements -/

namespace Stmt

/-- What a statement is that has been read: an `else` behind it belongs to none of its parts. -/
structure Taken (tokens : List Token) (s : Stmt) (rest : List Token) : Prop where
  takes : Takes tokens s.lexemes rest
  ordered : s.Ordered
  spelled : ∀ e ∈ s.exprs, e.Spelled
  closed : s.endsOpen → expect (.word "else") rest = none

/-- What the reader of blocks takes: statements and the closing `end;`. -/
def BlockTaken (tokens : List Token) (ss : List Stmt) (rest : List Token) : Prop :=
  Takes tokens (lexemesAll ss ++ [.word "end", .sign .semicolon]) rest ∧ AllOrdered ss ∧
    ∀ e ∈ exprsAll ss, e.Spelled

/-- What the two readers of statements take, given a bound on their calls. -/
structure ReadTaken (fuel : Nat) : Prop where
  read : ∀ {tokens s rest}, Stmt.read fuel tokens = some (s, rest) →
    Tokens.Proper tokens → Taken tokens s rest
  readBlock : ∀ {tokens ss rest}, Stmt.readBlock fuel tokens = some (ss, rest) →
    Tokens.Proper tokens → BlockTaken tokens ss rest

variable {fuel : Nat} {t : Token} {tokens rest : List Token} {s : Stmt}

theorem readIf_taken (ih : ReadTaken fuel) (first : t.lexeme = .word "if")
    (h : (do
      let (condition, rest) ← parseExpr tokens
      let rest ← expect (.word "then") rest
      let (body, rest) ← Stmt.read fuel rest
      match expect (.word "else") rest with
      | some rest => do
        let (other, rest) ← Stmt.read fuel rest
        some (.ifElse condition body other, rest)
      | none => some (.ifThen condition body, rest)) = some (s, rest))
    (proper : Tokens.Proper tokens) : Taken (t :: tokens) s rest := by
  obtain ⟨⟨condition, _⟩, read, h⟩ := Option.bind_eq_some_iff.mp h
  obtain ⟨_, word, h⟩ := Option.bind_eq_some_iff.mp h
  obtain ⟨⟨body, after⟩, inner, h⟩ := Option.bind_eq_some_iff.mp h
  have condition := parseExpr_taken read proper
  have start := condition.takes.trans (Takes.expect word)
  have taken := ih.read inner (start.proper proper)
  have spelled := List.forall_mem_cons.mpr ⟨condition.spelled, taken.spelled⟩
  simp only at h
  split at h
  · rename_i word
    obtain ⟨⟨other, _⟩, inner, h⟩ := Option.bind_eq_some_iff.mp h
    cases h
    have middle := taken.takes.trans (Takes.expect word)
    have other := ih.read inner (middle.proper (start.proper proper))
    -- An open body would have left no `else` for this one.
    have nearest : body.endsOpen = false := Bool.eq_false_iff.mpr fun ends => by
      simp [taken.closed ends] at word
    refine ⟨?_, ⟨condition.ordered, ⟨nearest, taken.ordered⟩, other.ordered⟩,
      List.forall_mem_append.mpr ⟨spelled, other.spelled⟩, other.closed⟩
    simpa [lexemes] using (Takes.one first _).trans (start.trans (middle.trans other.takes))
  · rename_i noElse
    cases h
    refine ⟨?_, ⟨condition.ordered, taken.ordered⟩, spelled, fun _ => noElse⟩
    simpa [lexemes] using (Takes.one first _).trans (start.trans taken.takes)

theorem readRepeat_taken (ih : ReadTaken fuel) (first : t.lexeme = .word "repeat")
    (h : (do
      let (body, rest) ← Stmt.read fuel tokens
      match expect (.word "while") rest with
      | some rest => do
        let (condition, rest) ← parseExpr rest
        let rest ← expect (.sign .semicolon) rest
        some (.repeatWhile body condition, rest)
      | none => do
        let rest ← expect (.word "until") rest
        let (condition, rest) ← parseExpr rest
        let rest ← expect (.sign .semicolon) rest
        some (.repeatUntil body condition, rest)) = some (s, rest))
    (proper : Tokens.Proper tokens) : Taken (t :: tokens) s rest := by
  obtain ⟨⟨body, _⟩, inner, h⟩ := Option.bind_eq_some_iff.mp h
  have body := ih.read inner proper
  simp only at h
  split at h
  · rename_i word
    obtain ⟨⟨condition, _⟩, read, h⟩ := Option.bind_eq_some_iff.mp h
    obtain ⟨_, sign, h⟩ := Option.bind_eq_some_iff.mp h
    cases h
    have start := body.takes.trans (Takes.expect word)
    have condition := parseExpr_taken read (start.proper proper)
    refine ⟨?_, ⟨body.ordered, condition.ordered⟩,
      List.forall_mem_append.mpr ⟨body.spelled, List.forall_mem_singleton.mpr condition.spelled⟩,
      nofun⟩
    simpa [lexemes] using (Takes.one first _).trans
      (start.trans (condition.takes.trans (Takes.expect sign)))
  · obtain ⟨_, word, h⟩ := Option.bind_eq_some_iff.mp h
    obtain ⟨⟨condition, _⟩, read, h⟩ := Option.bind_eq_some_iff.mp h
    obtain ⟨_, sign, h⟩ := Option.bind_eq_some_iff.mp h
    cases h
    have start := body.takes.trans (Takes.expect word)
    have condition := parseExpr_taken read (start.proper proper)
    refine ⟨?_, ⟨body.ordered, condition.ordered⟩,
      List.forall_mem_append.mpr ⟨body.spelled, List.forall_mem_singleton.mpr condition.spelled⟩,
      nofun⟩
    simpa [lexemes] using (Takes.one first _).trans
      (start.trans (condition.takes.trans (Takes.expect sign)))

theorem read_taken (ih : ReadTaken fuel) (h : Stmt.read (fuel + 1) tokens = some (s, rest))
    (proper : Tokens.Proper tokens) : Taken tokens s rest := by
  cases tokens with
  | nil => cases h
  | cons t ts =>
    have later : Tokens.Proper ts := (List.forall_mem_cons.mp proper).2
    simp only [Stmt.read] at h
    split at h
    · exact readIf_taken ih ‹_› h later
    split at h
    · rename_i first
      obtain ⟨⟨body, _⟩, inner, h⟩ := Option.bind_eq_some_iff.mp h
      cases h
      obtain ⟨takes, ordered, spelled⟩ := ih.readBlock inner later
      exact ⟨(Takes.one first ts).trans takes, ordered, spelled, fun opens => (by cases opens)⟩
    split at h
    · rename_i first
      obtain ⟨⟨condition, _⟩, read, h⟩ := Option.bind_eq_some_iff.mp h
      obtain ⟨_, word, h⟩ := Option.bind_eq_some_iff.mp h
      obtain ⟨⟨body, _⟩, inner, h⟩ := Option.bind_eq_some_iff.mp h
      cases h
      have condition := parseExpr_taken read later
      have start := condition.takes.trans (Takes.expect word)
      have body := ih.read inner (start.proper later)
      refine ⟨?_, ⟨condition.ordered, body.ordered⟩,
        List.forall_mem_cons.mpr ⟨condition.spelled, body.spelled⟩, body.closed⟩
      simpa [lexemes] using (Takes.one first ts).trans (start.trans body.takes)
    split at h
    · exact readRepeat_taken ih ‹_› h later
    split at h
    · rename_i first
      split at h
      · cases h
        exact ⟨(Takes.one first _).trans (Takes.one rfl _), trivial, List.forall_mem_nil _,
          fun opens => (by cases opens)⟩
      · cases h
    · obtain ⟨⟨e, _⟩, read, h⟩ := Option.bind_eq_some_iff.mp h
      obtain ⟨_, sign, h⟩ := Option.bind_eq_some_iff.mp h
      cases h
      have e := parseExpr_taken read proper
      exact ⟨e.takes.trans (Takes.expect sign), e.ordered, List.forall_mem_singleton.mpr e.spelled,
        fun opens => (by cases opens)⟩

theorem readBlock_taken (ih : ReadTaken fuel) {ss : List Stmt}
    (h : Stmt.readBlock (fuel + 1) tokens = some (ss, rest)) (proper : Tokens.Proper tokens) :
    BlockTaken tokens ss rest := by
  simp only [Stmt.readBlock] at h
  split at h
  · rename_i word
    obtain ⟨_, sign, h⟩ := Option.bind_eq_some_iff.mp h
    cases h
    exact ⟨(Takes.expect word).trans (Takes.expect sign), trivial, List.forall_mem_nil _⟩
  · obtain ⟨⟨s, _⟩, first, h⟩ := Option.bind_eq_some_iff.mp h
    obtain ⟨⟨ss, _⟩, others, h⟩ := Option.bind_eq_some_iff.mp h
    cases h
    have first := ih.read first proper
    obtain ⟨takes, ordered, spelled⟩ := ih.readBlock others (first.takes.proper proper)
    refine ⟨?_, ⟨first.ordered, ordered⟩, List.forall_mem_append.mpr ⟨first.spelled, spelled⟩⟩
    simpa [lexemesAll] using first.takes.trans takes

theorem readTaken (fuel : Nat) : ReadTaken fuel := by
  induction fuel with
  | zero =>
    refine ⟨?_, ?_⟩ <;> intros <;> contradiction
  | succ fuel ih => exact ⟨read_taken ih, readBlock_taken ih⟩

end Stmt

theorem parseBlock_taken {tokens rest : List Token} {body : List Stmt}
    (h : parseBlock tokens = some (body, rest)) (proper : Tokens.Proper tokens) :
    Takes tokens (Stmt.block body).lexemes rest ∧ Stmt.AllOrdered body ∧
      ∀ e ∈ Stmt.exprsAll body, e.Spelled := by
  obtain ⟨_, word, h⟩ := Option.bind_eq_some_iff.mp h
  have first := Takes.expect word
  obtain ⟨takes, kept⟩ := (Stmt.readTaken _).readBlock h (first.proper proper)
  exact ⟨first.trans takes, kept⟩

/-! ### Declarations -/

theorem skipCommas_takes (tokens : List Token) :
    Takes tokens (List.replicate (skipCommas tokens).1 (.sign .comma)) (skipCommas tokens).2 := by
  induction tokens with
  | nil => exact .refl []
  | cons t ts ih =>
    simp only [skipCommas]
    split
    · exact (Takes.one ‹_› ts).trans ih
    · exact .refl _

variable {fuel : Nat} {tokens rest : List Token}

theorem TypeRef.read_takes {type : TypeRef} (h : TypeRef.read fuel tokens = some (type, rest))
    (proper : Tokens.Proper tokens) : Takes tokens type.lexemes rest ∧ type.Spelled := by
  induction fuel generalizing tokens type with
  | zero => cases h
  | succ fuel ih =>
    obtain ⟨⟨text, _⟩, word, h⟩ := Option.bind_eq_some_iff.mp h
    have first := Takes.readWord word
    simp only at h
    split at h
    · rename_i isArray
      obtain ⟨_, opening, h⟩ := Option.bind_eq_some_iff.mp h
      obtain ⟨_, closing, h⟩ := Option.bind_eq_some_iff.mp h
      obtain ⟨_, of, h⟩ := Option.bind_eq_some_iff.mp h
      obtain ⟨⟨element, _⟩, inner, h⟩ := Option.bind_eq_some_iff.mp h
      cases h
      subst isArray
      have start := first.trans ((Takes.expect opening).trans ((skipCommas_takes _).trans
        ((Takes.expect closing).trans (Takes.expect of))))
      obtain ⟨takes, spelled⟩ := ih inner (start.proper proper)
      exact ⟨by simpa [lexemes] using start.trans takes, spelled⟩
    split at h
    · cases h
      exact ⟨first, ‹_›⟩
    · cases h
      exact ⟨first, first.isName proper⟩

theorem parseTypeClause_takes {type : Option TypeRef}
    (h : parseTypeClause tokens = some (type, rest)) (proper : Tokens.Proper tokens) :
    Takes tokens (typeClauseLexemes type) rest ∧ ∀ t ∈ type, t.Spelled := by
  unfold parseTypeClause at h
  split at h
  · rename_i colon
    obtain ⟨⟨type, _⟩, read, h⟩ := Option.bind_eq_some_iff.mp h
    cases h
    have colon := Takes.expect colon
    obtain ⟨takes, spelled⟩ := TypeRef.read_takes read (colon.proper proper)
    exact ⟨colon.trans takes, fun t is => Option.mem_some_iff.mp is ▸ spelled⟩
  · cases h
    exact ⟨.refl _, nofun⟩

theorem parseNames_takes {first : String} {all : List Token} {names : List String}
    (h : parseNames tokens = some (names, rest)) (before : Takes all [.word first] tokens)
    (proper : Tokens.Proper all) :
    Takes all (commas ((first :: names).map fun name => [.word name])) rest ∧
      ∀ n ∈ first :: names, IsName n := by
  have named := before.isName proper
  fun_induction parseNames tokens generalizing all first names rest with
  | case1 =>
    cases h
    exact ⟨before, List.forall_mem_singleton.mpr named⟩
  | case2 t comma name stop ts ih =>
    obtain ⟨⟨others, _⟩, read, h⟩ := Option.bind_eq_some_iff.mp h
    cases h
    have start := before.trans (Takes.one comma _)
    have next := Takes.one (t := ⟨.word name, stop⟩) rfl ts
    have later := start.proper proper
    obtain ⟨takes, names⟩ := ih read next later (next.isName later)
    exact ⟨before.trans ((Takes.one comma _).trans takes), List.forall_mem_cons.mpr ⟨named, names⟩⟩
  | case3 => cases h
  | case4 t ts _ =>
    cases h
    exact ⟨before, List.forall_mem_singleton.mpr named⟩

/-- What a group of variables is read from: names or none, a clause and a semicolon. -/
theorem parseVarGroup_eq_some {tokens rest : List Token} {group : VarGroup}
    (h : parseVarGroup tokens = some (group, rest)) :
    ∃ listed typed, (group.names = [] ∧ listed = tokens ∨
        ∃ first later others, readWord tokens = some (first, later) ∧
          parseNames later = some (others, listed) ∧ group.names = first :: others) ∧
      parseTypeClause listed = some (group.type, typed) ∧
      expect (.sign .semicolon) typed = some rest := by
  simp only [parseVarGroup] at h
  split at h
  · rename_i word
    obtain ⟨⟨others, listed⟩, more, h⟩ := Option.bind_eq_some_iff.mp h
    obtain ⟨_, ⟨⟩, h⟩ := Option.bind_eq_some_iff.mp h
    obtain ⟨⟨type, typed⟩, clause, h⟩ := Option.bind_eq_some_iff.mp h
    obtain ⟨_, sign, h⟩ := Option.bind_eq_some_iff.mp h
    cases h
    exact ⟨listed, typed, .inr ⟨_, _, others, word, more, rfl⟩, clause, sign⟩
  · obtain ⟨_, ⟨⟩, h⟩ := Option.bind_eq_some_iff.mp h
    obtain ⟨⟨type, typed⟩, clause, h⟩ := Option.bind_eq_some_iff.mp h
    obtain ⟨_, sign, h⟩ := Option.bind_eq_some_iff.mp h
    cases h
    exact ⟨tokens, typed, .inl ⟨rfl, rfl⟩, clause, sign⟩

theorem parseVarGroup_takes {group : VarGroup} (h : parseVarGroup tokens = some (group, rest))
    (proper : Tokens.Proper tokens) : Takes tokens group.lexemes rest ∧ group.Spelled := by
  obtain ⟨listed, _, names, clause, sign⟩ := parseVarGroup_eq_some h
  have named : Takes tokens (commas (group.names.map fun name => [.word name])) listed ∧
      ∀ n ∈ group.names, IsName n := by
    rcases names with ⟨empty, rfl⟩ | ⟨_, _, _, word, more, names⟩
    · rw [empty]
      exact ⟨.refl _, List.forall_mem_nil _⟩
    · rw [names]
      exact parseNames_takes more (Takes.readWord word) proper
  obtain ⟨clause, type⟩ := parseTypeClause_takes clause (named.1.proper proper)
  exact ⟨named.1.trans (clause.trans (Takes.expect sign)), named.2, type⟩

theorem VarGroup.readAll_takes {groups : List VarGroup}
    (h : VarGroup.readAll fuel tokens = some (groups, rest)) (proper : Tokens.Proper tokens) :
    Takes tokens (groups.flatMap VarGroup.lexemes) rest ∧ ∀ g ∈ groups, g.Spelled := by
  induction fuel generalizing tokens groups with
  | zero => cases h
  | succ fuel ih =>
    simp only [VarGroup.readAll] at h
    split at h
    · cases h
      exact ⟨.refl _, List.forall_mem_nil _⟩
    · obtain ⟨⟨group, _⟩, read, h⟩ := Option.bind_eq_some_iff.mp h
      obtain ⟨⟨others, _⟩, more, h⟩ := Option.bind_eq_some_iff.mp h
      cases h
      obtain ⟨first, spelled⟩ := parseVarGroup_takes read proper
      obtain ⟨takes, others⟩ := ih more (first.proper proper)
      exact ⟨first.trans takes, List.forall_mem_cons.mpr ⟨spelled, others⟩⟩

theorem parseBody_takes {body : Body} (h : parseBody tokens = some (body, rest))
    (proper : Tokens.Proper tokens) :
    Takes tokens body.lexemes rest ∧ Stmt.AllOrdered body.block ∧ body.Spelled := by
  unfold parseBody at h
  split at h
  · rename_i word
    obtain ⟨⟨groups, _⟩, read, h⟩ := Option.bind_eq_some_iff.mp h
    obtain ⟨⟨block, _⟩, inner, h⟩ := Option.bind_eq_some_iff.mp h
    cases h
    have word := Takes.expect word
    obtain ⟨vars, groups⟩ := VarGroup.readAll_takes read (word.proper proper)
    have vars := word.trans vars
    obtain ⟨takes, ordered, spelled⟩ := parseBlock_taken inner (vars.proper proper)
    exact ⟨vars.trans takes, ordered, fun g is => Option.mem_some_iff.mp is ▸ groups, spelled⟩
  · obtain ⟨⟨block, _⟩, inner, h⟩ := Option.bind_eq_some_iff.mp h
    cases h
    obtain ⟨takes, ordered, spelled⟩ := parseBlock_taken inner proper
    exact ⟨takes, ordered, nofun, spelled⟩

theorem parseArgDef_takes {arg : ArgDef} (h : parseArgDef tokens = some (arg, rest))
    (proper : Tokens.Proper tokens) : Takes tokens arg.lexemes rest ∧ arg.Spelled := by
  obtain ⟨⟨name, _⟩, word, h⟩ := Option.bind_eq_some_iff.mp h
  obtain ⟨⟨type, _⟩, clause, h⟩ := Option.bind_eq_some_iff.mp h
  cases h
  have word := Takes.readWord word
  obtain ⟨clause, type⟩ := parseTypeClause_takes clause (word.proper proper)
  exact ⟨word.trans clause, word.isName proper, type⟩

theorem ArgDef.readAll_takes {args : List ArgDef}
    (h : ArgDef.readAll fuel tokens = some (args, rest)) (proper : Tokens.Proper tokens) :
    args ≠ [] ∧ Takes tokens (commas (args.map ArgDef.lexemes) ++ [.sign .closeParen]) rest ∧
      ∀ a ∈ args, a.Spelled := by
  induction fuel generalizing tokens args with
  | zero => cases h
  | succ fuel ih =>
    obtain ⟨⟨arg, _⟩, read, h⟩ := Option.bind_eq_some_iff.mp h
    obtain ⟨first, spelled⟩ := parseArgDef_takes read proper
    simp only at h
    split at h
    · rename_i closed
      cases h
      exact ⟨List.cons_ne_nil _ _, first.trans (Takes.expect closed),
        List.forall_mem_singleton.mpr spelled⟩
    · obtain ⟨_, comma, h⟩ := Option.bind_eq_some_iff.mp h
      obtain ⟨⟨others, _⟩, more, h⟩ := Option.bind_eq_some_iff.mp h
      cases h
      have first := first.trans (Takes.expect comma)
      obtain ⟨nonempty, takes, others⟩ := ih more (first.proper proper)
      refine ⟨List.cons_ne_nil _ _, ?_, List.forall_mem_cons.mpr ⟨spelled, others⟩⟩
      rw [List.map_cons, commas_cons (mt List.map_eq_nil_iff.mp nonempty)]
      simpa using first.trans takes

/-- What a signature is read from: a name, arguments or none in parentheses and a clause. -/
theorem parseSignature_eq_some {tokens rest : List Token} {signature : Signature}
    (h : parseSignature tokens = some (signature, rest)) :
    ∃ later opened listed, readWord tokens = some (signature.name, later) ∧
      expect (.sign .openParen) later = some opened ∧
      (signature.args = [] ∧ expect (.sign .closeParen) opened = some listed ∨
        ArgDef.readAll opened.length opened = some (signature.args, listed)) ∧
      parseTypeClause listed = some (signature.result, rest) := by
  obtain ⟨⟨name, later⟩, word, h⟩ := Option.bind_eq_some_iff.mp h
  obtain ⟨opened, opening, h⟩ := Option.bind_eq_some_iff.mp h
  simp only at h
  split at h
  · rename_i listed closed
    obtain ⟨_, ⟨⟩, h⟩ := Option.bind_eq_some_iff.mp h
    obtain ⟨⟨result, _⟩, clause, h⟩ := Option.bind_eq_some_iff.mp h
    cases h
    exact ⟨later, opened, listed, word, opening, .inl ⟨rfl, closed⟩, clause⟩
  · obtain ⟨⟨args, listed⟩, read, h⟩ := Option.bind_eq_some_iff.mp h
    obtain ⟨⟨result, _⟩, clause, h⟩ := Option.bind_eq_some_iff.mp h
    cases h
    exact ⟨later, opened, listed, word, opening, .inr read, clause⟩

theorem parseSignature_takes {signature : Signature}
    (h : parseSignature tokens = some (signature, rest)) (proper : Tokens.Proper tokens) :
    Takes tokens signature.lexemes rest ∧ signature.Spelled := by
  obtain ⟨_, opened, listed, word, opening, args, clause⟩ := parseSignature_eq_some h
  have word := Takes.readWord word
  have start := word.trans (Takes.expect opening)
  have args : Takes opened (commas (signature.args.map ArgDef.lexemes) ++ [.sign .closeParen])
      listed ∧ ∀ a ∈ signature.args, a.Spelled := by
    rcases args with ⟨empty, closed⟩ | read
    · rw [empty]
      exact ⟨Takes.expect closed, List.forall_mem_nil _⟩
    · exact (ArgDef.readAll_takes read (start.proper proper)).2
  have start := start.trans args.1
  obtain ⟨clause, result⟩ := parseTypeClause_takes clause (start.proper proper)
  exact ⟨by simpa [Signature.lexemes] using start.trans clause, word.isName proper, args.2, result⟩

theorem parseMethod_takes {m : Method} (h : parseMethod tokens = some (m, rest))
    (proper : Tokens.Proper tokens) : Takes tokens m.lexemes rest ∧ m.Ordered ∧ m.Spelled := by
  obtain ⟨_, word, h⟩ := Option.bind_eq_some_iff.mp h
  obtain ⟨⟨signature, _⟩, read, h⟩ := Option.bind_eq_some_iff.mp h
  have word := Takes.expect word
  obtain ⟨takes, spelled⟩ := parseSignature_takes read (word.proper proper)
  have start := word.trans takes
  simp only at h
  split at h
  · rename_i sign
    cases h
    exact ⟨start.trans (Takes.expect sign), nofun, spelled, nofun⟩
  · obtain ⟨⟨body, _⟩, inner, h⟩ := Option.bind_eq_some_iff.mp h
    cases h
    obtain ⟨takes, ordered, block⟩ := parseBody_takes inner (start.proper proper)
    exact ⟨start.trans takes, fun b same => Option.mem_some_iff.mp same ▸ ordered,
      spelled, fun b same => Option.mem_some_iff.mp same ▸ block⟩

/-- A source is read from just its lexemes; its methods are grouped by level and spelled. -/
theorem Source.readAll_takes {source : Source} (h : Source.readAll fuel tokens = some source)
    (proper : Tokens.Proper tokens) :
    Takes tokens (source.flatMap Method.lexemes) [] ∧ (∀ m ∈ source, m.Ordered) ∧
      ∀ m ∈ source, m.Spelled := by
  fun_induction Source.readAll fuel tokens generalizing source with
  | case1 =>
    cases h
    exact ⟨.refl [], List.forall_mem_nil _, List.forall_mem_nil _⟩
  | case2 => cases h
  | case3 fuel tokens _ ih =>
    obtain ⟨⟨method, rest⟩, read, h⟩ := Option.bind_eq_some_iff.mp h
    obtain ⟨others, more, h⟩ := Option.bind_eq_some_iff.mp h
    cases h
    obtain ⟨first, ordered, spelled⟩ := parseMethod_takes read proper
    obtain ⟨later, allOrdered, allSpelled⟩ := ih rest more (first.proper proper)
    exact ⟨first.trans later, List.forall_mem_cons.mpr ⟨ordered, allOrdered⟩,
      List.forall_mem_cons.mpr ⟨spelled, allSpelled⟩⟩

theorem Token.scan_proper {text : String} {tokens : List Token} (h : scan text = some tokens) :
    Tokens.Proper tokens := fun t inside => ⟨(scan_laid h).2 t inside, scan_spelled h t inside⟩

/-- Every method of a parsed text is spelled as the language wants it. -/
theorem parseSource_spelled {text : String} {source : Source}
    (h : parseSource text = some source) : ∀ m ∈ source, m.Spelled := by
  obtain ⟨tokens, scanned, h⟩ := Option.bind_eq_some_iff.mp h
  exact (Source.readAll_takes h (Token.scan_proper scanned)).2.2

end MethodLang
