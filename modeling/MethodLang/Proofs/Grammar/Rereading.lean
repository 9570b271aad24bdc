import MethodLang.Proofs.Grammar.Soundness
import MethodLang.Proofs.Grammar.Unplaced

/-!
Reading back what was written. A tree that is grouped by the levels of its operators, and in which
no name is a keyword, is read back from its lexemes, up to the places of its breaks
(`Source.readAll_written`). A reader never looks behind the first lexeme that cannot belong to what
it reads, so this is shown for each reader with any tokens behind such a lexeme.
-/
namespace MethodLang

/-! ### Clear trees -/

/-- A name that is no keyword and no word of a type. -/
def IsFree (name : String) : Prop := IsName name ∧ name ∉ Grammar.words

instance (name : String) : Decidable (IsFree name) := inferInstanceAs (Decidable (_ ∧ _))

/-- A kind of literal whose texts hold any characters. -/
def LiteralKind.quotes : LiteralKind → Bool
  | .str | .char => true
  | _ => false

/-- A literal of its own kind that can be scanned: no null character is quoted. -/
def LiteralKind.Scans (kind : LiteralKind) (text : String) : Prop :=
  Grammar.Spells kind.name text ∧ (kind.quotes → ∀ c ∈ text.toList, Token.isNull c = false)

def LiteralKind.Clear (text : String) : LiteralKind → Prop
  | .bool => text = "true" ∨ text = "false"
  | kind => kind.Scans text

mutual
/-- All names are free, and all literals are spelled as they must be. -/
def Expr.Clear : Expr → Prop
  | .unary _ operand => operand.Clear
  | .binary left _ right => left.Clear ∧ right.Clear
  | .braces inner => inner.Clear
  | .call callee args => callee.Clear ∧ Expr.AllClear args
  | .indexer base indices => base.Clear ∧ Expr.AllClear indices
  | .place name => IsFree name
  | .literal kind text => kind.Clear text

def Expr.AllClear : List Expr → Prop
  | [] => True
  | e :: es => e.Clear ∧ Expr.AllClear es
end

theorem Expr.allClear_iff {es : List Expr} : AllClear es ↔ ∀ e ∈ es, e.Clear := by
  induction es with
  | nil => simp [AllClear]
  | cons e es ih => simp [AllClear, ih]

def TypeRef.Clear : TypeRef → Prop
  | .builtin word => word ∈ TypeRef.builtinWords
  | .custom name => IsFree name
  | .array _ element => element.Clear

def ArgDef.Clear (arg : ArgDef) : Prop := IsFree arg.name ∧ ∀ t ∈ arg.type, t.Clear

def VarGroup.Clear (group : VarGroup) : Prop :=
  (∀ name ∈ group.names, IsFree name) ∧ ∀ t ∈ group.type, t.Clear

structure Signature.Clear (s : Signature) : Prop where
  name : IsFree s.name
  args : ∀ arg ∈ s.args, arg.Clear
  result : ∀ t ∈ s.result, t.Clear

structure Body.Clear (body : Body) : Prop where
  vars : ∀ groups ∈ body.vars, ∀ group ∈ groups, group.Clear
  block : ∀ e ∈ Stmt.exprsAll body.block, e.Clear

structure Method.Clear (m : Method) : Prop where
  signature : m.signature.Clear
  body : ∀ body ∈ m.body, body.Clear

theorem IsFree.ne {name word : String} (free : IsFree name) (isWord : word ∈ Grammar.words) :
    name ≠ word := by
  rintro rfl
  exact free.2 isWord

/-! ### Written tokens -/

/-- The tokens are those of the lexemes. -/
def Writes (tokens : List Token) (lexemes : List Lexeme) : Prop :=
  tokens.map Token.lexeme = lexemes

namespace Writes

variable {tokens : List Token} {l : Lexeme} {xs ys : List Lexeme}

theorem cons (h : Writes tokens (l :: xs)) :
    ∃ t ts, tokens = t :: ts ∧ t.lexeme = l ∧ Writes ts xs := by
  obtain ⟨t, ts, rfl, is, later⟩ := List.map_eq_cons_iff.mp h
  exact ⟨t, ts, rfl, is, later⟩

theorem append (h : Writes tokens (xs ++ ys)) :
    ∃ ts us, tokens = ts ++ us ∧ Writes ts xs ∧ Writes us ys := by
  obtain ⟨ts, us, rfl, first, later⟩ := List.map_eq_append_iff.mp h
  exact ⟨ts, us, rfl, first, later⟩

theorem nil (h : Writes tokens []) : tokens = [] := List.map_eq_nil_iff.mp h

theorem one (h : Writes tokens [l]) : ∃ t, tokens = [t] ∧ t.lexeme = l := by
  obtain ⟨t, ts, rfl, is, later⟩ := h.cons
  rw [later.nil]
  exact ⟨t, rfl, is⟩

end Writes

theorem commas_first (l : Lexeme) (ls : List Lexeme) (items : List (List Lexeme)) :
    ∃ ms, commas ((l :: ls) :: items) = l :: ms := by
  cases items <;> exact ⟨_, rfl⟩

section
variable {t : Token} {l : Lexeme} {rest : List Token}

theorem expect_here (is : t.lexeme = l) : expect l (t :: rest) = some rest := if_pos is

theorem expect_other {k : Lexeme} (is : t.lexeme = k) (other : k ≠ l) :
    expect l (t :: rest) = none := if_neg (is ▸ other)

theorem readWord_here {name : String} (is : t.lexeme = .word name) :
    readWord (t :: rest) = some (name, rest) := by
  obtain ⟨_, _⟩ := t
  cases is
  rfl

end

/-! ### Expressions -/

/-- The lexeme may open an expression. -/
def Lexeme.Opens : Lexeme → Prop
  | .word text => text = "true" ∨ text = "false" ∨ text ∉ Grammar.words
  | .literal _ _ => True
  | .sign (.unary _) => True
  | .sign .openParen => True
  | .sign _ => False

theorem Lexeme.Opens.ne_word {l : Lexeme} (opens : l.Opens) {word : String}
    (isWord : word ∈ Grammar.words) (isBool : word ≠ "true" ∧ word ≠ "false") :
    l ≠ .word word := by
  rintro rfl
  rcases opens with rfl | rfl | free
  · exact isBool.1 rfl
  · exact isBool.2 rfl
  · exact free isWord

theorem Expr.lexemes_open (e : Expr) (clear : e.Clear) : ∃ l ls, e.lexemes = l :: ls ∧ l.Opens := by
  induction e using Expr.induction with
  | unary op operand => exact ⟨_, _, rfl, trivial⟩
  | binary left op right ih _ =>
    obtain ⟨l, ls, written, opens⟩ := ih clear.1
    exact ⟨l, _, congrArg (· ++ _) written, opens⟩
  | braces inner => exact ⟨_, _, rfl, trivial⟩
  | call callee args ih _ | indexer base indices ih _ =>
    obtain ⟨l, ls, written, opens⟩ := ih clear.1
    exact ⟨l, _, congrArg (· ++ _) written, opens⟩
  | place name => exact ⟨_, _, rfl, .inr (.inr clear.2)⟩
  | literal kind text =>
    cases kind with
    | bool => exact ⟨_, _, rfl, clear.elim .inl fun is => .inr (.inl is)⟩
    | _ => exact ⟨_, _, rfl, trivial⟩

theorem Stops.mono {level level' : Nat} {tokens : List Token} (stops : Stops level tokens)
    (le : level ≤ level') : Stops level' tokens := by
  intro t first
  obtain ⟨paren, bracket, less⟩ := stops t first
  exact ⟨paren, bracket, fun op is => Nat.lt_of_lt_of_le (less op is) le⟩

/-- No expression goes on at the lexeme. -/
def Lexeme.Ends (l : Lexeme) : Prop :=
  l ≠ .sign .openParen ∧ l ≠ .sign .openBracket ∧ ∀ op, l ≠ .sign (.binary op)

theorem Stops.of_ends {t : Token} {l : Lexeme} (is : t.lexeme = l) (ends : l.Ends) (level : Nat)
    (rest : List Token) : Stops level (t :: rest) := by
  rintro _ ⟨⟩
  rw [is]
  exact ⟨ends.1, ends.2.1, fun op same => absurd same (ends.2.2 op)⟩

theorem Lexeme.word_ends (text : String) : (Lexeme.word text).Ends := ⟨nofun, nofun, nofun⟩

theorem Lexeme.sign_ends {s : Sign}
    (closing : s = .semicolon ∨ s = .comma ∨ s = .closeParen ∨ s = .closeBracket) :
    (Lexeme.sign s).Ends := by
  rcases closing with rfl | rfl | rfl | rfl <;> simp [Lexeme.Ends]

theorem BinaryOp.level_le_rightLevel {op : BinaryOp} {level : Nat} (le : level ≤ op.level) :
    level ≤ op.rightLevel := by
  cases op <;> simp only [rightLevel, BinaryOp.level] at le ⊢ <;> omega

theorem BinaryOp.le_of_lt_rightLevel {op : BinaryOp} {level : Nat} (less : level < op.rightLevel) :
    level ≤ op.level := by
  cases op <;> simp only [rightLevel, BinaryOp.level] at less ⊢ <;> omega

namespace Expr

theorem extend_stops {fuel level : Nat} {e : Expr} {rest : List Token} (enough : 0 < fuel)
    (stops : Stops level rest) : Expr.extend fuel level e rest = some (e, rest) := by
  obtain ⟨fuel, rfl⟩ := Nat.exists_eq_add_of_lt enough
  rw [Nat.zero_add]
  cases rest with
  | nil => rfl
  | cons t rest =>
    obtain ⟨paren, bracket, less⟩ := stops t rfl
    rw [Expr.extend]
    split
    · exact absurd ‹_› paren
    · exact absurd ‹_› bracket
    · rename_i op is
      rw [if_neg (Nat.not_le.mpr (less op is))]
    · rfl

/-- Behind its own tokens an expression goes on as if it had been given to begin with. -/
def ReadsBack (e : Expr) : Prop :=
  ∀ (front rest : List Token) (level fuel : Nat), Writes front e.lexemes →
    (∀ o ∈ e.operator?, level ≤ o.level) → e.Fits rest →
    3 * (front ++ rest).length + 1 ≤ fuel →
    ∃ left, 3 * rest.length + 1 ≤ left ∧
      Expr.read fuel level (front ++ rest) = Expr.extend left level e rest

theorem fits_of_stops {e : Expr} {level : Nat} {rest : List Token} (stops : Stops level rest)
    (least : ∀ o ∈ e.operator?, level ≤ o.level) (simple : level ≤ UnaryOp.level) :
    e.Fits rest := by
  cases e with
  | binary left op right => exact stops.mono (BinaryOp.level_le_rightLevel (least op rfl))
  | unary op operand => exact stops.mono simple
  | braces | call | indexer | place | literal => trivial

theorem ReadsBack.stops {e : Expr} (back : e.ReadsBack) {front rest : List Token}
    {level fuel : Nat} (written : Writes front e.lexemes)
    (least : ∀ o ∈ e.operator?, level ≤ o.level) (simple : level ≤ UnaryOp.level)
    (stops : Stops level rest) (enough : 3 * (front ++ rest).length + 1 ≤ fuel) :
    Expr.read fuel level (front ++ rest) = some (e, rest) := by
  obtain ⟨left, leftEnough, same⟩ :=
    back front rest level fuel written least (fits_of_stops stops least simple) enough
  rw [same, extend_stops (by omega) stops]

/-- An expression in a list is read up to the comma or the closing sign. -/
theorem ReadsBack.item {e : Expr} (back : e.ReadsBack) {front rest : List Token} {t : Token}
    {fuel : Nat} {l : Lexeme} (written : Writes front e.lexemes) (is : t.lexeme = l)
    (ends : l.Ends) (enough : 3 * (front ++ t :: rest).length + 1 ≤ fuel) :
    Expr.read fuel 0 (front ++ t :: rest) = some (e, t :: rest) :=
  back.stops written (fun _ _ => Nat.zero_le _) (Nat.zero_le _) (.of_ends is ends 0 rest) enough

section
variable {close : Sign} (closes : close = .closeParen ∨ close = .closeBracket)
include closes

theorem readItems_written {e : Expr} {es : List Expr} (each : ∀ x ∈ e :: es, x.ReadsBack)
    {front rest : List Token} {fuel : Nat}
    (written : Writes front (commas (lexemesAll (e :: es)) ++ [.sign close]))
    (enough : 3 * (front ++ rest).length + 2 ≤ fuel) :
    Expr.readItems fuel close (front ++ rest) = some (e :: es, rest) := by
  have ends : (Lexeme.sign close).Ends := Lexeme.sign_ends (.inr (.inr closes))
  have comma : Lexeme.sign .comma ≠ .sign close := by rcases closes with rfl | rfl <;> decide
  induction es generalizing e front fuel with
  | nil =>
    obtain ⟨own, last, rfl, own', isLast⟩ := written.append
    obtain ⟨t, rfl, is⟩ := isLast.one
    simp only [List.append_assoc, List.singleton_append] at enough ⊢
    obtain ⟨fuel, rfl⟩ : ∃ n, fuel = n + 1 := ⟨fuel - 1, by omega⟩
    have read := (each e List.mem_cons_self).item own' is ends (Nat.le_of_succ_le_succ enough)
    simp [Expr.readItems, read, expect_here is]
  | cons next es ih =>
    rw [lexemesAll, commas_cons (lexemesAll_ne_nil (List.cons_ne_nil _ _)), List.append_assoc]
      at written
    obtain ⟨own, later, rfl, own', written⟩ := written.append
    obtain ⟨t, later, rfl, is, written⟩ := written.cons
    simp only [List.append_assoc, List.cons_append] at enough ⊢
    obtain ⟨fuel, rfl⟩ : ∃ n, fuel = n + 1 := ⟨fuel - 1, by omega⟩
    obtain ⟨first, others⟩ := List.forall_mem_cons.mp each
    have read := first.item own' is (Lexeme.sign_ends (by simp)) (Nat.le_of_succ_le_succ enough)
    have items : Expr.readItems fuel close (later ++ rest) = some (next :: es, rest) :=
      ih others written (by simp at enough ⊢; omega)
    simp [Expr.readItems, read, expect_other is comma, expect_here is, items]

theorem readList_written {es : List Expr} (each : ∀ x ∈ es, x.ReadsBack) (clear : AllClear es)
    {front rest : List Token} {fuel : Nat}
    (written : Writes front (commas (lexemesAll es) ++ [.sign close]))
    (enough : 3 * (front ++ rest).length + 3 ≤ fuel) :
    Expr.readList fuel close (front ++ rest) = some (es, rest) := by
  obtain ⟨fuel, rfl⟩ : ∃ n, fuel = n + 1 := ⟨fuel - 1, by omega⟩
  cases es with
  | nil =>
    obtain ⟨t, rfl, is⟩ := written.one
    simp [Expr.readList, expect_here is]
  | cons e es =>
    have items := readItems_written closes each written (Nat.le_of_succ_le_succ enough)
    -- The list does not end before its first expression.
    obtain ⟨l, ls, opening, opens⟩ := e.lexemes_open clear.1
    obtain ⟨ms, first⟩ := commas_first l ls (lexemesAll es)
    rw [lexemesAll, opening, first] at written
    obtain ⟨t, ts, rfl, is, -⟩ := written.cons
    have other : l ≠ .sign close := by
      rintro rfl
      rcases closes with rfl | rfl <;> exact opens
    simpa [Expr.readList, expect_other is other] using items

end

/-- The operand on the left may go on with the operator. -/
theorem fits_left {left : Expr} {op : BinaryOp}
    (looser : ∀ o ∈ left.operator?, op.level < o.rightLevel) {t : Token} (is : t.lexeme = .sign (.binary op)) (rest : List Token) :
    left.Fits (t :: rest) := by
  have stops {level : Nat} (less : op.level < level) : Stops level (t :: rest) := by
    rintro _ ⟨⟩
    rw [is]
    refine ⟨nofun, nofun, fun o same => ?_⟩
    cases same
    exact less
  cases left with
  | binary _ o _ => exact stops (looser o rfl)
  | unary => exact stops op.level_lt_unary
  | braces | call | indexer | place | literal => trivial

theorem fits_simple {e : Expr} (binary : e.operator? = none) (unary : e.isUnary = false)
    (rest : List Token) : e.Fits rest := by
  cases e with
  | binary => cases binary
  | unary => cases unary
  | braces | call | indexer | place | literal => trivial

/-- A call or an indexer is read back if its base and its list are. -/
theorem readsBack_applied {base : Expr} {es : List Expr} {f : List Expr → Expr}
    {opening close : Sign} (lexemes : (f es).lexemes = base.lexemes ++
      .sign opening :: (commas (lexemesAll es) ++ [.sign close]))
    (closes : close = .closeParen ∨ close = .closeBracket)
    (step : ∀ {fuel level : Nat} {t : Token} {rest : List Token}, t.lexeme = .sign opening →
      Expr.extend (fuel + 1) level base (t :: rest) = (Expr.readList fuel close rest).bind
        fun p => Expr.extend fuel level (f p.1) p.2)
    (simple : base.operator? = none ∧ base.isUnary = false) (clear : AllClear es)
    (back : base.ReadsBack) (each : ∀ x ∈ es, x.ReadsBack) : (f es).ReadsBack := by
  intro front rest level fuel written _ _ enough
  rw [lexemes] at written
  obtain ⟨own, later, rfl, own', written⟩ := written.append
  obtain ⟨t, list, rfl, is, written⟩ := written.cons
  simp only [List.append_assoc, List.cons_append] at enough ⊢
  have least : ∀ o ∈ base.operator?, level ≤ o.level := by
    rw [simple.1]
    exact nofun
  obtain ⟨left, leftEnough, same⟩ :=
    back own (t :: (list ++ rest)) level fuel own' least (fits_simple simple.1 simple.2 _) enough
  obtain ⟨left, rfl⟩ : ∃ n, left = n + 1 := ⟨left - 1, by omega⟩
  have read := readList_written closes each clear written
    (show 3 * (list ++ rest).length + 3 ≤ left by simp at leftEnough ⊢; omega)
  refine ⟨left, by simp at leftEnough; omega, ?_⟩
  rw [same, step is, read]
  rfl

theorem readsBack (e : Expr) (ordered : e.Ordered) (clear : e.Clear) : e.ReadsBack := by
  have all {es : List Expr} (ordered : AllOrdered es) (clear : AllClear es)
      (each : ∀ e ∈ es, e.Ordered → e.Clear → e.ReadsBack) : ∀ e ∈ es, e.ReadsBack :=
    fun e inside =>
      each e inside (allOrdered_iff.mp ordered e inside) (allClear_iff.mp clear e inside)
  induction e using Expr.induction with
  | place name =>
    intro front rest level fuel written _ _ enough
    obtain ⟨t, rfl, is⟩ := written.one
    obtain ⟨fuel, rfl⟩ : ∃ n, fuel = n + 1 := ⟨fuel - 1, by omega⟩
    refine ⟨fuel, by simp at enough; omega, ?_⟩
    have bool : ¬ (name = "true" ∨ name = "false") := by
      rintro (rfl | rfl)
      · exact clear.ne (by decide) rfl
      · exact clear.ne (by decide) rfl
    rw [List.singleton_append, Expr.read]
    simp only [is, if_neg bool]
  | literal kind text =>
    intro front rest level fuel written _ _ enough
    rw [lexemes_literal] at written
    split at written
    · rename_i bool
      subst bool
      obtain ⟨t, rfl, is⟩ := written.one
      obtain ⟨fuel, rfl⟩ : ∃ n, fuel = n + 1 := ⟨fuel - 1, by omega⟩
      refine ⟨fuel, by simp at enough; omega, ?_⟩
      rw [List.singleton_append, Expr.read]
      simp only [is, if_pos (show text = "true" ∨ text = "false" from clear)]
    · obtain ⟨t, rfl, is⟩ := written.one
      obtain ⟨fuel, rfl⟩ : ∃ n, fuel = n + 1 := ⟨fuel - 1, by omega⟩
      refine ⟨fuel, by simp at enough; omega, ?_⟩
      rw [List.singleton_append, Expr.read]
      simp only [is]
  | unary op operand ih =>
    intro front rest level fuel written _ fits enough
    obtain ⟨t, own, rfl, is, own'⟩ := written.cons
    obtain ⟨fuel, rfl⟩ : ∃ n, fuel = n + 1 := ⟨fuel - 1, by omega⟩
    have least : ∀ o ∈ operand.operator?, UnaryOp.level ≤ o.level := by
      simp [ordered.1]
    have read := (ih ordered.2 clear).stops own' least (Nat.le_refl _) fits
      (show 3 * (own ++ rest).length + 1 ≤ fuel by simp at enough ⊢; omega)
    refine ⟨fuel, by simp at enough; omega, ?_⟩
    rw [List.cons_append, Expr.read]
    simp only [is, read]
    rfl
  | binary left op right ihl ihr =>
    intro front rest level fuel written least fits enough
    obtain ⟨⟨looser, orderedL⟩, tighter, orderedR⟩ := ordered
    obtain ⟨ownL, later, rfl, writtenL, written⟩ := written.append
    obtain ⟨t, ownR, rfl, is, writtenR⟩ := written.cons
    simp only [List.append_assoc, List.cons_append] at enough ⊢
    have least := least op rfl
    have leastL : ∀ o ∈ left.operator?, level ≤ o.level := by
      intro o isOp
      exact Nat.le_trans least (BinaryOp.le_of_lt_rightLevel (looser o isOp))
    obtain ⟨more, moreEnough, same⟩ := ihl orderedL clear.1 ownL (t :: (ownR ++ rest)) level fuel
      writtenL leastL (fits_left looser is _) enough
    obtain ⟨more, rfl⟩ : ∃ n, more = n + 1 := ⟨more - 1, by omega⟩
    have simple : op.rightLevel ≤ UnaryOp.level := by cases op <;> decide
    have read := (ihr orderedR clear.2).stops writtenR tighter simple fits
      (show 3 * (ownR ++ rest).length + 1 ≤ more by simp at moreEnough ⊢; omega)
    refine ⟨more, by simp at moreEnough; omega, ?_⟩
    rw [same, Expr.extend]
    simp only [is, if_pos least, read]
    rfl
  | braces inner ih =>
    intro front rest level fuel written _ _ enough
    obtain ⟨t, later, rfl, is, written⟩ := written.cons
    obtain ⟨own, last, rfl, own', isLast⟩ := written.append
    obtain ⟨u, rfl, isU⟩ := isLast.one
    obtain ⟨fuel, rfl⟩ : ∃ n, fuel = n + 1 := ⟨fuel - 1, by omega⟩
    simp only [List.append_assoc, List.cons_append, List.nil_append] at enough ⊢
    have read := (ih ordered clear).item own' isU (Lexeme.sign_ends (by simp))
      (show 3 * (own ++ u :: rest).length + 1 ≤ fuel by simp at enough ⊢; omega)
    refine ⟨fuel, by simp at enough; omega, ?_⟩
    rw [Expr.read]
    simp [is, read, expect_here isU]
  | call callee args ihc iha =>
    refine readsBack_applied (f := call callee) rfl (.inl rfl) ?_ ordered.1.1 clear.2
      (ihc ordered.1.2 clear.1) (all ordered.2 clear.2 iha)
    intro fuel level t rest is
    rw [Expr.extend]
    simp only [is]
    rfl
  | indexer base indices ihb ihi =>
    refine readsBack_applied (f := indexer base) rfl (.inr rfl) ?_ ordered.1.1 clear.2
      (ihb ordered.1.2 clear.1) (all ordered.2 clear.2 ihi)
    intro fuel level t rest is
    rw [Expr.extend]
    simp only [is]
    rfl

end Expr

/-- An expression is read back up to a lexeme at which none goes on. -/
theorem parseExpr_written {e : Expr} (ordered : e.Ordered) (clear : e.Clear)
    {front : List Token} {t : Token} {l : Lexeme} (written : Writes front e.lexemes)
    (is : t.lexeme = l) (ends : l.Ends) (rest : List Token) :
    parseExpr (front ++ t :: rest) = some (e, t :: rest) :=
  (e.readsBack ordered clear).item written is ends (by omega)

/-! ### Statements -/

namespace Stmt

theorem lexemes_open (s : Stmt) (clear : ∀ e ∈ s.exprs, e.Clear) :
    ∃ l ls, s.lexemes = l :: ls ∧ l ≠ .word "end" ∧ l ≠ .word "else" := by
  cases s with
  | expr e =>
    obtain ⟨l, ls, written, opens⟩ := e.lexemes_open (clear e List.mem_cons_self)
    exact ⟨l, _, congrArg (· ++ _) written, opens.ne_word (by decide) (by decide),
      opens.ne_word (by decide) (by decide)⟩
  | _ => exact ⟨_, _, rfl, by decide, by decide⟩

/-- A statement is read back up to the places of its breaks. -/
def ReadsBack (s : Stmt) : Prop :=
  ∀ (front rest : List Token) (fuel : Nat), Writes front s.lexemes →
    (s.endsOpen → expect (.word "else") rest = none) → 2 * (front ++ rest).length ≤ fuel →
    ∃ s', Stmt.read fuel (front ++ rest) = some (s', rest) ∧ s'.unplaced = s.unplaced

theorem readBlock_written {body : List Stmt} (each : ∀ s ∈ body, s.ReadsBack)
    (clear : ∀ e ∈ exprsAll body, e.Clear) {front rest : List Token} {fuel : Nat}
    (written : Writes front (lexemesAll body ++ [.word "end", .sign .semicolon]))
    (enough : 2 * (front ++ rest).length + 1 ≤ fuel) :
    ∃ body', Stmt.readBlock fuel (front ++ rest) = some (body', rest) ∧
      body'.map unplaced = body.map unplaced := by
  induction body generalizing front fuel with
  | nil =>
    obtain ⟨t, ts, rfl, is, later⟩ := written.cons
    obtain ⟨u, rfl, isU⟩ := later.one
    obtain ⟨fuel, rfl⟩ : ∃ n, fuel = n + 1 := ⟨fuel - 1, by omega⟩
    exact ⟨[], by simp [Stmt.readBlock, expect_here is, expect_here isU], rfl⟩
  | cons s ss ih =>
    obtain ⟨first, others⟩ := List.forall_mem_cons.mp each
    obtain ⟨clearS, clearSs⟩ := List.forall_mem_append.mp clear
    rw [lexemesAll, List.append_assoc] at written
    obtain ⟨own, later, rfl, own', written⟩ := written.append
    obtain ⟨fuel, rfl⟩ : ∃ n, fuel = n + 1 := ⟨fuel - 1, by omega⟩
    -- Behind a statement comes another one or the end, but no `else`.
    have noElse : expect (.word "else") (later ++ rest) = none := by
      cases ss with
      | nil =>
        obtain ⟨t, ts, rfl, is, -⟩ := written.cons
        exact expect_other is (by decide)
      | cons next ss =>
        obtain ⟨l, ls, opening, -, other⟩ :=
          next.lexemes_open (List.forall_mem_append.mp clearSs).1
        rw [lexemesAll, opening] at written
        obtain ⟨t, ts, rfl, is, -⟩ := written.cons
        exact expect_other is other
    have goesOn : expect (.word "end") (own ++ (later ++ rest)) = none := by
      obtain ⟨l, ls, opening, other, -⟩ := s.lexemes_open clearS
      rw [opening] at own'
      obtain ⟨t, ts, rfl, is, -⟩ := own'.cons
      exact expect_other is other
    have nonempty : own ≠ [] := by
      rintro rfl
      obtain ⟨l, ls, opening, -, -⟩ := s.lexemes_open clearS
      rw [opening] at own'
      cases own'
    have shorter := List.length_pos_iff.mpr nonempty
    simp only [List.append_assoc] at enough ⊢
    obtain ⟨s', read, same⟩ := first own (later ++ rest) fuel own' (fun _ => noElse) (by omega)
    obtain ⟨ss', block, sames⟩ := ih others clearSs written
      (show 2 * (later ++ rest).length + 1 ≤ fuel by simp at enough ⊢; omega)
    refine ⟨s' :: ss', ?_, by rw [List.map_cons, List.map_cons, same, sames]⟩
    simp [Stmt.readBlock, goesOn, read, block]

/-- Both forms of a repetition are read back. -/
theorem readsBack_repeat {body : Stmt} {c : Expr} {word : String} {f : Stmt → Stmt}
    (lexemes : (f body).lexemes = .word "repeat" :: body.lexemes ++
      .word word :: (c.lexemes ++ [.sign .semicolon]))
    (other : word ≠ "else") (kept : ∀ {s s' : Stmt}, s.unplaced = s'.unplaced →
      (f s).unplaced = (f s').unplaced)
    (step : ∀ {fuel : Nat} {t u v : Token} {tokens condition rest : List Token} {s : Stmt},
      t.lexeme = .word "repeat" → u.lexeme = .word word → v.lexeme = .sign .semicolon →
      Stmt.read fuel tokens = some (s, u :: condition) →
      parseExpr condition = some (c, v :: rest) →
      Stmt.read (fuel + 1) (t :: tokens) = some (f s, rest))
    (ordered : c.Ordered) (clear : c.Clear) (back : body.ReadsBack) : (f body).ReadsBack := by
  intro front rest fuel written _ enough
  rw [lexemes] at written
  obtain ⟨t, ts, rfl, isT, written⟩ := written.cons
  obtain ⟨ownB, later, rfl, writtenB, written⟩ := written.append
  obtain ⟨u, later, rfl, isU, written⟩ := written.cons
  obtain ⟨ownC, last, rfl, writtenC, isLast⟩ := written.append
  obtain ⟨v, rfl, isV⟩ := isLast.one
  obtain ⟨fuel, rfl⟩ : ∃ n, fuel = n + 1 := ⟨fuel - 1, by simp at enough; omega⟩
  have noElse : expect (.word "else") (u :: (ownC ++ v :: rest)) = none :=
    expect_other isU fun same => other (Lexeme.word.inj same)
  obtain ⟨body', read, same⟩ := back ownB (u :: (ownC ++ v :: rest)) fuel writtenB
    (fun _ => noElse) (by simp at enough ⊢; omega)
  have condition := parseExpr_written ordered clear writtenC isV (Lexeme.sign_ends (by simp)) rest
  refine ⟨f body', ?_, kept same⟩
  simpa using step isT isU isV read condition

theorem readsBack (s : Stmt) (ordered : s.Ordered) (clear : ∀ e ∈ s.exprs, e.Clear) :
    s.ReadsBack := by
  induction s using Stmt.induction with
  | expr e =>
    intro front rest fuel written _ enough
    obtain ⟨own, last, rfl, own', isLast⟩ := written.append
    obtain ⟨u, rfl, isU⟩ := isLast.one
    have clear := clear e List.mem_cons_self
    have read := parseExpr_written ordered clear own' isU (Lexeme.sign_ends (by simp)) rest
    obtain ⟨l, ls, opening, opens⟩ := e.lexemes_open clear
    rw [opening] at own'
    obtain ⟨t, ts, rfl, is, -⟩ := own'.cons
    obtain ⟨fuel, rfl⟩ : ∃ n, fuel = n + 1 := ⟨fuel - 1, by simp at enough; omega⟩
    refine ⟨.expr e, ?_, rfl⟩
    have other (word : String) (isWord : word ∈ ["if", "begin", "while", "repeat", "break"]) :
        l ≠ .word word := by
      simp only [List.mem_cons, List.not_mem_nil, or_false] at isWord
      rcases isWord with rfl | rfl | rfl | rfl | rfl <;>
        exact opens.ne_word (by decide) (by decide)
    simp only [List.append_assoc, List.cons_append, List.nil_append] at read ⊢
    simp [Stmt.read, is, other, read, expect_here isU]
  | leave stop =>
    intro front rest fuel written _ enough
    obtain ⟨t, ts, rfl, is, later⟩ := written.cons
    obtain ⟨u, rfl, isU⟩ := later.one
    obtain ⟨fuel, rfl⟩ : ∃ n, fuel = n + 1 := ⟨fuel - 1, by simp at enough; omega⟩
    obtain ⟨_, stop'⟩ := u
    cases isU
    exact ⟨.leave stop', by simp [Stmt.read, is], rfl⟩
  | block body ih =>
    intro front rest fuel written _ enough
    obtain ⟨t, ts, rfl, is, written⟩ := written.cons
    obtain ⟨fuel, rfl⟩ : ∃ n, fuel = n + 1 := ⟨fuel - 1, by simp at enough; omega⟩
    have each : ∀ s ∈ body, s.ReadsBack := fun s inside =>
      ih s inside (allOrdered_iff.mp ordered s inside) fun e isExpr =>
        clear e (exprs_mem inside isExpr)
    obtain ⟨body', read, same⟩ := readBlock_written each clear written
      (show 2 * (ts ++ rest).length + 1 ≤ fuel by simp at enough ⊢; omega)
    refine ⟨.block body', by simp [Stmt.read, is, read], ?_⟩
    rw [unplaced, unplaced, unplacedAll_eq_map, unplacedAll_eq_map, same]
  | ifThen c body ih =>
    intro front rest fuel written closed enough
    obtain ⟨clearC, clearB⟩ := List.forall_mem_cons.mp clear
    obtain ⟨t, ts, rfl, is, written⟩ := written.cons
    obtain ⟨ownC, later, rfl, writtenC, written⟩ := written.append
    obtain ⟨u, ownB, rfl, isU, writtenB⟩ := written.cons
    obtain ⟨fuel, rfl⟩ : ∃ n, fuel = n + 1 := ⟨fuel - 1, by simp at enough; omega⟩
    have condition := parseExpr_written ordered.1 clearC writtenC isU (Lexeme.word_ends _)
      (ownB ++ rest)
    have noElse := closed rfl
    obtain ⟨body', read, same⟩ := ih ordered.2 clearB ownB rest fuel writtenB (fun _ => noElse)
      (by simp at enough ⊢; omega)
    refine ⟨.ifThen c body', ?_, by rw [unplaced, unplaced, same]⟩
    simp [Stmt.read, is, condition, expect_here isU, read, noElse]
  | ifElse c body other ihb iho =>
    intro front rest fuel written closed enough
    obtain ⟨orderedC, ⟨nearest, orderedB⟩, orderedO⟩ := ordered
    obtain ⟨clearC, clear⟩ := List.forall_mem_cons.mp clear
    obtain ⟨clearB, clearO⟩ := List.forall_mem_append.mp clear
    obtain ⟨t, ts, rfl, is, written⟩ := written.cons
    obtain ⟨ownC, later, rfl, writtenC, written⟩ := written.append
    obtain ⟨u, later, rfl, isU, written⟩ := written.cons
    obtain ⟨ownB, later, rfl, writtenB, written⟩ := written.append
    obtain ⟨v, ownO, rfl, isV, writtenO⟩ := written.cons
    obtain ⟨fuel, rfl⟩ : ∃ n, fuel = n + 1 := ⟨fuel - 1, by simp at enough; omega⟩
    have condition := parseExpr_written orderedC clearC writtenC isU (Lexeme.word_ends _)
      (ownB ++ v :: (ownO ++ rest))
    obtain ⟨body', read, same⟩ := ihb orderedB clearB ownB (v :: (ownO ++ rest)) fuel writtenB
      (fun opens => by simp [nearest] at opens) (by simp at enough ⊢; omega)
    obtain ⟨other', readO, sameO⟩ := iho orderedO clearO ownO rest fuel writtenO closed
      (by simp at enough ⊢; omega)
    refine ⟨.ifElse c body' other', ?_, by rw [unplaced, unplaced, same, sameO]⟩
    simp [Stmt.read, is, condition, expect_here isU, read, expect_here isV, readO]
  | whileDo c body ih =>
    intro front rest fuel written closed enough
    obtain ⟨clearC, clearB⟩ := List.forall_mem_cons.mp clear
    obtain ⟨t, ts, rfl, is, written⟩ := written.cons
    obtain ⟨ownC, later, rfl, writtenC, written⟩ := written.append
    obtain ⟨u, ownB, rfl, isU, writtenB⟩ := written.cons
    obtain ⟨fuel, rfl⟩ : ∃ n, fuel = n + 1 := ⟨fuel - 1, by simp at enough; omega⟩
    have condition := parseExpr_written ordered.1 clearC writtenC isU (Lexeme.word_ends _)
      (ownB ++ rest)
    obtain ⟨body', read, same⟩ := ih ordered.2 clearB ownB rest fuel writtenB closed
      (by simp at enough ⊢; omega)
    refine ⟨.whileDo c body', ?_, by rw [unplaced, unplaced, same]⟩
    simp [Stmt.read, is, condition, expect_here isU, read]
  | repeatWhile body c ih =>
    obtain ⟨clearB, clearC⟩ := List.forall_mem_append.mp clear
    refine readsBack_repeat (f := (repeatWhile · c)) rfl (by decide) ?_ ?_ ordered.2
      (clearC c List.mem_cons_self) (ih ordered.1 clearB)
    · intro s s' same
      rw [unplaced, unplaced, same]
    · intro fuel t u v tokens condition rest s isT isU isV read read'
      simp [Stmt.read, isT, read, expect_here isU, read', expect_here isV]
  | repeatUntil body c ih =>
    obtain ⟨clearB, clearC⟩ := List.forall_mem_append.mp clear
    refine readsBack_repeat (f := (repeatUntil · c)) rfl (by decide) ?_ ?_ ordered.2
      (clearC c List.mem_cons_self) (ih ordered.1 clearB)
    · intro s s' same
      rw [unplaced, unplaced, same]
    · intro fuel t u v tokens condition rest s isT isU isV read read'
      simp [Stmt.read, isT, read, expect_here isU, expect_other isU, read', expect_here isV]

end Stmt

theorem parseBlock_written {body : List Stmt} (ordered : Stmt.AllOrdered body)
    (clear : ∀ e ∈ Stmt.exprsAll body, e.Clear) {front : List Token}
    (written : Writes front (Stmt.block body).lexemes) (rest : List Token) :
    ∃ body', parseBlock (front ++ rest) = some (body', rest) ∧
      body'.map Stmt.unplaced = body.map Stmt.unplaced := by
  obtain ⟨t, ts, rfl, is, written⟩ := written.cons
  have each : ∀ s ∈ body, s.ReadsBack := fun s inside =>
    s.readsBack (Stmt.allOrdered_iff.mp ordered s inside) fun e isExpr =>
      clear e (Stmt.exprs_mem inside isExpr)
  obtain ⟨body', read, same⟩ := Stmt.readBlock_written each clear written
    (show 2 * (ts ++ rest).length + 1 ≤ 2 * (ts ++ rest).length + 2 by omega)
  exact ⟨body', by simpa [parseBlock, expect_here is] using read, same⟩

/-! ### Declarations -/

theorem skipCommas_written {n : Nat} {front : List Token}
    (written : Writes front (List.replicate n (.sign .comma))) {t : Token}
    (other : t.lexeme ≠ .sign .comma) (rest : List Token) :
    skipCommas (front ++ t :: rest) = (n, t :: rest) := by
  induction n generalizing front with
  | zero =>
    rw [written.nil]
    simp [skipCommas, other]
  | succ n ih =>
    obtain ⟨u, us, rfl, is, later⟩ := written.cons
    simp [skipCommas, is, ih later]

theorem TypeRef.read_written {type : TypeRef} (clear : type.Clear) {front : List Token}
    {fuel : Nat} (written : Writes front type.lexemes) (enough : front.length ≤ fuel)
    (rest : List Token) : TypeRef.read fuel (front ++ rest) = some (type, rest) := by
  induction type generalizing front fuel with
  | builtin word =>
    obtain ⟨t, rfl, is⟩ := written.one
    obtain ⟨fuel, rfl⟩ : ∃ n, fuel = n + 1 := ⟨fuel - 1, by simp at enough; omega⟩
    have array : word ≠ "array" := by
      rintro rfl
      exact absurd (show "array" ∈ builtinWords from clear) (by decide)
    simp [TypeRef.read, readWord_here is, array, show word ∈ builtinWords from clear]
  | custom name =>
    obtain ⟨t, rfl, is⟩ := written.one
    obtain ⟨fuel, rfl⟩ : ∃ n, fuel = n + 1 := ⟨fuel - 1, by simp at enough; omega⟩
    have array : name ≠ "array" := clear.ne (by decide)
    have builtin : name ∉ builtinWords := fun inside =>
      clear.2 ((by decide : ∀ word ∈ builtinWords, word ∈ Grammar.words) name inside)
    simp [TypeRef.read, readWord_here is, array, builtin]
  | array commas element ih =>
    obtain ⟨t, ts, rfl, isT, written⟩ := written.cons
    obtain ⟨u, us, rfl, isU, written⟩ := written.cons
    obtain ⟨cs, later, rfl, separators, written⟩ := written.append
    obtain ⟨v, later, rfl, isV, written⟩ := written.cons
    obtain ⟨w, own, rfl, isW, own'⟩ := written.cons
    obtain ⟨fuel, rfl⟩ : ∃ n, fuel = n + 1 := ⟨fuel - 1, by simp at enough; omega⟩
    have skipped := skipCommas_written separators (t := v) (by simp [isV]) (w :: (own ++ rest))
    have read : TypeRef.read fuel (own ++ rest) = some (element, rest) :=
      ih clear own' (by simp at enough; omega)
    simp [TypeRef.read, readWord_here isT, expect_here isU, skipped, expect_here isV,
      expect_here isW, read]

theorem parseTypeClause_written {type : Option TypeRef} (clear : ∀ t ∈ type, t.Clear)
    {front rest : List Token} (written : Writes front (typeClauseLexemes type))
    (ends : expect (.sign .colon) rest = none) :
    parseTypeClause (front ++ rest) = some (type, rest) := by
  cases type with
  | none =>
    rw [written.nil]
    simp [parseTypeClause, ends]
  | some type =>
    obtain ⟨t, ts, rfl, is, written⟩ := written.cons
    have read : parseType (ts ++ rest) = some (type, rest) :=
      TypeRef.read_written (clear type rfl) written (by simp) rest
    simp [parseTypeClause, expect_here is, read]

theorem parseNames_written {first : String} {names : List String} {front rest : List Token}
    (written : Writes front (commas ((first :: names).map fun name => [.word name])))
    (ends : expect (.sign .comma) rest = none) :
    ∃ later, readWord (front ++ rest) = some (first, later) ∧
      parseNames later = some (names, rest) := by
  induction names generalizing first front with
  | nil =>
    obtain ⟨t, rfl, is⟩ := written.one
    refine ⟨rest, readWord_here is, ?_⟩
    cases rest with
    | nil => rfl
    | cons u us =>
      have other : u.lexeme ≠ .sign .comma := fun comma => by simp [expect_here comma] at ends
      rw [parseNames.eq_def]
      simp [other]
  | cons next names ih =>
    obtain ⟨t, ts, rfl, is, written⟩ := written.cons
    obtain ⟨u, us, rfl, isU, written⟩ := written.cons
    obtain ⟨later, word, read⟩ := ih written
    refine ⟨u :: (us ++ rest), readWord_here is, ?_⟩
    unfold readWord at word
    split at word
    · rename_i same
      cases word
      rw [parseNames.eq_def]
      simp [isU, same, read]
    · cases word

/-- A type clause starts with a colon; without one, what is behind comes first. -/
theorem typeClause_starts {type : Option TypeRef} {front : List Token} {t : Token} {l : Lexeme}
    {P : Lexeme → Prop} (written : Writes front (typeClauseLexemes type)) (colon : P (.sign .colon))
    (is : t.lexeme = l) (next : P l) (rest : List Token) :
    ∃ u us, front ++ t :: rest = u :: us ∧ P u.lexeme := by
  cases type with
  | none =>
    rw [written.nil]
    exact ⟨t, rest, rfl, is ▸ next⟩
  | some type =>
    obtain ⟨u, us, rfl, is, -⟩ := written.cons
    exact ⟨u, _, rfl, is ▸ colon⟩

theorem readWord_other {t : Token} (other : ∀ word, t.lexeme ≠ .word word) (rest : List Token) :
    readWord (t :: rest) = none := by
  unfold readWord
  split
  · rename_i same
    cases same
    exact absurd rfl (other _)
  · rfl

theorem parseVarGroup_written {group : VarGroup} (clear : group.Clear) {front : List Token}
    (written : Writes front group.lexemes) (rest : List Token) :
    parseVarGroup (front ++ rest) = some (group, rest) := by
  obtain ⟨names, type⟩ := group
  obtain ⟨own, later, rfl, own', written⟩ := written.append
  obtain ⟨clause, last, rfl, clause', isLast⟩ := written.append
  obtain ⟨t, rfl, is⟩ := isLast.one
  have typed : parseTypeClause (clause ++ t :: rest) = some (type, t :: rest) :=
    parseTypeClause_written clear.2 clause' (expect_other is (by decide))
  cases names with
  | nil =>
    obtain ⟨u, us, split, noWord⟩ := typeClause_starts (P := fun l => ∀ word, l ≠ .word word)
      clause' (by simp) is (by simp) rest
    have noWord : readWord (clause ++ t :: rest) = none := by
      rw [split]
      exact readWord_other noWord us
    rw [own'.nil]
    simp [parseVarGroup, noWord, typed, expect_here is]
  | cons first names =>
    obtain ⟨u, us, split, noComma⟩ := typeClause_starts (P := (· ≠ .sign .comma))
      clause' (by simp) is (by simp) rest
    obtain ⟨listed, word, more⟩ := parseNames_written own'
      (split ▸ expect_other rfl noComma)
    simp [parseVarGroup, word, more, typed, expect_here is]

/-- A group starts with a name, a colon or a semicolon, but not with `begin`. -/
theorem VarGroup.starts {group : VarGroup} (clear : group.Clear) {front : List Token}
    (written : Writes front group.lexemes) :
    ∃ t ts, front = t :: ts ∧ t.lexeme ≠ .word "begin" := by
  obtain ⟨names, type⟩ := group
  cases names with
  | nil =>
    rw [VarGroup.lexemes, List.map_nil, commas, List.nil_append] at written
    obtain ⟨clause, last, rfl, clause', isLast⟩ := written.append
    obtain ⟨t, rfl, is⟩ := isLast.one
    exact typeClause_starts (P := (· ≠ .word "begin")) clause' (by decide) is (by decide) []
  | cons first names =>
    obtain ⟨ls, head⟩ := commas_first (.word first) [] (names.map fun name => [.word name])
    rw [VarGroup.lexemes, List.map_cons, head] at written
    obtain ⟨t, ts, rfl, is, -⟩ := written.cons
    refine ⟨t, ts, rfl, fun begins => ?_⟩
    exact (clear.1 first List.mem_cons_self).ne (by decide) (Lexeme.word.inj (is.symm.trans begins))

theorem VarGroup.readAll_written {groups : List VarGroup} (clear : ∀ g ∈ groups, g.Clear)
    {front : List Token} {fuel : Nat} (written : Writes front (groups.flatMap VarGroup.lexemes))
    {t : Token} (begins : t.lexeme = .word "begin") (rest : List Token)
    (enough : front.length < fuel) :
    VarGroup.readAll fuel (front ++ t :: rest) = some (groups, t :: rest) := by
  induction groups generalizing front fuel with
  | nil =>
    obtain ⟨fuel, rfl⟩ : ∃ n, fuel = n + 1 := ⟨fuel - 1, by omega⟩
    rw [written.nil]
    simp [VarGroup.readAll, expect_here begins]
  | cons group groups ih =>
    obtain ⟨fuel, rfl⟩ : ∃ n, fuel = n + 1 := ⟨fuel - 1, by omega⟩
    obtain ⟨clearG, others⟩ := List.forall_mem_cons.mp clear
    rw [List.flatMap_cons] at written
    obtain ⟨own, later, rfl, own', later'⟩ := written.append
    have first := parseVarGroup_written clearG own' (later ++ t :: rest)
    obtain ⟨u, us, rfl, other⟩ := VarGroup.starts clearG own'
    have more : VarGroup.readAll fuel (later ++ t :: rest) = some (groups, t :: rest) :=
      ih others later' (by simp at enough; omega)
    simp only [List.append_assoc, List.cons_append] at first ⊢
    simp [VarGroup.readAll, expect_other rfl other, first, more]

theorem parseBody_written {body : Body} (ordered : Stmt.AllOrdered body.block)
    (clear : body.Clear) {front : List Token} (written : Writes front body.lexemes)
    (rest : List Token) :
    ∃ body', parseBody (front ++ rest) = some (body', rest) ∧ body'.unplaced = body.unplaced := by
  obtain ⟨vars, block⟩ := body
  obtain ⟨section_, own, rfl, section', own'⟩ := written.append
  obtain ⟨block', read, same⟩ := parseBlock_written ordered clear.block own' rest
  obtain ⟨t, ts, rfl, is, -⟩ := own'.cons
  cases vars with
  | none =>
    refine ⟨⟨none, block'⟩, ?_, by simp [Body.unplaced, same]⟩
    rw [section'.nil]
    simp only [List.nil_append, List.cons_append] at read ⊢
    simp [parseBody, expect_other is (show Lexeme.word "begin" ≠ .word "var" by decide), read]
  | some groups =>
    refine ⟨⟨some groups, block'⟩, ?_, by simp [Body.unplaced, same]⟩
    obtain ⟨u, us, rfl, isU, groups'⟩ := section'.cons
    have groupsRead := VarGroup.readAll_written (clear.vars groups rfl) groups' is (ts ++ rest)
      (show us.length < (us ++ t :: (ts ++ rest)).length + 1 by rw [List.length_append]; omega)
    simp only [List.append_assoc, List.cons_append] at read ⊢
    simp only [parseBody, expect_here isU, groupsRead]
    simp [read]

theorem parseArgDef_written {arg : ArgDef} (clear : arg.Clear) {front rest : List Token}
    (written : Writes front arg.lexemes) (ends : expect (.sign .colon) rest = none) :
    parseArgDef (front ++ rest) = some (arg, rest) := by
  obtain ⟨t, ts, rfl, is, written⟩ := written.cons
  have typed := parseTypeClause_written clear.2 written ends
  simp [parseArgDef, readWord_here is, typed]

theorem ArgDef.readAll_written {arg : ArgDef} {args : List ArgDef}
    (clear : ∀ a ∈ arg :: args, a.Clear) {front : List Token} {fuel : Nat}
    (written : Writes front
      (commas ((arg :: args).map ArgDef.lexemes) ++ [.sign .closeParen]))
    (enough : front.length ≤ fuel) (rest : List Token) :
    ArgDef.readAll fuel (front ++ rest) = some (arg :: args, rest) := by
  induction args generalizing arg front fuel with
  | nil =>
    obtain ⟨own, last, rfl, own', isLast⟩ := written.append
    obtain ⟨t, rfl, is⟩ := isLast.one
    obtain ⟨fuel, rfl⟩ : ∃ n, fuel = n + 1 := ⟨fuel - 1, by simp at enough; omega⟩
    have read : parseArgDef (own ++ t :: rest) = some (arg, t :: rest) :=
      parseArgDef_written (clear arg List.mem_cons_self) own' (expect_other is (by decide))
    simp [ArgDef.readAll, read, expect_here is]
  | cons next args ih =>
    obtain ⟨clearA, others⟩ := List.forall_mem_cons.mp clear
    rw [List.map_cons, commas_cons (by simp), List.append_assoc] at written
    obtain ⟨own, later, rfl, own', written'⟩ := written.append
    obtain ⟨t, later, rfl, is, written'⟩ := written'.cons
    obtain ⟨fuel, rfl⟩ : ∃ n, fuel = n + 1 := ⟨fuel - 1, by simp at enough; omega⟩
    have read : parseArgDef (own ++ t :: (later ++ rest)) = some (arg, t :: (later ++ rest)) :=
      parseArgDef_written clearA own' (expect_other is (by decide))
    have more : ArgDef.readAll fuel (later ++ rest) = some (next :: args, rest) :=
      ih others written' (by simp at enough; omega)
    simp [ArgDef.readAll, read, expect_other is, expect_here is, more]

theorem parseSignature_written {s : Signature} (clear : s.Clear) {front rest : List Token}
    (written : Writes front s.lexemes) (ends : expect (.sign .colon) rest = none) :
    parseSignature (front ++ rest) = some (s, rest) := by
  obtain ⟨name, args, result⟩ := s
  obtain ⟨t, ts, rfl, isT, written⟩ := written.cons
  obtain ⟨u, us, rfl, isU, written⟩ := written.cons
  cases args with
  | nil =>
    obtain ⟨v, clause, rfl, isV, clause'⟩ := written.cons
    have typed := parseTypeClause_written clear.result clause' ends
    simp [parseSignature, readWord_here isT, expect_here isU, expect_here isV, typed]
  | cons arg args =>
    have written : Writes us ((commas ((arg :: args).map ArgDef.lexemes) ++ [.sign .closeParen]) ++
        typeClauseLexemes result) := by simpa using written
    obtain ⟨listed, clause, rfl, listed', clause'⟩ := written.append
    have typed := parseTypeClause_written clear.result clause' ends
    have read : ArgDef.readAll (listed ++ (clause ++ rest)).length (listed ++ (clause ++ rest)) =
        some (arg :: args, clause ++ rest) :=
      ArgDef.readAll_written clear.args listed' (by simp) _
    obtain ⟨ls, first⟩ := commas_first (.word arg.name) (typeClauseLexemes arg.type)
      (args.map ArgDef.lexemes)
    rw [List.map_cons, ArgDef.lexemes, first] at listed'
    obtain ⟨v, vs, rfl, isV, -⟩ := listed'.cons
    have more : expect (.sign .closeParen) (v :: (vs ++ (clause ++ rest))) = none :=
      expect_other isV (by simp)
    simp only [List.cons_append, List.append_assoc, List.length_cons, List.length_append] at read ⊢
    simp [parseSignature, readWord_here isT, expect_here isU, more, read, typed]

theorem Body.starts {body : Body} {front : List Token} (written : Writes front body.lexemes) :
    ∃ t ts word, front = t :: ts ∧ t.lexeme = .word word := by
  obtain ⟨vars, block⟩ := body
  cases vars with
  | none | some groups =>
    obtain ⟨t, ts, rfl, is, -⟩ := Writes.cons written
    exact ⟨t, ts, _, rfl, is⟩

theorem parseMethod_written {m : Method} (ordered : m.Ordered) (clear : m.Clear)
    {front : List Token} (written : Writes front m.lexemes) (rest : List Token) :
    ∃ m', parseMethod (front ++ rest) = some (m', rest) ∧ m'.unplaced = m.unplaced := by
  obtain ⟨signature, body⟩ := m
  obtain ⟨t, ts, rfl, is, written⟩ := written.cons
  obtain ⟨head, own, rfl, head', own'⟩ := written.append
  cases body with
  | none =>
    obtain ⟨u, rfl, ends⟩ := Writes.one own'
    have read : parseSignature (head ++ u :: rest) = some (signature, u :: rest) :=
      parseSignature_written clear.signature head' (expect_other ends (by decide))
    exact ⟨⟨signature, none⟩, by simp [parseMethod, expect_here is, read, expect_here ends], rfl⟩
  | some body =>
    obtain ⟨body', readBody, same⟩ :=
      parseBody_written (ordered body rfl) (clear.body body rfl) own' rest
    obtain ⟨u, us, word, rfl, starts⟩ := Body.starts own'
    have read : parseSignature (head ++ u :: (us ++ rest)) = some (signature, u :: (us ++ rest)) :=
      parseSignature_written clear.signature head' (expect_other starts (by simp))
    have ends : expect (.sign .semicolon) (u :: (us ++ rest)) = none := expect_other starts (by simp)
    refine ⟨⟨signature, some body'⟩, ?_, by simp [Method.unplaced, same]⟩
    rw [List.cons_append] at readBody
    simp [parseMethod, expect_here is, read, ends, readBody]

theorem Source.readAll_written {source : Source}
    (each : ∀ m ∈ source, m.Ordered ∧ m.Clear) {tokens : List Token} {fuel : Nat}
    (written : Writes tokens (source.flatMap Method.lexemes)) (enough : tokens.length ≤ fuel) :
    ∃ source', Source.readAll fuel tokens = some source' ∧
      source'.map Method.unplaced = source.map Method.unplaced := by
  induction source generalizing tokens fuel with
  | nil =>
    rw [written.nil]
    exact ⟨[], Source.readAll.eq_1 _, rfl⟩
  | cons m source ih =>
    obtain ⟨⟨ordered, clear⟩, others⟩ := List.forall_mem_cons.mp each
    obtain ⟨own, later, rfl, own', later'⟩ := written.append
    obtain ⟨m', read, same⟩ := parseMethod_written ordered clear own' later
    obtain ⟨t, ts, rfl, -, -⟩ := own'.cons
    obtain ⟨fuel, rfl⟩ : ∃ n, fuel = n + 1 := ⟨fuel - 1, by simp at enough; omega⟩
    obtain ⟨source', more, sames⟩ :=
      ih others later' (show later.length ≤ fuel by simp at enough; omega)
    refine ⟨m' :: source', ?_, by simp [same, sames]⟩
    rw [List.cons_append] at read ⊢
    simp [Source.readAll, read, more]

end MethodLang
