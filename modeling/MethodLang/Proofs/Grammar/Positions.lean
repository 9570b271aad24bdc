import MethodLang.Proofs.Grammar.Reading
import MethodLang.Proofs.Grammar.Unplaced

/-!
Parsing does not look at positions. What is read from tokens without their positions is what is
read from the tokens themselves, without the places of its breaks (`Source.readAll_unplaced`), so
tokens with the same lexemes are parsed alike (`Source.readAll_alike`).
-/
namespace MethodLang

/-- The token with its position at the start. -/
def Token.unplaced (t : Token) : Token := { t with stop := .start }

/-- Without positions the reader reads the same, up to the positions it takes over. -/
def Blind {α : Type} (unplace : α → α) (reader : List Token → Option (α × List Token)) : Prop :=
  ∀ tokens, reader (tokens.map Token.unplaced) =
    (reader tokens).map (Prod.map unplace (List.map Token.unplaced))

/-! ### Steps of a reader -/

section
variable {α β γ : Type} {unplace : α → α} {after : β → γ}
  {reader : List Token → Option (α × List Token)}

theorem expect_unplaced (l : Lexeme) (tokens : List Token) :
    expect l (tokens.map Token.unplaced) = (expect l tokens).map (List.map Token.unplaced) := by
  cases tokens with
  | nil => rfl
  | cons t rest =>
    simp only [List.map_cons, expect, Token.unplaced]
    split <;> rfl

theorem expect_then (l : Lexeme) (tokens : List Token) {next : List Token → Option β}
    {next' : List Token → Option γ}
    (later : ∀ rest, next' (rest.map Token.unplaced) = (next rest).map after) :
    (expect l (tokens.map Token.unplaced) >>= next') = (expect l tokens >>= next).map after := by
  rw [expect_unplaced]
  cases expect l tokens with
  | none => rfl
  | some rest => exact later rest

theorem Blind.andThen (blind : Blind unplace reader) (tokens : List Token)
    {next : α × List Token → Option β} {next' : α × List Token → Option γ}
    (later : ∀ a rest, next' (unplace a, rest.map Token.unplaced) = (next (a, rest)).map after) :
    (reader (tokens.map Token.unplaced) >>= next') = (reader tokens >>= next).map after := by
  rw [blind tokens]
  cases reader tokens with
  | none => rfl
  | some read => exact later read.1 read.2

end

theorem readWord_blind : Blind id readWord := by
  intro tokens
  rcases tokens with _ | ⟨⟨lexeme, stop⟩, rest⟩
  · rfl
  · cases lexeme <;> rfl

/-! ### Expressions -/

namespace Expr

/-- The readers of expressions do not look at positions. -/
structure AllBlind (fuel : Nat) : Prop where
  read : ∀ level, Blind id (Expr.read fuel level)
  extend : ∀ level left, Blind id (Expr.extend fuel level left)
  list : ∀ close, Blind id (Expr.readList fuel close)
  items : ∀ close, Blind id (Expr.readItems fuel close)

variable {fuel : Nat}

theorem read_blind (ih : AllBlind fuel) (level : Nat) : Blind id (Expr.read (fuel + 1) level) := by
  intro tokens
  rcases tokens with _ | ⟨⟨lexeme, stop⟩, rest⟩
  · rfl
  cases lexeme with
  | word text =>
    simp only [List.map_cons, Token.unplaced, Expr.read]
    split
    · exact ih.extend level _ rest
    · exact ih.extend level _ rest
  | literal kind text => exact ih.extend level _ rest
  | sign s =>
    cases s with
    | unary op => exact (ih.read _).andThen rest fun operand rest => ih.extend level _ rest
    | openParen =>
      refine (ih.read 0).andThen rest fun inner rest => ?_
      exact expect_then _ rest fun rest => ih.extend level _ rest
    | _ => rfl

theorem extend_blind (ih : AllBlind fuel) (level : Nat) (left : Expr) :
    Blind id (Expr.extend (fuel + 1) level left) := by
  intro tokens
  rcases tokens with _ | ⟨⟨lexeme, stop⟩, rest⟩
  · rfl
  cases lexeme with
  | word text => rfl
  | literal kind text => rfl
  | sign s =>
    cases s with
    | openParen => exact (ih.list _).andThen rest fun args rest => ih.extend level _ rest
    | openBracket => exact (ih.list _).andThen rest fun indices rest => ih.extend level _ rest
    | binary op =>
      simp only [List.map_cons, Token.unplaced, Expr.extend]
      split
      · exact (ih.read _).andThen rest fun right rest => ih.extend level _ rest
      · rfl
    | _ => rfl

theorem readList_blind (ih : AllBlind fuel) (close : Sign) :
    Blind id (Expr.readList (fuel + 1) close) := by
  intro tokens
  simp only [Expr.readList, expect_unplaced]
  cases expect (.sign close) tokens with
  | some rest => rfl
  | none => exact ih.items close tokens

theorem readItems_blind (ih : AllBlind fuel) (close : Sign) :
    Blind id (Expr.readItems (fuel + 1) close) := by
  intro tokens
  refine (ih.read 0).andThen tokens fun e rest => ?_
  simp only [expect_unplaced]
  cases expect (.sign close) rest with
  | some rest => rfl
  | none =>
    rw [← expect_unplaced]
    refine expect_then _ rest fun rest => ?_
    exact (ih.items close).andThen rest fun es rest => rfl

theorem allBlind (fuel : Nat) : AllBlind fuel := by
  induction fuel with
  | zero => exact ⟨fun _ _ => rfl, fun _ _ _ => rfl, fun _ _ => rfl, fun _ _ => rfl⟩
  | succ fuel ih => exact ⟨read_blind ih, extend_blind ih, readList_blind ih, readItems_blind ih⟩

end Expr

theorem parseExpr_blind : Blind id parseExpr := by
  intro tokens
  rw [parseExpr, List.length_map]
  exact (Expr.allBlind _).read 0 tokens

/-! ### Statements -/

namespace Stmt

/-- The readers of statements look at positions only to place breaks. -/
structure AllBlind (fuel : Nat) : Prop where
  read : Blind Stmt.unplaced (Stmt.read fuel)
  block : Blind Stmt.unplacedAll (Stmt.readBlock fuel)

variable {fuel : Nat}

theorem read_blind (ih : AllBlind fuel) : Blind Stmt.unplaced (Stmt.read (fuel + 1)) := by
  intro tokens
  rcases tokens with _ | ⟨t, rest⟩
  · rfl
  have same : t.unplaced.lexeme = t.lexeme := rfl
  simp only [List.map_cons, Stmt.read, same]
  split
  · refine parseExpr_blind.andThen rest fun condition rest => expect_then _ rest fun rest => ?_
    refine ih.read.andThen rest fun body rest => ?_
    simp only [expect_unplaced]
    cases expect (.word "else") rest with
    | some rest => exact ih.read.andThen rest fun other rest => rfl
    | none => rfl
  split
  · exact ih.block.andThen rest fun body rest => rfl
  split
  · refine parseExpr_blind.andThen rest fun condition rest => expect_then _ rest fun rest => ?_
    exact ih.read.andThen rest fun body rest => rfl
  split
  · refine ih.read.andThen rest fun body rest => ?_
    simp only [expect_unplaced]
    cases expect (.word "while") rest with
    | some rest =>
      refine parseExpr_blind.andThen rest fun condition rest => ?_
      exact expect_then _ rest fun rest => rfl
    | none =>
      rw [← expect_unplaced]
      refine expect_then _ rest fun rest => parseExpr_blind.andThen rest fun condition rest => ?_
      exact expect_then _ rest fun rest => rfl
  split
  · -- the only position that is taken over: that of the semicolon behind a break
    rcases rest with _ | ⟨⟨lexeme, stop⟩, rest⟩
    · rfl
    · rcases lexeme with _ | _ | sign
      case sign => cases sign <;> rfl
      all_goals rfl
  · refine parseExpr_blind.andThen (t :: rest) fun e rest => ?_
    exact expect_then _ rest fun rest => rfl

theorem readBlock_blind (ih : AllBlind fuel) :
    Blind Stmt.unplacedAll (Stmt.readBlock (fuel + 1)) := by
  intro tokens
  simp only [Stmt.readBlock, expect_unplaced]
  cases expect (.word "end") tokens with
  | some rest => exact expect_then _ rest fun rest => rfl
  | none => exact ih.read.andThen tokens fun s rest => ih.block.andThen rest fun ss rest => rfl

theorem allBlind (fuel : Nat) : AllBlind fuel := by
  induction fuel with
  | zero => exact ⟨fun _ => rfl, fun _ => rfl⟩
  | succ fuel ih => exact ⟨read_blind ih, readBlock_blind ih⟩

end Stmt

theorem parseBlock_blind : Blind Stmt.unplacedAll parseBlock := by
  intro tokens
  refine expect_then _ tokens fun rest => ?_
  rw [List.length_map]
  exact (Stmt.allBlind _).block rest

/-! ### Declarations -/

theorem skipCommas_unplaced (tokens : List Token) : skipCommas (tokens.map Token.unplaced) =
    ((skipCommas tokens).1, (skipCommas tokens).2.map Token.unplaced) := by
  induction tokens with
  | nil => rfl
  | cons t rest ih =>
    have same : t.unplaced.lexeme = t.lexeme := rfl
    simp only [List.map_cons, skipCommas, same, ih]
    split <;> rfl

theorem TypeRef.read_blind (fuel : Nat) : Blind id (TypeRef.read fuel) := by
  induction fuel with
  | zero => exact fun _ => rfl
  | succ fuel ih =>
    intro tokens
    refine readWord_blind.andThen tokens fun text rest => ?_
    simp only [id_eq]
    split
    · refine expect_then _ rest fun rest => ?_
      simp only [skipCommas_unplaced]
      refine expect_then _ _ fun rest => expect_then _ rest fun rest => ?_
      exact ih.andThen rest fun element rest => rfl
    · split <;> rfl

theorem parseType_blind : Blind id parseType := by
  intro tokens
  rw [parseType, List.length_map]
  exact TypeRef.read_blind _ tokens

theorem parseTypeClause_blind : Blind id parseTypeClause := by
  intro tokens
  simp only [parseTypeClause, expect_unplaced]
  cases expect (.sign .colon) tokens with
  | some rest => exact parseType_blind.andThen rest fun type rest => rfl
  | none => rfl

theorem parseNames_blind : Blind id parseNames := by
  intro tokens
  fun_induction parseNames tokens with
  | case1 => rfl
  | case2 t isComma name stop rest ih =>
    simp only [List.map_cons, parseNames.eq_def (_ :: _), Token.unplaced, if_pos isComma, ih]
    cases parseNames rest <;> rfl
  | case3 t rest isComma noName =>
    have isComma : t.unplaced.lexeme = .sign .comma := isComma
    simp only [List.map_cons, parseNames.eq_def (_ :: _), if_pos isComma]
    rcases rest with _ | ⟨⟨lexeme, stop⟩, rest⟩
    · rfl
    · cases lexeme with
      | word name => exact (noName name stop rest rfl).elim
      | _ => rfl
  | case4 t rest other =>
    have other : t.unplaced.lexeme ≠ .sign .comma := other
    simp only [List.map_cons, parseNames.eq_def (_ :: _), if_neg other]
    rfl

theorem parseVarGroup_blind : Blind id parseVarGroup := by
  have clause (names : List String) : Blind id (fun tokens => do
      let clause ← parseTypeClause tokens
      let rest ← expect (.sign .semicolon) clause.2
      some (VarGroup.mk names clause.1, rest)) := by
    intro tokens
    refine parseTypeClause_blind.andThen tokens fun type rest => ?_
    exact expect_then _ rest fun rest => rfl
  intro tokens
  simp only [parseVarGroup, readWord_blind tokens]
  cases readWord tokens with
  | some read => exact parseNames_blind.andThen read.2 fun names rest => clause _ rest
  | none => exact clause [] tokens

theorem VarGroup.readAll_blind (fuel : Nat) : Blind id (VarGroup.readAll fuel) := by
  induction fuel with
  | zero => exact fun _ => rfl
  | succ fuel ih =>
    intro tokens
    simp only [VarGroup.readAll, expect_unplaced]
    cases expect (.word "begin") tokens with
    | some rest => rfl
    | none =>
      refine parseVarGroup_blind.andThen tokens fun group rest => ?_
      exact ih.andThen rest fun groups rest => rfl

theorem parseBody_blind : Blind Body.unplaced parseBody := by
  have unplacedBody (vars : Option (List VarGroup)) (block : List Stmt) (rest : List Token) :
      some (Body.mk vars (Stmt.unplacedAll block), rest.map Token.unplaced) =
        (some (Body.mk vars block, rest)).map
          (Prod.map Body.unplaced (List.map Token.unplaced)) := by
    rw [Stmt.unplacedAll_eq_map]
    rfl
  intro tokens
  simp only [parseBody, expect_unplaced]
  cases expect (.word "var") tokens with
  | some rest =>
    simp only [Option.map_some, List.length_map]
    refine (VarGroup.readAll_blind _).andThen rest fun groups rest => ?_
    exact parseBlock_blind.andThen rest fun block rest => unplacedBody _ block rest
  | none => exact parseBlock_blind.andThen tokens fun block rest => unplacedBody _ block rest

theorem parseArgDef_blind : Blind id parseArgDef := by
  intro tokens
  refine readWord_blind.andThen tokens fun name rest => ?_
  exact parseTypeClause_blind.andThen rest fun type rest => rfl

theorem ArgDef.readAll_blind (fuel : Nat) : Blind id (ArgDef.readAll fuel) := by
  induction fuel with
  | zero => exact fun _ => rfl
  | succ fuel ih =>
    intro tokens
    refine parseArgDef_blind.andThen tokens fun arg rest => ?_
    simp only [expect_unplaced]
    cases expect (.sign .closeParen) rest with
    | some rest => rfl
    | none =>
      rw [← expect_unplaced]
      refine expect_then _ rest fun rest => ?_
      exact ih.andThen rest fun args rest => rfl

theorem parseSignature_blind : Blind id parseSignature := by
  have clause (name : String) (args : List ArgDef) : Blind id (fun tokens => do
      let clause ← parseTypeClause tokens
      some (Signature.mk name args clause.1, clause.2)) := by
    intro tokens
    exact parseTypeClause_blind.andThen tokens fun result rest => rfl
  intro tokens
  refine readWord_blind.andThen tokens fun name rest => expect_then _ rest fun rest => ?_
  simp only [expect_unplaced, List.length_map]
  cases expect (.sign .closeParen) rest with
  | some rest => exact clause name [] rest
  | none => exact (ArgDef.readAll_blind _).andThen rest fun args rest => clause name args rest

theorem parseMethod_blind : Blind Method.unplaced parseMethod := by
  intro tokens
  refine expect_then _ tokens fun rest => parseSignature_blind.andThen rest fun signature rest => ?_
  simp only [expect_unplaced]
  cases expect (.sign .semicolon) rest with
  | some rest => rfl
  | none => exact parseBody_blind.andThen rest fun body rest => rfl

/-! ### Sources -/

theorem Source.readAll_unplaced (fuel : Nat) (tokens : List Token) :
    Source.readAll fuel (tokens.map Token.unplaced) =
      (Source.readAll fuel tokens).map (List.map Method.unplaced) := by
  induction fuel generalizing tokens with
  | zero => cases tokens <;> rfl
  | succ fuel ih =>
    cases tokens with
    | nil => rfl
    | cons t rest =>
      refine parseMethod_blind.andThen (t :: rest) fun m rest => ?_
      simp only [ih]
      cases Source.readAll fuel rest <;> rfl

/-- Tokens with the same lexemes are parsed alike. -/
theorem Source.readAll_alike {tokens tokens' : List Token}
    (same : tokens'.map Token.lexeme = tokens.map Token.lexeme) {fuel : Nat} {source : Source}
    (read : Source.readAll fuel tokens = some source) :
    ∃ source', Source.readAll fuel tokens' = some source' ∧
      source'.map Method.unplaced = source.map Method.unplaced := by
  have unplaced : tokens'.map Token.unplaced = tokens.map Token.unplaced := by
    have placed := congrArg (List.map fun l => Token.mk l .start) same
    rwa [List.map_map, List.map_map] at placed
  have both := Source.readAll_unplaced fuel tokens'
  rw [unplaced, Source.readAll_unplaced, read] at both
  obtain ⟨source', read', alike⟩ := Option.map_eq_some_iff.mp both.symm
  exact ⟨source', read', alike⟩

end MethodLang
