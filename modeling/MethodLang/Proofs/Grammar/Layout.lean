import MethodLang.Proofs.Grammar.Completeness
import MethodLang.Proofs.Grammar.Positions
import MethodLang.Proofs.Tree.Related

/-!
Layout. However the leaves of a parsed source are spaced, the text is parsed into a tree with the
same view, but for the positions (`layout_free`): what was scanned can be scanned again behind any
white space (`scan_whole`), the parser sees only lexemes, and the labels of a view do not depend on
positions (`Node.viewIn_unplaced`).
-/
namespace MethodLang

open Grammar

/-! ### Scanned lexemes -/

namespace Token

theorem readString_clear {cs body rest : List Char} (h : readString cs = some (body, rest)) :
    ∀ c ∈ body, isNull c = false := by
  fun_induction readString cs generalizing body rest with
  | case1 => cases h
  | case2 cs =>
    cases h
    exact List.forall_mem_singleton.mpr rfl
  | case3 => cases h
  | case4 c cs allowed ih =>
    obtain ⟨⟨later, after⟩, read, same⟩ := Option.map_eq_some_iff.mp h
    cases same
    simp only [Bool.or_eq_true, not_or, Bool.not_eq_true] at allowed
    simpa [allowed.2, show isNull '\\' = false from rfl] using ih read
  | case5 => cases h
  | case6 c cs _ _ allowed ih =>
    obtain ⟨⟨later, after⟩, read, same⟩ := Option.map_eq_some_iff.mp h
    cases same
    simp only [Bool.or_eq_true, not_or, Bool.not_eq_true] at allowed
    exact List.forall_mem_cons.mpr ⟨allowed.2, ih read⟩

theorem readLexeme_clear {cs rest : List Char} {kind : LiteralKind} {text : String}
    (h : readLexeme cs = some (.literal kind text, rest)) (quotes : kind.quotes) :
    ∀ c ∈ text.toList, isNull c = false := by
  unfold readLexeme at h
  split at h
  · cases h
  · rename_i c cs
    split at h
    · cases h
    split at h
    · cases h
      obtain ⟨-, number⟩ := readNumber_text (rfl : readNumber c cs = _)
      have unquoted {k : LiteralKind} (number : k = .hex ∨ k = .bits ∨ k = .dec) :
          ¬ k.quotes := by
        rcases number with rfl | rfl | rfl <;> decide
      exact absurd quotes (unquoted number)
    split at h
    · rename_i quote
      obtain ⟨⟨body, after⟩, read, same⟩ := Option.map_eq_some_iff.mp h
      cases same
      rw [String.toList_ofList, eq_of_beq quote]
      exact List.forall_mem_cons.mpr ⟨rfl, readString_clear read⟩
    split at h
    · rename_i quote
      split at h
      · split at h
        · cases h
        · rename_i allowed
          cases h
          simp only [Bool.or_eq_true, not_or, Bool.not_eq_true] at allowed
          rw [String.toList_ofList, eq_of_beq quote]
          simp [allowed.2, show isNull '\'' = false from rfl]
      · cases h
    · obtain ⟨⟨s, after⟩, _, same⟩ := Option.map_eq_some_iff.mp h
      cases same

theorem whole_of_read {cs rest : List Char} {l : Lexeme} (h : readLexeme cs = some (l, rest)) :
    l.Whole := by
  cases l with
  | word text => exact readLexeme_spelled h
  | literal kind text => exact ⟨(readLexeme_proper h).2, readLexeme_clear h⟩
  | sign s => trivial

theorem scan_whole {text : String} {tokens : List Token} (h : scan text = some tokens) :
    AllWhole (tokens.map Token.lexeme) :=
  List.forall_mem_map.mpr (scan_each whole_of_read h)

end Token

/-! ### Views without positions -/

namespace Node

@[simp] theorem field_unplaced (n : Node) : n.unplaced.field = n.field := by
  cases n
  rfl

theorem emptyList?_unplaced (kind : String) (ns : List Node) :
    emptyList? kind (ns.map unplaced) = emptyList? kind ns := by
  simp only [emptyList?, List.any_map, Function.comp_def, field_unplaced]

/-- Where an empty list goes depends on the kinds of the children alone. -/
theorem withEmptyList_unplaced (list : Option (String × String)) {ns : List Node}
    (each : ∀ n ∈ ns, (n.unplaced.viewIn false).bare = (n.viewIn false).bare) :
    (withEmptyList list (viewAll (ns.map unplaced))).map Tree.bare =
      (withEmptyList list (viewAll ns)).map Tree.bare := by
  have views {ns : List Node}
      (each : ∀ n ∈ ns, (n.unplaced.viewIn false).bare = (n.viewIn false).bare) :
      ((viewAll (ns.map unplaced)).map (·.2)).map Tree.bare =
        ((viewAll ns).map (·.2)).map Tree.bare := by
    simpa [viewAll_eq_map] using each
  induction ns with
  | nil => rfl
  | cons n ns ih =>
    obtain ⟨first, later⟩ := List.forall_mem_cons.mp each
    rw [List.map_cons, viewAll, viewAll]
    cases list with
    | none => simp only [withEmptyList, List.map_cons, first, views later]
    | some required =>
      simp only [withEmptyList, kind_unplaced]
      split
      · simp only [List.map_cons, first, views later]
      · rw [List.map_cons, List.map_cons, first, ih later]

theorem viewIn_unplaced (isRoot : Bool) (n : Node) :
    (n.unplaced.viewIn isRoot).bare = (n.viewIn isRoot).bare := by
  induction n using Node.induction generalizing isRoot with | step n ih =>
  have each : ∀ c ∈ n.children, (c.unplaced.viewIn false).bare = (c.viewIn false).bare :=
    fun c inside => ih c (sizeOf_child inside) false
  obtain ⟨kind, field, text, missing, error, stop, children⟩ := n
  rw [unplaced, unplacedAll_eq_map]
  cases children with
  | nil =>
    simp only [List.map_nil, viewIn]
    split
    · rfl
    · split <;> rfl
  | cons c cs =>
    have inner : (withEmptyList (emptyList? kind ((c :: cs).map unplaced))
        (viewAll ((c :: cs).map unplaced))).map Tree.bare =
          (withEmptyList (emptyList? kind (c :: cs)) (viewAll (c :: cs))).map Tree.bare := by
      rw [emptyList?_unplaced]
      exact withEmptyList_unplaced _ each
    rw [List.map_cons] at inner ⊢
    rw [viewIn, viewIn, Tree.bare_node, Tree.bare_node, inner]
    rfl

end Node

/-! ### Sources -/

theorem Spaced.of_gaps (first : String) (later : List (List Char × String))
    (gaps : ∀ p ∈ later, p.1 ≠ [] ∧ ∀ c ∈ p.1, c ∈ whiteSpace) :
    Spaced (first :: later.map (·.2))
      (first.toList ++ later.flatMap fun p => p.1 ++ p.2.toList) := by
  induction later generalizing first with
  | nil => simpa using Spaced.one first
  | cons p later ih =>
    obtain ⟨⟨inhabited, white⟩, others⟩ := List.forall_mem_cons.mp gaps
    simpa using Spaced.cons inhabited white (ih p.2 others)

theorem Source.spaced_lexemes {source : Source} {cs : List Char}
    (spaced : Spaced (Source.node source).leafTexts cs) :
    Spaced ((source.flatMap Method.lexemes).map Lexeme.text) cs := by
  rw [Source.leafTexts] at spaced
  split at spaced
  · rename_i empty
    subst empty
    cases spaced
    exact .nil
  · exact spaced

/-- For every text that the parser accepts: the leaves of its tree in order, with some white space
between any two neighbours and any white space before and behind them, are a text that the parser
accepts too, and the views of the two trees have the same labels in the same places. -/
theorem layout_free {text : String} {source : Source} (h : parseSource text = some source)
    {front body back : List Char} (before : ∀ c ∈ front, c ∈ whiteSpace)
    (spaced : Spaced (Source.node source).leafTexts body)
    (behind : ∀ c ∈ back, c ∈ whiteSpace) :
    ∃ source', parseSource (String.ofList (front ++ body ++ back)) = some source' ∧
      (Source.node source').view.bare = (Source.node source).view.bare := by
  obtain ⟨tokens, scanned, read⟩ := Option.bind_eq_some_iff.mp h
  obtain ⟨takes, -⟩ := Source.readAll_takes read (Token.scan_proper scanned)
  have lexemes : tokens.map Token.lexeme = source.flatMap Method.lexemes := by
    simpa [Takes] using takes
  obtain ⟨tokens', scanned', written⟩ := Token.scan_spaced (Token.scan_whole scanned) before
    (lexemes ▸ Source.spaced_lexemes spaced) behind
  obtain ⟨source', read', alike⟩ := Source.readAll_alike written read
  have length : tokens'.length = tokens.length := by simpa using congrArg List.length written
  refine ⟨source', ?_, ?_⟩
  · rw [parseSource, scanned', ← read', ← length]
    rfl
  · rw [Node.view, Node.view, ← Node.viewIn_unplaced, Source.node_unplaced, alike,
      ← Source.node_unplaced, Node.viewIn_unplaced]

/-- Names that are keywords elsewhere, an operator that starts like two others, and a quoted
space. -/
theorem keyword_names_respaced :
    ∃ source, parseSource "method of(do:int)begin if do<<0x1F!=' 'then break;else end:=~1;end;" =
        some source ∧
      ∃ source', parseSource ("\n\tmethod of\r\n(\tdo : int )\x0bbegin\x0cif do << 0x1F  != ' ' " ++
          "then\nbreak ;\r\nelse end := ~ 1 ; end ; ") = some source' ∧
        (Source.node source').view.bare = (Source.node source).view.bare := by
  obtain ⟨source, read, leaves⟩ := Option.map_eq_some_iff.mp (by decide +kernel :
    (parseSource "method of(do:int)begin if do<<0x1F!=' 'then break;else end:=~1;end;").map
      (fun source => (Source.node source).leafTexts) =
        some ["method", "of", "(", "do", ":", "int", ")", "begin", "if", "do", "<<", "0x1F", "!=",
          "' '", "then", "break", ";", "else", "end", ":=", "~", "1", ";", "end", ";"])
  have spaced := Spaced.of_gaps "method" [([' '], "of"), (['\r', '\n'], "("), (['\t'], "do"),
    ([' '], ":"), ([' '], "int"), ([' '], ")"), (['\x0b'], "begin"), (['\x0c'], "if"),
    ([' '], "do"), ([' '], "<<"), ([' '], "0x1F"), ([' ', ' '], "!="), ([' '], "' '"),
    ([' '], "then"), (['\n'], "break"), ([' '], ";"), (['\r', '\n'], "else"), ([' '], "end"),
    ([' '], ":="), ([' '], "~"), ([' '], "1"), ([' '], ";"), ([' '], "end"), ([' '], ";")]
    (by simp [whiteSpace])
  obtain ⟨source', read', same⟩ := @layout_free _ source read ['\n', '\t'] _ [' ']
    (by simp [whiteSpace]) (leaves ▸ spaced) (by simp [whiteSpace])
  exact ⟨source, read, source', Eq.trans (congrArg parseSource (by decide +kernel)) read', same⟩

end MethodLang
