import MethodLang.Proofs.Grammar.Rescanning
import MethodLang.Proofs.ListLemmas

/-!
Trees of sources. A tree that instantiates the rules of the grammar, without marks and with texts
only at its leaves, is that of a source (`Source.exists_node`): its nodes say which way each rule
was taken.
-/
namespace MethodLang

open Grammar Node

namespace Node

/-! ### Regular nodes -/

/-- What each node of a source's tree is, whatever its kind: nothing is missing or an error, only
tokens have a text, and no identifier is a keyword or a word of a type. -/
structure Regular (n : Node) : Prop where
  unmarked : n.missing = false ∧ n.error = false
  blank : n.children ≠ [] ∨ n.kind = "source" → n.text = some ""
  free : n.kind = "identifier" → ∀ text ∈ n.text, text ∉ Grammar.words

/-- The node quotes no null character. -/
def NullFree (n : Node) : Prop :=
  n.kind = "str" ∨ n.kind = "char" → ∀ text ∈ n.text, text.toList.any Token.isNull = false

instance (n : Node) : Decidable n.Regular :=
  decidable_of_iff ((n.missing = false ∧ n.error = false) ∧
    (n.children ≠ [] ∨ n.kind = "source" → n.text = some "") ∧
    (n.kind = "identifier" → ∀ text ∈ n.text, text ∉ Grammar.words))
    ⟨fun ⟨a, b, c⟩ => ⟨a, b, c⟩, fun ⟨a, b, c⟩ => ⟨a, b, c⟩⟩

instance (n : Node) : Decidable n.NullFree :=
  inferInstanceAs (Decidable (n.kind = "str" ∨ n.kind = "char" →
    ∀ text ∈ n.text, text.toList.any Token.isNull = false))

def AllRegular (n : Node) : Prop := ∀ m ∈ n.subnodes, m.Regular ∧ m.NullFree

theorem allRegular_iff (n : Node) :
    n.AllRegular ↔ (n.Regular ∧ n.NullFree) ∧ ∀ c ∈ n.children, c.AllRegular :=
  forall_subnodes_iff n

theorem AllRegular.root {n : Node} (regular : n.AllRegular) : n.Regular :=
  (n.allRegular_iff.mp regular).1.1

theorem AllRegular.nullFree {n : Node} (regular : n.AllRegular) : n.NullFree :=
  (n.allRegular_iff.mp regular).1.2

theorem AllRegular.below {n : Node} (regular : n.AllRegular) : ∀ c ∈ n.children, c.AllRegular :=
  (n.allRegular_iff.mp regular).2

/-- The node as the filler of a field or of none. -/
def filling (field : Option String) : Node → Node
  | .mk kind _ text missing error stop children =>
    .mk kind field text missing error stop children

@[simp] theorem filling_some (name : String) (n : Node) : n.filling (some name) = n.as name := by
  cases n
  rfl

@[simp] theorem filling_none_leaf (kind text : String) :
    (leaf kind text).filling none = leaf kind text := rfl

@[simp] theorem filling_none_token (text : String) : (token text).filling none = token text := rfl

/-- A node for a keyword or sign out of some. -/
structure IsAlias (texts : List String) (kind : String) (field : Option String) (n : Node) :
    Prop where
  named : n.kind = kind
  written : ∃ text ∈ texts, n.text = some text
  leaf : n.children = []
  fills : n.field = field

/-- A node that instantiates the rule or the pattern of its kind. -/
structure IsSymbol (kind : String) (field : Option String) (n : Node) : Prop where
  named : n.kind = kind
  fills : n.field = field
  built : n.Instance

theorem IsAlias.unplaced {texts : List String} {kind : String} {field : Option String} {n : Node}
    (is : n.IsAlias texts kind field) (regular : n.AllRegular) :
    ∃ text ∈ texts, n.unplaced = (Node.leaf kind text).filling field := by
  obtain ⟨text, inside, written⟩ := is.written
  refine ⟨text, inside, ?_⟩
  rw [unplaced_eq, is.named, is.fills, written, is.leaf, regular.root.unmarked.1,
    regular.root.unmarked.2]
  rfl

/-- A node for a keyword or sign of its own kind. -/
def IsWord (text : String) (field : Option String) (n : Node) : Prop :=
  n.IsAlias [text] text field

theorem IsWord.unplaced {text : String} {field : Option String} {n : Node}
    (is : n.IsWord text field) (regular : n.AllRegular) :
    n.unplaced = (token text).filling field := by
  obtain ⟨_, inside, same⟩ := IsAlias.unplaced is regular
  rwa [List.mem_singleton.mp inside] at same

namespace IsSymbol

variable {kind : String} {field : Option String} {n : Node}

theorem rule {rule : Rule} (is : n.IsSymbol kind field) (found : rules.lookup kind = some rule)
    (noLeaf : patterns.lookup kind = none) : rule.Derives none n.children [] := by
  cases is.built with
  | branch found' derived =>
    rw [is.named, found] at found'
    cases found'
    exact derived
  | leaf _ _ spelled =>
    obtain ⟨_, spells, -⟩ := spelled
    rw [is.named, noLeaf] at spells
    cases spells

theorem unplaced (is : n.IsSymbol kind field) (regular : n.AllRegular) {c : Node}
    {cs ns : List Node} (children : n.children = c :: cs) (same : (c :: cs).map Node.unplaced = ns) :
    n.unplaced = (branch kind ns).filling field := by
  have blank := regular.root.blank (.inl (children ▸ List.cons_ne_nil _ _))
  rw [unplaced_eq, is.named, is.fills, blank, children, same, regular.root.unmarked.1,
    regular.root.unmarked.2]
  rfl

/-- A node whose kind has no rule is a token with a text. -/
theorem leaf (is : n.IsSymbol kind field) (noRule : rules.lookup kind = none)
    (regular : n.AllRegular) :
    ∃ text, n.text = some text ∧ n.unplaced = (Node.leaf kind text).filling field ∧
      Spells kind text := by
  cases is.built with
  | branch found =>
    rw [is.named, noRule] at found
    cases found
  | leaf written noChildren spelled =>
    rw [is.named] at spelled
    refine ⟨_, written, ?_, spelled⟩
    rw [unplaced_eq, is.named, is.fills, written, noChildren, regular.root.unmarked.1,
      regular.root.unmarked.2]
    rfl

end IsSymbol

theorem sizeOf_child {c n : Node} (isChild : c ∈ n.children) : sizeOf c < sizeOf n := by
  cases n
  have := List.sizeOf_lt_of_mem isChild
  simp only [children, Node.mk.sizeOf_spec] at this ⊢
  omega

theorem induction {P : Node → Prop} (step : ∀ n, (∀ m, sizeOf m < sizeOf n → P m) → P n)
    (n : Node) : P n :=
  (measure (sizeOf : Node → Nat)).wf.induction n step

end Node

/-! ### Derivations -/

namespace Rule.Derives

variable {rule : Rule} {rules : List Rule} {field : Option String} {ns rest : List Node}

theorem seq_nil : Derives (.seq []) field ns rest ↔ ns = rest := by
  constructor
  · intro h
    cases h
    rfl
  · rintro rfl
    exact .nil

theorem seq_cons : Derives (.seq (rule :: rules)) field ns rest ↔
    ∃ ms, Derives rule field ns ms ∧ Derives (.seq rules) field ms rest := by
  constructor
  · intro h
    cases h with | cons first later => exact ⟨_, first, later⟩
  · rintro ⟨ms, first, later⟩
    exact .cons first later

theorem seq_many : Derives (.seq (.many rule :: rules)) field ns rest ↔
    ∃ ms, Derives (.many rule) field ns ms ∧ Derives (.seq rules) field ms rest := seq_cons

theorem seq_one : Derives (.seq [rule]) field ns rest ↔ Derives rule field ns rest := by
  simp [seq_cons, seq_nil]

/-- The front of a list is one node. -/
theorem seq_first {Q : Node → Prop}
    (one : ∀ ms, Derives rule field ns ms ↔ ∃ n, ns = n :: ms ∧ Q n) :
    Derives (.seq (rule :: rules)) field ns rest ↔
      ∃ n ms, ns = n :: ms ∧ Q n ∧ Derives (.seq rules) field ms rest := by
  rw [seq_cons]
  constructor
  · rintro ⟨ms, first, later⟩
    obtain ⟨n, rfl, is⟩ := (one ms).mp first
    exact ⟨n, ms, rfl, is, later⟩
  · rintro ⟨n, ms, rfl, is, later⟩
    exact ⟨ms, (one ms).mpr ⟨n, rfl, is⟩, later⟩

theorem alias_iff {texts : List String} {kind : String} :
    Derives (.alias texts kind) field ns rest ↔
      ∃ n, ns = n :: rest ∧ n.IsAlias texts kind field := by
  constructor
  · intro h
    cases h with
    | «alias» inside named written leaf fills =>
      exact ⟨_, rfl, named, ⟨_, inside, written⟩, leaf, fills⟩
  · rintro ⟨n, rfl, named, ⟨text, inside, written⟩, leaf, fills⟩
    exact .alias inside named written leaf fills

theorem word_iff {text : String} :
    Derives (.word text) field ns rest ↔ ∃ n, ns = n :: rest ∧ n.IsWord text field := by
  constructor
  · intro h
    cases h with
    | word kind written leaf fills =>
      exact ⟨_, rfl, kind, ⟨_, List.mem_singleton_self _, written⟩, leaf, fills⟩
  · rintro ⟨n, rfl, named, ⟨_, inside, written⟩, leaf, fills⟩
    rw [List.mem_singleton.mp inside] at written
    exact .word named written leaf fills

theorem symbol_iff {kind : String} :
    Derives (.symbol kind) field ns rest ↔ ∃ n, ns = n :: rest ∧ n.IsSymbol kind field := by
  constructor
  · intro h
    cases h with | symbol named fills built => exact ⟨_, rfl, named, fills, built⟩
  · rintro ⟨n, rfl, named, fills, built⟩
    exact .symbol named fills built

theorem field_iff {name : String} :
    Derives (.field name rule) field ns rest ↔ Derives rule (some name) ns rest := by
  constructor
  · intro h
    cases h with | field inner => exact inner
  · exact .field

theorem choice_iff :
    Derives (.choice rules) field ns rest ↔ ∃ rule ∈ rules, Derives rule field ns rest := by
  constructor
  · intro h
    cases h with | choice inside taken => exact ⟨_, inside, taken⟩
  · rintro ⟨rule, inside, taken⟩
    exact .choice inside taken

theorem seq_word {text : String} : Derives (.seq (.word text :: rules)) field ns rest ↔
    ∃ n ms, ns = n :: ms ∧ n.IsWord text field ∧ Derives (.seq rules) field ms rest :=
  seq_first fun _ => word_iff

theorem seq_symbol {kind : String} : Derives (.seq (.symbol kind :: rules)) field ns rest ↔
    ∃ n ms, ns = n :: ms ∧ n.IsSymbol kind field ∧ Derives (.seq rules) field ms rest :=
  seq_first fun _ => symbol_iff

theorem filled_iff {name kind : String} : Derives (Grammar.filled name kind) field ns rest ↔
    ∃ n, ns = n :: rest ∧ n.IsSymbol kind (some name) :=
  field_iff.trans symbol_iff

theorem seq_filled {name kind : String} :
    Derives (.seq (Grammar.filled name kind :: rules)) field ns rest ↔
      ∃ n ms, ns = n :: ms ∧ n.IsSymbol kind (some name) ∧ Derives (.seq rules) field ms rest :=
  seq_first fun _ => filled_iff

theorem seq_alias {texts : List String} {name kind : String} :
    Derives (.seq (.field name (.alias texts kind) :: rules)) field ns rest ↔
      ∃ n ms, ns = n :: ms ∧ n.IsAlias texts kind (some name) ∧
        Derives (.seq rules) field ms rest :=
  seq_first fun _ => field_iff.trans alias_iff

theorem seq_choice {choices : List Rule} :
    Derives (.seq (.choice choices :: rules)) field ns rest ↔
      ∃ rule ∈ choices, Derives (.seq (rule :: rules)) field ns rest := by
  simp only [seq_cons, choice_iff]
  constructor
  · rintro ⟨ms, ⟨rule, inside, first⟩, later⟩
    exact ⟨rule, inside, ms, first, later⟩
  · rintro ⟨rule, inside, ms, first, later⟩
    exact ⟨ms, ⟨rule, inside, first⟩, later⟩

theorem seq_seq {inner : List Rule} : Derives (.seq (.seq inner :: rules)) field ns rest ↔
    Derives (.seq (inner ++ rules)) field ns rest := by
  induction inner generalizing ns with
  | nil => simp [seq_cons, seq_nil]
  | cons first inner ih =>
    simp only [seq_cons, List.cons_append] at ih ⊢
    constructor
    · rintro ⟨ms, ⟨ks, taken, more⟩, later⟩
      exact ⟨ks, taken, ih.mp ⟨ms, more, later⟩⟩
    · rintro ⟨ks, taken, later⟩
      obtain ⟨ms, more, later⟩ := ih.mpr later
      exact ⟨ms, ⟨ks, taken, more⟩, later⟩

theorem seq_optional : Derives (.seq (.optional rule :: rules)) field ns rest ↔
    Derives (.seq rules) field ns rest ∨ Derives (.seq (rule :: rules)) field ns rest := by
  simp [optional, seq_choice, seq_seq]

theorem many_split {Q : List Node → Prop}
    (one : ∀ {ns rest}, Derives rule field ns rest → ∃ front, ns = front ++ rest ∧ Q front) :
    ∀ {r f ns rest}, Derives r f ns rest → r = .many rule → f = field →
      ∃ parts : List (List Node), ns = parts.flatten ++ rest ∧ ∀ part ∈ parts, Q part
  | _, _, _, _, .done, _, _ => ⟨[], rfl, List.forall_mem_nil _⟩
  | _, _, _, _, .more first later, same, fills => by
    obtain ⟨parts, rfl, all⟩ := many_split one later same fills
    cases same
    cases fills
    obtain ⟨front, rfl, is⟩ := one first
    exact ⟨front :: parts, by simp, List.forall_mem_cons.mpr ⟨is, all⟩⟩

theorem many_each {Q : Node → Prop}
    (one : ∀ {ns rest}, Derives rule field ns rest → ∃ n, ns = n :: rest ∧ Q n)
    (h : Derives (.many rule) field ns rest) :
    ∃ front, ns = front ++ rest ∧ ∀ n ∈ front, Q n := by
  have single {ns rest : List Node} (h : Derives rule field ns rest) :
      ∃ front, ns = front ++ rest ∧ ∃ n, front = [n] ∧ Q n := by
    obtain ⟨n, rfl, is⟩ := one h
    exact ⟨[n], rfl, n, rfl, is⟩
  obtain ⟨parts, rfl, all⟩ := many_split single h rfl rfl
  obtain ⟨front, same, each⟩ := exists_map (f := id) all
  rw [List.map_id] at same
  rw [same, ← List.flatMap_def, List.flatMap_singleton']
  exact ⟨front, rfl, each⟩

/-- The items of a list with commas between them. -/
theorem list_items {name kind : String} {ns : List Node}
    (h : Derives (Grammar.list (Grammar.filled name kind)) none ns [])
    (regular : ∀ n ∈ ns, n.AllRegular) :
    ∃ item items, (∀ n ∈ item :: items, n ∈ ns ∧ n.IsSymbol kind (some name)) ∧
      ns.map Node.unplaced = commaSeparated ((item :: items).map Node.unplaced) := by
  rw [Grammar.list, seq_filled] at h
  obtain ⟨item, ms, rfl, is, h⟩ := h
  rw [seq_one] at h
  have pair {ns rest : List Node}
      (h : Derives (.seq [.word ",", Grammar.filled name kind]) none ns rest) :
      ∃ front, ns = front ++ rest ∧
        ∃ comma n, front = [comma, n] ∧ comma.IsWord "," none ∧ n.IsSymbol kind (some name) := by
    simp only [seq_word, seq_filled, seq_nil] at h
    obtain ⟨comma, _, rfl, isComma, n, _, rfl, is, rfl⟩ := h
    exact ⟨[comma, n], rfl, comma, n, rfl, isComma, is⟩
  obtain ⟨parts, rfl, all⟩ := many_split pair h rfl rfl
  rw [List.append_nil] at regular ⊢
  suffices found : ∃ items, (∀ n ∈ items, n ∈ parts.flatten ∧ n.IsSymbol kind (some name)) ∧
      (item :: parts.flatten).map Node.unplaced =
        commaSeparated ((item :: items).map Node.unplaced) by
    obtain ⟨items, each, same⟩ := found
    refine ⟨item, items, List.forall_mem_cons.mpr ⟨⟨List.mem_cons_self, is⟩, ?_⟩, same⟩
    exact fun n inside => (each n inside).imp_left (List.mem_cons_of_mem _)
  clear is h
  induction parts generalizing item with
  | nil => exact ⟨[], List.forall_mem_nil _, rfl⟩
  | cons part parts ih =>
    obtain ⟨⟨comma, next, rfl, isComma, isNext⟩, later⟩ := List.forall_mem_cons.mp all
    simp only [List.flatten_cons, List.cons_append, List.nil_append, List.forall_mem_cons]
      at regular
    obtain ⟨items, each, same⟩ :=
      ih next later (List.forall_mem_cons.mpr regular.2.2)
    refine ⟨next :: items, List.forall_mem_cons.mpr ⟨⟨by simp, isNext⟩, fun n inside => ?_⟩, ?_⟩
    · exact (each n inside).imp_left fun h => by simp [h]
    · show item.unplaced :: comma.unplaced :: (next :: parts.flatten).map Node.unplaced =
        item.unplaced :: Node.token "," :: commaSeparated ((next :: items).map Node.unplaced)
      rw [isComma.unplaced regular.2.1, filling_none_token, same]

end Rule.Derives

/-- A node for a list, each of whose items is a node for a value. -/
theorem Node.IsSymbol.exists_list {α : Type} {kind name item : String} {field : Option String}
    {c : Node} {g : α → Node} {P : α → Prop} (is : c.IsSymbol kind field)
    (found : rules.lookup kind = some (Grammar.list (filled name item)))
    (noLeaf : patterns.lookup kind = none) (regular : c.AllRegular)
    (each : ∀ m ∈ c.children, m.IsSymbol item (some name) → m.AllRegular →
      ∃ x, m.unplaced = g x ∧ P x) :
    ∃ x xs, c.unplaced = (branch kind (commaSeparated ((x :: xs).map g))).filling field ∧
      ∀ y ∈ x :: xs, P y := by
  obtain ⟨first, items, are, same⟩ := (is.rule found noLeaf).list_items regular.below
  obtain ⟨ys, sames, holds⟩ := exists_map (f := Node.unplaced) fun m inside =>
    each m (are m inside).1 (are m inside).2 (regular.below m (are m inside).1)
  obtain ⟨m, ms, children⟩ : ∃ m ms, c.children = m :: ms :=
    List.exists_cons_of_ne_nil (List.ne_nil_of_mem (are first List.mem_cons_self).1)
  cases ys with
  | nil => simp at sames
  | cons x xs =>
    refine ⟨x, xs, ?_, holds⟩
    rw [is.unplaced regular children rfl, ← children, same, sames]

/-! ### Types -/

theorem TypeRef.node_filling_none (t : TypeRef) : t.node.filling none = t.node := by
  cases t <;> rfl

theorem isName_spelled {name : String} (spelled : Spells "identifier" name) : IsName name := by
  obtain ⟨_, found, spelled⟩ := spelled
  cases found
  rw [Pattern.matches_one_cons_iff] at spelled
  obtain ⟨c, cs, chars, starts, later⟩ := spelled
  rw [Pattern.matches_last_iff, Pattern.matches_many_iff] at later
  have starts : Token.startsWord c := Token.isLetter_eq c ▸ starts
  have continues : ∀ d ∈ cs, Token.continuesWord d := fun d inside =>
    Token.continuesWord_eq d ▸ later d inside
  rw [IsName, chars]
  exact Bool.and_eq_true_iff.mpr ⟨starts, List.all_eq_true.mpr continues⟩

theorem identifier_free {field : Option String} {n : Node} (is : n.IsSymbol "identifier" field)
    (regular : n.AllRegular) :
    ∃ name, n.unplaced = (identifierNode name).filling field ∧ IsFree name := by
  obtain ⟨name, written, same, spelled⟩ := is.leaf rfl regular
  exact ⟨name, same, isName_spelled spelled, regular.root.free is.named name written⟩

namespace TypeRef

open Rule.Derives

theorem exists_array {c : Node} (regular : c.AllRegular)
    (ih : ∀ m : Node, sizeOf m < sizeOf c → ∀ {field}, m.IsSymbol "typeRef" field →
      m.AllRegular → ∃ t : TypeRef, m.unplaced = t.node.filling field ∧ t.Clear)
    (is : c.IsSymbol "array" (some "array")) :
    ∃ t : TypeRef, branch "typeRef" [c.unplaced] = t.node ∧ t.Clear := by
  have derived := is.rule rfl rfl
  simp only [seq_word, seq_many, seq_symbol, seq_nil] at derived
  obtain ⟨word, _, children, isWord, opening, _, rfl, isOpening, _, commas, closing, _, rfl,
    isClosing, of, _, rfl, isOf, element, _, rfl, isElement, rfl⟩ := derived
  obtain ⟨front, rfl, areCommas⟩ := many_each word_iff.mp commas
  have smaller : sizeOf element < sizeOf c := sizeOf_child (by simp [children])
  have below := regular.below
  simp only [children, List.forall_mem_cons, List.forall_mem_append] at below
  obtain ⟨regularW, regularO, regularF, regularC, regularOf, regularE, -⟩ := below
  obtain ⟨t, sameE, clear⟩ := ih element smaller isElement regularE
  have sameF : front.map Node.unplaced = List.replicate front.length (Node.token ",") := by
    refine List.eq_replicate_iff.mpr ⟨List.length_map _, List.forall_mem_map.mpr ?_⟩
    exact fun m inside => (areCommas m inside).unplaced (regularF m inside)
  refine ⟨.array front.length t, ?_, clear⟩
  rw [is.unplaced regular children rfl]
  simp [isWord.unplaced regularW, isOpening.unplaced regularO, sameF, sameE,
    isClosing.unplaced regularC, isOf.unplaced regularOf, t.node_filling_none, TypeRef.node]

theorem exists_node (n : Node) {field : Option String} (is : n.IsSymbol "typeRef" field)
    (regular : n.AllRegular) : ∃ t : TypeRef, n.unplaced = t.node.filling field ∧ t.Clear := by
  induction n using Node.induction generalizing field with | step n ih =>
  have derived := choice_iff.mp (is.rule rfl rfl)
  simp only [List.mem_cons, List.not_mem_nil, or_false, exists_eq_or_imp, exists_eq_left,
    filled_iff, alias_iff] at derived
  rcases derived with ⟨c, children, isC⟩ | ⟨c, children, isC⟩ | ⟨c, children, isC⟩
  all_goals
    have regularC := regular.below c (by simp [children])
    rw [is.unplaced regular children rfl, List.map_singleton]
  · obtain ⟨word, inside, same⟩ := isC.unplaced regularC
    exact ⟨.builtin word, by rw [same]; rfl, inside⟩
  · obtain ⟨name, same, free⟩ := identifier_free isC regularC
    exact ⟨.custom name, by rw [same]; rfl, free⟩
  · have smaller : sizeOf c < sizeOf n := sizeOf_child (by simp [children])
    obtain ⟨t, same, clear⟩ :=
      exists_array regularC (fun m inner => ih m (Nat.lt_trans inner smaller)) isC
    exact ⟨t, by rw [same], clear⟩

end TypeRef

/-! ### Expressions -/

/-- The node is that of an expression. -/
def Node.GivesExpr (n : Node) : Prop :=
  n.IsSymbol "expression" (some "expr") → n.AllRegular →
    ∃ e : Expr, n.unplaced = e.node.as "expr" ∧ e.Clear

namespace Expr

open Rule.Derives

theorem exists_operator : ∀ o ∈ operators, ∃ op : BinaryOp, op.text = o.1 := by
  simp only [operators, List.forall_mem_cons]
  exact ⟨⟨.assign, rfl⟩, ⟨.add, rfl⟩, ⟨.sub, rfl⟩, ⟨.mul, rfl⟩, ⟨.div, rfl⟩, ⟨.mod, rfl⟩,
    ⟨.or, rfl⟩, ⟨.and, rfl⟩, ⟨.bitOr, rfl⟩, ⟨.bitXor, rfl⟩, ⟨.bitAnd, rfl⟩, ⟨.eq, rfl⟩, ⟨.ne, rfl⟩,
    ⟨.gt, rfl⟩, ⟨.ge, rfl⟩, ⟨.le, rfl⟩, ⟨.lt, rfl⟩, ⟨.shl, rfl⟩, ⟨.shr, rfl⟩, List.forall_mem_nil _⟩

section
variable {c : Node} (regular : c.AllRegular) (ih : ∀ m : Node, sizeOf m < sizeOf c → m.GivesExpr)
include regular ih

theorem exists_unary (is : c.IsSymbol "unary_expression" (some "unary")) :
    ∃ e : Expr, branch "expression" [c.unplaced] = e.node ∧ e.Clear := by
  have derived := is.rule rfl rfl
  simp only [seq_alias, seq_filled, seq_nil] at derived
  obtain ⟨sign, _, children, isSign, operand, _, rfl, isOperand, rfl⟩ := derived
  have below := regular.below
  simp only [children, List.forall_mem_cons] at below
  obtain ⟨regularS, regularO, -⟩ := below
  obtain ⟨e, same, clear⟩ := ih operand (sizeOf_child (by simp [children])) isOperand regularO
  obtain ⟨text, inside, sameS⟩ := isSign.unplaced regularS
  obtain ⟨op, rfl⟩ : ∃ op : UnaryOp, op.text = text := by
    simp only [List.mem_cons, List.not_mem_nil, or_false] at inside
    rcases inside with rfl | rfl
    · exact ⟨.not, rfl⟩
    · exact ⟨.invert, rfl⟩
  refine ⟨.unary op e, ?_, clear⟩
  rw [is.unplaced regular children rfl]
  simp [same, sameS, Expr.node]

theorem exists_binary (is : c.IsSymbol "binary_expression" (some "binary")) :
    ∃ e : Expr, branch "expression" [c.unplaced] = e.node ∧ e.Clear := by
  have derived := choice_iff.mp (is.rule rfl rfl)
  obtain ⟨_, isRule, derived⟩ := derived
  obtain ⟨o, isOperator, rfl⟩ := List.mem_map.mp isRule
  simp only [Grammar.binary, seq_filled, seq_alias, seq_nil] at derived
  obtain ⟨left, _, children, isLeft, sign, _, rfl, isSign, right, _, rfl, isRight, rfl⟩ := derived
  have below := regular.below
  simp only [children, List.forall_mem_cons] at below
  obtain ⟨regularL, regularS, regularR, -⟩ := below
  obtain ⟨l, sameL, clearL⟩ := ih left (sizeOf_child (by simp [children])) isLeft regularL
  obtain ⟨r, sameR, clearR⟩ := ih right (sizeOf_child (by simp [children])) isRight regularR
  obtain ⟨text, inside, sameS⟩ := isSign.unplaced regularS
  obtain ⟨op, isText⟩ := exists_operator o isOperator
  rw [List.mem_singleton.mp inside, ← isText] at sameS
  refine ⟨.binary l op r, ?_, clearL, clearR⟩
  rw [is.unplaced regular children rfl]
  simp [sameL, sameS, sameR, Expr.node]

theorem exists_braces (is : c.IsSymbol "braces_expression" (some "braces")) :
    ∃ e : Expr, branch "expression" [c.unplaced] = e.node ∧ e.Clear := by
  have derived := is.rule rfl rfl
  simp only [seq_word, seq_filled, seq_nil] at derived
  obtain ⟨opening, _, children, isOpening, inner, _, rfl, isInner, closing, _, rfl, isClosing,
    rfl⟩ := derived
  have below := regular.below
  simp only [children, List.forall_mem_cons] at below
  obtain ⟨regularO, regularI, regularC, -⟩ := below
  obtain ⟨e, same, clear⟩ := ih inner (sizeOf_child (by simp [children])) isInner regularI
  refine ⟨.braces e, ?_, clear⟩
  rw [is.unplaced regular children rfl]
  simp [same, isOpening.unplaced regularO, isClosing.unplaced regularC, Expr.node]

theorem exists_list (is : c.IsSymbol "list_expr" (some "listExpr")) :
    ∃ es : List Expr, [c.unplaced] = exprListNodes (Expr.nodes es) ∧ AllClear es := by
  obtain ⟨e, es, same, clear⟩ := is.exists_list (g := fun e : Expr => e.node.as "expr") rfl rfl
    regular fun m inside => ih m (sizeOf_child inside)
  refine ⟨e :: es, ?_, allClear_iff.mpr clear⟩
  rw [same, Expr.nodes_eq_map]
  rfl

end

theorem exists_applied {c : Node} {kind opening closing : String} {field : Option String}
    (is : c.IsSymbol kind field) (regular : c.AllRegular)
    (ih : ∀ m : Node, sizeOf m < sizeOf c → m.GivesExpr)
    (derived : Rule.Derives (applied opening closing) none c.children []) :
    ∃ (base : Expr) (es : List Expr), c.unplaced =
      (branch kind (base.node.as "expr" :: token opening ::
        exprListNodes (Expr.nodes es) ++ [token closing])).filling field ∧
          base.Clear ∧ AllClear es := by
  simp only [applied, seq_word, seq_filled, seq_seq, seq_optional, seq_nil, List.cons_append,
    List.nil_append] at derived
  obtain ⟨base, _, children, isBase, first, _, rfl, isFirst, derived⟩ := derived
  have smaller : sizeOf base < sizeOf c := sizeOf_child (by simp [children])
  have below := regular.below
  rcases derived with ⟨last, _, rfl, isLast, rfl⟩ |
    ⟨list, _, rfl, isList, last, _, rfl, isLast, rfl⟩
  · simp only [children, List.forall_mem_cons] at below
    obtain ⟨regularB, regularF, regularL, -⟩ := below
    obtain ⟨b, sameB, clearB⟩ := ih base smaller isBase regularB
    refine ⟨b, [], ?_, clearB, trivial⟩
    rw [is.unplaced regular children rfl]
    simp [sameB, isFirst.unplaced regularF, isLast.unplaced regularL, exprListNodes, Expr.nodes]
  · have smallerL : sizeOf list < sizeOf c := sizeOf_child (by simp [children])
    simp only [children, List.forall_mem_cons] at below
    obtain ⟨regularB, regularF, regularE, regularL, -⟩ := below
    obtain ⟨b, sameB, clearB⟩ := ih base smaller isBase regularB
    obtain ⟨es, sameE, clearE⟩ :=
      exists_list regularE (fun m inner => ih m (Nat.lt_trans inner smallerL)) isList
    refine ⟨b, es, ?_, clearB, clearE⟩
    rw [is.unplaced regular children rfl, ← sameE]
    simp [sameB, isFirst.unplaced regularF, isLast.unplaced regularL]

theorem exists_leaf {c : Node} {kind : LiteralKind} (is : c.IsSymbol kind.name none)
    (regular : c.AllRegular) (noBool : kind ≠ .bool) :
    ∃ text, branch "literal" [c.unplaced] = literalNode kind text ∧ kind.Clear text := by
  have noRule : rules.lookup kind.name = none := by
    cases kind <;> first | rfl | exact absurd rfl noBool
  obtain ⟨text, written, same, spelled⟩ := is.leaf noRule regular
  have clear : kind.Scans text := by
    refine ⟨spelled, fun quotes ch inside => ?_⟩
    have quoted : c.kind = "str" ∨ c.kind = "char" := by
      rw [is.named]
      cases kind <;> first | exact .inl rfl | exact .inr rfl | cases quotes
    exact Bool.eq_false_iff.mpr
      (List.any_eq_false.mp (regular.nullFree quoted text written) ch inside)
  refine ⟨text, ?_, ?_⟩
  · rw [same, filling_none_leaf]
    cases kind <;> first | rfl | exact absurd rfl noBool
  · cases kind <;> first | exact clear | exact absurd rfl noBool

theorem exists_literal {c : Node} (is : c.IsSymbol "literal" (some "literal"))
    (regular : c.AllRegular) :
    ∃ e : Expr, branch "expression" [c.unplaced] = e.node ∧ e.Clear := by
  have derived := choice_iff.mp (is.rule rfl rfl)
  simp only [List.mem_cons, List.not_mem_nil, or_false, exists_eq_or_imp, exists_eq_left,
    symbol_iff] at derived
  -- all kinds but the first are tokens
  have token {kind : LiteralKind} (noBool : kind ≠ .bool)
      (found : ∃ d, c.children = [d] ∧ d.IsSymbol kind.name none) :
      ∃ e : Expr, branch "expression" [c.unplaced] = e.node ∧ e.Clear := by
    obtain ⟨d, children, isD⟩ := found
    obtain ⟨text, same, clear⟩ := exists_leaf isD (regular.below d (by simp [children])) noBool
    refine ⟨.literal kind text, ?_, clear⟩
    rw [is.unplaced regular children rfl, List.map_singleton, same]
    rfl
  rcases derived with ⟨d, children, isD⟩ | h | h | h | h | h
  · have regularD := regular.below d (by simp [children])
    have word : ∃ w text, d.children = [w] ∧ w.IsWord text none ∧
        (text = "true" ∨ text = "false") := by
      have derived := choice_iff.mp (isD.rule rfl rfl)
      simp only [List.mem_cons, List.not_mem_nil, or_false, exists_eq_or_imp, exists_eq_left,
        word_iff] at derived
      rcases derived with ⟨w, children, isW⟩ | ⟨w, children, isW⟩
      · exact ⟨w, _, children, isW, .inl rfl⟩
      · exact ⟨w, _, children, isW, .inr rfl⟩
    obtain ⟨w, text, children', isW, isText⟩ := word
    have regularW := regularD.below w (by simp [children'])
    refine ⟨.literal .bool text, ?_, isText⟩
    rw [is.unplaced regular children rfl, List.map_singleton, isD.unplaced regularD children' rfl,
      List.map_singleton, isW.unplaced regularW]
    rfl
  · exact @token .str nofun h
  · exact @token .char nofun h
  · exact @token .hex nofun h
  · exact @token .bits nofun h
  · exact @token .dec nofun h

theorem exists_node (n : Node) : n.GivesExpr := by
  induction n using Node.induction with | step n ih =>
  intro is regular
  have derived := choice_iff.mp (is.rule rfl rfl)
  simp only [List.mem_cons, List.not_mem_nil, or_false, exists_eq_or_imp, exists_eq_left,
    filled_iff] at derived
  -- the one child takes one of seven forms
  have inside {c : Node} (children : n.children = [c])
      (found : c.AllRegular → (∀ m : Node, sizeOf m < sizeOf c → m.GivesExpr) →
        ∃ e : Expr, branch "expression" [c.unplaced] = e.node ∧ e.Clear) :
      ∃ e : Expr, n.unplaced = e.node.as "expr" ∧ e.Clear := by
    have smaller : sizeOf c < sizeOf n := sizeOf_child (by simp [children])
    obtain ⟨e, same, clear⟩ := found (regular.below c (by simp [children]))
      fun m inner => ih m (Nat.lt_trans inner smaller)
    refine ⟨e, ?_, clear⟩
    rw [is.unplaced regular children rfl, List.map_singleton, same, filling_some]
  rcases derived with ⟨c, children, isC⟩ | ⟨c, children, isC⟩ | ⟨c, children, isC⟩ |
    ⟨c, children, isC⟩ | ⟨c, children, isC⟩ | ⟨c, children, isC⟩ | ⟨c, children, isC⟩
  · exact inside children fun regularC ihC => exists_unary regularC ihC isC
  · exact inside children fun regularC ihC => exists_binary regularC ihC isC
  · exact inside children fun regularC ihC => exists_braces regularC ihC isC
  · refine inside children fun regularC ihC => ?_
    obtain ⟨callee, args, same, clear⟩ := exists_applied isC regularC ihC (isC.rule rfl rfl)
    exact ⟨.call callee args, by rw [same]; rfl, clear⟩
  · refine inside children fun regularC ihC => ?_
    obtain ⟨base, indices, same, clear⟩ := exists_applied isC regularC ihC (isC.rule rfl rfl)
    exact ⟨.indexer base indices, by rw [same]; rfl, clear⟩
  · refine inside children fun regularC _ => ?_
    obtain ⟨name, same, free⟩ := identifier_free isC regularC
    exact ⟨.place name, by rw [same]; rfl, free⟩
  · exact inside children fun regularC _ => exists_literal isC regularC

end Expr

/-! ### Statements -/

/-- The node is that of a statement. -/
def Node.GivesStmt (n : Node) : Prop :=
  n.IsSymbol "statement" (some "statement") → n.AllRegular →
    ∃ s : Stmt, n.unplaced = s.node.as "statement" ∧ ∀ e ∈ s.exprs, e.Clear

namespace Stmt

open Rule.Derives

theorem exprsAll_eq_flatMap (ss : List Stmt) : exprsAll ss = ss.flatMap exprs := by
  induction ss with
  | nil => rfl
  | cons s ss ih => rw [exprsAll, ih, List.flatMap_cons]

theorem exists_expr {c : Node} (regular : c.AllRegular)
    (is : c.IsSymbol "expression_content" (some "expression")) :
    ∃ s : Stmt, branch "statement" [c.unplaced] = s.node ∧ ∀ e ∈ s.exprs, e.Clear := by
  have derived := field_iff.mp (is.rule rfl rfl)
  simp only [seq_symbol, seq_word, seq_nil] at derived
  obtain ⟨expr, _, children, isExpr, ends, _, rfl, isEnds, rfl⟩ := derived
  have below := regular.below
  simp only [children, List.forall_mem_cons] at below
  obtain ⟨e, same, clear⟩ := Expr.exists_node expr isExpr below.1
  refine ⟨.expr e, ?_, List.forall_mem_singleton.mpr clear⟩
  rw [is.unplaced regular children rfl]
  simp [same, isEnds.unplaced below.2.1, Stmt.node]

theorem exists_leave {c : Node} (regular : c.AllRegular)
    (is : c.IsSymbol "break_content" (some "break")) :
    ∃ s : Stmt, branch "statement" [c.unplaced] = s.node ∧ ∀ e ∈ s.exprs, e.Clear := by
  have derived := is.rule rfl rfl
  simp only [seq_word, seq_nil] at derived
  obtain ⟨word, _, children, isWord, ends, _, rfl, isEnds, rfl⟩ := derived
  have below := regular.below
  simp only [children, List.forall_mem_cons] at below
  refine ⟨.leave .start, ?_, List.forall_mem_nil _⟩
  rw [is.unplaced regular children rfl]
  simp [isWord.unplaced below.1, isEnds.unplaced below.2.1, Stmt.node, stoppingAt, branch]

section
variable {c : Node} (regular : c.AllRegular)
  (ih : ∀ m : Node, sizeOf m < sizeOf c → m.GivesStmt)
include regular ih

theorem exists_if (is : c.IsSymbol "if_statement" (some "if")) :
    ∃ s : Stmt, branch "statement" [c.unplaced] = s.node ∧ ∀ e ∈ s.exprs, e.Clear := by
  have derived := is.rule rfl rfl
  simp only [seq_word, seq_filled, seq_optional, seq_seq, List.cons_append, List.nil_append,
    seq_nil] at derived
  obtain ⟨word, _, children, isWord, condition, _, rfl, isCondition, between, _, rfl, isBetween,
    body, _, rfl, isBody, derived⟩ := derived
  have smaller : sizeOf body < sizeOf c := sizeOf_child (by simp [children])
  have below := regular.below
  rcases derived with rfl | ⟨other, _, rfl, isOther, last, _, rfl, isLast, rfl⟩
  · simp only [children, List.forall_mem_cons] at below
    obtain ⟨regularW, regularC, regularT, regularB, -⟩ := below
    obtain ⟨e, sameE, clearE⟩ := Expr.exists_node condition isCondition regularC
    obtain ⟨s, sameS, clearS⟩ := ih body smaller isBody regularB
    refine ⟨.ifThen e s, ?_, List.forall_mem_cons.mpr ⟨clearE, clearS⟩⟩
    rw [is.unplaced regular children rfl]
    simp [sameE, sameS, isWord.unplaced regularW, isBetween.unplaced regularT, Stmt.node]
  · have smallerL : sizeOf last < sizeOf c := sizeOf_child (by simp [children])
    simp only [children, List.forall_mem_cons] at below
    obtain ⟨regularW, regularC, regularT, regularB, regularO, regularL, -⟩ := below
    obtain ⟨e, sameE, clearE⟩ := Expr.exists_node condition isCondition regularC
    obtain ⟨s, sameS, clearS⟩ := ih body smaller isBody regularB
    obtain ⟨o, sameO, clearO⟩ := ih last smallerL isLast regularL
    refine ⟨.ifElse e s o, ?_, List.forall_mem_cons.mpr
      ⟨clearE, List.forall_mem_append.mpr ⟨clearS, clearO⟩⟩⟩
    rw [is.unplaced regular children rfl]
    simp [sameE, sameS, sameO, isWord.unplaced regularW, isBetween.unplaced regularT,
      isOther.unplaced regularO, Stmt.node]

theorem exists_while (is : c.IsSymbol "while_content" (some "while")) :
    ∃ s : Stmt, branch "statement" [c.unplaced] = s.node ∧ ∀ e ∈ s.exprs, e.Clear := by
  have derived := is.rule rfl rfl
  simp only [seq_word, seq_filled, seq_nil] at derived
  obtain ⟨word, _, children, isWord, condition, _, rfl, isCondition, between, _, rfl, isBetween,
    body, _, rfl, isBody, rfl⟩ := derived
  have smaller : sizeOf body < sizeOf c := sizeOf_child (by simp [children])
  have below := regular.below
  simp only [children, List.forall_mem_cons] at below
  obtain ⟨regularW, regularC, regularD, regularB, -⟩ := below
  obtain ⟨e, sameE, clearE⟩ := Expr.exists_node condition isCondition regularC
  obtain ⟨s, sameS, clearS⟩ := ih body smaller isBody regularB
  refine ⟨.whileDo e s, ?_, List.forall_mem_cons.mpr ⟨clearE, clearS⟩⟩
  rw [is.unplaced regular children rfl]
  simp [sameE, sameS, isWord.unplaced regularW, isBetween.unplaced regularD, Stmt.node]

theorem exists_repeat (is : c.IsSymbol "do_content" (some "do")) :
    ∃ s : Stmt, branch "statement" [c.unplaced] = s.node ∧ ∀ e ∈ s.exprs, e.Clear := by
  have derived := is.rule rfl rfl
  simp only [seq_word, seq_filled, seq_choice] at derived
  obtain ⟨word, _, children, isWord, body, _, rfl, isBody, rule, isRule, derived⟩ := derived
  obtain ⟨text, rfl, isText⟩ : ∃ text, rule = .word text ∧ (text = "while" ∨ text = "until") := by
    simp only [List.mem_cons, List.not_mem_nil, or_false] at isRule
    rcases isRule with rfl | rfl
    · exact ⟨_, rfl, .inl rfl⟩
    · exact ⟨_, rfl, .inr rfl⟩
  simp only [seq_word, seq_filled, seq_nil] at derived
  obtain ⟨between, _, rfl, isBetween, condition, _, rfl, isCondition, ends, _, rfl, isEnds,
    rfl⟩ := derived
  have smaller : sizeOf body < sizeOf c := sizeOf_child (by simp [children])
  have below := regular.below
  simp only [children, List.forall_mem_cons] at below
  obtain ⟨regularW, regularB, regularT, regularC, regularE, -⟩ := below
  obtain ⟨e, sameE, clearE⟩ := Expr.exists_node condition isCondition regularC
  obtain ⟨s, sameS, clearS⟩ := ih body smaller isBody regularB
  have clear : ∀ e' ∈ s.exprs ++ [e], e'.Clear :=
    List.forall_mem_append.mpr ⟨clearS, List.forall_mem_singleton.mpr clearE⟩
  rw [is.unplaced regular children rfl]
  rcases isText with rfl | rfl
  · refine ⟨.repeatWhile s e, ?_, clear⟩
    simp [sameE, sameS, isWord.unplaced regularW, isBetween.unplaced regularT,
      isEnds.unplaced regularE, Stmt.node]
  · refine ⟨.repeatUntil s e, ?_, clear⟩
    simp [sameE, sameS, isWord.unplaced regularW, isBetween.unplaced regularT,
      isEnds.unplaced regularE, Stmt.node]

theorem exists_block {field : Option String} (is : c.IsSymbol "block_content" field) :
    ∃ body : List Stmt, c.unplaced = (blockNode body).filling field ∧
      ∀ e ∈ exprsAll body, e.Clear := by
  have derived := is.rule rfl rfl
  simp only [seq_word, seq_many, seq_nil] at derived
  obtain ⟨word, _, children, isWord, _, statements, last, _, rfl, isLast, ends, _, rfl, isEnds,
    rfl⟩ := derived
  obtain ⟨front, rfl, are⟩ := many_each filled_iff.mp statements
  have below := regular.below
  simp only [children, List.forall_mem_cons, List.forall_mem_append] at below
  obtain ⟨regularW, regularF, regularL, regularE, -⟩ := below
  obtain ⟨body, same, clear⟩ := exists_map (f := Node.unplaced)
    (g := fun s : Stmt => s.node.as "statement") fun m inside =>
      ih m (sizeOf_child (by simp [children, inside])) (are m inside) (regularF m inside)
  refine ⟨body, ?_, ?_⟩
  · rw [is.unplaced regular children rfl, blockNode, Stmt.nodes_eq_map, ← same]
    simp [isWord.unplaced regularW, isLast.unplaced regularL, isEnds.unplaced regularE,
      blockAround]
  · rw [exprsAll_eq_flatMap]
    exact List.forall_mem_flatMap.mpr clear

end

theorem exists_node (n : Node) : n.GivesStmt := by
  induction n using Node.induction with | step n ih =>
  intro is regular
  have derived := choice_iff.mp (is.rule rfl rfl)
  simp only [List.mem_cons, List.not_mem_nil, or_false, exists_eq_or_imp, exists_eq_left,
    filled_iff] at derived
  -- the one child takes one of six forms
  have inside {c : Node} (children : n.children = [c])
      (found : c.AllRegular → (∀ m : Node, sizeOf m < sizeOf c → m.GivesStmt) →
        ∃ s : Stmt, branch "statement" [c.unplaced] = s.node ∧ ∀ e ∈ s.exprs, e.Clear) :
      ∃ s : Stmt, n.unplaced = s.node.as "statement" ∧ ∀ e ∈ s.exprs, e.Clear := by
    have smaller : sizeOf c < sizeOf n := sizeOf_child (by simp [children])
    obtain ⟨s, same, clear⟩ := found (regular.below c (by simp [children]))
      fun m inner => ih m (Nat.lt_trans inner smaller)
    refine ⟨s, ?_, clear⟩
    rw [is.unplaced regular children rfl, List.map_singleton, same, filling_some]
  rcases derived with ⟨c, children, isC⟩ | ⟨c, children, isC⟩ | ⟨c, children, isC⟩ |
    ⟨c, children, isC⟩ | ⟨c, children, isC⟩ | ⟨c, children, isC⟩
  · exact inside children fun regularC ihC => exists_if regularC ihC isC
  · refine inside children fun regularC ihC => ?_
    obtain ⟨body, same, clear⟩ := exists_block regularC ihC isC
    exact ⟨.block body, by rw [same]; rfl, clear⟩
  · exact inside children fun regularC ihC => exists_while regularC ihC isC
  · exact inside children fun regularC ihC => exists_repeat regularC ihC isC
  · exact inside children fun regularC _ => exists_leave regularC isC
  · exact inside children fun regularC _ => exists_expr regularC isC

end Stmt

/-! ### Declarations -/

section
open Rule.Derives

theorem exists_typeClause {rules : List Rule} {ns rest : List Node}
    (h : Rule.Derives (.seq (typeClause :: rules)) none ns rest) :
    ∃ clause ms, ns = clause ++ ms ∧ Rule.Derives (.seq rules) none ms rest ∧
      ((∀ n ∈ clause, n.AllRegular) →
        ∃ type, clause.map Node.unplaced = typeClauseNodes type ∧ ∀ t ∈ type, t.Clear) := by
  simp only [typeClause, seq_optional, seq_seq, List.cons_append, List.nil_append, seq_word,
    seq_filled] at h
  rcases h with h | ⟨colon, _, rfl, isColon, type, ms, rfl, isType, h⟩
  · exact ⟨[], ns, rfl, h, fun _ => ⟨none, rfl, nofun⟩⟩
  · refine ⟨[colon, type], ms, rfl, h, fun regular => ?_⟩
    simp only [List.forall_mem_cons] at regular
    obtain ⟨t, same, clear⟩ := TypeRef.exists_node type isType regular.2.1
    refine ⟨some t, ?_, fun _ is => Option.some.inj is ▸ clear⟩
    simp [isColon.unplaced regular.1, same, typeClauseNodes]

theorem VarGroup.exists_nodes {ns rest : List Node} (h : Rule.Derives varGroup none ns rest) :
    ∃ front, ns = front ++ rest ∧ ((∀ n ∈ front, n.AllRegular) →
      ∃ group : VarGroup, front.map Node.unplaced = group.nodes ∧ group.Clear) := by
  rw [varGroup, seq_optional, seq_filled] at h
  rcases h with h | ⟨list, ms, rfl, isList, h⟩
  · obtain ⟨clause, _, rfl, h, given⟩ := exists_typeClause h
    simp only [seq_word, seq_nil] at h
    obtain ⟨ends, _, rfl, isEnds, rfl⟩ := h
    refine ⟨clause ++ [ends], by simp, fun regular => ?_⟩
    simp only [List.forall_mem_append, List.forall_mem_singleton] at regular
    obtain ⟨type, same, clear⟩ := given regular.1
    refine ⟨⟨[], type⟩, ?_, List.forall_mem_nil _, clear⟩
    simp [same, isEnds.unplaced regular.2, VarGroup.nodes]
  · obtain ⟨clause, _, rfl, h, given⟩ := exists_typeClause h
    simp only [seq_word, seq_nil] at h
    obtain ⟨ends, _, rfl, isEnds, rfl⟩ := h
    refine ⟨list :: clause ++ [ends], by simp, fun regular => ?_⟩
    simp only [List.forall_mem_append, List.forall_mem_cons] at regular
    obtain ⟨⟨regularL, regularC⟩, regularE, -⟩ := regular
    obtain ⟨type, same, clear⟩ := given regularC
    obtain ⟨name, names, sameL, free⟩ := isList.exists_list
      (g := fun name => (identifierNode name).as "identifier") rfl rfl regularL
      fun m _ => identifier_free
    refine ⟨⟨name :: names, type⟩, ?_, free, clear⟩
    simp [same, sameL, isEnds.unplaced regularE, VarGroup.nodes]

theorem ArgDef.exists_node {n : Node} (is : n.IsSymbol "argDef" (some "argDef"))
    (regular : n.AllRegular) : ∃ arg : ArgDef, n.unplaced = arg.node.as "argDef" ∧ arg.Clear := by
  have derived := is.rule rfl rfl
  rw [seq_filled] at derived
  obtain ⟨name, ms, children, isName, derived⟩ := derived
  obtain ⟨clause, _, rfl, h, given⟩ := exists_typeClause derived
  obtain rfl := seq_nil.mp h
  have below := regular.below
  simp only [children, List.append_nil, List.forall_mem_cons] at below
  obtain ⟨type, same, clear⟩ := given below.2
  obtain ⟨text, sameN, free⟩ := identifier_free isName below.1
  refine ⟨⟨text, type⟩, ?_, free, clear⟩
  rw [is.unplaced regular children rfl]
  simp [same, sameN, ArgDef.node]

theorem Signature.exists_node {n : Node} (is : n.IsSymbol "funcSignature" (some "funcSignature"))
    (regular : n.AllRegular) :
    ∃ s : Signature, n.unplaced = s.node.as "funcSignature" ∧ s.Clear := by
  have derived := is.rule rfl rfl
  simp only [seq_filled, seq_word, seq_optional] at derived
  obtain ⟨name, _, children, isName, opening, _, rfl, isOpening, derived⟩ := derived
  have below := regular.below
  rcases derived with ⟨closing, _, rfl, isClosing, h⟩ |
    ⟨list, _, rfl, isList, closing, _, rfl, isClosing, h⟩
  · obtain ⟨clause, _, rfl, h, given⟩ := exists_typeClause h
    obtain rfl := seq_nil.mp h
    simp only [children, List.append_nil, List.forall_mem_cons] at below
    obtain ⟨regularN, regularO, regularC, regularT⟩ := below
    obtain ⟨result, same, clear⟩ := given regularT
    obtain ⟨text, sameN, free⟩ := identifier_free isName regularN
    refine ⟨⟨text, [], result⟩, ?_, free, List.forall_mem_nil _, clear⟩
    rw [is.unplaced regular children rfl]
    simp [same, sameN, isOpening.unplaced regularO, isClosing.unplaced regularC, Signature.node]
  · obtain ⟨clause, _, rfl, h, given⟩ := exists_typeClause h
    obtain rfl := seq_nil.mp h
    simp only [children, List.append_nil, List.forall_mem_cons] at below
    obtain ⟨regularN, regularO, regularL, regularC, regularT⟩ := below
    obtain ⟨result, same, clear⟩ := given regularT
    obtain ⟨text, sameN, free⟩ := identifier_free isName regularN
    obtain ⟨arg, args, sameL, clearL⟩ := isList.exists_list
      (g := fun arg : ArgDef => arg.node.as "argDef") rfl rfl regularL fun m _ => ArgDef.exists_node
    refine ⟨⟨text, arg :: args, result⟩, ?_, free, clearL, clear⟩
    rw [is.unplaced regular children rfl]
    simp [same, sameN, sameL, isOpening.unplaced regularO, isClosing.unplaced regularC,
      Signature.node]

theorem exists_block {n : Node} (is : n.IsSymbol "block_content" (some "statment_block"))
    (regular : n.AllRegular) : ∃ block : List Stmt,
      n.unplaced = (blockNode block).as "statment_block" ∧ ∀ e ∈ Stmt.exprsAll block, e.Clear := by
  obtain ⟨block, same, clear⟩ :=
    Stmt.exists_block regular (fun m _ => Stmt.exists_node m) is
  exact ⟨block, by rw [same, filling_some], clear⟩

theorem Body.exists_node {n : Node} (is : n.IsSymbol "body" (some "body"))
    (regular : n.AllRegular) : ∃ body : Body, n.unplaced = body.node.as "body" ∧ body.Clear := by
  have derived := is.rule rfl rfl
  simp only [seq_optional, seq_filled, seq_seq, List.cons_append, List.nil_append, seq_word,
    seq_many, seq_nil] at derived
  have below := regular.below
  rcases derived with ⟨block, _, children, isBlock, rfl⟩ |
    ⟨word, _, children, isWord, _, groups, block, _, rfl, isBlock, rfl⟩
  · obtain ⟨body, same, clear⟩ := exists_block isBlock (below block (by simp [children]))
    refine ⟨⟨none, body⟩, ?_, nofun, clear⟩
    rw [is.unplaced regular children rfl]
    simp [same, Body.node]
  · obtain ⟨parts, rfl, each⟩ := many_split VarGroup.exists_nodes groups rfl rfl
    simp only [children, List.forall_mem_cons, List.forall_mem_append, List.forall_mem_flatten]
      at below
    obtain ⟨regularW, regularG, regularB, -⟩ := below
    obtain ⟨body, same, clear⟩ := exists_block isBlock regularB
    obtain ⟨vars, sameV, clearV⟩ := exists_map (f := List.map Node.unplaced) (g := VarGroup.nodes)
      fun part inside => each part inside (regularG part inside)
    refine ⟨⟨some vars, body⟩, ?_, fun _ given => Option.some.inj given ▸ clearV, clear⟩
    rw [is.unplaced regular children rfl]
    simp [same, isWord.unplaced regularW, List.map_flatten, sameV, List.flatMap_def, Body.node]

theorem Method.exists_node {n : Node} (is : n.IsSymbol "funcDef" (some "funcDef"))
    (regular : n.AllRegular) : ∃ m : Method, n.unplaced = m.node.as "funcDef" ∧ m.Clear := by
  have derived := is.rule rfl rfl
  simp only [seq_word, seq_filled, seq_choice, List.mem_cons, List.not_mem_nil, or_false,
    exists_eq_or_imp, exists_eq_left, seq_nil] at derived
  obtain ⟨word, _, children, isWord, head, _, rfl, isHead, derived⟩ := derived
  have below := regular.below
  rcases derived with ⟨last, _, rfl, isBody, rfl⟩ | ⟨last, _, rfl, isEnds, rfl⟩
  all_goals
    simp only [children, List.forall_mem_cons] at below
    obtain ⟨regularW, regularH, regularL, -⟩ := below
    obtain ⟨signature, sameS, clearS⟩ := Signature.exists_node isHead regularH
  · obtain ⟨body, sameB, clearB⟩ := Body.exists_node isBody regularL
    refine ⟨⟨signature, some body⟩, ?_, clearS, fun _ given => Option.some.inj given ▸ clearB⟩
    rw [is.unplaced regular children rfl]
    simp [sameS, sameB, isWord.unplaced regularW, Method.node]
  · refine ⟨⟨signature, none⟩, ?_, clearS, nofun⟩
    rw [is.unplaced regular children rfl]
    simp [sameS, isEnds.unplaced regularL, isWord.unplaced regularW, Method.node]

/-- Every regular instance of the grammar is the tree of a clear source, but for the positions. -/
theorem Source.exists_node {n : Node} (is : n.IsSymbol "source" none) (regular : n.AllRegular) :
    ∃ source : Source, n.unplaced = Source.node source ∧ ∀ m ∈ source, m.Clear := by
  obtain ⟨items, children, are⟩ := many_each filled_iff.mp (is.rule rfl rfl)
  rw [List.append_nil] at children
  have below := regular.below
  rw [children] at below
  have item : ∀ c ∈ items, ∃ m : Method,
      c.unplaced = (branch "sourceItem" [m.node.as "funcDef"]).as "sourceItem" ∧ m.Clear := by
    intro c inside
    obtain ⟨d, childrenC, isD⟩ := filled_iff.mp ((are c inside).rule rfl rfl)
    have regularC := below c inside
    obtain ⟨m, same, clear⟩ := Method.exists_node isD (regularC.below d (by simp [childrenC]))
    refine ⟨m, ?_, clear⟩
    rw [(are c inside).unplaced regularC childrenC rfl, List.map_singleton, same, filling_some]
  obtain ⟨source, same, clear⟩ := exists_map item
  refine ⟨source, ?_, clear⟩
  have root := regular.root
  rw [unplaced_eq, is.named, is.fills, root.blank (.inr is.named), root.unmarked.1,
    root.unmarked.2, children, same]
  rfl

end

end MethodLang
