import MethodLang.Proofs.Tree.Related

/-!
Drawn trees. A drawing tells the tree that it shows, as long as no label is broken into lines
(`Tree.draw_eq_iff_same`). Below a child that has further siblings every line goes on with a bar,
where the next sibling has a branch; so each subtree ends where the bar does, whatever its labels
look like.
-/
namespace MethodLang

/-! ### Lines -/

/-- Lines that are each ended by a line feed can be told apart. -/
theorem joined_lines_inj {xs ys : List String} (plain : ∀ x ∈ xs, '\n' ∉ x.toList)
    (plain' : ∀ y ∈ ys, '\n' ∉ y.toList)
    (same : String.join (xs.map (· ++ "\n")) = String.join (ys.map (· ++ "\n"))) : xs = ys := by
  have chars (x : String) (xs : List String) : (String.join ((x :: xs).map (· ++ "\n"))).toList =
      x.toList ++ '\n' :: (String.join (xs.map (· ++ "\n"))).toList := by
    simp
  have empty : (String.join (([] : List String).map (· ++ "\n"))).toList = [] := by simp
  induction xs generalizing ys with
  | nil =>
    cases ys with
    | nil => rfl
    | cons y ys =>
      have lists := congrArg String.toList same
      rw [chars, empty] at lists
      simp at lists
  | cons x xs ih =>
    obtain ⟨here, later⟩ := List.forall_mem_cons.mp plain
    cases ys with
    | nil =>
      have lists := congrArg String.toList same
      rw [chars, empty] at lists
      simp at lists
    | cons y ys =>
      obtain ⟨here', later'⟩ := List.forall_mem_cons.mp plain'
      have lists := congrArg String.toList same
      rw [chars, chars] at lists
      have other {cs : List Char} (plain : '\n' ∉ cs) : ∀ c ∈ cs, c ≠ '\n' :=
        fun c inside feed => plain (feed ▸ inside)
      have ends (cs : List Char) : ∀ c ∈ ('\n' :: cs).head?, ¬ c ≠ '\n' := by
        rintro _ ⟨⟩
        exact fun differs => differs rfl
      obtain ⟨first, rest⟩ := append_split lists (other here) (other here') (ends _) (ends _)
      rw [String.toList_inj.mp first, ih later later' (String.toList_inj.mp (List.cons.inj rest).2)]

def Branches.pieces (b : Branches) : List String := [b.bar, b.gap, b.tee, b.elbow]

/-- The pieces of a branch can be told apart where they matter: the way past a child with further
siblings from the branch to a child, and a child with further siblings from the last one. -/
structure Branches.Legible (b : Branches) : Prop where
  tee : b.tee.length = b.bar.length
  elbow : b.elbow.length = b.bar.length
  past_tee : b.tee ≠ b.bar
  past_elbow : b.elbow ≠ b.bar
  last : b.tee ≠ b.elbow
  line : ∀ piece ∈ b.pieces, '\n' ∉ piece.toList

theorem Branches.legible {b : Branches} (style : b = .box ∨ b = .ascii) : b.Legible := by
  rcases style with rfl | rfl <;> constructor <;> decide

/-- Pieces of one width behind the same text. -/
theorem piece_inj {rest a b x y : String} (width : a.length = b.length)
    (same : rest ++ a ++ x = rest ++ b ++ y) : a = b ∧ x = y := by
  have lists := congrArg String.toList same
  simp only [String.toList_append, List.append_assoc] at lists
  obtain ⟨first, second⟩ := List.append_inj (List.append_cancel_left lists) width
  exact ⟨String.toList_inj.mp first, String.toList_inj.mp second⟩

namespace Tree

variable {α β : Type}

/-- All labels of a tree, the root's first. -/
def labels (t : Tree α) : List String := t.compute fun label _ kids => label :: kids.flatMap (·.2)

theorem labels_node (l : String) (a : α) (ts : List (Tree α)) :
    (node l a ts).labels = l :: ts.flatMap labels := by
  rw [labels, compute_node, List.flatMap_map]
  rfl

theorem labels_bare (t : Tree α) : t.bare.labels = t.labels := by
  induction t using Tree.induction with
  | node l a ts ih =>
    rw [bare_node, labels_node, labels_node, List.flatMap_map]
    exact congrArg (l :: ·) (List.flatMap_congr ih)

/-- The lines of a tree, in which only labels are shown. -/
abbrev plainLines (b : Branches) (first rest : String) (t : Tree Unit) : List String :=
  t.lines b (fun label _ => label) first rest

abbrev plainLinesAll (b : Branches) (rest : String) (ts : List (Tree Unit)) : List String :=
  linesAll b (fun label _ => label) rest ts

section
variable {b : Branches} {first rest : String}

theorem plainLines_node (l : String) (ts : List (Tree Unit)) :
    plainLines b first rest (node l () ts) = (first ++ l) :: plainLinesAll b rest ts := by
  rw [plainLines, lines]

theorem plainLinesAll_last (t : Tree Unit) :
    plainLinesAll b rest [t] = t.plainLines b (rest ++ b.elbow) (rest ++ b.gap) := by
  rw [plainLinesAll, linesAll]
  rfl

theorem plainLinesAll_cons (t u : Tree Unit) (us : List (Tree Unit)) :
    plainLinesAll b rest (t :: u :: us) =
      t.plainLines b (rest ++ b.tee) (rest ++ b.bar) ++ plainLinesAll b rest (u :: us) := by
  rw [plainLinesAll, linesAll]
  rfl

/-- The first line of a list of children has a branch in it. -/
theorem plainLinesAll_head (b : Branches) (rest : String) (t : Tree Unit) (ts : List (Tree Unit)) :
    ∃ l piece later, plainLinesAll b rest (t :: ts) = (rest ++ piece ++ l) :: later ∧
      (ts = [] ∧ piece = b.elbow ∨ ts ≠ [] ∧ piece = b.tee) := by
  obtain ⟨l, ⟨⟩, cs⟩ := t
  cases ts with
  | nil =>
    rw [plainLinesAll_last, plainLines_node]
    exact ⟨l, _, _, rfl, .inl ⟨rfl, rfl⟩⟩
  | cons u us =>
    rw [plainLinesAll_cons, plainLines_node]
    exact ⟨l, _, _, rfl, .inr ⟨List.cons_ne_nil _ _, rfl⟩⟩

/-- A line below a node has what stands before the branches of the node's children, then some pieces
of branches, then a label. -/
theorem plainLinesAll_form (ts : List (Tree Unit)) : ∀ line ∈ plainLinesAll b rest ts,
    ∃ pieces l, (∀ piece ∈ pieces, piece ∈ b.pieces) ∧ l ∈ ts.flatMap labels ∧
      line = rest ++ (String.join pieces ++ l) := by
  suffices each : ∀ (t : Tree Unit) (rest : String), ∀ line ∈ plainLinesAll b rest t.children,
      ∃ pieces l, (∀ piece ∈ pieces, piece ∈ b.pieces) ∧ l ∈ t.children.flatMap labels ∧
        line = rest ++ (String.join pieces ++ l) from each (node "" () ts) rest
  intro t
  induction t using Tree.induction with
  | node _ _ ts ih =>
    intro rest line inside
    simp only [children_node] at inside ⊢
    induction ts with
    | nil => cases inside
    | cons t ts next =>
      obtain ⟨here, later⟩ := List.forall_mem_cons.mp ih
      have within (piece way : String) (isPiece : piece ∈ b.pieces) (isWay : way ∈ b.pieces)
          (among : line ∈ t.plainLines b (rest ++ piece) (rest ++ way)) :
          ∃ pieces l, (∀ piece ∈ pieces, piece ∈ b.pieces) ∧ l ∈ t.labels ∧
            line = rest ++ (String.join pieces ++ l) := by
        obtain ⟨l, ⟨⟩, cs⟩ := t
        rw [plainLines_node] at among
        rw [labels_node]
        rcases List.mem_cons.mp among with rfl | below
        · exact ⟨[piece], l, List.forall_mem_singleton.mpr isPiece, List.mem_cons_self,
            by simp [String.append_assoc]⟩
        · obtain ⟨pieces, l', arePieces, isLabel, rfl⟩ := here (rest ++ way) line below
          exact ⟨way :: pieces, l', List.forall_mem_cons.mpr ⟨isWay, arePieces⟩,
            List.mem_cons_of_mem _ isLabel, by simp [String.append_assoc]⟩
      simp only [List.flatMap_cons, List.mem_append]
      cases ts with
      | nil =>
        obtain ⟨pieces, l, arePieces, isLabel, is⟩ := within b.elbow b.gap
          (by simp [Branches.pieces]) (by simp [Branches.pieces]) (plainLinesAll_last t ▸ inside)
        exact ⟨pieces, l, arePieces, .inl isLabel, is⟩
      | cons u us =>
        rw [plainLinesAll_cons] at inside
        rcases List.mem_append.mp inside with among | behind
        · obtain ⟨pieces, l, arePieces, isLabel, is⟩ := within b.tee b.bar
            (by simp [Branches.pieces]) (by simp [Branches.pieces]) among
          exact ⟨pieces, l, arePieces, .inl isLabel, is⟩
        · obtain ⟨pieces, l, arePieces, isLabel, is⟩ := next later behind
          exact ⟨pieces, l, arePieces, .inr isLabel, is⟩

/-- The lines of a child and those of its siblings can be told apart. -/
theorem plainLines_split (legible : b.Legible) {t u : Tree Unit} {ts us : List (Tree Unit)}
    (more : ts ≠ []) (more' : us ≠ [])
    (same : t.plainLines b (rest ++ b.tee) (rest ++ b.bar) ++ plainLinesAll b rest ts =
      u.plainLines b (rest ++ b.tee) (rest ++ b.bar) ++ plainLinesAll b rest us) :
    t.plainLines b (rest ++ b.tee) (rest ++ b.bar) =
        u.plainLines b (rest ++ b.tee) (rest ++ b.bar) ∧
      plainLinesAll b rest ts = plainLinesAll b rest us := by
  -- the next sibling has a branch where the lines below the child have the bar
  have stop {ts : List (Tree Unit)} (more : ts ≠ []) :
      ∀ line ∈ (plainLinesAll b rest ts).head?, ¬ ∃ x, line = rest ++ b.bar ++ x := by
    obtain ⟨t, ts, rfl⟩ := List.exists_cons_of_ne_nil more
    obtain ⟨l, piece, later, drawn, is⟩ := plainLinesAll_head b rest t ts
    rw [drawn]
    rintro _ ⟨⟩ ⟨x, barred⟩
    rcases is with ⟨-, rfl⟩ | ⟨-, rfl⟩
    · exact legible.past_elbow (piece_inj legible.elbow barred).1
    · exact legible.past_tee (piece_inj legible.tee barred).1
  obtain ⟨l, ⟨⟩, cs⟩ := t
  obtain ⟨m, ⟨⟩, ds⟩ := u
  rw [plainLines_node, plainLines_node] at same ⊢
  obtain ⟨first, same⟩ := List.cons.inj same
  have start (ts : List (Tree Unit)) :
      ∀ line ∈ plainLinesAll b (rest ++ b.bar) ts, ∃ x, line = rest ++ b.bar ++ x := by
    intro line inside
    obtain ⟨_, _, -, -, is⟩ := plainLinesAll_form ts line inside
    exact ⟨_, is⟩
  obtain ⟨below, behind⟩ := append_split same (start cs) (start ds) (stop more) (stop more')
  exact ⟨by rw [first, below], behind⟩

/-- The lines of a tree tell the tree. -/
theorem plainLines_inj (legible : b.Legible) {t u : Tree Unit}
    (same : t.plainLines b first rest = u.plainLines b first rest) : t = u := by
  induction t using Tree.induction generalizing u first rest with
  | node l a ts ih =>
    obtain ⟨m, ⟨⟩, us⟩ := u
    rw [plainLines_node, plainLines_node, List.cons.injEq] at same
    obtain ⟨label, same⟩ := same
    have labels : l = m := by simpa using label
    suffices children : ts = us by rw [labels, children]
    induction ts generalizing us with
    | nil =>
      cases us with
      | nil => rfl
      | cons u us =>
        obtain ⟨_, _, _, drawn, -⟩ := plainLinesAll_head b rest u us
        rw [drawn] at same
        cases same
    | cons t ts next =>
      obtain ⟨here, later⟩ := List.forall_mem_cons.mp ih
      cases us with
      | nil =>
        obtain ⟨_, _, _, drawn, -⟩ := plainLinesAll_head b rest t ts
        rw [drawn] at same
        cases same
      | cons u us =>
        obtain ⟨_, piece, _, drawn, is⟩ := plainLinesAll_head b rest t ts
        obtain ⟨_, piece', _, drawn', is'⟩ := plainLinesAll_head b rest u us
        have branch : rest ++ piece ++ _ = rest ++ piece' ++ _ :=
          (List.cons.inj (drawn.symm.trans (same.trans drawn'))).1
        rcases is with ⟨rfl, rfl⟩ | ⟨more, rfl⟩ <;> rcases is' with ⟨rfl, rfl⟩ | ⟨more', rfl⟩
        · rw [plainLinesAll_last, plainLinesAll_last] at same
          rw [here same]
        · exact absurd (piece_inj (legible.elbow.trans legible.tee.symm) branch).1.symm legible.last
        · exact absurd (piece_inj (legible.tee.trans legible.elbow.symm) branch).1 legible.last
        · obtain ⟨t', ts, rfl⟩ := List.exists_cons_of_ne_nil more
          obtain ⟨u', us, rfl⟩ := List.exists_cons_of_ne_nil more'
          rw [plainLinesAll_cons, plainLinesAll_cons] at same
          obtain ⟨child, siblings⟩ := plainLines_split legible more more' same
          rw [here child, next later _ siblings]

/-- Single lines as labels make single lines of the drawing. -/
theorem plainLines_single (legible : b.Legible) {t : Tree Unit}
    (single : ∀ l ∈ t.labels, '\n' ∉ l.toList) :
    ∀ line ∈ t.plainLines b "" b.gap, '\n' ∉ line.toList := by
  obtain ⟨l, ⟨⟩, ts⟩ := t
  rw [labels_node] at single
  obtain ⟨root, below⟩ := List.forall_mem_cons.mp single
  rw [plainLines_node]
  refine List.forall_mem_cons.mpr ⟨by simpa using root, fun line inside => ?_⟩
  obtain ⟨pieces, l, arePieces, isLabel, rfl⟩ := plainLinesAll_form ts line inside
  have pieceLines : ∀ piece ∈ pieces, '\n' ∉ piece.toList := fun piece isPiece =>
    legible.line piece (arePieces piece isPiece)
  have gap := legible.line b.gap (by simp [Branches.pieces])
  simpa [gap, below l isLabel] using pieceLines

end

/-- Of trees whose labels are single lines, just those that are equal label for label and child for
child are drawn alike, in either style. -/
theorem draw_eq_iff_same {b : Branches} (style : b = .box ∨ b = .ascii) {t : Tree α} {u : Tree β}
    (lines : ∀ l ∈ t.labels, '\n' ∉ l.toList) (lines' : ∀ l ∈ u.labels, '\n' ∉ l.toList) :
    t.draw b = u.draw b ↔ t.same u = true := by
  have legible := Branches.legible style
  have single := plainLines_single legible (labels_bare t ▸ lines)
  have single' := plainLines_single legible (labels_bare u ▸ lines')
  rw [same_iff_bare, ← draw_bare b t, ← draw_bare b u]
  refine ⟨fun drawn => ?_, fun same => by rw [same]⟩
  exact plainLines_inj legible (joined_lines_inj single single' drawn)

/-- A tree with two children whose labels begin like branches. -/
def siblingLeaves : Tree Unit := .node "a" () [.node "    b" () [], .node "└── c" () []]

/-- The same labels in the same order, one below the other. -/
def nestedLeaves : Tree Unit := .node "a" () [.node "    b" () [.node "└── c" () []]]

theorem nested_drawn_apart : siblingLeaves.draw .box ≠ nestedLeaves.draw .box ∧
    siblingLeaves.draw .ascii ≠ nestedLeaves.draw .ascii := by
  have lines : ∀ l ∈ siblingLeaves.labels, '\n' ∉ l.toList := by decide +kernel
  have lines' : ∀ l ∈ nestedLeaves.labels, '\n' ∉ l.toList := by decide +kernel
  have differ : siblingLeaves.same nestedLeaves ≠ true := by decide +kernel
  exact ⟨mt (draw_eq_iff_same (.inl rfl) lines lines').mp differ,
    mt (draw_eq_iff_same (.inr rfl) lines lines').mp differ⟩

end Tree

end MethodLang
