import Mathlib.Data.List.Nodup
import MethodLang.Proofs.Machine.Processor
import MethodLang.Proofs.Program.Framing
import MethodLang.Proofs.Program.Sections

/-!
Calls on the machine in full. Where a function finds its arguments and variables, and what its
caller finds on the stack when it has returned (`call_frame`).
-/
namespace MethodLang

open Machine

namespace Image

variable {im : Image} {p q r : Processor} {scope : String}

/-! ### Pushing -/

/-- Lines have pushed words one after the other and left alone what was on the stack. -/
structure Stacked (im : Image) (p : Processor) (lines : List Line) (vs : List Word)
    (q : Processor) : Prop where
  run : im.Reaches p q
  ip : q.ip = p.ip + BitVec.ofNat 32 (Line.sizeAll lines)
  bp : q.bp = p.bp
  sp : q.sp.toNat + 4 * vs.length = p.sp.toNat
  keeps : Keeps p.sp.toNat p.data q.data
  words : ∀ (i : Nat) (v : Word), vs[i]? = some v → ∀ a : Word,
    a.toNat + 4 * (i + 1) = p.sp.toNat → q.word a = v

namespace Stacked

theorem nil (p : Processor) : im.Stacked p [] [] p :=
  ⟨.refl, by simp, rfl, rfl, fun _ _ => rfl, nofun⟩

theorem append {xs ys : List Line} {vs ws : List Word} (first : im.Stacked p xs vs q)
    (later : im.Stacked q ys ws r) : im.Stacked p (xs ++ ys) (vs ++ ws) r := by
  have depth := first.sp
  have deeper := later.sp
  refine ⟨first.run.trans later.run, ?_, later.bp.trans first.bp, ?_,
    first.keeps.trans later.keeps (by omega), fun i v found a place => ?_⟩
  · rw [later.ip, first.ip, Line.sizeAll_append, BitVec.ofNat_add, BitVec.add_assoc]
  · rw [List.length_append]
    omega
  · by_cases early : i < vs.length
    · rw [List.getElem?_append_left early] at found
      rw [← first.words i v found a place]
      refine Processor.word_keeps later.keeps (by omega) ?_
      have := p.sp.isLt
      omega
    · rw [List.getElem?_append_right (Nat.le_of_not_lt early)] at found
      exact later.words _ v found a (by omega)

/-- One word on top of the others. -/
theorem one {lines : List Line} {v : Word} (run : im.Reaches p q)
    (ip : q.ip = p.ip + BitVec.ofNat 32 (Line.sizeAll lines)) (bp : q.bp = p.bp)
    (sp : q.sp.toNat + 4 = p.sp.toNat) (top : q.word q.sp = v)
    (keeps : Keeps p.sp.toNat p.data q.data) : im.Stacked p lines [v] q := by
  refine ⟨run, ip, bp, sp, keeps, fun i w found a place => ?_⟩
  obtain ⟨small, same⟩ := List.getElem?_eq_some_iff.mp found
  have isTop : a = q.sp := BitVec.eq_of_toNat_eq (by
    rw [List.length_singleton] at small
    omega)
  cases i with
  | zero => exact isTop ▸ top.trans same
  | succ i => simp at small

/-- Lines that push zeros. -/
theorem zeros {lines rest : List Line}
    (zeros : ∀ l ∈ lines, l.statement = .instr (.push (.decimal 0)))
    (holds : im.Holds scope p.ip (lines ++ rest)) (room : 4 * lines.length ≤ p.sp.toNat) :
    ∃ q, im.Stacked p lines (List.replicate lines.length 0) q ∧ im.Holds scope q.ip rest := by
  induction lines generalizing p with
  | nil => exact ⟨p, nil p, holds⟩
  | cons l lines ih =>
    obtain ⟨is, others⟩ := List.forall_mem_cons.mp zeros
    rw [List.length_cons] at room
    obtain ⟨fetched, later⟩ := holds.instr is
    obtain ⟨below, top, keeps⟩ := p.push_spec 0 (by omega)
    have size : Line.sizeAll [l] = (Instr.push (.decimal 0)).size := by
      simp [Line.size, Line.instr?, is]
    have first : im.Stacked p [l] [0] ((p.push 0).next (.push (.decimal 0))) :=
      one (reaches_step fetched rfl) (size ▸ rfl) rfl below top keeps
    obtain ⟨q, stacked, after⟩ := ih (p := (p.push 0).next _) others later (by
      rw [Processor.next_sp]
      omega)
    exact ⟨q, first.append stacked, after⟩

end Stacked

/-- Pieces of code that run one after the other. Each pushes one word and leaves alone what was on
the stack. -/
inductive Pushed (im : Image) : Processor → List (List Line) → List Word → Processor → Prop where
  | nil (p : Processor) : Pushed im p [] [] p
  | cons {p q r : Processor} {lines : List Line} {rest : List (List Line)} {v : Word}
      {vs : List Word} (run : im.Reaches p q)
      (ip : q.ip = p.ip + BitVec.ofNat 32 (Line.sizeAll lines)) (sp : q.sp = p.sp - 4)
      (bp : q.bp = p.bp) (top : q.word q.sp = v) (keeps : Keeps p.sp.toNat p.data q.data)
      (later : Pushed im q rest vs r) : Pushed im p (lines :: rest) (v :: vs) r

theorem Pushed.stacked {codes : List (List Line)} {vs : List Word} (h : im.Pushed p codes vs q)
    (room : 4 * codes.length ≤ p.sp.toNat) :
    im.Stacked p codes.flatten vs q ∧ vs.length = codes.length := by
  induction h with
  | nil p => exact ⟨.nil p, rfl⟩
  | @cons p q r lines rest v vs run ip sp bp top keeps _ ih =>
    rw [List.length_cons] at room
    have below : q.sp.toNat + 4 = p.sp.toNat := by
      rw [sp]
      bv_omega
    obtain ⟨later, count⟩ := ih (by omega)
    exact ⟨(Stacked.one run ip bp below top keeps).append later, congrArg (· + 1) count⟩

/-- A constant is such a piece. -/
theorem Pushed.constant {value : Operand} {w : Word} {rest : List (List Line)} {vs : List Word}
    (fetched : im.fetch p.ip = some (.push value)) (isWord : value.word? = some w)
    (room : 4 ≤ p.sp.toNat) (later : im.Pushed ((p.push w).next (.push value)) rest vs q) :
    im.Pushed p ([.code (.push value)] :: rest) (w :: vs) q := by
  have done : im.exec (.push value) p = some ((p.push w).next (.push value)) := by
    rw [exec, isWord]
    rfl
  obtain ⟨-, top, keeps⟩ := p.push_spec w room
  exact .cons (reaches_step fetched done) rfl rfl rfl top keeps later

/-! ### Entering -/

/-- A call pushes the address behind it and the caller's base pointer. -/
theorem call_spec {function : String} (fetched : im.fetch p.ip = some (.call function))
    (room : 8 ≤ p.sp.toNat) : ∃ q, im.Reaches p q ∧ q.ip = im.function function ∧ q.bp = q.sp ∧
      q.sp.toNat + 8 = p.sp.toNat ∧ q.word q.bp = p.bp ∧ q.word (q.bp + 4) = p.ip + 3 ∧
      Keeps p.sp.toNat p.data q.data := by
  obtain ⟨below, top, keeps⟩ := p.push_spec (p.ip + 3) (by omega)
  obtain ⟨below', top', keeps'⟩ := (p.push (p.ip + 3)).push_spec p.bp (by omega)
  refine ⟨_, reaches_step fetched rfl, rfl, rfl, ?_, top', ?_, keeps.trans keeps' (by omega)⟩
  · exact (by omega : ((p.push (p.ip + 3)).push p.bp).sp.toNat + 8 = p.sp.toNat)
  · have above : ((p.push (p.ip + 3)).push p.bp).sp + 4 = (p.push (p.ip + 3)).sp := by bv_omega
    change Width.word.read _ (((p.push (p.ip + 3)).push p.bp).sp + 4) = _
    rw [above]
    refine (Width.read_word_congr (fun c low _ => keeps' c low) ?_).trans top
    have := p.sp.isLt
    omega

/-! ### Leaving -/

/-- The word of a variable is moved to where the caller finds the result. Below it only the word
under the stack changes. -/
theorem move_result {load store : Line} {rest : List Line} {offset : Int}
    (isLoad : load.statement = .instr (.loadFrame offset))
    (isStore : store.statement = .instr (.storeFrame Frame.resultOffset))
    (holds : im.Holds scope p.ip (load :: store :: rest)) (room : 4 ≤ p.sp.toNat)
    (below : p.sp.toNat ≤ p.bp.toNat) (bank : p.bp.toNat + 12 ≤ 2 ^ 16) :
    ∃ q, im.Reaches p q ∧ im.Holds scope q.ip rest ∧ q.bp = p.bp ∧
      q.word (p.bp + 8) = p.slot offset ∧
      ∀ a : Word, p.sp.toNat ≤ a.toNat →
        (a.toNat < p.bp.toNat + 8 ∨ p.bp.toNat + 12 ≤ a.toNat) → q.data a = p.data a := by
  obtain ⟨fetched, holds⟩ := holds.instr isLoad
  obtain ⟨fetched', holds⟩ := holds.instr isStore
  obtain ⟨-, top, keeps⟩ := p.push_spec (p.slot offset) room
  have home : Processor.address p.bp Frame.resultOffset = p.bp + 8 := by
    refine BitVec.eq_of_toNat_eq ?_
    rw [Processor.toNat_address (a := p.bp.toNat + 8) (by rfl) (by omega)]
    bv_omega
  have loaded : im.Reaches p ((p.push (p.slot offset)).next (.loadFrame offset)) :=
    reaches_step fetched rfl
  refine ⟨_, loaded.trans (reaches_step fetched' rfl), holds, rfl, ?_, fun a high apart => ?_⟩
  · exact home ▸ (Width.read_write_word _ _).trans top
  · change Width.word.write _ (Processor.address p.bp Frame.resultOffset) _ a = _
    have eight : (p.bp + 8).toNat = p.bp.toNat + 8 := by bv_omega
    rw [home, Width.write_word_other a (by omega) (by omega)]
    exact keeps a high

/-- Words are dropped one after the other. -/
theorem drop_words {n : Nat} (holds : im.Holds scope p.ip (List.replicate n (Line.code .drop)))
    (room : p.sp.toNat + 4 * n < 2 ^ 32) :
    ∃ q, im.Reaches p q ∧
      q.ip = p.ip + BitVec.ofNat 32 (Line.sizeAll (List.replicate n (Line.code .drop))) ∧
      q.bp = p.bp ∧ q.sp.toNat = p.sp.toNat + 4 * n ∧ q.data = p.data := by
  induction n generalizing p with
  | zero => exact ⟨p, .refl, by simp, rfl, rfl, rfl⟩
  | succ n ih =>
    obtain ⟨fetched, holds⟩ := holds.instr rfl
    have above : p.drop.sp.toNat = p.sp.toNat + 4 := by
      rw [Processor.drop]
      bv_omega
    obtain ⟨q, run, ip, bp, sp, data⟩ := ih (p := p.drop.next .drop) holds (by
      rw [Processor.next_sp]
      omega)
    refine ⟨q, (reaches_step fetched rfl).trans run, ?_, bp, ?_, data⟩
    · rw [ip, List.replicate_succ, Line.sizeAll_cons, BitVec.ofNat_add, ← BitVec.add_assoc]
      rfl
    · rw [sp, Processor.next_sp]
      omega

/-- The word on top is moved over the words below it, one after the other. -/
theorem slide_word {n top : Nat} {v : Word}
    (holds : im.Holds scope p.ip (List.replicate n [Line.code .swap, Line.code .drop]).flatten)
    (isTop : p.word p.sp = v) (room : p.sp.toNat + 4 * (n + 1) = top) (bank : top < 2 ^ 32) :
    ∃ q, im.Reaches p q ∧ q.ip = p.ip + BitVec.ofNat 32
        (Line.sizeAll (List.replicate n [Line.code .swap, Line.code .drop]).flatten) ∧
      q.bp = p.bp ∧ q.sp.toNat + 4 = top ∧ q.word q.sp = v ∧ Keeps top p.data q.data := by
  induction n generalizing p with
  | zero => exact ⟨p, .refl, by simp, rfl, by omega, isTop, fun _ _ => rfl⟩
  | succ n ih =>
    obtain ⟨fetched, holds⟩ := holds.instr rfl
    obtain ⟨fetched', holds⟩ := holds.instr rfl
    have above : (p.sp + 4).toNat = p.sp.toNat + 4 := by bv_omega
    have swapped : im.Reaches p
        (((p.put p.sp (p.word (p.sp + 4))).put (p.sp + 4) (p.word p.sp)).next .swap) :=
      reaches_step fetched rfl
    have keeps : Keeps top p.data
        ((p.put p.sp (p.word (p.sp + 4))).put (p.sp + 4) (p.word p.sp)).data :=
      (Processor.put_keeps _ (by omega) (Nat.le_of_lt bank)).trans
        (Processor.put_keeps _ (by omega) (Nat.le_of_lt bank)) (Nat.le_refl top)
    obtain ⟨q, run, ip, bp, sp, isV, keeps'⟩ := ih holds
      (p := (((p.put p.sp (p.word (p.sp + 4))).put (p.sp + 4) (p.word p.sp)).next .swap).drop.next
        .drop) ((Width.read_write_word _ _).trans isTop) (by
          change (p.sp + 4).toNat + _ = _
          omega)
    refine ⟨q, swapped.trans ((reaches_step fetched' rfl).trans run), ?_, bp, sp, isV,
      keeps.trans keeps' (Nat.le_refl _)⟩
    rw [ip, List.replicate_succ, List.flatten_cons, Line.sizeAll_append, BitVec.ofNat_add,
      ← BitVec.add_assoc]
    change p.ip + 1#32 + 1#32 + _ = p.ip + 2#32 + _
    congr 1
    rw [BitVec.add_assoc]
    rfl

end Image

/-! ### Frames -/

namespace Frame

variable {offset : Nat → Int} {names : TypeTable}

/-- Of names that differ each has the slot of its position. -/
theorem find?_place (distinct : (names.map (·.1)).Nodup) {i : Nat} {name : String}
    {type : Option TypeName} (found : names[i]? = some (name, type)) :
    find? (place offset names) name = some ⟨type, offset i⟩ := by
  refine lookup_of_nodup ?_ (List.mem_reverse.mpr ?_)
  · rw [List.map_reverse, place_names]
    exact List.nodup_reverse.mpr distinct
  · have isIn : ((name, type), i) ∈ names.zipIdx := List.mem_zipIdx_iff_getElem?.mpr found
    exact List.mem_map_of_mem isIn

theorem slot?_local {f : Frame} {name : String} {slot : Slot}
    (found : find? f.locals name = some slot) : f.slot? name = some slot := by
  rw [slot?, found, Option.some_or]

theorem slot?_param {params vars : TypeTable} {name : String} (isNoVar : name ∉ vars.map (·.1)) :
    (ofMethod params vars).slot? name = find? (ofMethod params vars).params name := by
  have hidden : find? (ofMethod params vars).locals name = none :=
    Option.not_isSome_iff_eq_none.mp (mt (find?_isSome localOffset).mp isNoVar)
  rw [slot?, hidden, Option.none_or]

theorem place_offsets (offset : Nat → Int) (names : TypeTable) :
    (place offset names).map (·.2.offset) = (List.range names.length).map offset := by
  rw [place, List.map_map, List.range_eq_range', ← List.zipIdx_map_snd, List.map_map]
  rfl

/-- No two slots, nor a slot and one of the two words that a call pushes, are in one place. -/
theorem offsets_nodup (params vars : TypeTable) :
    (0 :: 4 :: ((ofMethod params vars).params ++ (ofMethod params vars).locals).map
      (·.2.offset)).Nodup := by
  rw [List.map_append, ofMethod, place_offsets, place_offsets]
  have paramsApart : ((List.range params.length).map (paramOffset params.length)).Nodup := by
    refine List.Nodup.map_on (fun i inI j inJ same => ?_) List.nodup_range
    rw [List.mem_range] at inI inJ
    simp only [paramOffset, wordSize] at same
    omega
  have varsApart : ((List.range vars.length).map localOffset).Nodup := by
    refine List.Nodup.map_on (fun i _ j _ same => ?_) List.nodup_range
    simp only [localOffset, wordSize] at same
    omega
  have high : ∀ o ∈ (List.range params.length).map (paramOffset params.length), 8 ≤ o := by
    refine List.forall_mem_map.mpr fun i isIn => ?_
    rw [List.mem_range] at isIn
    simp only [paramOffset, wordSize]
    omega
  have low : ∀ o ∈ (List.range vars.length).map localOffset, o ≤ -4 := by
    refine List.forall_mem_map.mpr fun i _ => ?_
    simp only [localOffset, wordSize]
    omega
  refine List.nodup_cons.mpr ⟨fun zero => ?_, List.nodup_cons.mpr ⟨fun four => ?_,
    List.nodup_append.mpr ⟨paramsApart, varsApart, fun a inA b inB same => ?_⟩⟩⟩
  · rcases List.mem_cons.mp zero with same | isIn
    · omega
    · rcases List.mem_append.mp isIn with isIn | isIn
      · exact absurd (high 0 isIn) (by decide)
      · exact absurd (low 0 isIn) (by decide)
  · rcases List.mem_append.mp four with isIn | isIn
    · exact absurd (high 4 isIn) (by decide)
    · exact absurd (low 4 isIn) (by decide)
  · have := high a inA
    have := low b inB
    omega

theorem offsets_bounds (params vars : TypeTable) :
    ∀ o ∈ 0 :: 4 :: ((ofMethod params vars).params ++ (ofMethod params vars).locals).map
      (·.2.offset), 4 ∣ o ∧ -(4 * vars.length : Int) ≤ o ∧ o ≤ 4 * (params.length + 1) := by
  rw [List.map_append, ofMethod, place_offsets, place_offsets]
  simp only [List.forall_mem_cons, List.forall_mem_append, List.forall_mem_map, List.mem_range]
  refine ⟨by omega, by omega, fun i small => ?_, fun i small => ?_⟩
  · simp only [paramOffset, wordSize]
    omega
  · simp only [localOffset, wordSize]
    omega

end Frame

/-! ### Code of calls and methods -/

namespace Code

/-- How many words a caller pushes: the arguments, or a placeholder for the result. -/
def argumentWords (result : Bool) (n : Nat) : Nat := if result then max n 1 else n

/-- The placeholder. -/
def reserve (result : Bool) (n : Nat) : List Line :=
  if n = 0 ∧ result then [.noted (.push (.decimal 0)) 2 "for return value"] else []

/-- What the caller does behind a call. -/
def cleanup (result : Bool) (n : Nat) : List Line :=
  if result then (List.replicate (n - 1) [Line.code .swap, Line.code .drop]).flatten
  else List.replicate n (Line.code .drop)

theorem reserve_zero (result : Bool) (n : Nat) :
    ∀ l ∈ reserve result n, l.statement = .instr (.push (.decimal 0)) := by
  unfold reserve
  split
  · exact List.forall_mem_singleton.mpr rfl
  · exact List.forall_mem_nil _

theorem reserve_length (result : Bool) (n : Nat) :
    n + (reserve result n).length = argumentWords result n := by
  unfold reserve argumentWords
  cases result with
  | false => simp
  | true =>
    by_cases isZero : n = 0
    · simp [isZero]
    · simp only [isZero, false_and, if_false, if_true, List.length_nil]
      omega

theorem argumentWords_fits (result : Bool) (n : Nat) :
    n ≤ argumentWords result n ∧ (n ≠ 0 → argumentWords result n = n) := by
  unfold argumentWords
  split <;> omega

theorem call_lines {c : CodeContext} {function : String} {arguments : List Code}
    (written : ∀ a ∈ arguments, a.fault = none) : (call c function arguments).lines =
      (arguments.map Code.lines).flatten ++ (reserve (c.hasResult function) arguments.length ++
        (.code (.call function) :: cleanup (c.hasResult function) arguments.length)) := by
  have whole : call c function arguments = join arguments ++
      write (reserve (c.hasResult function) arguments.length) ++ instr (.call function) ++
        write (cleanup (c.hasResult function) arguments.length) := by
    simp [call, reserve, cleanup, List.isEmpty_iff]
  have first := fault_join.mpr written
  rw [whole, append_assoc, append_assoc, lines_append first, lines_join written, List.flatMap_def]
  rfl

/-- The zeros that a method starts with. -/
def prologue (e : Entry) : List Line := e.vars.map fun p => .noted (.push (.decimal 0)) 4 p.1

theorem prologue_zero (e : Entry) :
    ∀ l ∈ prologue e, l.statement = .instr (.push (.decimal 0)) :=
  List.forall_mem_map.mpr fun _ _ => rfl

theorem method_split {results : TypeTable} {name : String} {e : Entry} {g : Graph}
    (written : (method results name e g).fault = none) :
    ∃ body, (method results name e g).lines = .blank :: .function name :: (prologue e ++
      (body ++ (.place .exit :: ((if (results.lookup name).join.isSome then
        result (Frame.ofMethod e.params e.vars) name else []) ++ [.code .ret])))) := by
  have whole : method results name e g = write (.blank :: .function name :: prologue e) ++
      join (g.blocks.map fun p => block (e.context results) p.1 p.2) ++
      write (.place .exit :: ((if (results.lookup name).join.isSome then
        result (Frame.ofMethod e.params e.vars) name else []) ++ [.code .ret])) := rfl
  rw [whole] at written ⊢
  obtain ⟨front, -⟩ := fault_append_iff.mp written
  rw [lines_append front, lines_append (fault_write _)]
  exact ⟨(join (g.blocks.map fun p => block (e.context results) p.1 p.2)).lines, by simp [write]⟩

end Code

/-! ### Calls -/

/-- A method that is known under its name. Its parameters have different names and so have its
variables, with the result among them if there is one. -/
structure Entry.Framed (results : TypeTable) (name : String) (e : Entry) : Prop where
  known : (results.lookup name).isSome
  params : (e.params.map (·.1)).Nodup
  vars : (e.vars.map (·.1)).Nodup
  result : (results.lookup name).join.isSome → name ∈ e.vars.map (·.1)

def Entry.frame (e : Entry) : Frame := Frame.ofMethod e.params e.vars

namespace Processor

/-- Two words of memory do not overlap. -/
def Apart (a b : Word) : Prop := a.toNat + 4 ≤ b.toNat ∨ b.toNat + 4 ≤ a.toNat

/-- The state behind the zeros that a method starts with, called with the words. -/
structure Entered (e : Entry) (words : List Word) (caller : Processor) (p : Processor) : Prop where
  saved : p.slot 0 = caller.bp
  /-- The stack of the body starts below the variables. -/
  sp : p.sp.toNat + 4 * e.vars.length = p.bp.toNat
  /-- A parameter's offset is where its argument is. The parameter is seen in the body unless a
  variable has its name. -/
  params : ∀ (i : Nat) (name : String) (type : Option TypeName) (v : Word),
    e.params[i]? = some (name, type) → words[i]? = some v →
      ∃ slot, Frame.find? e.frame.params name = some slot ∧ p.slot slot.offset = v ∧
        (name ∉ e.vars.map (·.1) → e.frame.slot? name = some slot)
  /-- A variable's offset is where its zero is. -/
  locals : ∀ (j : Nat) (name : String) (type : Option TypeName),
    e.vars[j]? = some (name, type) →
      ∃ slot, e.frame.slot? name = some slot ∧ p.slot slot.offset = 0 ∧
        (address p.bp slot.offset).toNat + 4 * (j + 1) = p.bp.toNat
  /-- The saved base pointer, the return address and all slots are apart. -/
  apart : ((0 :: 4 :: (e.frame.params ++ e.frame.locals).map (·.2.offset)).map
    (address p.bp)).Pairwise Apart

/-- What a body leaves alone: its base pointer, the two words below the arguments and the caller's
stack, which starts at an address. -/
structure Spares (top : Nat) (p q : Processor) : Prop where
  bp : q.bp = p.bp
  saved : ∀ a : Word, p.bp.toNat ≤ a.toNat → a.toNat < p.bp.toNat + 8 → q.data a = p.data a
  above : Keeps top p.data q.data

/-- The value of the result variable, if the method has a result. -/
def Result (results : TypeTable) (name : String) (e : Entry) (p : Processor) : Option Word → Prop
  | some v => (results.lookup name).join.isSome ∧
    ∃ slot, Frame.find? e.frame.locals name = some slot ∧ p.slot slot.offset = v
  | none => (results.lookup name).join = none

variable {e : Entry} {words : List Word} {caller p : Processor} {results : TypeTable}
  {name : String}

/-- Offsets fit the words on the stack, where `k` words are between the two of the call and the
stack of the caller. -/
theorem entered_of {k : Nat} (framed : e.Framed results name)
    (base : p.bp.toNat + 8 + 4 * k = caller.sp.toNat) (bank : caller.sp.toNat ≤ 2 ^ 16)
    (fits : e.params.length ≤ k ∧ (e.params.length ≠ 0 → k = e.params.length))
    (below : p.sp.toNat + 4 * e.vars.length = p.bp.toNat) (saved : p.word p.bp = caller.bp)
    (arguments : ∀ (i : Nat) (v : Word), words[i]? = some v → ∀ a : Word,
      a.toNat + 4 * (i + 1) = caller.sp.toNat → p.word a = v)
    (zeros : ∀ j < e.vars.length, ∀ a : Word, a.toNat + 4 * (j + 1) = p.bp.toNat → p.word a = 0) :
    Entered e words caller p := by
  refine ⟨?_, below, fun i x type v isParam isWord => ?_, fun j x type isVar => ?_, ?_⟩
  · have here : address p.bp 0 = p.bp :=
      BitVec.eq_of_toNat_eq (toNat_address (by omega) (by omega))
    rw [slot, here, saved]
  · have found : Frame.find? e.frame.params x = some ⟨type, _⟩ :=
      Frame.find?_place framed.params isParam
    refine ⟨_, found, arguments i v isWord _ ?_, fun isNoVar => ?_⟩
    · obtain ⟨small, -⟩ := List.getElem?_eq_some_iff.mp isParam
      have place : (address p.bp (Frame.paramOffset e.params.length i)).toNat =
          caller.sp.toNat - 4 * (i + 1) := by
        refine toNat_address ?_ (by omega)
        simp only [Frame.paramOffset, Frame.wordSize]
        omega
      rw [place]
      omega
    · exact (Frame.slot?_param isNoVar).trans found
  · refine ⟨_, Frame.slot?_local (Frame.find?_place framed.vars isVar), ?_⟩
    obtain ⟨small, -⟩ := List.getElem?_eq_some_iff.mp isVar
    have place : (address p.bp (Frame.localOffset j)).toNat + 4 * (j + 1) = p.bp.toNat := by
      have low : (address p.bp (Frame.localOffset j)).toNat = p.bp.toNat - 4 * (j + 1) := by
        refine toNat_address ?_ (by omega)
        simp only [Frame.localOffset, Frame.wordSize]
        omega
      omega
    exact ⟨zeros j small _ place, place⟩
  · refine List.pairwise_map.mpr ((Frame.offsets_nodup e.params e.vars).imp_of_mem ?_)
    -- All offsets are whole words, so that different ones are at least a word apart.
    have position {o : Int} (isIn : o ∈ 0 :: 4 ::
        (e.frame.params ++ e.frame.locals).map (·.2.offset)) :
        4 ∣ o ∧ ((address p.bp o).toNat : Int) = p.bp.toNat + o := by
      obtain ⟨whole, low, high⟩ := Frame.offsets_bounds e.params e.vars o isIn
      have place : (address p.bp o).toNat = (p.bp.toNat + o).toNat :=
        toNat_address (by omega) (by omega)
      omega
    intro a b inA inB differ
    obtain ⟨wholeA, placeA⟩ := position inA
    obtain ⟨wholeB, placeB⟩ := position inB
    unfold Apart
    omega

end Processor

namespace Image

variable {im : Image} {results : TypeTable} {name scope : String} {e : Entry} {g : Graph}
  {start : Word} {p q : Processor}

/-- A call with its arguments, in an image that holds the method as well. -/
structure Calls (im : Image) (results : TypeTable) (name : String) (e : Entry) (g : Graph)
    (frame : Frame) (arguments : List Code) (scope : String) (address : Word) : Prop where
  framed : e.Framed results name
  count : arguments.length = e.params.length
  written : (Code.method results name e g).fault = none
  evaluated : ∀ a ∈ arguments, a.fault = none
  method : ∃ start, im.Holds name start (Code.method results name e g).lines
  call : im.Holds scope address (Code.call ⟨frame, results⟩ name arguments).lines

variable {frame : Frame} {arguments : List Code} {address : Word}

/-- Caller and method decide in the same way whether there is a result. -/
theorem Calls.hasResult (h : im.Calls results name e g frame arguments scope address) :
    CodeContext.hasResult ⟨frame, results⟩ name = (results.lookup name).join.isSome := by
  have known := h.framed.known
  cases results with
  | nil => cases known
  | cons first rest => rfl

theorem Calls.holds_method (h : im.Calls results name e g frame arguments scope address) :
    (∃ rest, im.Holds name (im.function name) (Code.prologue e ++ rest)) ∧
      im.Holds name (im.place name .exit) ((if (results.lookup name).join.isSome then
        Code.result e.frame name else []) ++ [.code .ret]) := by
  obtain ⟨start, holds⟩ := h.method
  obtain ⟨body, lines⟩ := Code.method_split h.written
  rw [lines] at holds
  have holds := holds.skip rfl
  have isStart : im.function name = start := holds.1
  have holds := holds.skip rfl
  rw [isStart]
  refine ⟨⟨_, holds⟩, ?_⟩
  obtain ⟨-, holds⟩ := holds_append.mp holds
  obtain ⟨-, holds⟩ := holds_append.mp holds
  have isExit : im.place name .exit = _ := holds.1
  rw [isExit]
  exact holds.skip rfl

/-- How an entered method is linked to its caller. The caller has pushed some words, and behind the
call stand some lines. -/
structure Linked (im : Image) (scope : String) (pushed : Nat) (lines : List Line) (behind : Word)
    (caller p : Processor) : Prop where
  base : p.bp.toNat + 8 + 4 * pushed = caller.sp.toNat
  saved : p.word p.bp = caller.bp
  holds : im.Holds scope (p.word (p.bp + 4)) lines
  ends : p.word (p.bp + 4) + BitVec.ofNat 32 (Line.sizeAll lines) = behind
  keeps : Keeps caller.sp.toNat caller.data p.data

/-- From the pushed arguments to the zeroed variables of the method. -/
theorem enter_method {vs : List Word} (h : im.Calls results name e g frame arguments scope p.ip)
    (pushed : im.Pushed p (arguments.map Code.lines) vs q) (bank : p.sp.toNat ≤ 2 ^ 16)
    (room : 4 * (Code.argumentWords (results.lookup name).join.isSome arguments.length + 2 +
      e.vars.length) ≤ p.sp.toNat) :
    ∃ r, im.Reaches p r ∧
      r.ip = im.function name + BitVec.ofNat 32 (Line.sizeAll (Code.prologue e)) ∧
      Processor.Entered e vs p r ∧ im.Linked scope
        (Code.argumentWords (results.lookup name).join.isSome arguments.length)
        (Code.cleanup (results.lookup name).join.isSome arguments.length)
        (p.ip + BitVec.ofNat 32 (Line.sizeAll (Code.call ⟨frame, results⟩ name arguments).lines))
        p r := by
  have call := h.call
  rw [Code.call_lines h.evaluated, h.hasResult] at call ⊢
  generalize (results.lookup name).join.isSome = result at *
  have words := Code.reserve_length result arguments.length
  obtain ⟨args, count⟩ := pushed.stacked (by
    rw [List.length_map]
    omega)
  rw [List.length_map] at count
  obtain ⟨-, call⟩ := holds_append.mp call
  rw [← args.ip] at call
  have depth := args.sp
  obtain ⟨q', reserved, call⟩ :=
    Stacked.zeros (Code.reserve_zero result arguments.length) call (by omega)
  have stack := args.append reserved
  have below := stack.sp
  rw [List.length_append, List.length_replicate, count, words] at below
  obtain ⟨fetched, behind⟩ := call.instr rfl
  obtain ⟨c, entered, isEntry, isBase, deeper, saved, back, keeps⟩ := call_spec fetched (by omega)
  obtain ⟨⟨rest, prologue⟩, -⟩ := h.holds_method
  rw [← isEntry] at prologue
  have vars : (Code.prologue e).length = e.vars.length := List.length_map _
  obtain ⟨r, zeros, -⟩ := Stacked.zeros (Code.prologue_zero e) prologue (by omega)
  have deepest := zeros.sp
  rw [List.length_replicate, vars, ← isBase] at deepest
  have kept : Keeps c.bp.toNat c.data r.data := isBase ▸ zeros.keeps
  have isBp : r.bp = c.bp := zeros.bp
  have base : c.bp.toNat = c.sp.toNat ∧ r.bp.toNat = c.bp.toNat :=
    ⟨congrArg _ isBase, congrArg _ isBp⟩
  have fits := Code.argumentWords_fits result arguments.length
  have bounded := p.sp.isLt
  have savedBp : r.word r.bp = p.bp := by
    rw [isBp, Processor.word_keeps kept (Nat.le_refl _) (by omega), saved, stack.bp]
  refine ⟨r, (stack.run.trans entered).trans zeros.run, zeros.ip.trans (by rw [isEntry]), ?_, ?_⟩
  · refine Processor.entered_of (k := Code.argumentWords result arguments.length) h.framed
      (by omega) bank (by rwa [← h.count]) (by omega) savedBp (fun i v isWord a place => ?_)
      (fun j small a place => ?_)
    · obtain ⟨early, -⟩ := List.getElem?_eq_some_iff.mp isWord
      rw [Processor.word_keeps kept (by omega) (by omega),
        Processor.word_keeps keeps (by omega) (by omega)]
      exact stack.words i v (by rw [List.getElem?_append_left early, isWord]) a place
    · refine zeros.words j 0 ?_ a (by omega)
      rw [List.getElem?_replicate, if_pos (by omega)]
  · have isBack : r.word (r.bp + 4) = q'.ip + 3 := by
      have above : (c.bp + 4).toNat = c.bp.toNat + 4 := by bv_omega
      rw [isBp, Processor.word_keeps kept (by omega) (by omega), back]
    refine ⟨by omega, savedBp, isBack ▸ behind, ?_, ?_⟩
    · rw [isBack, stack.ip, ← List.append_assoc, Line.sizeAll_append _ (_ :: _), Line.sizeAll_cons,
        BitVec.ofNat_add, BitVec.ofNat_add, ← BitVec.add_assoc, ← BitVec.add_assoc]
      rfl
    · exact (stack.keeps.trans keeps (by omega)).trans kept (by omega)

/-- What the caller finds behind a call: its own stack, and on top of it the result if there is
one. -/
structure Returned (result : Option Word) (behind : Word) (caller p : Processor) : Prop where
  ip : p.ip = behind
  bp : p.bp = caller.bp
  sp : p.sp.toNat + 4 * result.toList.length = caller.sp.toNat
  top : ∀ v ∈ result, p.word p.sp = v
  keeps : Keeps caller.sp.toNat caller.data p.data

/-- A return, and the lines behind the call. The word above those of the call is the result. -/
theorem return_clean {result : Bool} {n : Nat} {behind : Word} {caller entered t : Processor}
    (linked : im.Linked scope (Code.argumentWords result n) (Code.cleanup result n) behind caller
      entered)
    (fetched : im.fetch t.ip = some .ret) (spares : entered.Spares caller.sp.toNat t)
    (bank : caller.sp.toNat ≤ 2 ^ 16) :
    ∃ u, im.Reaches t u ∧
      Returned (if result then some (t.word (t.bp + 8)) else none) behind caller u := by
  have base := linked.base
  have same : t.bp.toNat = entered.bp.toNat := congrArg _ spares.bp
  have kept (a : Word) (low : entered.bp.toNat ≤ a.toNat)
      (high : a.toNat + 4 ≤ entered.bp.toNat + 8) : t.word a = entered.word a :=
    Width.read_word_congr (fun c _ _ => spares.saved c (by omega) (by omega)) (by omega)
  have four : (entered.bp + 4).toNat = entered.bp.toNat + 4 := by bv_omega
  have eight : (t.bp + 8).toNat = t.bp.toNat + 8 := by bv_omega
  have saved : t.word t.bp = caller.bp := by
    rw [spares.bp, kept _ (Nat.le_refl _) (by omega), linked.saved]
  have back : t.leave.ip = entered.word (entered.bp + 4) := by
    rw [← kept _ (by omega) (by omega), ← spares.bp]
    rfl
  have returned : im.Reaches t t.leave := reaches_step fetched rfl
  have keeps := linked.keeps.trans spares.above (Nat.le_refl _)
  have holds : im.Holds scope t.leave.ip (Code.cleanup result n) := back ▸ linked.holds
  have ends : t.leave.ip + BitVec.ofNat 32 (Line.sizeAll (Code.cleanup result n)) = behind :=
    back ▸ linked.ends
  have top : t.leave.sp.toNat = t.bp.toNat + 8 := eight
  cases result with
  | false =>
    have pushed : Code.argumentWords false n = n := rfl
    obtain ⟨u, run, ip, bp, sp, data⟩ := drop_words holds (by omega)
    refine ⟨u, returned.trans run, ip.trans ends, bp.trans saved, ?_, nofun, data ▸ keeps⟩
    change u.sp.toNat + 0 = _
    omega
  | true =>
    have pushed : Code.argumentWords true n = n - 1 + 1 := by
      simp only [Code.argumentWords, if_true]
      omega
    have isTop : t.leave.word t.leave.sp = t.word (t.bp + 8) := rfl
    have room : t.leave.sp.toNat + 4 * (n - 1 + 1) = caller.sp.toNat := by omega
    obtain ⟨u, run, ip, bp, sp, isTop, above⟩ := slide_word holds isTop room (by omega)
    refine ⟨u, returned.trans run, ip.trans ends, bp.trans saved, sp, fun v is => ?_,
      keeps.trans above (Nat.le_refl _)⟩
    cases is
    exact isTop

/-- From the exit of a method back to its caller, whatever the body has left on the stack. -/
theorem leave_method {behind : Word} {caller entered t : Processor}
    (h : im.Calls results name e g frame arguments scope address)
    (linked : im.Linked scope
      (Code.argumentWords (results.lookup name).join.isSome arguments.length)
      (Code.cleanup (results.lookup name).join.isSome arguments.length) behind caller entered)
    (bank : caller.sp.toNat ≤ 2 ^ 16) (spares : entered.Spares caller.sp.toNat t)
    (exit : t.ip = im.place name .exit) (room : 4 ≤ t.sp.toNat) (below : t.sp.toNat ≤ t.bp.toNat) :
    ∃ u result, im.Reaches t u ∧ t.Result results name e result ∧
      Returned result behind caller u := by
  obtain ⟨-, holds⟩ := h.holds_method
  rw [← exit] at holds
  have isResult := h.framed.result
  cases hasResult : (results.lookup name).join with
  | none =>
    rw [hasResult] at linked holds
    obtain ⟨u, run, returned⟩ := return_clean linked (holds.instr rfl).1 spares bank
    exact ⟨u, none, run, hasResult, returned⟩
  | some type =>
    rw [hasResult] at linked holds isResult
    simp only [Option.isSome_some, if_true] at linked holds isResult
    have isSlot : (Frame.find? e.frame.locals name).isSome :=
      (Frame.find?_isSome Frame.localOffset).mpr (isResult trivial)
    obtain ⟨slot, found⟩ := Option.isSome_iff_exists.mp isSlot
    rw [Code.result, found] at holds
    have base := linked.base
    have one : 1 ≤ Code.argumentWords true arguments.length := Nat.le_max_right _ _
    have same : t.bp.toNat = entered.bp.toNat := congrArg _ spares.bp
    obtain ⟨t', moved, holds, isBp, isWord, others⟩ :=
      move_result rfl rfl holds room below (by omega)
    have spares' : entered.Spares caller.sp.toNat t' := by
      refine ⟨isBp.trans spares.bp, fun a low high => ?_, fun a inside => ?_⟩
      · rw [others a (by omega) (by omega), spares.saved a low high]
      · rw [others a (by omega) (by omega), spares.above a inside]
    obtain ⟨u, run, returned⟩ := return_clean linked (holds.instr rfl).1 spares' bank
    rw [if_pos (by rfl), isBp, isWord] at returned
    exact ⟨u, some (t.slot slot.offset), moved.trans run, ⟨hasResult ▸ rfl, slot, found, rfl⟩,
      returned⟩

/-- A call of a method, if data memory has room for its frame. The method finds each argument at the
offset of its parameter and a zero at the offset of each variable, all apart from each other and
from the words that the call has pushed. Whatever the body does, if it leaves alone those two words
and the stack of the caller, then behind the call the caller finds its stack as it was before the
arguments, and on top of it just the final value of the result variable if there is one. -/
theorem call_frame {vs : List Word} (h : im.Calls results name e g frame arguments scope p.ip)
    (pushed : im.Pushed p (arguments.map Code.lines) vs q) (bank : p.sp.toNat ≤ 2 ^ 16)
    (room : 4 * (Code.argumentWords (results.lookup name).join.isSome arguments.length + 2 +
      e.vars.length) ≤ p.sp.toNat) :
    ∃ r, im.Reaches p r ∧
      r.ip = im.function name + BitVec.ofNat 32 (Line.sizeAll (Code.prologue e)) ∧
      r.bp.toNat + 8 + 4 * Code.argumentWords (results.lookup name).join.isSome arguments.length =
        p.sp.toNat ∧
      Processor.Entered e vs p r ∧
      ∀ t, r.Spares p.sp.toNat t → t.ip = im.place name .exit → 4 ≤ t.sp.toNat →
        t.sp.toNat ≤ t.bp.toNat →
        ∃ u result, im.Reaches t u ∧ t.Result results name e result ∧ Returned result
          (p.ip + BitVec.ofNat 32 (Line.sizeAll (Code.call ⟨frame, results⟩ name arguments).lines))
          p u := by
  obtain ⟨r, run, ip, entered, linked⟩ := enter_method h pushed bank room
  exact ⟨r, run, ip, linked.base, entered, fun t spares exit room below =>
    leave_method h linked bank spares exit room below⟩

/-- A call `f(7, 9)` at the address 0, and the method `f` with an empty body. -/
def pairCall : Image where
  fetch a := [((0 : Word), Instr.push (.decimal 7)), (5, .push (.decimal 9)), (10, .call "f"),
    (13, .swap), (14, .drop), (100, .push (.decimal 0)), (105, .loadFrame (-4)),
    (108, .storeFrame 8), (111, .ret)].lookup a
  function _ := 100
  place _ _ := 105
  scope _ := "f"

def pairEntry : Entry :=
  ⟨[], [], none, none, [("a", some "int"), ("b", some "int")], [("f", some "int")]⟩

def pairStart : Processor := ⟨0, 1024, 2048, 0, fun _ => 0, 0, 0⟩

/-- The arguments are found above the two words of the call, and when the method has returned one
word has replaced them. -/
theorem pair_call_frame : ∃ r, pairCall.Reaches pairStart r ∧ r.slot 12 = 7 ∧ r.slot 8 = 9 ∧
    ∃ u, pairCall.Reaches r u ∧ u.ip = 15 ∧ u.bp = 2048 ∧ u.sp.toNat = 1020 ∧ u.word u.sp = 0 := by
  have calls : pairCall.Calls [("f", some "int")] "f" pairEntry .empty ⟨[], []⟩
      [.instr (.push (.decimal 7)), .instr (.push (.decimal 9))] "main" pairStart.ip :=
    ⟨by constructor <;> decide +kernel, rfl, rfl, by decide +kernel, ⟨100, by decide +kernel⟩,
      by decide +kernel⟩
  obtain ⟨r, run, ip, base, entered, back⟩ := call_frame calls
    (.constant rfl rfl (by decide) (.constant rfl rfl (by decide) (.nil _))) (by decide)
    (by decide +kernel)
  obtain ⟨a, isA, first, -⟩ := entered.params 0 "a" _ _ rfl rfl
  obtain ⟨b, isB, second, -⟩ := entered.params 1 "b" _ _ rfl rfl
  obtain ⟨f, isF, zero, -⟩ := entered.locals 0 "f" _ rfl
  have params : Frame.find? pairEntry.frame.params "a" = some ⟨some "int", 12⟩ ∧
      Frame.find? pairEntry.frame.params "b" = some ⟨some "int", 8⟩ := by decide +kernel
  cases params.1.symm.trans isA
  cases params.2.symm.trans isB
  have base : r.bp.toNat + 8 + 4 * 2 = 1024 := base
  have below : r.sp.toNat + 4 * 1 = r.bp.toNat := entered.sp
  obtain ⟨u, result, run', isResult, returned⟩ :=
    back r ⟨rfl, fun _ _ _ => rfl, fun _ _ => rfl⟩ ip (by omega) (by omega)
  refine ⟨r, run, first, second, u, run', returned.ip, returned.bp, ?_⟩
  cases result with
  | none => cases isResult
  | some v =>
    obtain ⟨-, slot, found, isV⟩ := isResult
    cases (Frame.slot?_local found).symm.trans isF
    have sp : u.sp.toNat + 4 * 1 = 1024 := returned.sp
    exact ⟨by omega, (returned.top v rfl).trans (isV.symm.trans zero)⟩

end Image

end MethodLang
