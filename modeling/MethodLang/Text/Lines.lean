/-!
Cutting a text into lines at every line boundary that a text display knows. A carriage return and
a following line feed are one boundary; a boundary at the very end opens no further line.
-/
namespace MethodLang.Text

def endsLine (c : Char) : Bool :=
  let n := c.toNat
  (10 ≤ n && n ≤ 13) || (28 ≤ n && n ≤ 30) || n == 133 || n == 8232 || n == 8233

def splitLines : List Char → List (List Char)
  | [] => []
  | '\r' :: '\n' :: cs => [] :: splitLines cs
  | c :: cs =>
    if endsLine c then [] :: splitLines cs
    else match splitLines cs with
      | [] => [[c]]
      | line :: rest => (c :: line) :: rest

def lines (s : String) : List String := (splitLines s.toList).map String.ofList

theorem endsLine_of_mem_splitLines (cs : List Char) :
    ∀ line ∈ splitLines cs, ∀ c ∈ line, endsLine c = false := by
  fun_induction splitLines cs with
  | case1 => simp
  | case2 cs ih => simpa using ih
  | case3 c cs _ h ih => simpa using ih
  | case4 c cs _ h empty ih => simpa using h
  | case5 c cs _ h line rest found ih =>
    rw [found] at ih
    simp only [List.mem_cons, forall_eq_or_imp] at ih ⊢
    exact ⟨⟨by simpa using h, ih.1⟩, ih.2⟩

end MethodLang.Text
