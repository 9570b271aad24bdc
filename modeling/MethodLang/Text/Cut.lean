/-!
Cutting a text at marks.
-/
namespace MethodLang.Text

def firstLine (cs : List Char) : List Char := cs.takeWhile (· != '\n')

/-- The part before the last occurrence of a mark that leaves at least one character before it. -/
def beforeLast? (mark : List Char) : List Char → Option (List Char)
  | [] => none
  | c :: cs =>
    match beforeLast? mark cs with
    | some before => some (c :: before)
    | none => if mark.isPrefixOf cs then some [c] else none

/-- The text behind an opening, if the text starts with it. -/
def after? (opening : String) (s : String) : Option (List Char) :=
  opening.toList.isPrefixOf? s.toList

def startsWith (opening s : String) : Bool := opening.toList.isPrefixOf s.toList

def endsWith (ending s : String) : Bool := ending.toList.isSuffixOf s.toList

/-- Whether a text occurs anywhere in another. -/
def occursIn (part : List Char) : List Char → Bool
  | [] => part.isEmpty
  | c :: cs => part.isPrefixOf (c :: cs) || occursIn part cs

/-- The text without a pair of double quotes around it, if it has one. -/
def unquote (s : String) : String :=
  match s.toList with
  | '"' :: rest =>
    match rest.reverse with
    | '"' :: inner => String.ofList inner.reverse
    | _ => s
  | _ => s

theorem beforeLast?_eq_some {mark cs before : List Char} (h : beforeLast? mark cs = some before) :
    before ≠ [] ∧ (before ++ mark).isPrefixOf cs := by
  induction cs generalizing before with
  | nil => simp [beforeLast?] at h
  | cons c cs ih =>
    simp only [beforeLast?] at h
    split at h
    · rename_i found
      obtain ⟨-, isPrefix⟩ := ih found
      cases h
      exact ⟨List.cons_ne_nil _ _, by simpa using isPrefix⟩
    · split at h
      · cases h
        exact ⟨List.cons_ne_nil _ _, by simpa using ‹mark.isPrefixOf cs = true›⟩
      · cases h

end MethodLang.Text
