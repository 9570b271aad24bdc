/-!
Positions in a source text, counted from zero; columns count bytes.
-/
namespace MethodLang

structure Position where
  row : Nat
  column : Nat
  deriving DecidableEq, Repr, Inhabited

namespace Position

def start : Position := ⟨0, 0⟩

/-- The position behind a character. -/
def after (p : Position) (c : Char) : Position :=
  if c = '\n' then ⟨p.row + 1, 0⟩ else ⟨p.row, p.column + c.utf8Size⟩

def text (p : Position) : String := "(" ++ toString p.row ++ ", " ++ toString p.column ++ ")"

end Position

end MethodLang
