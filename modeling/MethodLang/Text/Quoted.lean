import MethodLang.Text.Printable

/-!
Quoted text as error messages show it. Single quotes stand around it, double quotes if it holds
a single quote and no double one. The chosen quote and the backslash are written after a
backslash, line feed, return and tab by their letters, and other unprintable characters by their
code point in two, four or eight hexadecimal digits.
-/
namespace MethodLang.Text

def hexDigits (width n : Nat) : List Char :=
  let digits := Nat.toDigits 16 n
  List.replicate (width - digits.length) '0' ++ digits

def escape (quote c : Char) : List Char :=
  if c == quote || c == '\\' then ['\\', c]
  else if c == '\n' then ['\\', 'n']
  else if c == '\r' then ['\\', 'r']
  else if c == '\t' then ['\\', 't']
  else if isPrintable c then [c]
  else if c.toNat < 256 then '\\' :: 'x' :: hexDigits 2 c.toNat
  else if c.toNat < 65536 then '\\' :: 'u' :: hexDigits 4 c.toNat
  else '\\' :: 'U' :: hexDigits 8 c.toNat

def quoted (s : String) : String :=
  let cs := s.toList
  let quote := if cs.contains '\'' && !cs.contains '"' then '"' else '\''
  String.ofList (quote :: cs.flatMap (escape quote) ++ [quote])

example : quoted "a\n" = "'a\\n'" := by cbv
example : quoted "it's" = "\"it's\"" := by cbv

end MethodLang.Text
