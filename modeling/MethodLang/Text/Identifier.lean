/-!
Identifiers of ASCII letters, digits and underscores, not starting with a digit.
-/
namespace MethodLang.Text

def isIdentifier : List Char → Bool
  | [] => false
  | c :: cs => (c.isAlpha || c == '_') && cs.all fun d => d.isAlphanum || d == '_'

end MethodLang.Text
