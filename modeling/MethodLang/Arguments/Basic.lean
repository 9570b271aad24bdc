import MethodLang.Text.Cut
import MethodLang.Text.Digit
import MethodLang.Text.Quoted

/-!
Reading a command line. A word that starts with a dash names a flag, in full or by any beginning
that fits no other; the rest are positional arguments, which take their words greedily between
the flags. After a double dash all words are positional.
-/
namespace MethodLang.Arguments

/-- A flag for help, which ends the reading, or a flag with a value. -/
inductive Flag where
  | help
  | valued (name : String)
  deriving DecidableEq, Repr

def Flag.names : Flag → List String
  | .help => ["-h", "--help"]
  | .valued name => [name]

/-- How many words a positional argument takes. -/
inductive Count where
  | one | atMostOne | atLeastOne
  deriving DecidableEq, Repr

structure Positional where
  name : String
  count : Count
  deriving DecidableEq, Repr

/-- What a command line may hold, beside the flag for help: flags with values, and positional
arguments. -/
structure Spec where
  flags : List String
  positionals : List Positional
  deriving Repr

inductive Flaw where
  | help
  | ambiguous (word : String) (names : List String)
  | unusedValue (flag : Flag) (value : String)
  | noValue (flag : Flag)
  | missing (names : List String)
  | unrecognized (words : List String)
  deriving DecidableEq, Repr

def Flaw.message : Flaw → String
  | .help => ""
  | .ambiguous word names =>
    "ambiguous option: " ++ word ++ " could match " ++ ", ".intercalate names
  | .unusedValue flag value =>
    "argument " ++ "/".intercalate flag.names ++ ": ignored explicit argument " ++ Text.quoted value
  | .noValue flag => "argument " ++ "/".intercalate flag.names ++ ": expected one argument"
  | .missing names => "the following arguments are required: " ++ ", ".intercalate names
  | .unrecognized words => "unrecognized arguments: " ++ " ".intercalate words

/-- A flag as it is called: by one of its names, with a value joined to it. -/
structure Use where
  flag : Flag
  name : String
  value : Option String
  deriving DecidableEq, Repr

/-- A word by its place on the command line; a flag may be unknown. -/
inductive Word where
  | plain (text : String)
  | divider
  | flag (text : String) (use : Option Use)
  deriving DecidableEq, Repr

namespace Word

def text : Word → String
  | .plain text | .flag text _ => text
  | .divider => "--"

def isFlag : Word → Bool
  | .flag _ _ => true
  | _ => false

end Word

namespace Spec

/-- All names of flags, in the order in which matches are listed. -/
def named (spec : Spec) : List (String × Flag) :=
  (Flag.help :: spec.flags.map .valued).flatMap fun flag => flag.names.map fun name => (name, flag)

def flag? (spec : Spec) (name : String) : Option Flag := spec.named.lookup name

/-- A word cut at its first equals sign. -/
def cut (word : String) : String × Option String :=
  let before := word.toList.takeWhile (· != '=')
  match word.toList.drop before.length with
  | [] => (word, none)
  | _ :: value => (String.ofList before, some (String.ofList value))

/-- The flags that the beginning of a name may mean. -/
def candidates (spec : Spec) (word : String) : List Use :=
  if Text.startsWith "--" word then
    let (beginning, value) := cut word
    (spec.named.filter fun (name, _) => Text.startsWith beginning name).map
      fun (name, flag) => ⟨flag, name, value⟩
  else
    let short := String.ofList (word.toList.take 2)
    spec.named.filterMap fun (name, flag) =>
      if name = short then some ⟨flag, name, some (String.ofList (word.toList.drop 2))⟩
      else if Text.startsWith word name then some ⟨flag, name, none⟩
      else none

/-- A minus sign and digits, with at most one point before the last of them. -/
def isNegativeNumber (word : String) : Bool :=
  let isDigit (c : Char) : Bool := (Text.decimalDigit? c).isSome
  let line := match word.toList.reverse with
    | '\n' :: rest => rest.reverse
    | _ => word.toList
  match line with
  | '-' :: digits =>
    match digits.dropWhile isDigit with
    | [] => !digits.isEmpty
    | '.' :: places => !places.isEmpty && places.all isDigit
    | _ => false
  | _ => false

/-- What a word in front of the divider is. -/
def classify (spec : Spec) (word : String) : Except Flaw Word :=
  let joined : Option Use := do
    let (name, value) := cut word
    let value ← value
    let flag ← spec.flag? name
    some ⟨flag, name, some value⟩
  if word.isEmpty || !Text.startsWith "-" word then .ok (.plain word)
  else match spec.flag? word with
    | some flag => .ok (.flag word (some ⟨flag, word, none⟩))
    | none =>
      if word = "-" then .ok (.plain word)
      else match joined with
        | some use => .ok (.flag word (some use))
        | none =>
          match spec.candidates word with
          | [use] => .ok (.flag word (some use))
          | [] =>
            if isNegativeNumber word || word.toList.contains ' ' then .ok (.plain word)
            else .ok (.flag word none)
          | uses => .error (.ambiguous word (uses.map Use.name))

def classifyAll (spec : Spec) : List String → Except Flaw (List Word)
  | [] => .ok []
  | word :: rest =>
    if word = "--" then .ok (.divider :: rest.map .plain)
    else do
      let first ← spec.classify word
      let others ← classifyAll spec rest
      .ok (first :: others)

end Spec

namespace Count

/-- The number of plain words at the front. -/
def plains : List Word → Nat
  | .plain _ :: rest => plains rest + 1
  | _ => 0

def dividers : List Word → Nat
  | .divider :: rest => dividers rest + 1
  | _ => 0

/-- The number of words at the front that are not flags. -/
def nonFlags (words : List Word) : Nat := (words.takeWhile fun w => !w.isFlag).length

/-- The numbers from `high` down to `low`. -/
def downTo (low high : Nat) : List Nat := (List.range' low (high + 1 - low)).reverse

/-- How many of the words an argument may take, the longest first. Dividers around its words go
with them. -/
def lengths (count : Count) (words : List Word) : List Nat :=
  let lead := dividers words
  let rest := words.drop lead
  let single := lead + 1 + dividers (rest.drop 1)
  match count with
  | .one => if plains rest = 0 then [] else downTo (lead + 1) single
  | .atMostOne => downTo 0 (if plains rest = 0 then lead else single)
  | .atLeastOne => if plains rest = 0 then [] else downTo (lead + 1) (lead + nonFlags rest)

end Count

/-- Words for each of the arguments in turn, the first argument taking as many as it can. -/
def share : List Positional → List Word → Option (List Nat)
  | [], _ => some []
  | p :: ps, words =>
    (p.count.lengths words).findSome? fun n => (share ps (words.drop n)).map (n :: ·)

/-- Words for as many of the arguments as possible. -/
def shareSome (ps : List Positional) (words : List Word) : List Nat :=
  ((List.range' 1 ps.length).reverse.findSome? fun n => share (ps.take n) words).getD []

/-- What was read so far, and what is still to be read. -/
structure Reading where
  flags : List (String × Option String)
  positionals : List (String × List String)
  left : List Positional
  extras : List String
  deriving Repr, Inhabited

namespace Reading

/-- The words that a flag or an argument keeps: the first double dash is dropped. It may be the
only word, and then none is left. -/
def kept (words : List String) : List String := words.erase "--"

def withValue (r : Reading) (name value : String) : Reading :=
  { r with flags := r.flags ++ [(name, (kept [value]).head?)] }

/-- Gives the words at the front to arguments; the words that are left come back. -/
def takePositionals (r : Reading) (words : List Word) : Reading × List Word :=
  let rec give (r : Reading) (words : List Word) : List Nat → Reading × List Word
    | [] => (r, words)
    | n :: ns =>
      match r.left with
      | [] => (r, words)
      | p :: ps =>
        let taken := kept ((words.take n).map Word.text)
        give { r with positionals := r.positionals ++ [(p.name, taken)], left := ps }
          (words.drop n) ns
  give r words (shareSome r.left words)

/-- Takes up a flag and gives it its value. Letters behind `-h` are flags of their own. -/
def takeFlag (r : Reading) (use : Use) (rest : List Word) : Except Flaw (Reading × List Word) :=
  match use.flag, use.value with
  | .help, none => .error .help
  | .help, some value =>
    let isLong := Text.startsWith "--" use.name
    let unread := if isLong then value.toList else value.toList.dropWhile (· == 'h')
    if unread.isEmpty && !value.isEmpty then .error .help
    else .error (.unusedValue .help (String.ofList unread))
  | .valued name, some value => .ok (r.withValue name value, rest)
  | .valued name, none =>
    match rest with
    | .plain value :: rest => .ok (r.withValue name value, rest)
    | _ => .error (.noValue (.valued name))

/-- Reads all words; every step takes at least one of them. -/
def readAll : Nat → Reading → List Word → Except Flaw (Reading × List Word)
  | 0, r, words => .ok (r, words)
  | steps + 1, r, words =>
    if !words.any Word.isFlag then .ok (r, words)
    else match words with
      | .flag text none :: rest =>
        readAll steps { r with extras := r.extras ++ [text] } rest
      | .flag _ (some use) :: rest => do
        let (r, rest) ← takeFlag r use rest
        readAll steps r rest
      | words =>
        let (r, rest) := r.takePositionals words
        if rest.length < words.length then readAll steps r rest
        else
          let passed := words.takeWhile fun w => !w.isFlag
          readAll steps { r with extras := r.extras ++ passed.map Word.text }
            (words.drop passed.length)

/-- Whether a flag was used, also when it kept no value. -/
def has (r : Reading) (name : String) : Bool := r.flags.any fun (flag, _) => flag == name

/-- The value that the last use of a flag kept. -/
def value? (r : Reading) (name : String) : Option String := (r.flags.reverse.lookup name).join

def words (r : Reading) (name : String) : List String := (r.positionals.lookup name).getD []

def word? (r : Reading) (name : String) : Option String := (r.words name).head?

end Reading

/-- Reads a command line. Arguments that are missing count before words that are not known. -/
def Spec.read (spec : Spec) (argv : List String) : Except Flaw Reading := do
  let words ← spec.classifyAll argv
  let (r, rest) ← Reading.readAll words.length ⟨[], [], spec.positionals, []⟩ words
  let (r, rest) := r.takePositionals rest
  let missing := r.left.filter fun p => p.count != .atMostOne
  let extras := r.extras ++ rest.map Word.text
  if !missing.isEmpty then .error (.missing (missing.map Positional.name))
  else if !extras.isEmpty then .error (.unrecognized extras)
  else .ok r

end MethodLang.Arguments
