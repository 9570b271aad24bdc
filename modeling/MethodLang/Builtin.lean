import MethodLang.Typing.Declaration

/-!
Functions that every program may call without declaring them.
-/
namespace MethodLang

namespace Builtin

/-- Types that double as constructors of arrays of their elements. -/
def typeWords : List String := ["bool", "byte", "int", "uint", "long", "ulong", "char"]

/-- A conversion is named for its source and its target type. -/
structure Conversion where
  source : TypeName
  target : TypeName
  parameter : String
  deriving DecidableEq, Repr

def Conversion.name (c : Conversion) : String := c.source ++ "_to_" ++ c.target

def conversions : List Conversion := [
  ⟨"bool", "byte", "b"⟩, ⟨"byte", "bool", "b"⟩, ⟨"byte", "int", "b"⟩, ⟨"int", "byte", "i"⟩,
  ⟨"int", "uint", "i"⟩, ⟨"uint", "int", "u"⟩, ⟨"int", "long", "i"⟩, ⟨"long", "int", "l"⟩,
  ⟨"long", "ulong", "l"⟩, ⟨"ulong", "long", "u"⟩]

/-- The type of the array that a constructor makes. -/
def constructed (word : String) : TypeName :=
  TypeName.normalize ("array[] of " ++ TypeName.normalize word)

/-- Every typed builtin: its name, its parameters and its result. -/
def signatures : List (String × TypeTable × Option TypeName) :=
  [("read_byte", [], some "byte"), ("send_byte", [("b", some "byte")], none)] ++
    conversions.map (fun c => (c.name, [(c.parameter, some c.source)], some c.target)) ++
    typeWords.map (fun w => (w, [("size", some "int")], some (constructed w)))

/-- All reserved names: the typed builtins and the allocator behind the constructors. -/
def names : List String := signatures.map (·.1) ++ ["alloc"]

def isBuiltin (name : String) : Bool := names.contains name

/-- Whether a builtin leaves a value, where no table of results is given. -/
def returnsValue (name : String) : Bool :=
  signatures.any fun (n, _, result) => n == name && result.isSome

end Builtin

end MethodLang
