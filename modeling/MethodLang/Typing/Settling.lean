import MethodLang.Typing.Inference

/-!
Settling types. The type that the surroundings of a node ask for goes down to the numbers below
it; every node on the way is settled.
-/
namespace MethodLang

namespace Checker

/-- A type that is there and not empty. -/
def given? (type : Option TypeName) : Option TypeName := type.filter fun t => !t.isEmpty

def settleEach (kids : List Checker) (type : Option TypeName) (indices : List Nat) (t : Marked) :
    Marked :=
  indices.foldl (fun t i => settleChild kids type i t) t

def spreadOperands (kids : List Checker) (t : Marked) : Marked :=
  if t.children.length ≠ 2 then t
  else
    let left := inferChild kids 0 t
    let right := inferChild kids 1 left.node
    match given? (TypeName.unify left.type right.type) with
    | some common => settleEach kids (some common) [0, 1] right.node
    | none => right.node

def spreadArguments (kids : List Checker) : Nat → TypeTable → Marked → Marked
  | _, [], t => t
  | i, (_, type) :: rest, t =>
    let t :=
      match given? type with
      | some type => settleChild kids (some type) i t
      | none => t
    spreadArguments kids (i + 1) rest t

def spreadElements (s : Scope) (kids : List Checker) (array : String) (t : Marked) : Marked :=
  match s.variableType array with
  | none => t
  | some type =>
    if !TypeName.isArray type then t
    else match (TypeName.element? type).map TypeName.normalize with
      | none => t
      | some element =>
        if t.children.length < 2 then t
        else
          let last := t.children.length - 1
          settleChild kids (some element) last
            (settleEach kids (some "int") (List.range last) t)

/-- Logical operators leave their operands alone. -/
def spreadNode (s : Scope) (kids : List Checker) (label : String) (type : Option TypeName)
    (t : Marked) : Marked :=
  if t.children.isEmpty then t
  else match Role.ofLabel label with
    | .store (some name) =>
      match given? (s.variableType name) with
      | some expected => settleChild kids (some expected) 0 t
      | none => t
    | .storeAt (some array) => spreadElements s kids array t
    | .arithmetic | .bitwise | .comparison => spreadOperands kids t
    | .call (some function) => spreadArguments kids 0 (s.parameters function) t
    | .index =>
      if t.children.length ≠ 2 then t
      else onChild kids 0 (fun kid => kid.spread none) (settleChild kids (some "int") 1 t)
    | .inversion => settleChild kids type 0 t
    | .negation => settleChild kids (some "bool") 0 t
    | _ => t

/-- The type in which a node is settled: an untyped one takes a numeric type asked for. -/
def settledAs (wanted inferred : Option TypeName) : Option TypeName :=
  match inferred with
  | none => none
  | some type =>
    match wanted with
    | some w =>
      if TypeName.isUntyped type && TypeName.isNumeric w then some w
      else some (TypeName.resolve type)
    | none => some (TypeName.resolve type)

/-- Operands of a numeric operation are settled before the operation itself. -/
def settleNode (s : Scope) (kids : List Checker) (label : String) (wanted : Option TypeName)
    (t : Marked) : Marked :=
  let wanted := wanted.map TypeName.normalize
  let role := Role.ofLabel label
  let t :=
    if wanted.any TypeName.isNumeric && (role == .arithmetic || role == .bitwise) &&
        t.children.length == 2 then
      settleEach kids wanted [0, 1] t
    else t
  let r := inferNode s kids label t
  let type := settledAs wanted r.type
  spreadNode s kids label type (r.node.settleAs type)

/-- The type to show for an inferred one, unless the node is settled; else the type it had. -/
def shownType (r : Inference) : Option TypeName :=
  match r.node.settledType with
  | some type => some type
  | none =>
    match r.type with
    | some type => some (TypeName.resolve type)
    | none => r.node.note.type

/-- Fills the children that have no type. -/
def fillChildren (kids : List Checker) : List Nat → Marked → Marked
  | [], t => t
  | i :: rest, t =>
    let fillOne (kid : Checker) (c : Marked) := if c.note.type.isNone then kid.fill c else c
    fillChildren kids rest (onChild kids i fillOne t)

def fillNode (s : Scope) (kids : List Checker) (label : String) (t : Marked) : Marked :=
  match t.settledType with
  | some _ => t
  | none =>
    let r := inferNode s kids label t
    let t :=
      match r.type with
      | some type => r.node.setType (some (TypeName.resolve type))
      | none => r.node
    fillChildren kids (List.range t.children.length) t

end Checker

end MethodLang
