import Std.Data.TreeSet
import TagTree.Error

/-!
# Scopes

While tags are read from front to back, each open node has a scope, which says which element of an
array the next reference to it stands for and which scalar names are taken.
-/

namespace TagTree

/-- The counters of one open node: the number of references to each array, the scalar names referred
to, and the name of the last reference. -/
structure Scope where
  arrays : Std.TreeMap String Nat := ∅
  scalars : Std.TreeSet String := ∅
  lastReference : Option String := none
  deriving Inhabited

namespace Scope

/-- The number of references to an array so far. -/
def count (scope : Scope) (name : String) : Nat :=
  scope.arrays.getD name 0

/-- The scope with the count of an array set. -/
def setCount (scope : Scope) (name : String) (count : Nat) : Scope :=
  { scope with arrays := scope.arrays.insert name count }

/-- The index of the element that a reference stands for, and the scope after it. Scalar and
reserved references have none. An explicit index must be the next one, and a scalar name is taken
only once; a reference that is refused is still the last one. -/
def consume (scope : Scope) (reference : Reference) : Scope × Except StructuralError (Option Nat) :=
  let scope := { scope with lastReference := some reference.name }
  let name := reference.name
  if reference.isReserved then (scope, .ok none)
  else if reference.isArray then
    let next := scope.count name
    match reference.index with
    | some found =>
      if found = next then (scope.setCount name (next + 1), .ok (some next))
      else (scope, .error (.arrayIndexMismatch name next found))
    | none => (scope.setCount name (next + 1), .ok (some next))
  else if scope.scalars.contains name then (scope, .error (.duplicateBinding name))
  else ({ scope with scalars := scope.scalars.insert name }, .ok none)

/-- The scope after the start of an array: its elements count from zero. -/
def startArray (scope : Scope) (name : String) : Scope :=
  scope.setCount name 0

/-- The scope with the last index of an array given back. -/
def retract (scope : Scope) (name : String) : Scope :=
  match scope.arrays[name]? with
  | some count => scope.setCount name (count - 1)
  | none => scope

/-- The scope after a tag within the node, and the index that the tag stands for. -/
def observe (scope : Scope) : Tag → Scope × Except StructuralError (Option Nat)
  | .reference reference => scope.consume reference
  | .arrayStart =>
    match scope.lastReference with
    | some name => (scope.startArray name, .ok none)
    | none => (scope, .ok none)
  | _ => (scope, .ok none)

end Scope

end TagTree
