import TagTree.Error

/-!
# Runs

A run gives items one after the other, until it ends or fails. What it gave before a failure stays.
-/

namespace TagTree

/-- Items in order, and the failure that ended them. -/
structure Run (α : Type) where
  items : List α
  failure : Option Error := none

namespace Run

variable {α : Type}

/-- The run that ends at once. -/
def done : Run α :=
  ⟨[], none⟩

/-- The run that fails at once. -/
def fail (error : Error) : Run α :=
  ⟨[], some error⟩

/-- The run with an item in front. -/
def cons (item : α) (run : Run α) : Run α :=
  ⟨item :: run.items, run.failure⟩

/-- The items of a run that does not fail. -/
def toExcept (run : Run α) : Except Error (List α) :=
  match run.failure with
  | some error => .error error
  | none => .ok run.items

end Run

end TagTree
