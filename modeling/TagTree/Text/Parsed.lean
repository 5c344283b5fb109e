/-!
# Results of reading

A reader takes the front of its input. What it returns says that the rest is short enough for the
reading loop to end.
-/

namespace TagTree.Text

/-- A value read from the front of an input, with the rest of the input, which has fewer than
`limit` units. -/
structure Parsed (υ α : Type) (limit : Nat) where
  value : α
  rest : List υ
  shorter : rest.length < limit

namespace Parsed

variable {υ α β : Type} {limit wider : Nat}

/-- A value after which the whole of a list is left, read from something longer. -/
def ofRest (value : α) (rest : List υ) : Parsed υ α (rest.length + 1) :=
  ⟨value, rest, Nat.lt_succ_self _⟩

/-- The same rest with another value. -/
def map (f : α → β) (parsed : Parsed υ α limit) : Parsed υ β limit :=
  ⟨f parsed.value, parsed.rest, parsed.shorter⟩

/-- The same result under a larger limit. -/
def widen (parsed : Parsed υ α limit) (le : limit ≤ wider) : Parsed υ α wider :=
  ⟨parsed.value, parsed.rest, Nat.lt_of_lt_of_le parsed.shorter le⟩

/-- The value and the rest, without the bound. -/
def toPair (parsed : Parsed υ α limit) : α × List υ :=
  (parsed.value, parsed.rest)

/-- Two results with the same value and the same rest are equal. -/
theorem eq_of_toPair_eq {first second : Parsed υ α limit} (h : first.toPair = second.toPair) :
    first = second := by
  cases first; cases second
  simp_all [toPair]

end Parsed

/-- What follows the first unit that fails the test is shorter than the whole. -/
theorem length_after_lt {υ : Type} {test : υ → Bool} {head unit : υ} {rest after : List υ}
    (h : rest.dropWhile test = unit :: after) : after.length < (head :: rest).length := by
  have := (List.dropWhile_sublist test : rest.dropWhile test |>.Sublist rest).length_le
  simp_all
  omega

end TagTree.Text
