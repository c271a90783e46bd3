/-!
# Searching by halving

A list of which a first part passes a test and the rest fails it is searched by halving for the
place where the test begins to fail. Where the test has no answer the search has none either.

1. `halve?`: the loop, which ends at one place.
2. `partitionPoint?`: how many places come before the first that fails.
-/

namespace CodePane

variable {α : Type}

/-- One of the `size` places from `base` on, in the upper half of them as long as the test passes
there. -/
def halve? (test : α → Option Bool) (xs : List α) (base size : Nat) : Option Nat :=
  if size ≤ 1 then some base
  else do
    let middle := base + size / 2
    let passed ← xs[middle]?.bind test
    halve? test xs (if passed then middle else base) (size - size / 2)
termination_by size

/-- How many elements pass the test, if those that do come first. -/
def partitionPoint? (test : α → Option Bool) (xs : List α) : Option Nat :=
  if xs.isEmpty then some 0
  else do
    let base ← halve? test xs 0 xs.length
    let passed ← xs[base]?.bind test
    return if passed then base + 1 else base

end CodePane
