/-!
# Search by bisection

An array in which the elements that satisfy a test come first has a *partition
point*: the number of those elements. `partitionPoint` finds it by halving a
window. Character classes look ranges up with it, and input texts look up lines.
-/

namespace GeneralLL.Search

/-- Halves the window `[lo, hi)` until it is empty, keeping every element before `lo` inside the
test and every element from `hi` on outside it. -/
def bisect {α : Type} (test : α → Bool) (items : Array α) (lo hi : Nat) : Nat :=
  if lo < hi then
    let middle := (lo + hi) / 2
    if (items[middle]?).any test then
      bisect test items (middle + 1) hi
    else
      bisect test items lo middle
  else
    lo
termination_by hi - lo

/-- The number of leading elements that satisfy `test`, provided that no later element does. -/
def partitionPoint {α : Type} (test : α → Bool) (items : Array α) : Nat :=
  bisect test items 0 items.size

end GeneralLL.Search
