import Mathlib.Data.List.Sort

/-!
# Unstable sorting

A sort by a key whose result depends on the library: it is some rearrangement of the list
with ascending keys.
-/

namespace GlrMask

/-- An unstable sort by a key: equal keys may come in any order. -/
structure UnstableSort where
  sort : {α : Type} → (α → ℕ) → List α → List α
  perm : ∀ {α : Type} (key : α → ℕ) (l : List α), (sort key l).Perm l
  sorted : ∀ {α : Type} (key : α → ℕ) (l : List α), (sort key l).Pairwise fun a b => key a ≤ key b

/-- A stable sort is an unstable one. -/
def insertionSortBy : UnstableSort where
  sort key l := l.insertionSort fun a b => key a ≤ key b
  perm key l := List.perm_insertionSort _ l
  sorted {α} key l := by
    have : Std.Total fun a b : α => key a ≤ key b := ⟨fun a b => le_total (key a) (key b)⟩
    have : IsTrans α fun a b => key a ≤ key b := ⟨fun _ _ _ => le_trans⟩
    exact List.pairwise_insertionSort _ l

end GlrMask
