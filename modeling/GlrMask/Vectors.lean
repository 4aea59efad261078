import Mathlib.Data.List.TakeWhile
import Mathlib.Tactic

/-!
# Positions in vectors

What the operations at one position of a vector do to the two parts before and behind
it, and where a bisection divides a vector that is sorted by a key.
-/

namespace GlrMask

variable {α : Type*}

theorem split_at_index {l : List α} {index : ℕ} {a : α} (h : l[index]? = some a) :
    ∃ before after, l = before ++ a :: after ∧ index = before.length := by
  obtain ⟨hlt, hget⟩ := List.getElem?_eq_some_iff.mp h
  refine ⟨l.take index, l.drop (index + 1), ?_, ?_⟩
  · rw [← hget, ← List.drop_eq_getElem_cons hlt, List.take_append_drop]
  · rw [List.length_take, Nat.min_eq_left hlt.le]

theorem getElem?_middle (before after : List α) (a : α) :
    (before ++ a :: after)[before.length]? = some a := by
  rw [List.getElem?_append_right le_rfl, Nat.sub_self, List.getElem?_cons_zero]

theorem set_middle (before after : List α) (a b : α) :
    (before ++ a :: after).set before.length b = before ++ b :: after := by
  rw [List.set_append_right _ _ le_rfl, Nat.sub_self, List.set_cons_zero]

theorem eraseIdx_middle (before after : List α) (a : α) :
    (before ++ a :: after).eraseIdx before.length = before ++ after := by
  rw [List.eraseIdx_append_of_length_le le_rfl, Nat.sub_self, List.eraseIdx_cons_zero]

theorem insertIdx_middle (before after : List α) (a : α) :
    (before ++ after).insertIdx before.length a = before ++ a :: after := by
  induction before with
  | nil => rfl
  | cons b before ih =>
      rw [List.cons_append, List.length_cons, List.insertIdx_succ_cons, ih, List.cons_append]

theorem modify_middle (before after : List α) (a : α) (f : α → α) :
    (before ++ a :: after).modify before.length f = before ++ f a :: after := by
  induction before with
  | nil => rfl
  | cons b before ih =>
      rw [List.cons_append, List.length_cons, List.modify_succ_cons, ih, List.cons_append]

/-- A vector that is sorted by a key falls apart where the bisection for the key ends. -/
theorem split_at_key {K : Type*} [LinearOrder K] (f : α → K) (key : K) {l : List α}
    (h : l.Pairwise fun a b => f a < f b) :
    ∃ before rest, l = before ++ rest ∧ (∀ a ∈ before, f a < key) ∧
      (∀ a ∈ rest, key ≤ f a) ∧ (l.takeWhile fun a => f a < key).length = before.length := by
  refine ⟨l.takeWhile fun a => f a < key, l.dropWhile fun a => f a < key,
    List.takeWhile_append_dropWhile.symm, ?_, ?_, rfl⟩
  · intro a ha
    simpa using List.mem_takeWhile_imp ha
  · induction l with
    | nil => simp
    | cons a l ih =>
        obtain ⟨hhead, htail⟩ := List.pairwise_cons.mp h
        by_cases hlt : f a < key
        · rw [List.dropWhile_cons_of_pos (by simpa using hlt)]
          exact ih htail
        · rw [List.dropWhile_cons_of_neg (by simpa using hlt)]
          intro b hb
          cases List.mem_cons.mp hb with
          | inl heq =>
              rw [heq]
              exact not_lt.mp hlt
          | inr hmem => exact (not_lt.mp hlt).trans (hhead b hmem).le

/-- A new element between the smaller and the larger ones keeps a vector sorted. -/
theorem pairwise_middle {R : α → α → Prop} {before after : List α} {a : α}
    (h : (before ++ after).Pairwise R) (hbefore : ∀ b ∈ before, R b a)
    (hafter : ∀ b ∈ after, R a b) : (before ++ a :: after).Pairwise R := by
  obtain ⟨hfirst, hsecond, hcross⟩ := List.pairwise_append.mp h
  apply List.pairwise_append.mpr
  refine ⟨hfirst, List.pairwise_cons.mpr ⟨hafter, hsecond⟩, ?_⟩
  intro b hb c hc
  cases List.mem_cons.mp hc with
  | inl heq =>
      rw [heq]
      exact hbefore b hb
  | inr hmem => exact hcross b hb c hmem

end GlrMask
