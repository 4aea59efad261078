import Mathlib.Data.Finset.Card
import Mathlib.Data.List.Nodup
import Mathlib.Tactic

/-!
# Numbers in the order of first occurrence

A value that was seen before keeps its number, and a new value gets the next one.
Two places of a list get one number if and only if they hold one value, and lists
that agree on which places are equal get the same numbers.
-/

namespace Interning

variable {S T : Type*} [DecidableEq S] [DecidableEq T]

/-- The values by number, with the number of a value. -/
def intern (table : List S) (s : S) : List S × ℕ :=
  if s ∈ table then (table, table.idxOf s) else (table ++ [s], table.length)

def numbersFrom (table : List S) : List S → List ℕ
  | [] => []
  | s :: l => (intern table s).2 :: numbersFrom (intern table s).1 l

def numbers (l : List S) : List ℕ := numbersFrom [] l

/-- The table after interning a list. -/
def tableFrom (table l : List S) : List S := l.foldl (fun table s => (intern table s).1) table

variable {table l : List S} {s : S}

theorem intern_spec (table : List S) (s : S) :
    ∃ new : List S, (intern table s).1 = table ++ new ∧ (intern table s).2 = (table ++ new).idxOf s ∧
      s ∈ table ++ new ∧ (∀ t ∈ new, t = s) ∧ (table.Nodup → (table ++ new).Nodup) := by
  unfold intern
  split_ifs with h
  · refine ⟨[], (List.append_nil _).symm, ?_, ?_, ?_, ?_⟩
    · rw [List.append_nil]
    · rwa [List.append_nil]
    · intro t ht
      cases ht
    · intro hnodup
      rwa [List.append_nil]
  · refine ⟨[s], rfl, ?_, ?_, ?_, ?_⟩
    · rw [List.idxOf_append_of_notMem h, List.idxOf_cons_self, Nat.add_zero]
    · exact List.mem_append_right _ (List.mem_singleton_self s)
    · intro t ht
      exact List.mem_singleton.mp ht
    · intro hnodup
      rw [List.nodup_append]
      refine ⟨hnodup, List.nodup_singleton s, ?_⟩
      intro t ht t' ht' he
      rw [he, List.mem_singleton.mp ht'] at ht
      exact h ht

/-- The table keeps what it has and gains the values of the list. -/
theorem tableFrom_spec (table l : List S) :
    ∃ new : List S, tableFrom table l = table ++ new ∧ (∀ s ∈ l, s ∈ table ++ new) ∧
      (∀ t ∈ new, t ∈ l) ∧ (table.Nodup → (table ++ new).Nodup) := by
  induction l generalizing table with
  | nil =>
      refine ⟨[], (List.append_nil _).symm, ?_, ?_, ?_⟩
      · intro s hs
        cases hs
      · intro t ht
        cases ht
      · intro h
        rwa [List.append_nil]
  | cons s l ih =>
      obtain ⟨new, htable, -, hmem, hnew, hnodup⟩ := intern_spec table s
      obtain ⟨new', htable', hmem', hnew', hnodup'⟩ := ih (intern table s).1
      rw [htable] at hmem' hnodup'
      refine ⟨new ++ new', ?_, ?_, ?_, ?_⟩
      · rw [← List.append_assoc, ← htable]
        exact htable'
      · intro t ht
        rw [← List.append_assoc]
        obtain rfl | ht := List.mem_cons.mp ht
        · exact List.mem_append_left _ hmem
        · exact hmem' t ht
      · intro t ht
        obtain ht | ht := List.mem_append.mp ht
        · rw [hnew t ht]
          exact List.mem_cons_self
        · exact List.mem_cons_of_mem _ (hnew' t ht)
      · intro h
        rw [← List.append_assoc]
        exact hnodup' (hnodup h)

/-- The number of a value is its place in the final table. -/
theorem numbersFrom_eq (table l : List S) :
    numbersFrom table l = l.map (tableFrom table l).idxOf := by
  induction l generalizing table with
  | nil => rfl
  | cons s l ih =>
      obtain ⟨new, htable, hnumber, hmem, -⟩ := intern_spec table s
      obtain ⟨new', htable', -⟩ := tableFrom_spec (intern table s).1 l
      rw [numbersFrom, ih, List.map_cons]
      congr 1
      change _ = (tableFrom (intern table s).1 l).idxOf s
      rw [htable', htable, hnumber, List.idxOf_append_of_mem hmem]

theorem length_numbers (l : List S) : (numbers l).length = l.length := by
  rw [numbers, numbersFrom_eq, List.length_map]

/-- Two places get one number if and only if they hold one value. -/
theorem numbers_eq_iff {i j : ℕ} (hi : i < l.length) (hj : j < l.length) :
    (numbers l)[i]? = (numbers l)[j]? ↔ l[i]? = l[j]? := by
  obtain ⟨new, htable, hmem, -⟩ := tableFrom_spec [] l
  rw [numbers, numbersFrom_eq, List.getElem?_map, List.getElem?_map, List.getElem?_eq_getElem hi,
    List.getElem?_eq_getElem hj, Option.map_some, Option.map_some, Option.some.injEq,
    Option.some.injEq]
  refine ⟨?_, fun h => h ▸ rfl⟩
  intro h
  rw [htable] at h
  exact (List.idxOf_inj (hmem _ (List.getElem_mem hi))).mp h

theorem idxOf_map {f : S → T} (h : ∀ t ∈ l, f s = f t → s = t) :
    (l.map f).idxOf (f s) = l.idxOf s := by
  induction l with
  | nil => rfl
  | cons t l ih =>
      rw [List.map_cons, List.idxOf_cons, List.idxOf_cons, ih fun u hu => h u (List.mem_cons_of_mem _ hu)]
      by_cases he : t = s
      · rw [he]
        simp
      · have hne : f t ≠ f s := fun hf => he (h t List.mem_cons_self hf.symm).symm
        rw [beq_false_of_ne he, beq_false_of_ne hne]

/-- A map that tells apart the values of a list keeps their numbers. -/
theorem numbersFrom_map {f : S → T} {table l : List S}
    (h : ∀ s ∈ table ++ l, ∀ t ∈ table ++ l, f s = f t → s = t) :
    numbersFrom (table.map f) (l.map f) = numbersFrom table l := by
  induction l generalizing table with
  | nil => rfl
  | cons s l ih =>
      have hs : ∀ t ∈ table, f s = f t → s = t := fun t ht =>
        h s (by simp) t (List.mem_append_left _ ht)
      have hmem : f s ∈ table.map f ↔ s ∈ table := by
        rw [List.mem_map]
        constructor
        · intro hex
          obtain ⟨t, ht, he⟩ := hex
          rw [hs t ht he.symm]
          exact ht
        · intro hs
          exact ⟨s, hs, rfl⟩
      have hintern : intern (table.map f) (f s) = ((intern table s).1.map f, (intern table s).2) := by
        unfold intern
        by_cases hc : s ∈ table
        · rw [if_pos (hmem.mpr hc), if_pos hc, idxOf_map hs]
        · rw [if_neg (fun hf => hc (hmem.mp hf)), if_neg hc, List.map_append, List.length_map]
          rfl
      rw [List.map_cons, numbersFrom, numbersFrom, hintern, ih]
      intro t ht u hu
      have hsub : ∀ t ∈ (intern table s).1 ++ l, t ∈ table ++ s :: l := by
        intro t ht
        obtain ⟨new, htable, -, -, hnew, -⟩ := intern_spec table s
        rw [htable] at ht
        simp only [List.mem_append, List.mem_cons] at ht ⊢
        obtain (ht | ht) | ht := ht
        · exact Or.inl ht
        · exact Or.inr (Or.inl (hnew t ht))
        · exact Or.inr (Or.inr ht)
      exact h t (hsub t ht) u (hsub u hu)

theorem numbers_map {f : S → T} {l : List S} (h : ∀ s ∈ l, ∀ t ∈ l, f s = f t → s = t) :
    numbers (l.map f) = numbers l := by
  have hmap : numbersFrom (([] : List S).map f) (l.map f) = numbersFrom [] l := numbersFrom_map h
  exact hmap

/-- The numbers are their own numbers. -/
theorem numbers_numbers (l : List S) : numbers (numbers l) = numbers l := by
  obtain ⟨new, htable, hmem, -⟩ := tableFrom_spec [] l
  have hmap : numbers l = l.map (tableFrom [] l).idxOf := numbersFrom_eq [] l
  rw [hmap]
  refine Eq.trans ?_ hmap
  apply numbers_map
  intro s hs t _ he
  rw [htable] at he
  exact (List.idxOf_inj (hmem s hs)).mp he

/-- Lists that agree on which places are equal get the same numbers. -/
theorem numbers_congr {l : List S} {l' : List T} (hlength : l.length = l'.length)
    (h : ∀ i j, i < l.length → j < l.length → (l[i]? = l[j]? ↔ l'[i]? = l'[j]?)) :
    numbers l = numbers l' := by
  cases hl' : l' with
  | nil =>
      rw [hl'] at hlength
      rw [List.eq_nil_of_length_eq_zero hlength]
      rfl
  | cons t₀ _ =>
      rw [← hl']
      have hidx : ∀ s ∈ l, l.idxOf s < l'.length := fun s hs =>
        hlength ▸ List.idxOf_lt_length_of_mem hs
      -- the other list is an image of this one
      have himage : l' = l.map fun s => l'.getD (l.idxOf s) t₀ := by
        apply List.ext_getElem?
        intro i
        rw [List.getElem?_map]
        cases hi : l[i]? with
        | none =>
            rw [List.getElem?_eq_none_iff] at hi
            rw [Option.map_none, List.getElem?_eq_none_iff, ← hlength]
            exact hi
        | some s =>
            have hs := List.mem_of_getElem? hi
            have hlt := (List.getElem?_eq_some_iff.mp hi).1
            have hsame := (h i (l.idxOf s) hlt (hlength ▸ hidx s hs)).mp
              (hi.trans (List.getElem?_idxOf hs).symm)
            rw [hsame, Option.map_some, List.getD_eq_getElem?_getD,
              List.getElem?_eq_getElem (hidx s hs), Option.getD_some]
      rw [himage]
      refine (numbers_map ?_).symm
      intro s hs t ht he
      rw [List.getD_eq_getElem?_getD, List.getD_eq_getElem?_getD,
        List.getElem?_eq_getElem (hidx s hs), List.getElem?_eq_getElem (hidx t ht)] at he
      have hsame := (h (l.idxOf s) (l.idxOf t) (hlength ▸ hidx s hs) (hlength ▸ hidx t ht)).mpr (by
        rw [List.getElem?_eq_getElem (hidx s hs), List.getElem?_eq_getElem (hidx t ht)]
        exact congrArg some he)
      rw [List.getElem?_idxOf hs, List.getElem?_idxOf ht] at hsame
      exact Option.some.inj hsame

end Interning
