import GlrMask.RangeMap

/-!
# Overwriting, joining and comparing range maps

A `RangeMap M V` maps keys up to `M`. A join walks two range maps over the
windows between neighbouring boundaries, on each of which both are constant.
-/

namespace GlrMask

variable {M : ℕ} {V A B C : Type*}

/-- Canonical runs whose keys are at most `M`. -/
@[ext] structure RangeMap (M : ℕ) (V : Type*) where
  runs : List (Run V)
  canonical : Canonical runs
  bounded : ∀ r ∈ runs, r.hi ≤ M

namespace RangeMap

instance [DecidableEq V] : DecidableEq (RangeMap M V) := fun a b =>
  decidable_of_iff (a.runs = b.runs) RangeMap.ext_iff.symm

def get (m : RangeMap M V) (k : ℕ) : Option V := lookupRuns m.runs k

/-- Structural equality decides equality of the represented functions. -/
theorem ext_get {m m' : RangeMap M V} (h : ∀ k, m.get k = m'.get k) : m = m' :=
  RangeMap.ext (m.canonical.ext m'.canonical h)

def empty : RangeMap M V := ⟨[], by simp [Canonical], by simp⟩

@[simp] theorem runs_empty : (empty : RangeMap M V).runs = [] := rfl

@[simp] theorem get_empty (k : ℕ) : (empty : RangeMap M V).get k = none := rfl

def isEmpty (m : RangeMap M V) : Bool := m.runs.isEmpty

theorem isEmpty_eq_true {m : RangeMap M V} : m.isEmpty = true ↔ m = empty := by
  rw [isEmpty, List.isEmpty_iff, RangeMap.ext_iff, runs_empty]

theorem get_of_mem (m : RangeMap M V) {r : Run V} (hr : r ∈ m.runs) {k : ℕ}
    (hk : r.Covers k) : m.get k = some r.val := m.canonical.ordered.lookup_of_mem hr hk

theorem exists_run_of_get {m : RangeMap M V} {k : ℕ} {v : V} (h : m.get k = some v) :
    ∃ r ∈ m.runs, r.Covers k ∧ r.val = v := exists_run_of_lookupRuns h

theorem le_of_get {m : RangeMap M V} {k : ℕ} {v : V} (h : m.get k = some v) : k ≤ M := by
  obtain ⟨r, hr, hc, -⟩ := exists_run_of_get h
  exact hc.2.trans (m.bounded r hr)

/-! ## Overwriting one run -/

section Insert

def before (lo : ℕ) (r : Run V) : Option (Run V) :=
  if r.lo < lo then some ⟨r.lo, min r.hi (lo - 1), r.val⟩ else none

def after (hi : ℕ) (r : Run V) : Option (Run V) :=
  if hi < r.hi then some ⟨max r.lo (hi + 1), r.hi, r.val⟩ else none

theorem before_eq_some {lo : ℕ} {r s : Run V} (h : before lo r = some s) :
    r.lo < lo ∧ s = ⟨r.lo, min r.hi (lo - 1), r.val⟩ := by
  unfold before at h
  split_ifs at h with hlt
  exact ⟨hlt, (Option.some.inj h).symm⟩

theorem after_eq_some {hi : ℕ} {r s : Run V} (h : after hi r = some s) :
    hi < r.hi ∧ s = ⟨max r.lo (hi + 1), r.hi, r.val⟩ := by
  unfold after at h
  split_ifs at h with hlt
  exact ⟨hlt, (Option.some.inj h).symm⟩

theorem lookupRuns_filterMap_before (l : List (Run V)) (lo k : ℕ) :
    lookupRuns (l.filterMap (before lo)) k = if k < lo then lookupRuns l k else none := by
  induction l with
  | nil => simp
  | cons r l ih =>
      rw [List.filterMap_cons, lookupRuns_cons]
      by_cases hlo : r.lo < lo
      · have hcov : Run.Covers ⟨r.lo, min r.hi (lo - 1), r.val⟩ k ↔ r.Covers k ∧ k < lo := by
          simp only [Run.Covers, le_min_iff]
          omega
        simp only [before, if_pos hlo, lookupRuns_cons, ih, hcov]
        by_cases hk : k < lo <;> simp [hk]
      · have hcov : k < lo → ¬ r.Covers k := fun hk hc => by
          have := hc.1
          omega
        simp only [before, if_neg hlo, ih]
        by_cases hk : k < lo <;> simp [hk, hcov]

theorem lookupRuns_filterMap_after (l : List (Run V)) (hi k : ℕ) :
    lookupRuns (l.filterMap (after hi)) k = if hi < k then lookupRuns l k else none := by
  induction l with
  | nil => simp
  | cons r l ih =>
      rw [List.filterMap_cons, lookupRuns_cons]
      by_cases hhi : hi < r.hi
      · have hcov : Run.Covers ⟨max r.lo (hi + 1), r.hi, r.val⟩ k ↔ r.Covers k ∧ hi < k := by
          simp only [Run.Covers, max_le_iff]
          omega
        simp only [after, if_pos hhi, lookupRuns_cons, ih, hcov]
        by_cases hk : hi < k <;> simp [hk]
      · have hcov : hi < k → ¬ r.Covers k := fun hk hc => by
          have := hc.2
          omega
        simp only [after, if_neg hhi, ih]
        by_cases hk : hi < k <;> simp [hk, hcov]

/-- What is left of the stored runs around the new one. -/
def overwrite (l : List (Run V)) (r : Run V) : List (Run V) :=
  l.filterMap (before r.lo) ++ r :: l.filterMap (after r.hi)

theorem ordered_overwrite {l : List (Run V)} (hl : Ordered l) {r : Run V} (hr : r.lo ≤ r.hi) :
    Ordered (overwrite l r) := by
  have hb : ∀ s ∈ l.filterMap (before r.lo), s.lo ≤ s.hi ∧ s.hi < r.lo := by
    intro s hs
    obtain ⟨t, ht, he⟩ := List.mem_filterMap.mp hs
    obtain ⟨hlt, rfl⟩ := before_eq_some he
    have := hl.1 t ht
    exact ⟨by simp only [le_min_iff]; omega, by simp only [min_lt_iff]; omega⟩
  have ha : ∀ s ∈ l.filterMap (after r.hi), s.lo ≤ s.hi ∧ r.hi < s.lo := by
    intro s hs
    obtain ⟨t, ht, he⟩ := List.mem_filterMap.mp hs
    obtain ⟨hlt, rfl⟩ := after_eq_some he
    have := hl.1 t ht
    exact ⟨by simp only [max_le_iff]; omega, by simp only [lt_max_iff]; omega⟩
  have hpb : (l.filterMap (before r.lo)).Pairwise (fun s t => s.hi < t.lo) := by
    rw [List.pairwise_filterMap]
    refine hl.2.imp fun {s t} hst u hu w hw => ?_
    obtain ⟨-, rfl⟩ := before_eq_some hu
    obtain ⟨-, rfl⟩ := before_eq_some hw
    simp only [min_lt_iff]
    omega
  have hpa : (l.filterMap (after r.hi)).Pairwise (fun s t => s.hi < t.lo) := by
    rw [List.pairwise_filterMap]
    refine hl.2.imp fun {s t} hst u hu w hw => ?_
    obtain ⟨-, rfl⟩ := after_eq_some hu
    obtain ⟨-, rfl⟩ := after_eq_some hw
    simp only [lt_max_iff]
    omega
  refine ⟨?_, List.pairwise_append.mpr ⟨hpb, List.pairwise_cons.mpr ⟨fun s hs => (ha s hs).2, hpa⟩, ?_⟩⟩
  · intro s hs
    rcases List.mem_append.mp hs with hs | hs
    · exact (hb s hs).1
    · rcases List.mem_cons.mp hs with rfl | hs
      · exact hr
      · exact (ha s hs).1
  · intro s hs t ht
    have hsr := (hb s hs).2
    rcases List.mem_cons.mp ht with rfl | ht
    · exact hsr
    · have := (ha t ht).2
      omega

theorem lookupRuns_overwrite (l : List (Run V)) {r : Run V} (hr : r.lo ≤ r.hi) (k : ℕ) :
    lookupRuns (overwrite l r) k = if r.Covers k then some r.val else lookupRuns l k := by
  rw [overwrite, lookupRuns_append, lookupRuns_filterMap_before, lookupRuns_cons,
    lookupRuns_filterMap_after]
  by_cases hc : r.Covers k
  · have := hc.1
    rw [if_neg (show ¬ k < r.lo by omega), if_pos hc, if_pos hc, Option.none_or]
  · rw [if_neg hc, if_neg hc]
    by_cases hk : k < r.lo
    · rw [if_pos hk, if_neg (by omega), Option.or_none]
    · have hgt : r.hi < k := by
        by_contra hle
        exact hc ⟨by omega, by omega⟩
      rw [if_neg hk, if_pos hgt, Option.none_or]

theorem bounded_overwrite {l : List (Run V)} (hl : ∀ r ∈ l, r.hi ≤ M) {r : Run V}
    (hr : r.hi ≤ M) : ∀ s ∈ overwrite l r, s.hi ≤ M := by
  intro s hs
  rcases List.mem_append.mp hs with hs | hs
  · obtain ⟨t, ht, he⟩ := List.mem_filterMap.mp hs
    obtain ⟨-, rfl⟩ := before_eq_some he
    exact (min_le_left _ _).trans (hl t ht)
  · rcases List.mem_cons.mp hs with rfl | hs
    · exact hr
    · obtain ⟨t, ht, he⟩ := List.mem_filterMap.mp hs
      obtain ⟨-, rfl⟩ := after_eq_some he
      exact hl t ht

variable [DecidableEq V]

/-- Map every key of `r` to its value. An empty or out-of-range run changes nothing. -/
def insert (m : RangeMap M V) (r : Run V) : RangeMap M V :=
  if h : r.lo ≤ r.hi ∧ r.hi ≤ M then
    ⟨coalesce (overwrite m.runs r), (coalesce_spec (ordered_overwrite m.canonical.ordered h.1)).1,
      fun s hs => by
        obtain ⟨t, ht, he⟩ := (mem_coalesce hs).2
        exact he ▸ bounded_overwrite m.bounded h.2 t ht⟩
  else m

theorem get_insert (m : RangeMap M V) {r : Run V} (hr : r.lo ≤ r.hi) (hM : r.hi ≤ M) (k : ℕ) :
    (m.insert r).get k = if r.Covers k then some r.val else m.get k := by
  rw [insert, dif_pos ⟨hr, hM⟩]
  exact ((coalesce_spec (ordered_overwrite m.canonical.ordered hr)).2 k).trans
    (lookupRuns_overwrite m.runs hr k)

/-- Insert runs one after the other; a later run overwrites an earlier one. -/
def insertAll (m : RangeMap M V) (l : List (Run V)) : RangeMap M V := l.foldl insert m

/-- The runs a map is assembled from: each nonempty and within the key bound. -/
def Fits (M : ℕ) (l : List (Run V)) : Prop := ∀ r ∈ l, r.lo ≤ r.hi ∧ r.hi ≤ M

theorem get_insertAll (m : RangeMap M V) {l : List (Run V)} (hl : Fits M l) (k : ℕ) :
    (m.insertAll l).get k = (lookupRuns l.reverse k).or (m.get k) := by
  induction l generalizing m with
  | nil => rfl
  | cons r l ih =>
      obtain ⟨hr, hM⟩ := hl r List.mem_cons_self
      change ((m.insert r).insertAll l).get k = _
      rw [ih (m.insert r) fun s hs => hl s (List.mem_cons_of_mem _ hs), m.get_insert hr hM,
        List.reverse_cons, lookupRuns_append, Option.or_assoc, lookupRuns_cons]
      split <;> rfl

end Insert

end RangeMap

/-- In an ordered list at most one run covers a key, so the search order does not matter. -/
theorem Ordered.lookupRuns_reverse {l : List (Run V)} (h : Ordered l) (k : ℕ) :
    lookupRuns l.reverse k = lookupRuns l k := by
  cases he : lookupRuns l.reverse k with
  | none =>
      rw [lookupRuns_eq_none_iff] at he
      exact (lookupRuns_eq_none_iff.mpr fun r hr => he r (List.mem_reverse.mpr hr)).symm
  | some v =>
      obtain ⟨r, hr, hc, hv⟩ := exists_run_of_lookupRuns he
      rw [h.lookup_of_mem (List.mem_reverse.mp hr) hc, hv]

end GlrMask
