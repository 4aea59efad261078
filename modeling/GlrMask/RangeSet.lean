import GlrMask.RangeMapJoin

/-!
# Canonical range sets

A range set is a range map into the one-element type. The set operations are
joins, and the number of elements is the sum of the run lengths.
-/

namespace GlrMask

variable {M : ℕ} {V A B C : Type*}

namespace RangeMap

/-! ## Combining two maps pointwise -/

def combineRuns (f : Option A → Option B → Option C) (a : RangeMap M A) (b : RangeMap M B) :
    List (Run C) :=
  (fullJoin a b).filterMap fun p => (f p.left p.right).map (Run.mk p.lo p.hi)

variable {f : Option A → Option B → Option C} {a : RangeMap M A} {b : RangeMap M B}

theorem mem_combineRuns {r : Run C} (hr : r ∈ combineRuns f a b) :
    r.lo ≤ r.hi ∧ r.hi ≤ M ∧ ∀ k, r.Covers k → f (a.get k) (b.get k) = some r.val := by
  obtain ⟨p, hp, he⟩ := List.mem_filterMap.mp hr
  obtain ⟨c, hc, rfl⟩ := Option.map_eq_some_iff.mp he
  obtain ⟨hle, hM, -, hconst⟩ := fullJoin_sound hp
  refine ⟨hle, hM, fun k hk => ?_⟩
  obtain ⟨hl, hr⟩ := hconst k hk.1 hk.2
  rw [hl, hr, hc]

theorem combineRuns_ordered : Ordered (combineRuns f a b) := by
  refine ⟨fun r hr => (mem_combineRuns hr).1, ?_⟩
  rw [combineRuns, List.pairwise_filterMap]
  refine fullJoin_pairwise.imp fun {p q} hpq r hr s hs => ?_
  obtain ⟨c, -, rfl⟩ := Option.map_eq_some_iff.mp hr
  obtain ⟨d, -, rfl⟩ := Option.map_eq_some_iff.mp hs
  exact hpq

theorem lookupRuns_combineRuns (hf : f none none = none) (k : ℕ) :
    lookupRuns (combineRuns f a b) k = f (a.get k) (b.get k) := by
  cases he : lookupRuns (combineRuns f a b) k with
  | some c =>
      obtain ⟨r, hr, hc, rfl⟩ := exists_run_of_lookupRuns he
      exact ((mem_combineRuns hr).2.2 k hc).symm
  | none =>
      by_contra hne
      have hdef : a.get k ≠ none ∨ b.get k ≠ none := by
        by_contra hcon
        simp_all
      obtain ⟨c, hc⟩ := Option.ne_none_iff_exists'.mp (Ne.symm hne)
      obtain ⟨p, hp, hlo, hhi⟩ := fullJoin_complete hdef
      obtain ⟨hl, hr⟩ := (fullJoin_sound hp).2.2.2 k hlo hhi
      have hmem : ⟨p.lo, p.hi, c⟩ ∈ combineRuns f a b :=
        List.mem_filterMap.mpr ⟨p, hp, by rw [← hl, ← hr, hc]; rfl⟩
      exact lookupRuns_eq_none_iff.mp he _ hmem ⟨hlo, hhi⟩

def combine [DecidableEq C] (f : Option A → Option B → Option C) (a : RangeMap M A)
    (b : RangeMap M B) : RangeMap M C := empty.insertAll (combineRuns f a b)

theorem get_combine [DecidableEq C] (hf : f none none = none) (k : ℕ) :
    (combine f a b).get k = f (a.get k) (b.get k) := by
  have hfits : Fits M (combineRuns f a b) := fun r hr =>
    ⟨(mem_combineRuns hr).1, (mem_combineRuns hr).2.1⟩
  rw [combine, get_insertAll _ hfits, get_empty, Option.or_none,
    combineRuns_ordered.lookupRuns_reverse, lookupRuns_combineRuns hf]

/-- Whether `P` holds of both sides' values on every piece of the join. -/
theorem all_fullJoin_iff {P : Option A → Option B → Bool} (hP : P none none = true) :
    ((fullJoin a b).all fun p => P p.left p.right) = true ↔
      ∀ k, P (a.get k) (b.get k) = true := by
  rw [List.all_eq_true]
  constructor
  · intro h k
    by_cases hdef : a.get k ≠ none ∨ b.get k ≠ none
    · obtain ⟨p, hp, hlo, hhi⟩ := fullJoin_complete hdef
      obtain ⟨hl, hr⟩ := (fullJoin_sound hp).2.2.2 k hlo hhi
      rw [hl, hr]
      exact h p hp
    · simp_all
  · intro h p hp
    obtain ⟨hle, -, -, hconst⟩ := fullJoin_sound hp
    obtain ⟨hl, hr⟩ := hconst p.lo le_rfl hle
    rw [← hl, ← hr]
    exact h p.lo

end RangeMap

/-- A set of keys up to `M`, as canonical runs. -/
abbrev RangeSet (M : ℕ) := RangeMap M Unit

namespace RangeSet

open RangeMap

instance : Membership ℕ (RangeSet M) := ⟨fun s k => s.get k = some ()⟩

theorem mem_def {s : RangeSet M} {k : ℕ} : k ∈ s ↔ s.get k = some () := Iff.rfl

instance (s : RangeSet M) (k : ℕ) : Decidable (k ∈ s) :=
  inferInstanceAs (Decidable (s.get k = some ()))

theorem get_eq {s : RangeSet M} (k : ℕ) : s.get k = if k ∈ s then some () else none := by
  simp only [mem_def]
  cases s.get k <;> simp

theorem ext_mem {s t : RangeSet M} (h : ∀ k, k ∈ s ↔ k ∈ t) : s = t :=
  ext_get fun k => by simp only [get_eq, h]

@[simp] theorem not_mem_empty (k : ℕ) : k ∉ (RangeMap.empty : RangeSet M) := by simp [mem_def]

theorem mem_iff_exists_run {s : RangeSet M} {k : ℕ} : k ∈ s ↔ ∃ r ∈ s.runs, r.Covers k := by
  constructor
  · intro h
    obtain ⟨r, hr, hc, -⟩ := exists_run_of_get (mem_def.mp h)
    exact ⟨r, hr, hc⟩
  · rintro ⟨r, hr, hc⟩
    exact s.get_of_mem hr hc

theorem ne_empty_iff {s : RangeSet M} : s ≠ RangeMap.empty ↔ ∃ k, k ∈ s := by
  constructor
  · intro h
    by_contra hcon
    push Not at hcon
    exact h (ext_mem fun k => by simp [hcon k])
  · rintro ⟨k, hk⟩ rfl
    exact not_mem_empty k hk

def union (s t : RangeSet M) : RangeSet M := combine (fun x y => x.or y) s t

def inter (s t : RangeSet M) : RangeSet M :=
  combine (fun x y => if x.isSome && y.isSome then some () else none) s t

def diff (s t : RangeSet M) : RangeSet M :=
  combine (fun x y => if x.isSome && y.isNone then some () else none) s t

def isSubset (s t : RangeSet M) : Bool :=
  (fullJoin s t).all fun p => p.left.isNone || p.right.isSome

def isDisjoint (s t : RangeSet M) : Bool :=
  (fullJoin s t).all fun p => p.left.isNone || p.right.isNone

variable {s t : RangeSet M} {k : ℕ}

@[simp] theorem mem_union : k ∈ union s t ↔ k ∈ s ∨ k ∈ t := by
  rw [mem_def, union, get_combine rfl, get_eq, get_eq]
  split_ifs <;> simp_all

@[simp] theorem mem_inter : k ∈ inter s t ↔ k ∈ s ∧ k ∈ t := by
  rw [mem_def, inter, get_combine rfl, get_eq, get_eq]
  split_ifs <;> simp_all

@[simp] theorem mem_diff : k ∈ diff s t ↔ k ∈ s ∧ k ∉ t := by
  rw [mem_def, diff, get_combine rfl, get_eq, get_eq]
  split_ifs <;> simp_all

theorem isSubset_iff : isSubset s t = true ↔ ∀ k, k ∈ s → k ∈ t := by
  rw [isSubset, all_fullJoin_iff (P := fun x y => x.isNone || y.isSome) rfl]
  refine forall_congr' fun k => ?_
  rw [get_eq, get_eq]
  split_ifs <;> simp_all

theorem isDisjoint_iff : isDisjoint s t = true ↔ ∀ k, k ∈ s → k ∉ t := by
  rw [isDisjoint, all_fullJoin_iff (P := fun x y => x.isNone || y.isNone) rfl]
  refine forall_congr' fun k => ?_
  rw [get_eq, get_eq]
  split_ifs <;> simp_all

/-- The set covered by a list of ranges. -/
def ofRanges (M : ℕ) (l : List (Run Unit)) : RangeSet M := RangeMap.empty.insertAll l

theorem mem_ofRanges {l : List (Run Unit)} (hl : Fits M l) :
    k ∈ ofRanges M l ↔ ∃ r ∈ l, r.Covers k := by
  rw [mem_def, ofRanges, get_insertAll _ hl, get_empty, Option.or_none]
  constructor
  · intro h
    obtain ⟨r, hr, hc, -⟩ := exists_run_of_lookupRuns h
    exact ⟨r, List.mem_reverse.mp hr, hc⟩
  · rintro ⟨r, hr, hc⟩
    cases he : lookupRuns l.reverse k with
    | some u => rfl
    | none => exact absurd hc (lookupRuns_eq_none_iff.mp he r (List.mem_reverse.mpr hr))

end RangeSet

/-! ## Counting -/

def runsLen (l : List (Run V)) : ℕ := (l.map fun r => r.hi + 1 - r.lo).sum

def coveredKeys (l : List (Run V)) : Finset ℕ :=
  l.foldr (fun r s => Finset.Icc r.lo r.hi ∪ s) ∅

theorem mem_coveredKeys {l : List (Run V)} {k : ℕ} :
    k ∈ coveredKeys l ↔ ∃ r ∈ l, r.Covers k := by
  induction l with
  | nil => simp [coveredKeys]
  | cons r l ih =>
      change k ∈ Finset.Icc r.lo r.hi ∪ coveredKeys l ↔ _
      rw [Finset.mem_union, Finset.mem_Icc, ih, List.exists_mem_cons_iff]
      rfl

theorem Ordered.card_coveredKeys {l : List (Run V)} (h : Ordered l) :
    (coveredKeys l).card = runsLen l := by
  induction l with
  | nil => rfl
  | cons r l ih =>
      change (Finset.Icc r.lo r.hi ∪ coveredKeys l).card = r.hi + 1 - r.lo + runsLen l
      rw [Finset.card_union_of_disjoint, Nat.card_Icc, ih h.tail]
      rw [Finset.disjoint_left]
      intro k hk hmem
      obtain ⟨s, hs, hc⟩ := mem_coveredKeys.mp hmem
      have hlt : r.hi < s.lo := List.rel_of_pairwise_cons h.2 hs
      have := (Finset.mem_Icc.mp hk).2
      have := hc.1
      omega

/-- Ordered runs inside other ordered runs cover all of them as soon as they are as many keys. -/
theorem Ordered.covers_of_len_eq {l : List (Run A)} {l' : List (Run B)} (h : Ordered l)
    (h' : Ordered l') (hsub : ∀ k, (∃ r ∈ l, r.Covers k) → ∃ r ∈ l', r.Covers k)
    (hlen : runsLen l = runsLen l') {k : ℕ} (hk : ∃ r ∈ l', r.Covers k) :
    ∃ r ∈ l, r.Covers k := by
  have hss : coveredKeys l ⊆ coveredKeys l' := fun k hk =>
    mem_coveredKeys.mpr (hsub k (mem_coveredKeys.mp hk))
  have heq := Finset.eq_of_subset_of_card_le hss
    (by rw [h.card_coveredKeys, h'.card_coveredKeys, hlen])
  rw [← mem_coveredKeys, heq, mem_coveredKeys]
  exact hk

def RangeSet.len (s : RangeSet M) : ℕ := runsLen s.runs

end GlrMask
