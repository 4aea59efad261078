import Mathlib
import GlrMask.WeightIntersection

/-!
# Weights

A weight is either `all`, stored as one sentinel entry at the last tsid, or a
finite map from tsids to nonempty token sets. Every operation first looks for
`all` and `empty` operands and equal operands.
-/

namespace GlrMask

open RangeSet RangeMap CompactRangeBuilder

def sentinel_token_set : TokenSet := ofRanges u32Max [⟨u32Max, u32Max, ()⟩]

def is_sentinel_token_set (tokens : TokenSet) : Bool :=
  match tokens.runs with
  | [range] => range.lo = u32Max && range.hi = u32Max
  | _ => false

/-- The stored form of `Weight::all()`. -/
def allMap : WeightMap := RangeMap.empty.insert ⟨u32Max, u32Max, sentinel_token_set⟩

/-- A stored weight without the sentinel: no entry at the reserved tsid, none without tokens. -/
structure FiniteMap (m : WeightMap) : Prop where
  below : m.get u32Max = none
  tokens : NonemptyTokens m

theorem FiniteMap.get_ne {m : WeightMap} (h : FiniteMap m) {k : ℕ} {t : TokenSet}
    (ht : m.get k = some t) : k ≠ u32Max ∧ t ≠ RangeMap.empty := by
  refine ⟨fun hk => ?_, h.tokens.of_get ht⟩
  rw [hk, h.below] at ht
  cases ht

/-- A stored weight together with the invariant that every constructor establishes. -/
structure Weight where
  map : WeightMap
  valid : map = allMap ∨ FiniteMap map

namespace Weight

theorem ext_map {a b : Weight} (h : a.map = b.map) : a = b := by
  cases a
  cases b
  simpa using h

instance : DecidableEq Weight := fun a b =>
  decidable_of_iff (a.map = b.map) ⟨ext_map, fun h => h ▸ rfl⟩

/-! ## The stored form of `all` -/

theorem sentinel_runs : sentinel_token_set.runs = [⟨u32Max, u32Max, ()⟩] := by decide +kernel

theorem allMap_runs : allMap.runs = [⟨u32Max, u32Max, sentinel_token_set⟩] := by decide +kernel

theorem is_sentinel_token_set_iff {tokens : TokenSet} :
    is_sentinel_token_set tokens = true ↔ tokens = sentinel_token_set := by
  rw [RangeMap.ext_iff, sentinel_runs]
  unfold is_sentinel_token_set
  split
  · rename_i range he
    rw [he]
    simp only [Bool.and_eq_true, decide_eq_true_eq, List.cons.injEq, and_true]
    exact ⟨fun h => by cases range; simp_all, fun h => by simp [h]⟩
  · rename_i hne
    simp only [Bool.false_eq_true, false_iff]
    exact fun h => hne _ h

def isFullMap (m : WeightMap) : Bool :=
  match m.runs with
  | [entry] => entry.lo = u32Max && entry.hi = u32Max && is_sentinel_token_set entry.val
  | _ => false

theorem isFullMap_iff {m : WeightMap} : isFullMap m = true ↔ m = allMap := by
  rw [RangeMap.ext_iff, allMap_runs]
  unfold isFullMap
  split
  · rename_i entry he
    rw [he]
    simp only [Bool.and_eq_true, decide_eq_true_eq, is_sentinel_token_set_iff, List.cons.injEq,
      and_true]
    exact ⟨fun h => by cases entry; simp_all, fun h => by simp [h]⟩
  · rename_i hne
    simp only [Bool.false_eq_true, false_iff]
    exact fun h => hne _ h

theorem get_allMap_last : allMap.get u32Max = some sentinel_token_set := by
  rw [RangeMap.get, allMap_runs]
  rfl

theorem not_finite_allMap : ¬ FiniteMap allMap := fun h => by
  have := h.below
  rw [get_allMap_last] at this
  cases this

theorem finite_empty : FiniteMap RangeMap.empty := ⟨rfl, fun r hr => by simp at hr⟩

/-! ## Constructors -/

def empty : Weight := ⟨RangeMap.empty, Or.inr finite_empty⟩

def all : Weight := ⟨allMap, Or.inl rfl⟩

def is_full (self : Weight) : Bool := isFullMap self.map

def is_empty (self : Weight) : Bool := self.map.isEmpty

theorem is_full_iff {w : Weight} : w.is_full = true ↔ w = all :=
  isFullMap_iff.trans ⟨fun h => ext_map h, fun h => h ▸ rfl⟩

theorem is_empty_iff {w : Weight} : w.is_empty = true ↔ w = empty :=
  isEmpty_eq_true.trans ⟨fun h => ext_map h, fun h => h ▸ rfl⟩

theorem finite_of_ne_all {w : Weight} (h : w ≠ all) : FiniteMap w.map :=
  w.valid.resolve_left fun he => h (ext_map he)

theorem empty_ne_all : empty ≠ all := fun h =>
  not_finite_allMap (show FiniteMap all.map from h ▸ finite_empty)

/-- A map whose lookups are nonempty token sets at unreserved tsids is a finite weight. -/
theorem finite_of_get {m : WeightMap}
    (h : ∀ k t, m.get k = some t → k ≠ u32Max ∧ t ≠ RangeMap.empty) : FiniteMap m := by
  refine ⟨?_, fun r hr => ?_⟩
  · cases he : m.get u32Max with
    | none => rfl
    | some t => exact absurd rfl (h _ t he).1
  · exact (h r.lo r.val (m.get_of_mem hr ⟨le_rfl, m.canonical.1 r hr⟩)).2

/-- Sorted or unsorted runs, each with its token set; runs without tokens are skipped. -/
def runsMap (runs : List WeightRangeEntry) : WeightMap :=
  (new.extend (runs.filter fun run => ¬ run.val.isEmpty)).finish

/-- Runs that a caller may pass: nonempty and below the reserved tsid. -/
def InRange (runs : List WeightRangeEntry) : Prop := ∀ r ∈ runs, r.lo ≤ r.hi ∧ r.hi < u32Max

theorem finite_runsMap {runs : List WeightRangeEntry} (h : InRange runs) :
    FiniteMap (runsMap runs) := by
  have hfits : Fits u32Max (runs.filter fun run => ¬ run.val.isEmpty) := fun r hr => by
    obtain ⟨hle, hlt⟩ := h r (List.mem_of_mem_filter hr)
    exact ⟨hle, hlt.le⟩
  refine finite_of_get fun k t ht => ?_
  rw [runsMap, get_finish (valid_extend valid_new hfits), get_extend valid_new hfits, get_new,
    Option.or_none] at ht
  obtain ⟨r, hr, hc, rfl⟩ := exists_run_of_lookupRuns ht
  obtain ⟨hmem, hne⟩ := List.mem_filter.mp (List.mem_reverse.mp hr)
  have := (h r hmem).2
  have := hc.2
  exact ⟨by omega, by simpa [isEmpty_eq_true] using hne⟩

def from_tsid_runs_shared (runs : List WeightRangeEntry) (h : InRange runs) : Weight :=
  ⟨runsMap runs, Or.inr (finite_runsMap h)⟩

def from_per_tsid_shared (entries : List (ℕ × TokenSet)) (h : ∀ e ∈ entries, e.1 < u32Max) :
    Weight :=
  from_tsid_runs_shared (entries.map fun e => ⟨e.1, e.1, e.2⟩) fun r hr => by
    obtain ⟨e, he, rfl⟩ := List.mem_map.mp hr
    exact ⟨le_rfl, h e he⟩

def from_uniform (start stop : ℕ) (tokens : TokenSet) (h : stop < u32Max) : Weight :=
  if hne : tokens.isEmpty then empty
  else ⟨RangeMap.empty.insert ⟨start, stop, tokens⟩, Or.inr (by
    refine finite_of_get fun k t ht => ?_
    by_cases hle : start ≤ stop
    · rw [get_insert _ hle h.le] at ht
      split_ifs at ht with hc
      · have := hc.2
        exact ⟨by change k ≤ stop at this; omega,
          Option.some.inj ht ▸ fun he => hne (isEmpty_eq_true.mpr he)⟩
      · cases ht
    · rw [RangeMap.insert, dif_neg fun hc => hle hc.1] at ht
      cases ht)⟩

/-! ## The operations -/

def unionMap (self other : Weight) : WeightMap :=
  if self.is_full || other.is_full then allMap
  else if self.is_empty then other.map
  else if other.is_empty then self.map
  else if self = other then self.map
  else union_uncached self.map other.map

def intersectionMap [Runtime] (self other : Weight) : WeightMap :=
  if self.is_empty || other.is_empty then RangeMap.empty
  else if self = other then self.map
  else if self.is_full then other.map
  else if other.is_full then self.map
  else intersection_uncached_impl self.map other.map

/-- The complement of `all` is unknown without a universe, so `all` stays as it is. -/
def differenceMap (self other : Weight) : WeightMap :=
  if self.is_empty || other.is_full then RangeMap.empty
  else if other.is_empty then self.map
  else if self = other then RangeMap.empty
  else if self.is_full then allMap
  else difference_weights self.map other.map

/-- The test of the inner join: a tsid on one side only passes. -/
def disjointTokens : Option TokenSet → Option TokenSet → Bool
  | some left_tokens, some right_tokens => isDisjoint left_tokens right_tokens
  | _, _ => true

/-- The test of the left join: a tsid on the right side only passes. -/
def subsetTokens : Option TokenSet → Option TokenSet → Bool
  | some self_tokens, some other_tokens => isSubset self_tokens other_tokens
  | some _, none => false
  | none, _ => true

def is_disjoint (self other : Weight) : Bool :=
  if self.is_empty || other.is_empty then true
  else if self = other then false
  else if self.is_full || other.is_full then false
  else (fullJoin self.map other.map).all fun p => disjointTokens p.left p.right

def is_subset (self other : Weight) : Bool :=
  if self.is_empty || other.is_full then true
  else if other.is_empty || self.is_full then false
  else (fullJoin self.map other.map).all fun p => subsetTokens p.left p.right

def eqEntries : List WeightRangeEntry → List WeightRangeEntry → Bool
  | [], [] => true
  | a :: as, b :: bs =>
      if a.lo ≠ b.lo ∨ a.hi ≠ b.hi ∨ a.val ≠ b.val then false else eqEntries as bs
  | _, _ => false

/-- `PartialEq for Weight`. -/
def eq (self other : Weight) : Bool :=
  if self = other then true
  else if self.is_full || other.is_full then self.is_full == other.is_full
  else eqEntries self.map.runs other.map.runs

/-! ## Results are valid -/

theorem union_ne_empty {s t : TokenSet} (hs : s ≠ RangeMap.empty) :
    RangeSet.union s t ≠ RangeMap.empty := by
  rw [ne_empty_iff] at hs ⊢
  obtain ⟨k, hk⟩ := hs
  exact ⟨k, mem_union.mpr (Or.inl hk)⟩

theorem nonemptyTokens_eq_some {t u : TokenSet} (h : nonemptyTokens t = some u) :
    u = t ∧ u ≠ RangeMap.empty := by
  unfold nonemptyTokens at h
  split_ifs at h with he
  obtain rfl := Option.some.inj h
  exact ⟨rfl, he⟩

theorem mem_nonemptyTokens {t : TokenSet} {x : ℕ} :
    (∃ u ∈ nonemptyTokens t, x ∈ u) ↔ x ∈ t := by
  unfold nonemptyTokens
  split_ifs with h
  · simp [h]
  · simp

theorem finite_union_uncached {a b : WeightMap} (ha : FiniteMap a) (hb : FiniteMap b) :
    FiniteMap (union_uncached a b) := by
  refine finite_of_get fun k t ht => ?_
  rw [get_union_uncached] at ht
  cases hx : a.get k with
  | none =>
      cases hy : b.get k with
      | none => simp [hx, hy, union_token_sets] at ht
      | some y =>
          simp only [hx, hy, union_token_sets, Option.some.injEq] at ht
          exact ht ▸ hb.get_ne hy
  | some x =>
      cases hy : b.get k with
      | none =>
          simp only [hx, hy, union_token_sets, Option.some.injEq] at ht
          exact ht ▸ ha.get_ne hx
      | some y =>
          simp only [hx, hy, union_token_sets, shared_token_union_eq, Option.some.injEq] at ht
          exact ⟨(ha.get_ne hx).1, ht ▸ union_ne_empty (ha.get_ne hx).2⟩

theorem finite_intersection_uncached [Runtime] {a b : WeightMap} (ha : FiniteMap a) (hb : FiniteMap b) :
    FiniteMap (intersection_uncached_impl a b) := by
  refine finite_of_get fun k t ht => ?_
  rw [get_intersection_uncached_impl ha.tokens hb.tokens] at ht
  cases hx : a.get k with
  | none => simp [hx] at ht
  | some x =>
      cases hy : b.get k with
      | none => simp [hy] at ht
      | some y =>
          rw [hx, hy, intersect_token_sets,
            shared_token_intersection_eq (ha.get_ne hx).2 (hb.get_ne hy).2] at ht
          exact ⟨(ha.get_ne hx).1, (nonemptyTokens_eq_some ht).2⟩

theorem finite_difference_weights {a b : WeightMap} (ha : FiniteMap a) :
    FiniteMap (difference_weights a b) := by
  refine finite_of_get fun k t ht => ?_
  rw [get_difference_weights] at ht
  cases hx : a.get k with
  | none => simp [hx, difference_token_sets_none] at ht
  | some x =>
      refine ⟨(ha.get_ne hx).1, ?_⟩
      cases hy : b.get k with
      | none =>
          simp only [hx, hy, difference_token_sets, Option.some.injEq] at ht
          exact ht ▸ (ha.get_ne hx).2
      | some y =>
          rw [hx, hy, difference_token_sets, shared_token_difference_eq (ha.get_ne hx).2] at ht
          exact (nonemptyTokens_eq_some ht).2

theorem full_or_eq_false {a b : Weight} (h : ¬ (a.is_full || b.is_full) = true) :
    FiniteMap a.map ∧ FiniteMap b.map := by
  simp only [Bool.or_eq_true, is_full_iff, not_or] at h
  exact ⟨finite_of_ne_all h.1, finite_of_ne_all h.2⟩

def union (self other : Weight) : Weight := ⟨unionMap self other, by
  unfold unionMap
  split_ifs with h
  · exact Or.inl rfl
  · exact other.valid
  · exact self.valid
  · exact self.valid
  · exact Or.inr (finite_union_uncached (full_or_eq_false h).1 (full_or_eq_false h).2)⟩

def intersection [Runtime] (self other : Weight) : Weight := ⟨intersectionMap self other, by
  unfold intersectionMap
  split_ifs with _ _ hs ho
  · exact Or.inr finite_empty
  · exact self.valid
  · exact other.valid
  · exact self.valid
  · rw [is_full_iff] at hs ho
    exact Or.inr (finite_intersection_uncached (finite_of_ne_all hs) (finite_of_ne_all ho))⟩

def difference (self other : Weight) : Weight := ⟨differenceMap self other, by
  unfold differenceMap
  split_ifs with _ _ _ hs
  · exact Or.inr finite_empty
  · exact self.valid
  · exact Or.inr finite_empty
  · exact Or.inl rfl
  · rw [is_full_iff] at hs
    exact Or.inr (finite_difference_weights (finite_of_ne_all hs))⟩

def complement (self : Weight) : Weight :=
  if self.is_full then empty else if self.is_empty then all else empty

end Weight

/-! ## Points

`none` is a point of `all` only, so that `all` differs from every finite weight. -/

abbrev Point := Option (ℕ × ℕ)

namespace Weight

def Allows (w : Weight) : Point → Prop
  | none => w = all
  | some (k, x) => w = all ∨ ∃ t ∈ w.map.get k, x ∈ t

instance : Membership Point Weight := ⟨Allows⟩

variable {a b : Weight} {p : Point}

@[simp] theorem mem_all : p ∈ all := by
  cases p with
  | none => rfl
  | some q => exact Or.inl rfl

@[simp] theorem not_mem_empty : p ∉ empty := by
  cases p with
  | none => exact empty_ne_all
  | some q =>
      rintro (h | ⟨t, ht, -⟩)
      · exact empty_ne_all h
      · cases ht

theorem none_mem_iff : (none : Point) ∈ a ↔ a = all := Iff.rfl

theorem mem_iff_of_ne_all (h : a ≠ all) {k x : ℕ} :
    (some (k, x) : Point) ∈ a ↔ ∃ t ∈ a.map.get k, x ∈ t :=
  ⟨fun hp => hp.resolve_left h, Or.inr⟩

theorem eq_empty_iff : a = empty ↔ ∀ p, p ∉ a := by
  refine ⟨fun h p => h ▸ not_mem_empty, fun h => ext_map (RangeMap.ext_get fun k => ?_)⟩
  have hne : a ≠ all := h none
  cases he : a.map.get k with
  | none => rfl
  | some t =>
      obtain ⟨x, hx⟩ := ne_empty_iff.mp ((finite_of_ne_all hne).get_ne he).2
      exact absurd (Or.inr ⟨t, he, hx⟩) (h (some (k, x)))

theorem ne_empty_iff' : a ≠ empty ↔ ∃ p, p ∈ a := by
  rw [ne_eq, eq_empty_iff]
  push Not
  rfl

/-- Weights with the same points are equal. -/
theorem ext_mem (h : ∀ p, p ∈ a ↔ p ∈ b) : a = b := by
  by_cases ha : a = all
  · exact ha.trans ((h none).mp ha).symm
  have hb : b ≠ all := fun hb => ha ((h none).mpr hb)
  refine ext_map (RangeMap.ext_get fun k => ?_)
  have hiff : ∀ x, (∃ t ∈ a.map.get k, x ∈ t) ↔ ∃ t ∈ b.map.get k, x ∈ t := fun x => by
    rw [← mem_iff_of_ne_all ha, ← mem_iff_of_ne_all hb]
    exact h _
  have hfa := finite_of_ne_all ha
  have hfb := finite_of_ne_all hb
  cases hx : a.map.get k with
  | none =>
      cases hy : b.map.get k with
      | none => rfl
      | some t =>
          obtain ⟨x, hxt⟩ := ne_empty_iff.mp (hfb.get_ne hy).2
          obtain ⟨u, hu, -⟩ := (hiff x).mpr ⟨t, hy, hxt⟩
          rw [hx] at hu
          cases hu
  | some s =>
      cases hy : b.map.get k with
      | none =>
          obtain ⟨x, hxt⟩ := ne_empty_iff.mp (hfa.get_ne hx).2
          obtain ⟨u, hu, -⟩ := (hiff x).mp ⟨s, hx, hxt⟩
          rw [hy] at hu
          cases hu
      | some t =>
          refine congrArg some (RangeSet.ext_mem fun x => ?_)
          simpa [hx, hy] using hiff x

theorem full_or_eq_true (h : (a.is_full || b.is_full) = true) : a = all ∨ b = all := by
  simpa [is_full_iff] using h

theorem empty_or_eq_true (h : (a.is_empty || b.is_empty) = true) : a = empty ∨ b = empty := by
  simpa [is_empty_iff] using h

/-- FiniteMap maps compared by the points at one tsid. -/
theorem mem_of_finite_map {m : WeightMap} (w : Weight) (hw : w.map = m) (hm : FiniteMap m) {k x : ℕ} :
    (some (k, x) : Point) ∈ w ↔ ∃ t ∈ m.get k, x ∈ t := by
  rw [mem_iff_of_ne_all, hw]
  rintro rfl
  subst hw
  exact not_finite_allMap hm

theorem none_not_mem_of_finite {m : WeightMap} (w : Weight) (hw : w.map = m) (hm : FiniteMap m) :
    (none : Point) ∉ w := by
  rw [none_mem_iff]
  rintro rfl
  subst hw
  exact not_finite_allMap hm

theorem map_from_uniform {start stop : ℕ} {tokens : TokenSet} (h : stop < u32Max)
    (hne : tokens ≠ RangeMap.empty) :
    (from_uniform start stop tokens h).map = RangeMap.empty.insert ⟨start, stop, tokens⟩ ∧
      FiniteMap (from_uniform start stop tokens h).map := by
  have hempty : ¬ tokens.isEmpty = true := fun he => hne (isEmpty_eq_true.mp he)
  have hmap : (from_uniform start stop tokens h).map =
      RangeMap.empty.insert ⟨start, stop, tokens⟩ := by
    rw [from_uniform, dif_neg hempty]
  refine ⟨hmap, ((from_uniform start stop tokens h).valid).resolve_left fun hall => ?_⟩
  have hlast := get_allMap_last
  by_cases hle : start ≤ stop
  · rw [← hall, hmap, get_insert _ hle h.le, if_neg fun hc => absurd hc.2 (by simpa using h)] at hlast
    cases hlast
  · rw [← hall, hmap, RangeMap.insert, dif_neg fun hc => hle hc.1] at hlast
    cases hlast

theorem mem_from_uniform {start stop : ℕ} {tokens : TokenSet} (h : stop < u32Max)
    (hne : tokens ≠ RangeMap.empty) (hle : start ≤ stop) {k x : ℕ} :
    (some (k, x) : Point) ∈ from_uniform start stop tokens h ↔
      (start ≤ k ∧ k ≤ stop) ∧ x ∈ tokens := by
  obtain ⟨hmap, hfin⟩ := @map_from_uniform start _ _ h hne
  rw [mem_of_finite_map _ rfl hfin, hmap, get_insert _ hle h.le]
  by_cases hc : start ≤ k ∧ k ≤ stop
  · simp [Run.Covers, hc]
  · simp [Run.Covers, hc]
theorem map_union (h : ¬ (a.is_full || b.is_full) = true) (hae : ¬ a.is_empty = true)
    (hbe : ¬ b.is_empty = true) (hab : a ≠ b) : (a.union b).map = union_uncached a.map b.map := by
  simp only [union, unionMap, if_neg h, if_neg hae, if_neg hbe, if_neg hab]

@[simp] theorem mem_union : p ∈ a.union b ↔ p ∈ a ∨ p ∈ b := by
  by_cases hf : (a.is_full || b.is_full) = true
  · have hu : a.union b = all := ext_map (by simp only [union, unionMap, if_pos hf]; rfl)
    rcases full_or_eq_true hf with rfl | rfl <;> simp [hu]
  by_cases hae : a.is_empty = true
  · have hu : a.union b = b := ext_map (by simp only [union, unionMap, if_neg hf, if_pos hae])
    rw [hu, is_empty_iff.mp hae]
    simp
  by_cases hbe : b.is_empty = true
  · have hu : a.union b = a :=
      ext_map (by simp only [union, unionMap, if_neg hf, if_neg hae, if_pos hbe])
    rw [hu, is_empty_iff.mp hbe]
    simp
  by_cases hab : a = b
  · have hu : a.union b = a :=
      ext_map (by simp only [union, unionMap, if_neg hf, if_neg hae, if_neg hbe, if_pos hab])
    rw [hu, ← hab, or_self]
  obtain ⟨hfa, hfb⟩ := full_or_eq_false hf
  have hmap := map_union hf hae hbe hab
  have hfin := finite_union_uncached hfa hfb
  cases p with
  | none =>
      simp only [none_not_mem_of_finite _ hmap hfin, none_not_mem_of_finite a rfl hfa,
        none_not_mem_of_finite b rfl hfb, or_self]
  | some q =>
      obtain ⟨k, x⟩ := q
      rw [mem_of_finite_map _ hmap hfin, mem_of_finite_map a rfl hfa, mem_of_finite_map b rfl hfb,
        get_union_uncached]
      cases a.map.get k <;> cases b.map.get k <;>
        simp [union_token_sets, shared_token_union_eq]

@[simp] theorem mem_intersection [Runtime] : p ∈ a.intersection b ↔ p ∈ a ∧ p ∈ b := by
  by_cases he : (a.is_empty || b.is_empty) = true
  · have hi : a.intersection b = empty :=
      ext_map (by simp only [intersection, intersectionMap, if_pos he]; rfl)
    rcases empty_or_eq_true he with rfl | rfl <;> simp [hi]
  by_cases hab : a = b
  · have hi : a.intersection b = a :=
      ext_map (by simp only [intersection, intersectionMap, if_neg he, if_pos hab])
    rw [hi, ← hab, and_self]
  by_cases ha : a.is_full = true
  · have hi : a.intersection b = b :=
      ext_map (by simp only [intersection, intersectionMap, if_neg he, if_neg hab, if_pos ha])
    rw [hi, is_full_iff.mp ha]
    simp
  by_cases hb : b.is_full = true
  · have hi : a.intersection b = a := ext_map (by
      simp only [intersection, intersectionMap, if_neg he, if_neg hab, if_neg ha, if_pos hb])
    rw [hi, is_full_iff.mp hb]
    simp
  have hmap : (a.intersection b).map = intersection_uncached_impl a.map b.map := by
    simp only [intersection, intersectionMap, if_neg he, if_neg hab, if_neg ha, if_neg hb]
  rw [is_full_iff] at ha hb
  have hfa := finite_of_ne_all ha
  have hfb := finite_of_ne_all hb
  have hfin := finite_intersection_uncached hfa hfb
  cases p with
  | none =>
      simp only [none_not_mem_of_finite _ hmap hfin, none_not_mem_of_finite a rfl hfa, false_and]
  | some q =>
      obtain ⟨k, x⟩ := q
      rw [mem_of_finite_map _ hmap hfin, mem_of_finite_map a rfl hfa, mem_of_finite_map b rfl hfb,
        get_intersection_uncached_impl hfa.tokens hfb.tokens]
      cases hx : a.map.get k with
      | none => simp
      | some s =>
          cases hy : b.map.get k with
          | none => simp
          | some t =>
              rw [intersect_token_sets,
                shared_token_intersection_eq (hfa.get_ne hx).2 (hfb.get_ne hy).2,
                mem_nonemptyTokens]
              simp

theorem mem_difference (ha : a ≠ all) : p ∈ a.difference b ↔ p ∈ a ∧ p ∉ b := by
  by_cases he : (a.is_empty || b.is_full) = true
  · have hd : a.difference b = empty :=
      ext_map (by simp only [difference, differenceMap, if_pos he]; rfl)
    rw [Bool.or_eq_true, is_empty_iff, is_full_iff] at he
    rcases he with rfl | rfl <;> simp [hd]
  by_cases hb : b.is_empty = true
  · have hd : a.difference b = a :=
      ext_map (by simp only [difference, differenceMap, if_neg he, if_pos hb])
    rw [hd, is_empty_iff.mp hb]
    simp
  by_cases hab : a = b
  · have hd : a.difference b = empty := ext_map (by
      simp only [difference, differenceMap, if_neg he, if_neg hb, if_pos hab]
      rfl)
    rw [hd, hab]
    simp
  have hfull : ¬ a.is_full = true := fun h => ha (is_full_iff.mp h)
  have hmap : (a.difference b).map = difference_weights a.map b.map := by
    simp only [difference, differenceMap, if_neg he, if_neg hb, if_neg hab, if_neg hfull]
  have hfa := finite_of_ne_all ha
  have hbfull : b ≠ all := fun h => he (by simp [is_full_iff.mpr h])
  have hfb := finite_of_ne_all hbfull
  have hfin := finite_difference_weights (b := b.map) hfa
  cases p with
  | none =>
      simp only [none_not_mem_of_finite _ hmap hfin, none_not_mem_of_finite a rfl hfa, false_and]
  | some q =>
      obtain ⟨k, x⟩ := q
      rw [mem_of_finite_map _ hmap hfin, mem_of_finite_map a rfl hfa, mem_of_finite_map b rfl hfb,
        get_difference_weights]
      cases hx : a.map.get k with
      | none => simp [difference_token_sets_none]
      | some s =>
          cases hy : b.map.get k with
          | none => simp [difference_token_sets]
          | some t =>
              rw [difference_token_sets, shared_token_difference_eq (hfa.get_ne hx).2,
                mem_nonemptyTokens]
              simp

/-- Two finite weights share a point exactly where their token sets meet. -/
theorem is_disjoint_iff : a.is_disjoint b = true ↔ ∀ p, p ∈ a → p ∉ b := by
  unfold is_disjoint
  by_cases he : (a.is_empty || b.is_empty) = true
  · rw [if_pos he]
    rcases empty_or_eq_true he with rfl | rfl <;> simp
  have hne : a ≠ empty ∧ b ≠ empty := by
    simpa [is_empty_iff] using he
  rw [if_neg he]
  by_cases hab : a = b
  · rw [if_pos hab]
    obtain ⟨p, hp⟩ := ne_empty_iff'.mp hne.1
    simp only [Bool.false_eq_true, false_iff]
    exact fun h => h p hp (hab ▸ hp)
  rw [if_neg hab]
  by_cases hf : (a.is_full || b.is_full) = true
  · rw [if_pos hf]
    simp only [Bool.false_eq_true, false_iff]
    intro h
    rcases full_or_eq_true hf with rfl | rfl
    · obtain ⟨p, hp⟩ := ne_empty_iff'.mp hne.2
      exact h p mem_all hp
    · obtain ⟨p, hp⟩ := ne_empty_iff'.mp hne.1
      exact h p hp mem_all
  rw [if_neg hf]
  obtain ⟨hfa, hfb⟩ := full_or_eq_false hf
  rw [all_fullJoin_iff (P := disjointTokens) rfl]
  constructor
  · intro h p hpa hpb
    cases p with
    | none => exact none_not_mem_of_finite a rfl hfa hpa
    | some q =>
        obtain ⟨k, x⟩ := q
        obtain ⟨s, hs, hxs⟩ := (mem_of_finite_map a rfl hfa).mp hpa
        obtain ⟨t, ht, hxt⟩ := (mem_of_finite_map b rfl hfb).mp hpb
        have hk := h k
        rw [hs, ht] at hk
        exact isDisjoint_iff.mp hk x hxs hxt
  · intro h k
    cases hx : a.map.get k with
    | none => rfl
    | some s =>
        cases hy : b.map.get k with
        | none => rfl
        | some t =>
            exact isDisjoint_iff.mpr fun x hxs hxt => h (some (k, x))
              ((mem_of_finite_map a rfl hfa).mpr ⟨s, hx, hxs⟩)
              ((mem_of_finite_map b rfl hfb).mpr ⟨t, hy, hxt⟩)

theorem is_subset_iff : a.is_subset b = true ↔ ∀ p, p ∈ a → p ∈ b := by
  unfold is_subset
  by_cases he : (a.is_empty || b.is_full) = true
  · rw [if_pos he]
    rw [Bool.or_eq_true, is_empty_iff, is_full_iff] at he
    rcases he with rfl | rfl <;> simp
  rw [if_neg he]
  have hne : a ≠ empty ∧ b ≠ all := by
    simpa [is_empty_iff, is_full_iff] using he
  by_cases hf : (b.is_empty || a.is_full) = true
  · rw [if_pos hf]
    simp only [Bool.false_eq_true, false_iff]
    rw [Bool.or_eq_true, is_empty_iff, is_full_iff] at hf
    intro h
    rcases hf with rfl | rfl
    · obtain ⟨p, hp⟩ := ne_empty_iff'.mp hne.1
      exact not_mem_empty (h p hp)
    · exact hne.2 (none_mem_iff.mp (h none mem_all))
  rw [if_neg hf]
  have hnf : b ≠ empty ∧ a ≠ all := by
    simpa [is_empty_iff, is_full_iff] using hf
  have hfa := finite_of_ne_all hnf.2
  have hfb := finite_of_ne_all hne.2
  rw [all_fullJoin_iff (P := subsetTokens) rfl]
  constructor
  · intro h p hpa
    cases p with
    | none => exact absurd hpa (none_not_mem_of_finite a rfl hfa)
    | some q =>
        obtain ⟨k, x⟩ := q
        obtain ⟨s, hs, hxs⟩ := (mem_of_finite_map a rfl hfa).mp hpa
        have hk := h k
        rw [hs] at hk
        cases hy : b.map.get k with
        | none =>
            rw [hy] at hk
            simp [subsetTokens] at hk
        | some t =>
            rw [hy] at hk
            exact (mem_of_finite_map b rfl hfb).mpr ⟨t, hy, isSubset_iff.mp hk x hxs⟩
  · intro h k
    cases hx : a.map.get k with
    | none => rfl
    | some s =>
        have hsub : ∀ x, x ∈ s → ∃ t ∈ b.map.get k, x ∈ t := fun x hxs =>
          (mem_of_finite_map b rfl hfb).mp
            (h (some (k, x)) ((mem_of_finite_map a rfl hfa).mpr ⟨s, hx, hxs⟩))
        cases hy : b.map.get k with
        | none =>
            obtain ⟨x, hxs⟩ := ne_empty_iff.mp (hfa.get_ne hx).2
            obtain ⟨t, ht, -⟩ := hsub x hxs
            rw [hy] at ht
            cases ht
        | some t => exact isSubset_iff.mpr fun x hxs => by simpa [hy] using hsub x hxs

theorem eqEntries_iff {l l' : List WeightRangeEntry} : eqEntries l l' = true ↔ l = l' := by
  induction l generalizing l' with
  | nil => cases l' <;> simp [eqEntries]
  | cons a l ih =>
      cases l' with
      | nil => simp [eqEntries]
      | cons b l' =>
          rw [eqEntries, List.cons.injEq, ← ih]
          have hab : a = b ↔ ¬ (a.lo ≠ b.lo ∨ a.hi ≠ b.hi ∨ a.val ≠ b.val) := by
            cases a
            cases b
            simp
          by_cases h : a.lo ≠ b.lo ∨ a.hi ≠ b.hi ∨ a.val ≠ b.val
          · simp [hab, h]
          · simp [hab, h]

theorem eq_iff : a.eq b = true ↔ a = b := by
  unfold eq
  split_ifs with h hf
  · simp [h]
  · simp only [beq_iff_eq, h, iff_false]
    intro he
    have hboth : a.is_full = true ∧ b.is_full = true := by
      rw [Bool.or_eq_true] at hf
      rcases hf with hf | hf
      · exact ⟨hf, he ▸ hf⟩
      · exact ⟨he ▸ hf, hf⟩
    exact h ((is_full_iff.mp hboth.1).trans (is_full_iff.mp hboth.2).symm)
  · rw [eqEntries_iff, ← RangeMap.ext_iff]
    exact ⟨ext_map, fun he => he ▸ rfl⟩

/-! ## What a weight means

A finite weight is the function from tsids to token sets, and `all` lies above
every such function. -/

/-- The tokens a weight allows at each tsid. -/
def points (w : Weight) : ℕ → Set ℕ := fun k => {x | (some (k, x) : Point) ∈ w}

def meaning (w : Weight) : WithTop (ℕ → Set ℕ) := if w = all then ⊤ else ↑w.points

/-- Pointwise difference of a function and a meaning. -/
def minus (f : ℕ → Set ℕ) : WithTop (ℕ → Set ℕ) → ℕ → Set ℕ
  | none => ⊥
  | some g => f \ g

@[simp] theorem meaning_all : all.meaning = ⊤ := if_pos rfl

theorem meaning_of_ne (h : a ≠ all) : a.meaning = ↑a.points := if_neg h

theorem meaning_eq_top_iff : a.meaning = ⊤ ↔ a = all := by
  refine ⟨fun h => ?_, fun h => h ▸ meaning_all⟩
  by_contra hne
  rw [meaning_of_ne hne] at h
  exact WithTop.coe_ne_top h

theorem meaning_le_iff : a.meaning ≤ b.meaning ↔ ∀ p, p ∈ a → p ∈ b := by
  by_cases hb : b = all
  · simp [hb]
  by_cases ha : a = all
  · subst ha
    rw [meaning_all, top_le_iff, meaning_eq_top_iff]
    exact ⟨fun h => absurd h hb, fun h => none_mem_iff.mp (h none mem_all)⟩
  · rw [meaning_of_ne ha, meaning_of_ne hb, WithTop.coe_le_coe]
    constructor
    · intro h p hp
      cases p with
      | none => exact absurd (none_mem_iff.mp hp) ha
      | some q => exact h q.1 hp
    · exact fun h k x hx => h (some (k, x)) hx

theorem meaning_union : (a.union b).meaning = a.meaning ⊔ b.meaning := by
  by_cases h : a = all ∨ b = all
  · have hu : a.union b = all := none_mem_iff.mp (mem_union.mpr h)
    rcases h with rfl | rfl <;> simp [hu]
  · have hne : a.union b ≠ all := fun hu => h (mem_union.mp (none_mem_iff.mpr hu))
    rw [not_or] at h
    rw [meaning_of_ne hne, meaning_of_ne h.1, meaning_of_ne h.2, ← WithTop.coe_sup]
    exact congrArg _ (funext fun k => Set.ext fun x => mem_union (p := some (k, x)))

theorem meaning_intersection [Runtime] :
    (a.intersection b).meaning = a.meaning ⊓ b.meaning := by
  by_cases ha : a = all
  · have hi : a.intersection b = b := ext_mem fun p => by simp [ha]
    rw [hi, ha, meaning_all, top_inf_eq]
  by_cases hb : b = all
  · have hi : a.intersection b = a := ext_mem fun p => by simp [hb]
    rw [hi, hb, meaning_all, inf_top_eq]
  have hne : a.intersection b ≠ all := fun hi =>
    ha (mem_intersection.mp (none_mem_iff.mpr hi)).1
  rw [meaning_of_ne hne, meaning_of_ne ha, meaning_of_ne hb, ← WithTop.coe_inf]
  exact congrArg _ (funext fun k => Set.ext fun x =>
    mem_intersection (p := some (k, x)))

theorem meaning_difference {f : ℕ → Set ℕ} (h : a.meaning = ↑f) :
    (a.difference b).meaning = ↑(minus f b.meaning) := by
  have ha : a ≠ all := fun he => by
    rw [he, meaning_all] at h
    exact WithTop.top_ne_coe h
  have hne : a.difference b ≠ all := fun hd =>
    ha ((mem_difference (b := b) ha).mp (none_mem_iff.mpr hd)).1
  rw [meaning_of_ne ha] at h
  obtain rfl := WithTop.coe_injective h
  rw [meaning_of_ne hne]
  refine congrArg _ (funext fun k => Set.ext fun x =>
    (mem_difference (p := some (k, x)) ha).trans ?_)
  by_cases hb : b = all
  · subst hb
    rw [meaning_all]
    exact iff_of_false (fun h => h.2 mem_all) id
  · rw [meaning_of_ne hb]
    rfl

theorem meaning_eq_bot_iff : a.meaning = ⊥ ↔ ∀ p, p ∉ a := by
  have hbot : empty.meaning = ⊥ := by
    rw [meaning_of_ne empty_ne_all]
    exact congrArg _ (funext fun k => Set.ext fun x =>
      iff_of_false (@not_mem_empty (some (k, x))) id)
  rw [← hbot, ← eq_empty_iff]
  refine ⟨fun h => eq_empty_iff.mpr fun p hp => ?_, fun h => h ▸ rfl⟩
  exact not_mem_empty (meaning_le_iff.mp h.le p hp)

theorem disjoint_meaning_iff : Disjoint a.meaning b.meaning ↔ ∀ p, p ∈ a → p ∉ b := by
  rw [disjoint_iff, ← @meaning_intersection a b Runtime.default, meaning_eq_bot_iff]
  simp

theorem meaning_inj : a.meaning = b.meaning ↔ a = b := by
  refine ⟨fun h => ext_mem fun p => ⟨?_, ?_⟩, fun h => h ▸ rfl⟩
  · exact meaning_le_iff.mp h.le p
  · exact meaning_le_iff.mp h.ge p

/-- The operations on weights are the lattice operations on their meanings, and `==` decides
equality of meanings. -/
theorem weight_ops_pointwise [Runtime] (a b : Weight) :
    (a.union b).meaning = a.meaning ⊔ b.meaning ∧
      (a.intersection b).meaning = a.meaning ⊓ b.meaning ∧
      (a.is_disjoint b = true ↔ Disjoint a.meaning b.meaning) ∧
      (a.is_subset b = true ↔ a.meaning ≤ b.meaning) ∧
      (∀ f : ℕ → Set ℕ, a.meaning = ↑f → (a.difference b).meaning = ↑(minus f b.meaning)) ∧
      (a.meaning = b.meaning ↔ a.eq b = true) :=
  ⟨meaning_union, meaning_intersection, is_disjoint_iff.trans disjoint_meaning_iff.symm,
    is_subset_iff.trans meaning_le_iff.symm, fun _ => meaning_difference,
    meaning_inj.trans eq_iff.symm⟩

end Weight

end GlrMask
