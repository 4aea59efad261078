import GlrMask.WeightBuilder

/-!
# Uncached union of weight maps

Disjoint tsid spans are appended, two single entries are swept over their four
boundaries, and every other pair goes through a full join.
-/

namespace GlrMask

open RangeSet RangeMap CompactRangeBuilder

def single_compact_entry (weight : WeightMap) : Option WeightRangeEntry :=
  match weight.runs with
  | [entry] => some entry
  | _ => none

/-- Insert into a sorted list of boundaries, unless the value is there already. -/
def insert_boundary : List ℕ → ℕ → List ℕ
  | [], value => [value]
  | b :: boundaries, value =>
      if b < value then b :: insert_boundary boundaries value
      else if b = value then b :: boundaries
      else value :: b :: boundaries

def single_boundaries (left right : WeightRangeEntry) : List ℕ :=
  insert_boundary (insert_boundary (insert_boundary (insert_boundary []
    left.lo) (left.hi + 1)) right.lo) (right.hi + 1)

def tokensAt (entry : WeightRangeEntry) (start : ℕ) : Option TokenSet :=
  if entry.lo ≤ start ∧ start ≤ entry.hi then some entry.val else none

def combine_single_entries (left right : WeightRangeEntry)
    (combine : Option TokenSet → Option TokenSet → Option TokenSet) : WeightMap :=
  ((windows (single_boundaries left right)).foldl (fun builder w =>
    builder.pushOrFlush w.1 (w.2 - 1) (combine (tokensAt left w.1) (tokensAt right w.1))) new).finish

def combine_compact_entries (left right : WeightMap)
    (combine : Option TokenSet → Option TokenSet → Option TokenSet) : WeightMap :=
  ((fullJoin left right).foldl (fun builder p =>
    builder.pushOrFlush p.lo p.hi (combine p.left p.right)) new).finish

def weight_tsid_span (weight : WeightMap) : Option (ℕ × ℕ) :=
  match weight.runs with
  | [] => none
  | first :: ranges => some (first.lo, ranges.foldl (fun _ range => range.hi) first.hi)

def union_disjoint_tsid_ranges (left right : WeightMap) : Option WeightMap :=
  match weight_tsid_span left, weight_tsid_span right with
  | some (left_start, left_end), some (right_start, right_end) =>
      if left_end < right_start then some ((new.extend left.runs).extend right.runs).finish
      else if right_end < left_start then some ((new.extend right.runs).extend left.runs).finish
      else none
  | _, _ => none

def union_compact_entries (left right : WeightMap) : WeightMap :=
  if left.isEmpty then right
  else if right.isEmpty then left
  else combine_compact_entries left right union_token_sets

def union_uncached (self other : WeightMap) : WeightMap :=
  match union_disjoint_tsid_ranges self other with
  | some result => result
  | none =>
      match single_compact_entry self, single_compact_entry other with
      | some left, some right => combine_single_entries left right union_token_sets
      | _, _ => union_compact_entries self other

/-! ## Sweeping windows -/

theorem mem_insert_boundary {l : List ℕ} {v x : ℕ} :
    x ∈ insert_boundary l v ↔ x = v ∨ x ∈ l := by
  induction l with
  | nil => simp [insert_boundary]
  | cons b l ih =>
      simp only [insert_boundary]
      split_ifs with h₁ h₂
      · simp only [List.mem_cons, ih]
        tauto
      · subst h₂
        simp
      · simp

theorem insert_boundary_sorted {l : List ℕ} (hl : l.Pairwise (· < ·)) (v : ℕ) :
    (insert_boundary l v).Pairwise (· < ·) := by
  induction l with
  | nil => simp [insert_boundary]
  | cons b l ih =>
      simp only [insert_boundary]
      split_ifs with h₁ h₂
      · refine List.pairwise_cons.mpr ⟨fun x hx => ?_, ih hl.tail⟩
        rcases mem_insert_boundary.mp hx with rfl | hx
        · exact h₁
        · exact List.rel_of_pairwise_cons hl hx
      · exact hl
      · refine List.pairwise_cons.mpr ⟨fun x hx => ?_, hl⟩
        rcases List.mem_cons.mp hx with rfl | hx
        · omega
        · have := List.rel_of_pairwise_cons hl hx
          omega

theorem single_boundaries_sorted (left right : WeightRangeEntry) :
    (single_boundaries left right).Pairwise (· < ·) :=
  insert_boundary_sorted (insert_boundary_sorted (insert_boundary_sorted
    (insert_boundary_sorted List.Pairwise.nil _) _) _) _

theorem mem_single_boundaries {left right : WeightRangeEntry} {x : ℕ} :
    x ∈ single_boundaries left right ↔
      x = right.hi + 1 ∨ x = right.lo ∨ x = left.hi + 1 ∨ x = left.lo := by
  simp [single_boundaries, mem_insert_boundary]

/-- Feeding pieces to a builder pushes the pieces that carry a token set. -/
theorem foldl_pushOrFlush {α : Type*} (lo hi : α → ℕ) (t : α → Option TokenSet) (l : List α)
    (hl : ∀ x ∈ l, lo x ≤ hi x ∧ hi x ≤ u32Max) {b : CompactRangeBuilder} (hb : b.Valid) :
    (l.foldl (fun b x => b.pushOrFlush (lo x) (hi x) (t x)) b).Valid ∧
      ∀ k, (l.foldl (fun b x => b.pushOrFlush (lo x) (hi x) (t x)) b).get k =
        (lookupRuns (l.filterMap fun x => (t x).map (Run.mk (lo x) (hi x))).reverse k).or
          (b.get k) := by
  induction l generalizing b with
  | nil => exact ⟨hb, fun k => rfl⟩
  | cons x l ih =>
      obtain ⟨hle, hM⟩ := hl x List.mem_cons_self
      have hih := ih (fun y hy => hl y (List.mem_cons_of_mem _ hy))
        (valid_pushOrFlush hb hle hM (t x))
      refine ⟨hih.1, fun k => ?_⟩
      rw [List.foldl_cons, hih.2, get_pushOrFlush hb hle, List.filterMap_cons]
      cases t x with
      | none => simp
      | some v =>
          rw [Option.map_some, List.reverse_cons, lookupRuns_append, Option.or_assoc]
          simp only [lookupRuns_cons, lookupRuns_nil, Run.Covers]
          by_cases hk : lo x ≤ k ∧ k ≤ hi x <;> simp [hk]

/-- The finished map of a sweep over pieces in key order. -/
theorem get_finish_foldl {α : Type*} (lo hi : α → ℕ) (t : α → Option TokenSet) {l : List α}
    (hl : ∀ x ∈ l, lo x ≤ hi x ∧ hi x ≤ u32Max)
    (ho : Ordered (l.filterMap fun x => (t x).map (Run.mk (lo x) (hi x)))) (k : ℕ) :
    (l.foldl (fun b x => b.pushOrFlush (lo x) (hi x) (t x)) new).finish.get k =
      lookupRuns (l.filterMap fun x => (t x).map (Run.mk (lo x) (hi x))) k := by
  obtain ⟨hv, hget⟩ := foldl_pushOrFlush lo hi t l hl valid_new
  rw [get_finish hv, hget, get_new, Option.or_none, ho.lookupRuns_reverse]

theorem get_combine_compact_entries {left right : WeightMap}
    {combine : Option TokenSet → Option TokenSet → Option TokenSet}
    (hc : combine none none = none) (k : ℕ) :
    (combine_compact_entries left right combine).get k =
      combine (left.get k) (right.get k) := by
  rw [combine_compact_entries, get_finish_foldl (fun p : Piece TokenSet TokenSet => p.lo)
    (fun p => p.hi) (fun p => combine p.left p.right)
    (fun p hp => ⟨(fullJoin_sound hp).1, (fullJoin_sound hp).2.1⟩) combineRuns_ordered]
  exact lookupRuns_combineRuns hc k

theorem tokensAt_eq_lookupRuns (entry : WeightRangeEntry) (k : ℕ) :
    tokensAt entry k = lookupRuns [entry] k := rfl

theorem get_combine_single_entries {left right : WeightRangeEntry}
    (hl : left.lo ≤ left.hi ∧ left.hi ≤ u32Max) (hr : right.lo ≤ right.hi ∧ right.hi ≤ u32Max)
    {combine : Option TokenSet → Option TokenSet → Option TokenSet}
    (hc : combine none none = none) (k : ℕ) :
    (combine_single_entries left right combine).get k =
      combine (tokensAt left k) (tokensAt right k) := by
  have hsorted := single_boundaries_sorted left right
  have hwin : ∀ w ∈ windows (single_boundaries left right),
      w.1 ≤ w.2 - 1 ∧ w.2 - 1 ≤ u32Max := by
    intro w hw
    have hlt := (windows_gap hsorted hw).1
    have hmem := mem_single_boundaries.mp (mem_of_mem_windows hw).2
    omega
  have hleft : ∀ x ∈ cutPoints [left], x ∈ single_boundaries left right := by
    intro x hx
    simp only [cutPoints, List.flatMap_cons, List.flatMap_nil, List.append_nil, List.mem_cons,
      List.not_mem_nil, or_false] at hx
    exact mem_single_boundaries.mpr (by tauto)
  have hright : ∀ x ∈ cutPoints [right], x ∈ single_boundaries left right := by
    intro x hx
    simp only [cutPoints, List.flatMap_cons, List.flatMap_nil, List.append_nil, List.mem_cons,
      List.not_mem_nil, or_false] at hx
    exact mem_single_boundaries.mpr (by tauto)
  rw [combine_single_entries, get_finish_foldl (fun w : ℕ × ℕ => w.1) (fun w => w.2 - 1)
    (fun w => combine (tokensAt left w.1) (tokensAt right w.1)) hwin
    (windowRuns_ordered hsorted fun j => combine (tokensAt left j) (tokensAt right j))]
  refine lookupRuns_windowRuns hsorted
    (g := fun k => combine (tokensAt left k) (tokensAt right k)) (fun w hw j hlo hhi => ?_)
    (fun j hj => ?_) k
  · simp only [tokensAt_eq_lookupRuns]
    rw [lookupRuns_eq_on_window hsorted hleft hw hlo hhi,
      lookupRuns_eq_on_window hsorted hright hw hlo hhi]
  · by_cases hcl : left.Covers j
    · exact exists_window_of_run hsorted (mem_single_boundaries.mpr (by simp))
        (mem_single_boundaries.mpr (by simp)) hcl
    · by_cases hcr : right.Covers j
      · exact exists_window_of_run hsorted (mem_single_boundaries.mpr (by simp))
          (mem_single_boundaries.mpr (by simp)) hcr
      · have hnl : tokensAt left j = none := if_neg hcl
        have hnr : tokensAt right j = none := if_neg hcr
        exact absurd (by rw [hnl, hnr, hc]) hj

/-! ## The union is pointwise -/

theorem weight_tsid_span_spec {m : WeightMap} {lo hi : ℕ}
    (h : weight_tsid_span m = some (lo, hi)) {r : WeightRangeEntry} (hr : r ∈ m.runs) :
    lo ≤ r.lo ∧ r.hi ≤ hi := by
  have hlast : ∀ (l : List WeightRangeEntry) (first : WeightRangeEntry),
      Canonical (first :: l) → ∀ s ∈ first :: l,
        s.hi ≤ l.foldl (fun _ range => range.hi) first.hi := by
    intro l
    induction l with
    | nil => simp
    | cons t l ih =>
        intro first hcan s hs
        rcases List.mem_cons.mp hs with rfl | hs
        · have hb : s.Before t := List.rel_of_pairwise_cons hcan.2 List.mem_cons_self
          have ht := hcan.1 t (List.mem_cons_of_mem _ List.mem_cons_self)
          have := ih t hcan.tail t List.mem_cons_self
          rw [List.foldl_cons]
          have := hb.1
          omega
        · exact ih t hcan.tail s hs
  have hcan := m.canonical
  unfold weight_tsid_span at h
  split at h
  · cases h
  · rename_i first ranges he
    obtain ⟨rfl, rfl⟩ := Prod.mk.inj (Option.some.inj h)
    rw [he] at hr hcan
    refine ⟨?_, hlast ranges first hcan r hr⟩
    rcases List.mem_cons.mp hr with rfl | hr
    · exact le_rfl
    · have hb : first.Before r := List.rel_of_pairwise_cons hcan.2 hr
      have := hcan.1 first List.mem_cons_self
      have := hb.1
      omega

theorem get_append_disjoint {left right : WeightMap}
    (h : ∀ r ∈ left.runs, ∀ s ∈ right.runs, r.hi < s.lo) (k : ℕ) :
    ((new.extend left.runs).extend right.runs).finish.get k =
      (left.get k).or (right.get k) := by
  have hfits : Fits u32Max (left.runs ++ right.runs) := fun r hr => by
    rcases List.mem_append.mp hr with hr | hr
    · exact left.fits_runs r hr
    · exact right.fits_runs r hr
  have hord : Ordered (left.runs ++ right.runs) :=
    ⟨fun r hr => (hfits r hr).1, List.pairwise_append.mpr
      ⟨left.canonical.ordered.2, right.canonical.ordered.2, h⟩⟩
  rw [extend, extend, ← List.foldl_append]
  exact (get_finish_extend hfits hord k).trans (lookupRuns_append _ _ k)

theorem or_eq_union_token_sets {x y : Option TokenSet} (h : x = none ∨ y = none) :
    x.or y = union_token_sets x y := by
  rcases h with rfl | rfl
  · cases y <;> rfl
  · cases x <;> rfl

theorem union_token_sets_comm (x y : Option TokenSet) :
    union_token_sets x y = union_token_sets y x := by
  cases x <;> cases y <;> try rfl
  simp only [union_token_sets, shared_token_union_eq]
  exact congrArg some (ext_mem fun k => by simp [or_comm])

/-- Two maps with separated runs have no tsid in common. -/
theorem get_none_of_separated {left right : WeightMap}
    (h : ∀ r ∈ left.runs, ∀ s ∈ right.runs, r.hi < s.lo) (k : ℕ) :
    left.get k = none ∨ right.get k = none := by
  by_contra hcon
  push Not at hcon
  obtain ⟨x, hx⟩ := Option.ne_none_iff_exists'.mp hcon.1
  obtain ⟨y, hy⟩ := Option.ne_none_iff_exists'.mp hcon.2
  obtain ⟨r, hr, hcr, -⟩ := exists_run_of_get hx
  obtain ⟨s, hs, hcs, -⟩ := exists_run_of_get hy
  have := h r hr s hs
  have := hcr.2
  have := hcs.1
  omega

theorem get_union_disjoint {left right result : WeightMap}
    (h : union_disjoint_tsid_ranges left right = some result) (k : ℕ) :
    result.get k = union_token_sets (left.get k) (right.get k) := by
  unfold union_disjoint_tsid_ranges at h
  split at h
  · rename_i left_start left_end right_start right_end hl hr
    split_ifs at h with h₁ h₂
    · have hsep : ∀ r ∈ left.runs, ∀ s ∈ right.runs, r.hi < s.lo := fun r hmr s hms => by
        have := (weight_tsid_span_spec hl hmr).2
        have := (weight_tsid_span_spec hr hms).1
        omega
      rw [← Option.some.inj h, get_append_disjoint hsep,
        or_eq_union_token_sets (get_none_of_separated hsep k)]
    · have hsep : ∀ r ∈ right.runs, ∀ s ∈ left.runs, r.hi < s.lo := fun r hmr s hms => by
        have := (weight_tsid_span_spec hr hmr).2
        have := (weight_tsid_span_spec hl hms).1
        omega
      rw [← Option.some.inj h, get_append_disjoint hsep,
        or_eq_union_token_sets (get_none_of_separated hsep k), union_token_sets_comm]
  · cases h

theorem single_compact_entry_spec {m : WeightMap} {e : WeightRangeEntry}
    (h : single_compact_entry m = some e) :
    m.runs = [e] ∧ (e.lo ≤ e.hi ∧ e.hi ≤ u32Max) ∧ ∀ k, m.get k = tokensAt e k := by
  unfold single_compact_entry at h
  split at h
  · rename_i entry he
    obtain rfl := Option.some.inj h
    refine ⟨he, m.fits_runs entry (he ▸ List.mem_cons_self), fun k => ?_⟩
    rw [RangeMap.get, he]
    rfl
  · cases h

theorem get_union_uncached (self other : WeightMap) (k : ℕ) :
    (union_uncached self other).get k = union_token_sets (self.get k) (other.get k) := by
  unfold union_uncached
  split
  · rename_i result h
    exact get_union_disjoint h k
  · split
    · rename_i left right hl hr
      obtain ⟨-, hfl, hgl⟩ := single_compact_entry_spec hl
      obtain ⟨-, hfr, hgr⟩ := single_compact_entry_spec hr
      rw [get_combine_single_entries hfl hfr rfl, hgl, hgr]
    · unfold union_compact_entries
      split_ifs with h₁ h₂
      · rw [isEmpty_eq_true.mp h₁, get_empty]
        cases other.get k <;> rfl
      · rw [isEmpty_eq_true.mp h₂, get_empty]
        cases self.get k <;> rfl
      · exact get_combine_compact_entries rfl k

end GlrMask
