import GlrMask.Weight
import GlrMask.WeightSweep
import GlrMask.SortedMap

/-!
# The union of many weights

Up to four weights are united one after the other, more of them in one sweep
over all their entries. Weights with a single tsid each are collected by tsid.
-/

namespace GlrMask

open RangeSet RangeMap CompactRangeBuilder

def union_active_token_sets : List TokenSet → Option TokenSet
  | [] => none
  | [tokens] => some tokens
  | [left, right] => some (shared_token_union left right)
  | active_tokens => shared_token_union_many active_tokens

/-- Push the united token sets of every window. -/
def emitSweep (sweep : List (Run (List TokenSet))) : WeightMap :=
  (sweep.foldl (fun builder window =>
    builder.pushOrFlush window.lo window.hi (union_active_token_sets window.val)) new).finish

def union_all_multiway [Runtime] (weights : List WeightMap) : WeightMap :=
  let all_entries := weights.flatMap fun weight => weight.runs
  if all_entries.isEmpty then RangeMap.empty
  else
    let all_entries := (Runtime.reorder all_entries).insertionSort fun a b => a.lo ≤ b.lo
    if (all_entries.zip all_entries.tail).all fun pair => pair.1.hi < pair.2.lo then
      (new.extend all_entries).finish
    else if all_entries.length < 64 then emitSweep (rescanWindows all_entries)
    else emitSweep (incrementalWindows all_entries)

/-- Add the tokens of a weight with a single tsid; other weights are refused. -/
def addSingleTsid (per_tsid : SortedMap ℕ TokenSet) (weight : WeightMap) :
    Option (SortedMap ℕ TokenSet) :=
  (single_compact_entry weight).bind fun entry =>
    if entry.lo ≠ entry.hi ∨ entry.lo = u32Max then none
    else some (per_tsid.insert entry.lo (match per_tsid.get entry.lo with
      | some existing => shared_token_union existing entry.val
      | none => entry.val))

/-- A map with one point range for each tsid. -/
def pointMap (entries : List (ℕ × TokenSet)) : WeightMap :=
  (new.extend (entries.map fun e => ⟨e.1, e.1, e.2⟩)).finish

def union_all_single_tsid_entries (weights : List WeightMap) : Option WeightMap :=
  (weights.foldlM addSingleTsid SortedMap.empty).map fun per_tsid => pointMap per_tsid.entries

/-! ## Uniting entries -/

theorem union_active_token_sets_eq (l : List TokenSet) :
    union_active_token_sets l = shared_token_union_many l := by
  match l with
  | [] => rfl
  | [_] => rfl
  | [_, _] => rfl
  | _ :: _ :: _ :: _ => rfl

/-- The map holds exactly the tokens of the entries. -/
structure UnitesEntries (entries : List WeightRangeEntry) (m : WeightMap) : Prop where
  mem : ∀ k x, (∃ t ∈ m.get k, x ∈ t) ↔ ∃ e ∈ entries, e.Covers k ∧ x ∈ e.val
  covered : ∀ k t, m.get k = some t → ∃ e ∈ entries, e.Covers k

theorem emitSweep_unites {entries : List WeightRangeEntry} {sweep : List (Run (List TokenSet))}
    (h : Sweeps entries sweep) (hfits : Fits u32Max entries)
    (htokens : ∀ e ∈ entries, e.val ≠ RangeMap.empty) :
    UnitesEntries entries (emitSweep sweep) := by
  have hbounds : ∀ w ∈ sweep, w.lo ≤ w.hi ∧ w.hi ≤ u32Max := fun w hw => by
    obtain ⟨e, he, hle⟩ := h.bounded w hw
    exact ⟨h.ordered.1 w hw, hle.trans (hfits e he).2⟩
  have hord : Ordered (sweep.filterMap fun w =>
      (union_active_token_sets w.val).map (Run.mk w.lo w.hi)) := by
    constructor
    · intro r hr
      obtain ⟨w, hw, he⟩ := List.mem_filterMap.mp hr
      obtain ⟨t, -, rfl⟩ := Option.map_eq_some_iff.mp he
      exact h.ordered.1 w hw
    · rw [List.pairwise_filterMap]
      apply h.ordered.2.imp
      intro v w hvw r hr s hs
      obtain ⟨t, -, rfl⟩ := Option.map_eq_some_iff.mp hr
      obtain ⟨t', -, rfl⟩ := Option.map_eq_some_iff.mp hs
      exact hvw
  have hget : ∀ k t, (emitSweep sweep).get k = some t ↔
      ∃ w ∈ sweep, w.Covers k ∧ union_active_token_sets w.val = some t := by
    intro k t
    rw [emitSweep, get_finish_foldl (fun w : Run (List TokenSet) => w.lo) (fun w => w.hi)
      (fun w => union_active_token_sets w.val) hbounds hord]
    constructor
    · intro hl
      obtain ⟨r, hr, hc, hv⟩ := exists_run_of_lookupRuns hl
      obtain ⟨w, hw, he⟩ := List.mem_filterMap.mp hr
      obtain ⟨t', ht', rfl⟩ := Option.map_eq_some_iff.mp he
      exact ⟨w, hw, hc, ht'.trans (congrArg some hv)⟩
    · rintro ⟨w, hw, hc, ht⟩
      have hmem : (⟨w.lo, w.hi, t⟩ : Run TokenSet) ∈ sweep.filterMap fun w =>
          (union_active_token_sets w.val).map (Run.mk w.lo w.hi) :=
        List.mem_filterMap.mpr ⟨w, hw, by rw [ht]; rfl⟩
      exact hord.lookup_of_mem hmem hc
  constructor
  · intro k x
    constructor
    · rintro ⟨t, ht, hx⟩
      obtain ⟨w, hw, hc, hu⟩ := (hget k t).mp ht
      rw [union_active_token_sets_eq] at hu
      obtain ⟨s, hs, hxs⟩ := (mem_shared_token_union_many hu).mp hx
      obtain ⟨e, he, hec, rfl⟩ := (h.active w hw k hc s).mp hs
      exact ⟨e, he, hec, hxs⟩
    · rintro ⟨e, he, hec, hx⟩
      obtain ⟨w, hw, hc⟩ := h.covers e he k hec
      have hs : e.val ∈ w.val := (h.active w hw k hc e.val).mpr ⟨e, he, hec, rfl⟩
      obtain ⟨t, ht⟩ := Option.ne_none_iff_exists'.mp
        (shared_token_union_many_ne_none hs (htokens e he))
      refine ⟨t, (hget k t).mpr ⟨w, hw, hc, ?_⟩, ?_⟩
      · rw [union_active_token_sets_eq, ht]
      · exact (mem_shared_token_union_many ht).mpr ⟨e.val, hs, hx⟩
  · intro k t ht
    obtain ⟨w, hw, hc, hu⟩ := (hget k t).mp ht
    cases hval : w.val with
    | nil =>
        rw [hval] at hu
        cases hu
    | cons s l =>
        obtain ⟨e, he, hec, -⟩ := (h.active w hw k hc s).mp (hval ▸ List.mem_cons_self)
        exact ⟨e, he, hec⟩

theorem isOrdered_of_zip {l : List WeightRangeEntry} (hle : ∀ e ∈ l, e.lo ≤ e.hi)
    (h : ((l.zip l.tail).all fun pair => pair.1.hi < pair.2.lo) = true) : Ordered l := by
  refine ⟨hle, ?_⟩
  induction l with
  | nil => exact List.Pairwise.nil
  | cons a l ih =>
      cases l with
      | nil => exact List.pairwise_singleton _ _
      | cons b l =>
          simp only [List.tail_cons, List.zip_cons_cons, List.all_cons, Bool.and_eq_true,
            decide_eq_true_eq] at h
          have htail := ih (fun e he => hle e (List.mem_cons_of_mem _ he)) h.2
          apply List.pairwise_cons.mpr ⟨fun e he => ?_, htail⟩
          rcases List.mem_cons.mp he with rfl | he
          · exact h.1
          · have := List.rel_of_pairwise_cons htail he
            have := hle b (by simp)
            omega

theorem UnitesEntries.congr {entries entries' : List WeightRangeEntry} {m : WeightMap}
    (h : UnitesEntries entries m) (hmem : ∀ e, e ∈ entries ↔ e ∈ entries') :
    UnitesEntries entries' m := by
  constructor
  · intro k x
    rw [h.mem]
    exact exists_congr fun e => and_congr_left fun _ => hmem e
  · intro k t ht
    obtain ⟨e, he, hc⟩ := h.covered k t ht
    exact ⟨e, (hmem e).mp he, hc⟩

theorem unitesEntries_extend {entries : List WeightRangeEntry} (hfits : Fits u32Max entries)
    (hord : Ordered entries) : UnitesEntries entries (new.extend entries).finish := by
  have hget := get_finish_extend hfits hord
  constructor
  · intro k x
    rw [hget]
    constructor
    · rintro ⟨t, ht, hx⟩
      obtain ⟨e, he, hc, rfl⟩ := exists_run_of_lookupRuns ht
      exact ⟨e, he, hc, hx⟩
    · rintro ⟨e, he, hc, hx⟩
      exact ⟨e.val, hord.lookup_of_mem he hc, hx⟩
  · intro k t ht
    rw [hget] at ht
    obtain ⟨e, he, hc, -⟩ := exists_run_of_lookupRuns ht
    exact ⟨e, he, hc⟩

/-- Unite entries, in one pass when no two of them overlap. -/
def uniteEntries [Runtime] (all_entries : List WeightRangeEntry) : WeightMap :=
  let all_entries := (Runtime.reorder all_entries).insertionSort fun a b => a.lo ≤ b.lo
  if (all_entries.zip all_entries.tail).all fun pair => pair.1.hi < pair.2.lo then
    (new.extend all_entries).finish
  else if all_entries.length < 64 then emitSweep (rescanWindows all_entries)
  else emitSweep (incrementalWindows all_entries)

theorem uniteEntries_unites [Runtime] {entries : List WeightRangeEntry} (hfits : Fits u32Max entries)
    (htokens : ∀ e ∈ entries, e.val ≠ RangeMap.empty) :
    UnitesEntries entries (uniteEntries entries) := by
  have hmem : ∀ e, e ∈ (Runtime.reorder entries).insertionSort (fun a b => a.lo ≤ b.lo) ↔
      e ∈ entries := by
    intro e
    rw [List.mem_insertionSort, (Runtime.reorder_perm _).mem_iff]
  have hfits' : Fits u32Max ((Runtime.reorder entries).insertionSort fun a b => a.lo ≤ b.lo) :=
    fun e he => hfits e ((hmem e).mp he)
  have hne : ∀ e ∈ (Runtime.reorder entries).insertionSort (fun a b => a.lo ≤ b.lo),
      e.val ≠ RangeMap.empty := fun e he => htokens e ((hmem e).mp he)
  have hsorted : ((Runtime.reorder entries).insertionSort fun a b => a.lo ≤ b.lo).Pairwise
      (fun a b => a.lo ≤ b.lo) := by
    have : Std.Total (fun a b : WeightRangeEntry => a.lo ≤ b.lo) := ⟨fun a b => le_total a.lo b.lo⟩
    have : IsTrans WeightRangeEntry (fun a b => a.lo ≤ b.lo) := ⟨fun a b c => le_trans⟩
    exact List.pairwise_insertionSort _ _
  apply UnitesEntries.congr _ hmem
  unfold uniteEntries
  dsimp only
  split_ifs with hdisjoint hshort
  · exact unitesEntries_extend hfits' (isOrdered_of_zip (fun e he => (hfits' e he).1) hdisjoint)
  · exact emitSweep_unites (rescanWindows_sweeps (fun e he => (hfits' e he).1) hsorted) hfits' hne
  · exact emitSweep_unites (incrementalWindows_sweeps (fun e he => (hfits' e he).1) hsorted) hfits' hne

theorem fits_entries (weights : List WeightMap) :
    Fits u32Max (weights.flatMap fun weight => weight.runs) := by
  intro e he
  obtain ⟨w, -, hw⟩ := List.mem_flatMap.mp he
  exact w.fits_runs e hw

theorem union_all_multiway_eq [Runtime] (weights : List WeightMap) : union_all_multiway weights =
    if (weights.flatMap fun weight => weight.runs).isEmpty then RangeMap.empty
    else uniteEntries (weights.flatMap fun weight => weight.runs) := rfl

theorem union_all_multiway_unites [Runtime] {weights : List WeightMap}
    (htokens : ∀ w ∈ weights, ∀ e ∈ w.runs, e.val ≠ RangeMap.empty) :
    UnitesEntries (weights.flatMap fun weight => weight.runs) (union_all_multiway weights) := by
  rw [union_all_multiway_eq]
  split_ifs with hempty
  · rw [List.isEmpty_iff.mp hempty]
    exact ⟨fun k x => by simp, fun k t ht => by cases ht⟩
  · apply uniteEntries_unites (fits_entries weights)
    intro e he
    obtain ⟨w, hw, hr⟩ := List.mem_flatMap.mp he
    exact htokens w hw e hr

/-! ## Weights with a single tsid -/

theorem pointMap_unites {entries : List (ℕ × TokenSet)}
    (hsorted : entries.Pairwise (fun a b => a.1 < b.1)) (hle : ∀ e ∈ entries, e.1 ≤ u32Max) :
    UnitesEntries (entries.map fun e => ⟨e.1, e.1, e.2⟩) (pointMap entries) := by
  apply unitesEntries_extend
  · intro r hr
    obtain ⟨e, he, rfl⟩ := List.mem_map.mp hr
    exact ⟨le_rfl, hle e he⟩
  · constructor
    · intro r hr
      obtain ⟨e, -, rfl⟩ := List.mem_map.mp hr
      exact le_rfl
    · exact List.pairwise_map.mpr hsorted

/-- The points collected so far are those of the weights `done`. -/
structure CollectsPoints (done : List WeightMap) (per_tsid : SortedMap ℕ TokenSet) : Prop where
  le : ∀ e ∈ per_tsid.entries, e.1 ≤ u32Max
  mem : ∀ k x, (∃ t ∈ per_tsid.get k, x ∈ t) ↔
    ∃ e ∈ done.flatMap (fun weight => weight.runs), e.Covers k ∧ x ∈ e.val
  covered : ∀ k t, per_tsid.get k = some t →
    ∃ e ∈ done.flatMap (fun weight => weight.runs), e.Covers k

theorem addSingleTsid_spec {done : List WeightMap} {per_tsid per_tsid' : SortedMap ℕ TokenSet}
    {weight : WeightMap} (h : CollectsPoints done per_tsid)
    (hr : addSingleTsid per_tsid weight = some per_tsid') :
    CollectsPoints (done ++ [weight]) per_tsid' := by
  obtain ⟨entry, hentry, hr⟩ := Option.bind_eq_some_iff.mp hr
  obtain ⟨hruns, hbound, -⟩ := single_compact_entry_spec hentry
  split_ifs at hr with hcond
  obtain ⟨hpoint, -⟩ := not_or.mp hcond
  have hpoint : entry.lo = entry.hi := not_not.mp hpoint
  obtain rfl := Option.some.inj hr
  have hcov : ∀ k, entry.Covers k ↔ entry.lo = k := fun k => by
    simp only [Run.Covers]
    omega
  have hentries : ∀ e, e ∈ (done ++ [weight]).flatMap (fun weight => weight.runs) ↔
      e ∈ done.flatMap (fun weight => weight.runs) ∨ e = entry := fun e => by
    rw [List.flatMap_append, List.mem_append]
    simp [hruns]
  constructor
  · intro e he
    rcases SortedMap.mem_insertEntry he with rfl | he
    · exact hbound.1.trans hbound.2
    · exact h.le e he
  · intro k x
    simp only [hentries, or_and_right, exists_or, exists_eq_left, hcov, ← h.mem k x]
    rw [SortedMap.get_insert]
    by_cases hk : entry.lo = k
    · subst hk
      cases hget : per_tsid.get entry.lo with
      | none => simp
      | some existing => simp [shared_token_union_eq]
    · simp [hk]
  · intro k t ht
    rw [SortedMap.get_insert] at ht
    split_ifs at ht with hk
    · exact ⟨entry, (hentries entry).mpr (Or.inr rfl), (hcov k).mpr hk⟩
    · obtain ⟨e, he, hc⟩ := h.covered k t ht
      exact ⟨e, (hentries e).mpr (Or.inl he), hc⟩

theorem foldlM_addSingleTsid {done weights : List WeightMap}
    {per_tsid per_tsid' : SortedMap ℕ TokenSet} (h : CollectsPoints done per_tsid)
    (hr : weights.foldlM addSingleTsid per_tsid = some per_tsid') :
    CollectsPoints (done ++ weights) per_tsid' := by
  induction weights generalizing done per_tsid with
  | nil =>
      obtain rfl := Option.some.inj hr
      rwa [List.append_nil]
  | cons weight weights ih =>
      rw [List.foldlM_cons, Option.bind_eq_bind, Option.bind_eq_some_iff] at hr
      obtain ⟨per_tsid₁, hadd, hrest⟩ := hr
      have := ih (addSingleTsid_spec h hadd) hrest
      rwa [List.append_assoc] at this

theorem union_all_single_tsid_entries_unites {weights : List WeightMap} {m : WeightMap}
    (hr : union_all_single_tsid_entries weights = some m) :
    UnitesEntries (weights.flatMap fun weight => weight.runs) m := by
  obtain ⟨per_tsid, hfold, rfl⟩ := Option.map_eq_some_iff.mp hr
  have hstart : CollectsPoints [] SortedMap.empty := by
    constructor
    · intro e he
      simp at he
    · simp
    · intro k t ht
      simp at ht
  have h := foldlM_addSingleTsid hstart hfold
  rw [List.nil_append] at h
  have hpoints := pointMap_unites per_tsid.sorted h.le
  have hiff : ∀ k x, (∃ e ∈ per_tsid.entries.map (fun e => (⟨e.1, e.1, e.2⟩ : WeightRangeEntry)),
      e.Covers k ∧ x ∈ e.val) ↔ ∃ t ∈ per_tsid.get k, x ∈ t := by
    intro k x
    constructor
    · rintro ⟨r, hr, hc, hx⟩
      obtain ⟨e, he, rfl⟩ := List.mem_map.mp hr
      obtain rfl : e.1 = k := le_antisymm hc.1 hc.2
      exact ⟨e.2, SortedMap.get_eq_some_iff.mpr he, hx⟩
    · rintro ⟨t, ht, hx⟩
      exact ⟨⟨k, k, t⟩, List.mem_map_of_mem (SortedMap.get_eq_some_iff.mp ht), ⟨le_rfl, le_rfl⟩, hx⟩
  constructor
  · intro k x
    rw [hpoints.mem, hiff, h.mem]
  · intro k t ht
    obtain ⟨r, hr, hc⟩ := hpoints.covered k t ht
    obtain ⟨e, he, rfl⟩ := List.mem_map.mp hr
    obtain rfl : e.1 = k := le_antisymm hc.1 hc.2
    exact h.covered e.1 e.2 (SortedMap.get_eq_some_iff.mpr he)

/-! ## The union of weights -/

/-- A finite map that holds exactly the tokens of the weights. -/
structure UnitesWeights (weights : List Weight) (m : WeightMap) : Prop where
  finite : FiniteMap m
  mem : ∀ k x, (∃ t ∈ m.get k, x ∈ t) ↔ ∃ w ∈ weights, ∃ t ∈ w.map.get k, x ∈ t

theorem UnitesWeights.congr {weights weights' : List Weight} {m : WeightMap}
    (h : UnitesWeights weights m) (hmem : ∀ w, w ∈ weights ↔ w ∈ weights') :
    UnitesWeights weights' m := by
  refine ⟨h.finite, fun k x => ?_⟩
  rw [h.mem]
  exact exists_congr fun w => and_congr_left fun _ => hmem w

theorem UnitesEntries.unitesWeights {weights : List Weight} {m : WeightMap}
    (hfinite : ∀ w ∈ weights, FiniteMap w.map)
    (h : UnitesEntries ((weights.map Weight.map).flatMap fun weight => weight.runs) m) :
    UnitesWeights weights m := by
  have hentries : ∀ e k, (e ∈ (weights.map Weight.map).flatMap (fun weight => weight.runs) ∧
      e.Covers k) → ∃ w ∈ weights, w.map.get k = some e.val := by
    rintro e k ⟨he, hc⟩
    obtain ⟨m, hm, hr⟩ := List.mem_flatMap.mp he
    obtain ⟨w, hw, rfl⟩ := List.mem_map.mp hm
    exact ⟨w, hw, w.map.get_of_mem hr hc⟩
  have hmem : ∀ k x, (∃ t ∈ m.get k, x ∈ t) ↔ ∃ w ∈ weights, ∃ t ∈ w.map.get k, x ∈ t := by
    intro k x
    rw [h.mem]
    constructor
    · rintro ⟨e, he, hc, hx⟩
      obtain ⟨w, hw, hget⟩ := hentries e k ⟨he, hc⟩
      exact ⟨w, hw, e.val, hget, hx⟩
    · rintro ⟨w, hw, t, ht, hx⟩
      obtain ⟨r, hr, hc, rfl⟩ := exists_run_of_lookupRuns ht
      exact ⟨r, List.mem_flatMap.mpr ⟨w.map, List.mem_map_of_mem hw, hr⟩, hc, hx⟩
  refine ⟨Weight.finite_of_get fun k t ht => ?_, hmem⟩
  obtain ⟨e, he, hc⟩ := h.covered k t ht
  obtain ⟨w, hw, hget⟩ := hentries e k ⟨he, hc⟩
  obtain ⟨hk, hne⟩ := (hfinite w hw).get_ne hget
  refine ⟨hk, ?_⟩
  obtain ⟨x, hx⟩ := ne_empty_iff.mp hne
  obtain ⟨t', ht', hx'⟩ := (hmem k x).mpr ⟨w, hw, e.val, hget, hx⟩
  obtain rfl := Option.some.inj (ht.symm.trans ht')
  exact ne_empty_iff.mpr ⟨x, hx'⟩

namespace Weight

/-- Unite the weights one after the other. -/
def unionEach : List Weight → Weight
  | [] => empty
  | weight :: weights => weights.foldl union weight

def unionMeaningful [Runtime] (meaningful : List Weight) : WeightMap :=
  if 4 < meaningful.length then
    let meaningful := Runtime.reorder meaningful.dedup
    match meaningful with
    | [weight] => weight.map
    | _ =>
        match union_all_single_tsid_entries (meaningful.map map) with
        | some result => result
        | none =>
            if 4 < meaningful.length then union_all_multiway (meaningful.map map)
            else (unionEach meaningful).map
  else
    match union_all_single_tsid_entries (meaningful.map map) with
    | some result => result
    | none => (unionEach meaningful).map

def unionAllMap [Runtime] (weights : List Weight) : WeightMap :=
  if weights.any is_full then allMap
  else
    match weights.filter fun weight => !weight.is_empty with
    | [] => RangeMap.empty
    | [weight] => weight.map
    | meaningful => unionMeaningful meaningful

theorem mem_foldl_union {weights : List Weight} {acc : Weight} {p : Point} :
    p ∈ weights.foldl union acc ↔ p ∈ acc ∨ ∃ w ∈ weights, p ∈ w := by
  induction weights generalizing acc with
  | nil => simp
  | cons weight weights ih =>
      rw [List.foldl_cons, ih, mem_union, List.exists_mem_cons_iff, or_assoc]

theorem mem_unionEach {weights : List Weight} {p : Point} :
    p ∈ unionEach weights ↔ ∃ w ∈ weights, p ∈ w := by
  cases weights with
  | nil => simp [unionEach]
  | cons weight weights => rw [unionEach, mem_foldl_union, List.exists_mem_cons_iff]

theorem mem_iff_get {w : Weight} (h : FiniteMap w.map) {k x : ℕ} :
    (some (k, x) : Point) ∈ w ↔ ∃ t ∈ w.map.get k, x ∈ t := mem_of_finite_map w rfl h

theorem unionEach_unites {weights : List Weight} (h : ∀ w ∈ weights, FiniteMap w.map) :
    UnitesWeights weights (unionEach weights).map := by
  have hfinite : FiniteMap (unionEach weights).map := by
    apply finite_of_ne_all
    intro he
    obtain ⟨w, hw, hnone⟩ := mem_unionEach.mp (none_mem_iff.mpr he)
    exact none_not_mem_of_finite w rfl (h w hw) hnone
  refine ⟨hfinite, fun k x => ?_⟩
  rw [← mem_iff_get hfinite, mem_unionEach]
  apply exists_congr
  intro w
  apply and_congr_right
  intro hw
  rw [mem_iff_get (h w hw)]

/-- Up to four weights one after the other, and more of them in one sweep. -/
theorem unitesWeights_sweep {weights : List Weight} (h : ∀ w ∈ weights, FiniteMap w.map)
    (multiway : List WeightMap → WeightMap)
    (hmultiway : UnitesWeights weights (multiway (weights.map map))) :
    UnitesWeights weights (match union_all_single_tsid_entries (weights.map map) with
      | some result => result
      | none =>
          if 4 < weights.length then multiway (weights.map map) else (unionEach weights).map) := by
  split
  · rename_i result hresult
    exact (union_all_single_tsid_entries_unites hresult).unitesWeights h
  · split_ifs
    · exact hmultiway
    · exact unionEach_unites h

theorem unitesWeights_multiway [Runtime] {weights : List Weight}
    (h : ∀ w ∈ weights, FiniteMap w.map) :
    UnitesWeights weights (union_all_multiway (weights.map map)) := by
  apply UnitesEntries.unitesWeights h
  apply union_all_multiway_unites
  intro m hm e he
  obtain ⟨w, hw, rfl⟩ := List.mem_map.mp hm
  exact (h w hw).tokens e he

theorem mem_reorder_dedup [Runtime] {weights : List Weight} {w : Weight} :
    w ∈ Runtime.reorder weights.dedup ↔ w ∈ weights := by
  rw [(Runtime.reorder_perm _).mem_iff, List.mem_dedup]

theorem unitesWeights_singleton {weight : Weight} (h : FiniteMap weight.map) :
    UnitesWeights [weight] weight.map := ⟨h, by simp⟩

theorem unionMeaningful_unites [Runtime] {weights : List Weight}
    (h : ∀ w ∈ weights, FiniteMap w.map) : UnitesWeights weights (unionMeaningful weights) := by
  unfold unionMeaningful
  split_ifs with hlen
  · have h' : ∀ w ∈ Runtime.reorder weights.dedup, FiniteMap w.map := fun w hw =>
      h w (mem_reorder_dedup.mp hw)
    apply UnitesWeights.congr _ fun w => mem_reorder_dedup
    dsimp only
    split
    · rename_i weight heq
      rw [heq] at h' ⊢
      exact unitesWeights_singleton (h' weight List.mem_cons_self)
    · exact unitesWeights_sweep h' union_all_multiway (unitesWeights_multiway h')
  · split
    · rename_i result hresult
      exact (union_all_single_tsid_entries_unites hresult).unitesWeights h
    · exact unionEach_unites h

/-- The map of the full weight when it is among the weights, else a map that unites them. -/
def UnitesAll (weights : List Weight) (m : WeightMap) : Prop :=
  m = allMap ∧ all ∈ weights ∨ (∀ w ∈ weights, w ≠ all) ∧ UnitesWeights weights m

/-- The full weight absorbs the others, and empty weights do not matter. -/
theorem unitesAll_of_filter {weights : List Weight} (inner : List Weight → WeightMap)
    (h : ∀ ws, (∀ w ∈ ws, FiniteMap w.map) → UnitesWeights ws (inner ws)) :
    UnitesAll weights (if weights.any is_full then allMap
      else inner (weights.filter fun weight => !weight.is_empty)) := by
  split_ifs with hfull
  · obtain ⟨w, hw, hall⟩ := List.any_eq_true.mp hfull
    rw [is_full_iff.mp hall] at hw
    exact Or.inl ⟨rfl, hw⟩
  · right
    have hne : ∀ w ∈ weights, w ≠ all := fun w hw he =>
      hfull (List.any_eq_true.mpr ⟨w, hw, is_full_iff.mpr he⟩)
    refine ⟨hne, ?_⟩
    have hunites := h (weights.filter fun weight => !weight.is_empty)
      fun w hw => finite_of_ne_all (hne w (List.mem_of_mem_filter hw))
    refine ⟨hunites.finite, fun k x => (hunites.mem k x).trans ?_⟩
    constructor
    · intro hex
      obtain ⟨w, hw, ht⟩ := hex
      exact ⟨w, List.mem_of_mem_filter hw, ht⟩
    · intro hex
      obtain ⟨w, hw, t, ht, hx⟩ := hex
      refine ⟨w, List.mem_filter.mpr ⟨hw, ?_⟩, t, ht, hx⟩
      rw [Bool.not_eq_true', Bool.eq_false_iff]
      intro he
      rw [is_empty_iff.mp he] at ht
      cases ht

theorem unionAllMap_spec [Runtime] (weights : List Weight) :
    unionAllMap weights = allMap ∧ all ∈ weights ∨
      (∀ w ∈ weights, w ≠ all) ∧ UnitesWeights weights (unionAllMap weights) := by
  unfold unionAllMap
  apply unitesAll_of_filter fun meaningful =>
    match meaningful with
    | [] => RangeMap.empty
    | [weight] => weight.map
    | meaningful => unionMeaningful meaningful
  intro meaningful hfinite
  match meaningful with
  | [] => exact ⟨finite_empty, by simp⟩
  | [weight] => exact unitesWeights_singleton (hfinite weight List.mem_cons_self)
  | weight :: weight' :: rest => exact unionMeaningful_unites hfinite

def union_all [Runtime] (weights : List Weight) : Weight := ⟨unionAllMap weights, by
  rcases unionAllMap_spec weights with ⟨h, -⟩ | ⟨-, h⟩
  · exact Or.inl h
  · exact Or.inr h.finite⟩

/-- What is in a weight whose map unites the weights. -/
theorem mem_of_unitesAll {w : Weight} {weights : List Weight} (h : UnitesAll weights w.map)
    {p : Point} : p ∈ w ↔ ∃ w ∈ weights, p ∈ w := by
  obtain ⟨h, hall⟩ | ⟨hne, h⟩ := h
  · have he : w = all := ext_map h
    rw [he]
    exact ⟨fun hp => ⟨all, hall, hp⟩, fun _ => mem_all⟩
  · cases p with
    | none =>
        simp only [none_not_mem_of_finite w rfl h.finite, false_iff, not_exists, not_and,
          none_mem_iff]
        exact hne
    | some q =>
        obtain ⟨k, x⟩ := q
        rw [mem_of_finite_map w rfl h.finite]
        refine (h.mem k x).trans ?_
        apply exists_congr
        intro w
        apply and_congr_right
        intro hw
        rw [mem_iff_of_ne_all (hne w hw)]

@[simp] theorem mem_union_all [Runtime] {weights : List Weight} {p : Point} :
    p ∈ union_all weights ↔ ∃ w ∈ weights, p ∈ w :=
  mem_of_unitesAll (w := union_all weights) (unionAllMap_spec weights)

end Weight

end GlrMask
