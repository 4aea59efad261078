import GlrMask.Interning
import GlrMask.WeightUnionAll

/-!
# Variants of the union of many weights

The direct union always sweeps. The union for reconstruction first joins the ranges
that carry the same token set. The union with a scoped cache looks up token sets and
pairs of weights that it united before. All of them give the weight that uniting the
weights one after the other gives.
-/

namespace GlrMask

open RangeSet RangeMap CompactRangeBuilder

/-- The addresses of token sets and weights, of which one with equal content is kept. -/
class Interned where
  token_address : TokenSet → ℕ
  token_address_injective : Function.Injective token_address
  weight_address : Weight → ℕ
  weight_address_injective : Function.Injective weight_address

/-- There are enough addresses for all token sets and weights. -/
theorem nonempty_interned : Nonempty Interned := by
  have htokens : Function.Injective fun t : TokenSet => t.runs.map fun r => (r.lo, r.hi) := by
    intro s t he
    have hruns : ∀ t : TokenSet, t.runs = (t.runs.map fun r => (r.lo, r.hi)).map toRun := by
      intro t
      rw [List.map_map]
      exact (List.map_id _).symm
    apply RangeMap.ext
    rw [hruns s, hruns t]
    exact congrArg _ he
  have : Countable TokenSet := htokens.countable
  have hweights : Function.Injective fun w : Weight => w.map.runs.map fun r => (r.lo, r.hi, r.val) := by
    intro v w he
    have hruns : ∀ w : Weight, w.map.runs = (w.map.runs.map fun r => (r.lo, r.hi, r.val)).map
        fun p => ⟨p.1, p.2.1, p.2.2⟩ := by
      intro w
      rw [List.map_map]
      exact (List.map_id _).symm
    apply Weight.ext_map
    apply RangeMap.ext
    rw [hruns v, hruns w]
    exact congrArg _ he
  have : Countable Weight := hweights.countable
  obtain ⟨f, hf⟩ := exists_injective_nat TokenSet
  obtain ⟨g, hg⟩ := exists_injective_nat Weight
  exact ⟨⟨f, hf, g, hg⟩⟩

/-! ## Joining the ranges of one token set -/

/-- The ranges of a group, sorted and merged as far as they touch. -/
def mergeGroup (ranges : List (ℕ × ℕ)) : List (ℕ × ℕ) :=
  match ranges.insertionSort lexLe with
  | [] => []
  | first :: rest => mergeRanges first rest

/-- The groups are in the order of the first entries of their token sets. -/
def coalesced (all_entries : List WeightRangeEntry) : List WeightRangeEntry :=
  (Interning.tableFrom [] (all_entries.map Run.val)).flatMap fun tokens =>
    (mergeGroup ((all_entries.filter fun e => e.val = tokens).map fun e => (e.lo, e.hi))).map
      fun range => ⟨range.1, range.2, tokens⟩

def MIN_ENTRIES : ℕ := 2048

def MIN_OUTPUT_COMPRESSION : ℕ := 32

def coalesce_repeated_token_body_ranges (all_entries : List WeightRangeEntry) :
    List WeightRangeEntry :=
  if all_entries.length < MIN_ENTRIES then all_entries
  else if all_entries.length <
      (Interning.tableFrom [] (all_entries.map Run.val)).length * MIN_OUTPUT_COMPRESSION then
    all_entries
  else if (coalesced all_entries).length * MIN_OUTPUT_COMPRESSION ≤ all_entries.length then
    coalesced all_entries
  else all_entries

/-- Both lists of entries put the same token sets at every tsid. -/
structure SameEntries (entries entries' : List WeightRangeEntry) : Prop where
  fits : Fits u32Max entries'
  covers : ∀ k t, (∃ e ∈ entries', e.Covers k ∧ e.val = t) ↔ ∃ e ∈ entries, e.Covers k ∧ e.val = t

theorem SameEntries.refl {entries : List WeightRangeEntry} (h : Fits u32Max entries) :
    SameEntries entries entries := ⟨h, fun _ _ => Iff.rfl⟩

theorem mergeGroup_covers {ranges : List (ℕ × ℕ)} (h : ∀ p ∈ ranges, p.1 ≤ p.2 ∧ p.2 ≤ u32Max)
    {k : ℕ} : (∃ p ∈ mergeGroup ranges, p.1 ≤ k ∧ k ≤ p.2) ↔ ∃ p ∈ ranges, p.1 ≤ k ∧ k ≤ p.2 := by
  have hmem : ∀ p, p ∈ ranges.insertionSort lexLe ↔ p ∈ ranges := fun p => List.mem_insertionSort _
  have hsorted := lexLe_sorted ranges
  have hsort : (∃ p ∈ ranges, p.1 ≤ k ∧ k ≤ p.2) ↔
      ∃ p ∈ ranges.insertionSort lexLe, p.1 ≤ k ∧ k ≤ p.2 :=
    exists_congr fun p => and_congr_left fun _ => (hmem p).symm
  rw [hsort, mergeGroup]
  cases hranges : ranges.insertionSort lexLe with
  | nil => rfl
  | cons first rest =>
      rw [hranges] at hmem hsorted
      have hbounds : ∀ p ∈ first :: rest, p.1 ≤ p.2 ∧ p.2 ≤ u32Max := fun p hp => h p ((hmem p).mp hp)
      apply mergeRanges_covers (hbounds first List.mem_cons_self).1 _ hsorted.tail
      intro p hp
      obtain ⟨hle, hbound⟩ := hbounds p (List.mem_cons_of_mem _ hp)
      exact ⟨List.rel_of_pairwise_cons hsorted hp, hle, hle.trans hbound⟩

theorem mergeGroup_fits {ranges : List (ℕ × ℕ)} (h : ∀ p ∈ ranges, p.1 ≤ p.2 ∧ p.2 ≤ u32Max) :
    ∀ p ∈ mergeGroup ranges, p.1 ≤ p.2 ∧ p.2 ≤ u32Max := by
  have hmem : ∀ p, p ∈ ranges.insertionSort lexLe ↔ p ∈ ranges := fun p => List.mem_insertionSort _
  rw [mergeGroup]
  cases hranges : ranges.insertionSort lexLe with
  | nil =>
      intro p hp
      cases hp
  | cons first rest =>
      apply mergeRanges_fits
      intro p hp
      exact h p ((hmem p).mp (hranges ▸ hp))

theorem coalesced_same {entries : List WeightRangeEntry} (h : Fits u32Max entries) :
    SameEntries entries (coalesced entries) := by
  have hgroup : ∀ t, ∀ p ∈ (entries.filter fun e => e.val = t).map fun e => (e.lo, e.hi),
      p.1 ≤ p.2 ∧ p.2 ≤ u32Max := by
    intro t p hp
    obtain ⟨e, he, rfl⟩ := List.mem_map.mp hp
    exact h e (List.mem_of_mem_filter he)
  have htable : ∀ t, t ∈ Interning.tableFrom [] (entries.map Run.val) ↔ ∃ e ∈ entries, e.val = t := by
    intro t
    obtain ⟨new, he, hall, hnew, -⟩ := Interning.tableFrom_spec [] (entries.map Run.val)
    rw [he, List.nil_append]
    constructor
    · intro ht
      exact List.mem_map.mp (hnew t ht)
    · intro ht
      have hmem := hall t (List.mem_map.mpr ht)
      rwa [List.nil_append] at hmem
  constructor
  · intro r hr
    obtain ⟨t, -, hr⟩ := List.mem_flatMap.mp hr
    obtain ⟨p, hp, rfl⟩ := List.mem_map.mp hr
    exact mergeGroup_fits (hgroup t) p hp
  · intro k t
    have hrange : (∃ e ∈ coalesced entries, e.Covers k ∧ e.val = t) ↔
        t ∈ Interning.tableFrom [] (entries.map Run.val) ∧
          ∃ p ∈ mergeGroup ((entries.filter fun e => e.val = t).map fun e => (e.lo, e.hi)),
            p.1 ≤ k ∧ k ≤ p.2 := by
      constructor
      · intro hex
        obtain ⟨r, hr, hc, rfl⟩ := hex
        obtain ⟨t, ht, hr⟩ := List.mem_flatMap.mp hr
        obtain ⟨p, hp, rfl⟩ := List.mem_map.mp hr
        exact ⟨ht, p, hp, hc⟩
      · intro hex
        obtain ⟨ht, p, hp, hc⟩ := hex
        exact ⟨⟨p.1, p.2, t⟩, List.mem_flatMap.mpr ⟨t, ht, List.mem_map_of_mem hp⟩, hc, rfl⟩
    rw [hrange, mergeGroup_covers (hgroup t), htable]
    constructor
    · intro hex
      obtain ⟨-, p, hp, hc⟩ := hex
      obtain ⟨e, he, rfl⟩ := List.mem_map.mp hp
      obtain ⟨hmem, hval⟩ := List.mem_filter.mp he
      exact ⟨e, hmem, hc, of_decide_eq_true hval⟩
    · intro hex
      obtain ⟨e, he, hc, rfl⟩ := hex
      refine ⟨⟨e, he, rfl⟩, (e.lo, e.hi), ?_, hc⟩
      exact List.mem_map_of_mem (List.mem_filter.mpr ⟨he, decide_eq_true rfl⟩)

theorem coalesce_same {entries : List WeightRangeEntry} (h : Fits u32Max entries) :
    SameEntries entries (coalesce_repeated_token_body_ranges entries) := by
  unfold coalesce_repeated_token_body_ranges
  split_ifs
  · exact SameEntries.refl h
  · exact SameEntries.refl h
  · exact coalesced_same h
  · exact SameEntries.refl h

theorem SameEntries.unites {entries entries' : List WeightRangeEntry} {m : WeightMap}
    (h : SameEntries entries entries') (hm : UnitesEntries entries' m) : UnitesEntries entries m := by
  constructor
  · intro k x
    rw [hm.mem]
    constructor
    · intro hex
      obtain ⟨e, he, hc, hx⟩ := hex
      obtain ⟨e', he', hc', hval⟩ := (h.covers k e.val).mp ⟨e, he, hc, rfl⟩
      exact ⟨e', he', hc', hval ▸ hx⟩
    · intro hex
      obtain ⟨e, he, hc, hx⟩ := hex
      obtain ⟨e', he', hc', hval⟩ := (h.covers k e.val).mpr ⟨e, he, hc, rfl⟩
      exact ⟨e', he', hc', hval ▸ hx⟩
  · intro k t ht
    obtain ⟨e, he, hc⟩ := hm.covered k t ht
    obtain ⟨e', he', hc', -⟩ := (h.covers k e.val).mp ⟨e, he, hc, rfl⟩
    exact ⟨e', he', hc'⟩

/-! ## Token sets that were united before -/

/-- United token sets by the addresses of their operands. -/
abbrev TokenUnionCache := List (List ℕ × TokenSet)

section Multiway

variable [Interned]

def union_active_token_sets_with_cache (token_union_cache : TokenUnionCache) :
    List TokenSet → Option TokenSet × TokenUnionCache
  | [] => (none, token_union_cache)
  | [tokens] => (some tokens, token_union_cache)
  | [left, right] => (some (shared_token_union left right), token_union_cache)
  | active_tokens =>
      let key := active_tokens.map Interned.token_address
      match token_union_cache.lookup key with
      | some cached => (some cached, token_union_cache)
      | none =>
          match shared_token_union_many active_tokens with
          | some tokens => (some tokens, (key, tokens) :: token_union_cache)
          | none => (none, token_union_cache)

/-- One window of a sweep. -/
def emitWindow (s : CompactRangeBuilder × TokenUnionCache) (window : Run (List TokenSet)) :
    CompactRangeBuilder × TokenUnionCache :=
  let (tokens, token_union_cache) := union_active_token_sets_with_cache s.2 window.val
  (s.1.pushOrFlush window.lo window.hi tokens, token_union_cache)

def emitSweepWithCache (sweep : List (Run (List TokenSet))) (token_union_cache : TokenUnionCache) :
    WeightMap × TokenUnionCache :=
  let (builder, token_union_cache) := sweep.foldl emitWindow (new, token_union_cache)
  (builder.finish, token_union_cache)

def union_all_multiway_impl_with_token_cache [Runtime] (weights : List WeightMap)
    (coalesce_repeated_token_ranges : Bool) (token_union_cache : TokenUnionCache) :
    WeightMap × TokenUnionCache :=
  let all_entries := weights.flatMap fun weight => weight.runs
  if all_entries.isEmpty then (RangeMap.empty, token_union_cache)
  else
    let all_entries :=
      if coalesce_repeated_token_ranges then coalesce_repeated_token_body_ranges all_entries
      else all_entries
    let all_entries := (Runtime.reorder all_entries).insertionSort fun a b => a.lo ≤ b.lo
    if (all_entries.zip all_entries.tail).all fun pair => pair.1.hi < pair.2.lo then
      ((new.extend all_entries).finish, token_union_cache)
    else if all_entries.length < 64 then
      emitSweepWithCache (rescanWindows all_entries) token_union_cache
    else emitSweepWithCache (incrementalWindows all_entries) token_union_cache

def union_all_multiway_impl [Runtime] (weights : List WeightMap)
    (coalesce_repeated_token_ranges : Bool) : WeightMap :=
  (union_all_multiway_impl_with_token_cache weights coalesce_repeated_token_ranges []).1

/-- Every cached token set is the union of the token sets at its addresses. -/
def ValidTokenUnions (token_union_cache : TokenUnionCache) : Prop :=
  ∀ (active_tokens : List TokenSet) tokens,
    token_union_cache.lookup (active_tokens.map Interned.token_address) = some tokens →
      shared_token_union_many active_tokens = some tokens

theorem validTokenUnions_nil : ValidTokenUnions [] := fun _ _ h => by cases h

theorem ValidTokenUnions.cons {token_union_cache : TokenUnionCache} (h : ValidTokenUnions token_union_cache)
    {active_tokens : List TokenSet} {tokens : TokenSet}
    (htokens : shared_token_union_many active_tokens = some tokens) :
    ValidTokenUnions ((active_tokens.map Interned.token_address, tokens) :: token_union_cache) := by
  intro active_tokens' tokens' hl
  rw [List.lookup_cons] at hl
  by_cases hkey : active_tokens'.map Interned.token_address =
      active_tokens.map Interned.token_address
  · rw [hkey, beq_self_eq_true] at hl
    rw [List.map_injective_iff.mpr Interned.token_address_injective hkey, htokens]
    exact hl
  · rw [beq_false_of_ne hkey] at hl
    exact h active_tokens' tokens' hl

/-- A cached union is the union. -/
theorem union_active_with_cache_spec {token_union_cache : TokenUnionCache}
    (h : ValidTokenUnions token_union_cache) (active_tokens : List TokenSet) :
    (union_active_token_sets_with_cache token_union_cache active_tokens).1 =
        union_active_token_sets active_tokens ∧
      ValidTokenUnions (union_active_token_sets_with_cache token_union_cache active_tokens).2 := by
  match active_tokens with
  | [] => exact ⟨rfl, h⟩
  | [_] => exact ⟨rfl, h⟩
  | [_, _] => exact ⟨rfl, h⟩
  | a :: b :: c :: l =>
      rw [union_active_token_sets_with_cache, union_active_token_sets_eq]
      · cases hl : token_union_cache.lookup ((a :: b :: c :: l).map Interned.token_address) with
        | some cached => exact ⟨(h _ _ hl).symm, h⟩
        | none =>
            cases hu : shared_token_union_many (a :: b :: c :: l) with
            | none => exact ⟨rfl, h⟩
            | some tokens => exact ⟨rfl, h.cons hu⟩
      all_goals simp

theorem foldl_emitWindow (sweep : List (Run (List TokenSet))) {s : CompactRangeBuilder × TokenUnionCache}
    (h : ValidTokenUnions s.2) :
    (sweep.foldl emitWindow s).1 = sweep.foldl (fun builder window =>
        builder.pushOrFlush window.lo window.hi (union_active_token_sets window.val)) s.1 ∧
      ValidTokenUnions (sweep.foldl emitWindow s).2 := by
  induction sweep generalizing s with
  | nil => exact ⟨rfl, h⟩
  | cons window sweep ih =>
      obtain ⟨htokens, hvalid⟩ := union_active_with_cache_spec h window.val
      have hrest := ih (s := emitWindow s window) hvalid
      rw [List.foldl_cons, List.foldl_cons, ← htokens]
      exact hrest

/-- The cache does not change what is united. -/
theorem multiway_impl_spec [Runtime] (weights : List WeightMap) (coalesce_repeated_token_ranges : Bool)
    {token_union_cache : TokenUnionCache} (h : ValidTokenUnions token_union_cache) :
    (union_all_multiway_impl_with_token_cache weights coalesce_repeated_token_ranges
        token_union_cache).1 =
      (if (weights.flatMap fun weight => weight.runs).isEmpty then RangeMap.empty
        else uniteEntries (if coalesce_repeated_token_ranges then
          coalesce_repeated_token_body_ranges (weights.flatMap fun weight => weight.runs)
          else weights.flatMap fun weight => weight.runs)) ∧
      ValidTokenUnions (union_all_multiway_impl_with_token_cache weights
        coalesce_repeated_token_ranges token_union_cache).2 := by
  have hsweep : ∀ sweep : List (Run (List TokenSet)),
      (emitSweepWithCache sweep token_union_cache).1 = emitSweep sweep ∧
        ValidTokenUnions (emitSweepWithCache sweep token_union_cache).2 := by
    intro sweep
    obtain ⟨hbuilder, hvalid⟩ := foldl_emitWindow sweep (s := (new, token_union_cache)) h
    exact ⟨congrArg CompactRangeBuilder.finish hbuilder, hvalid⟩
  unfold union_all_multiway_impl_with_token_cache
  dsimp only
  by_cases hempty : (weights.flatMap fun weight => weight.runs).isEmpty
  · rw [if_pos hempty, if_pos hempty]
    exact ⟨rfl, h⟩
  · rw [if_neg hempty, if_neg hempty]
    generalize (if coalesce_repeated_token_ranges = true then
      coalesce_repeated_token_body_ranges (weights.flatMap fun weight => weight.runs)
      else weights.flatMap fun weight => weight.runs) = all_entries
    unfold uniteEntries
    dsimp only
    split_ifs
    · exact ⟨rfl, h⟩
    · exact hsweep _
    · exact hsweep _

theorem union_all_multiway_impl_unites [Runtime] {weights : List WeightMap}
    (htokens : ∀ w ∈ weights, ∀ e ∈ w.runs, e.val ≠ RangeMap.empty)
    (coalesce_repeated_token_ranges : Bool) {token_union_cache : TokenUnionCache}
    (h : ValidTokenUnions token_union_cache) :
    UnitesEntries (weights.flatMap fun weight => weight.runs)
      (union_all_multiway_impl_with_token_cache weights coalesce_repeated_token_ranges
        token_union_cache).1 := by
  have hfits := fits_entries weights
  have hne : ∀ e ∈ weights.flatMap (fun weight => weight.runs), e.val ≠ RangeMap.empty := by
    intro e he
    obtain ⟨w, hw, hr⟩ := List.mem_flatMap.mp he
    exact htokens w hw e hr
  rw [(multiway_impl_spec weights coalesce_repeated_token_ranges h).1]
  split_ifs with hempty hcoalesce
  · rw [List.isEmpty_iff.mp hempty]
    exact ⟨fun k x => by simp, fun k t ht => by cases ht⟩
  · have hsame := coalesce_same hfits
    apply hsame.unites
    apply uniteEntries_unites hsame.fits
    intro e he
    obtain ⟨e', he', -, hval⟩ := (hsame.covers e.lo e.val).mp
      ⟨e, he, ⟨le_rfl, (hsame.fits e he).1⟩, rfl⟩
    exact hval ▸ hne e' he'
  · exact uniteEntries_unites hfits hne

end Multiway

namespace Weight

variable [Runtime]

/-! ## The direct union and the union for reconstruction -/

/-- Operands that occur once, in the order of their addresses. -/
def distinct (weights : List Weight) : List Weight := Runtime.reorder weights.dedup

def unionAllDirectMap (weights : List Weight) : WeightMap :=
  if weights.any is_full then allMap
  else
    match distinct (weights.filter fun weight => !weight.is_empty) with
    | [] => RangeMap.empty
    | [weight] => weight.map
    | meaningful =>
        match union_all_single_tsid_entries (meaningful.map map) with
        | some result => result
        | none => union_all_multiway (meaningful.map map)

variable [Interned]

def reconstructMeaningful (meaningful : List Weight) : WeightMap :=
  if 4 < meaningful.length then
    let meaningful := distinct meaningful
    match meaningful with
    | [weight] => weight.map
    | _ =>
        match union_all_single_tsid_entries (meaningful.map map) with
        | some result => result
        | none =>
            if 4 < meaningful.length then union_all_multiway_impl (meaningful.map map) true
            else (unionEach meaningful).map
  else
    match union_all_single_tsid_entries (meaningful.map map) with
    | some result => result
    | none => (unionEach meaningful).map

def unionAllReconstructionMap (weights : List Weight) : WeightMap :=
  if weights.any is_full then allMap
  else
    match weights.filter fun weight => !weight.is_empty with
    | [] => RangeMap.empty
    | [weight] => weight.map
    | meaningful => reconstructMeaningful meaningful

omit [Interned] in
theorem unionAllDirectMap_spec (weights : List Weight) :
    UnitesAll weights (unionAllDirectMap weights) := by
  apply unitesAll_of_filter fun meaningful =>
    match distinct meaningful with
    | [] => RangeMap.empty
    | [weight] => weight.map
    | meaningful =>
        match union_all_single_tsid_entries (meaningful.map map) with
        | some result => result
        | none => union_all_multiway (meaningful.map map)
  intro meaningful hfinite
  have h' : ∀ w ∈ distinct meaningful, FiniteMap w.map := fun w hw =>
    hfinite w (mem_reorder_dedup.mp hw)
  apply UnitesWeights.congr _ fun w => mem_reorder_dedup
  change UnitesWeights (distinct meaningful) _
  generalize distinct meaningful = meaningful at h'
  match meaningful with
  | [] => exact ⟨finite_empty, by simp⟩
  | [weight] => exact unitesWeights_singleton (h' weight List.mem_cons_self)
  | weight :: weight' :: rest =>
      dsimp only
      split
      · rename_i result hresult
        exact (union_all_single_tsid_entries_unites hresult).unitesWeights h'
      · exact unitesWeights_multiway h'

theorem unitesWeights_impl {weights : List Weight} (h : ∀ w ∈ weights, FiniteMap w.map)
    (coalesce_repeated_token_ranges : Bool) {token_union_cache : TokenUnionCache}
    (hvalid : ValidTokenUnions token_union_cache) :
    UnitesWeights weights (union_all_multiway_impl_with_token_cache (weights.map map)
      coalesce_repeated_token_ranges token_union_cache).1 := by
  apply UnitesEntries.unitesWeights h
  apply union_all_multiway_impl_unites _ _ hvalid
  intro m hm e he
  obtain ⟨w, hw, rfl⟩ := List.mem_map.mp hm
  exact (h w hw).tokens e he

theorem reconstructMeaningful_unites {weights : List Weight}
    (h : ∀ w ∈ weights, FiniteMap w.map) :
    UnitesWeights weights (reconstructMeaningful weights) := by
  unfold reconstructMeaningful
  split_ifs with hlen
  · have h' : ∀ w ∈ distinct weights, FiniteMap w.map := fun w hw => h w (mem_reorder_dedup.mp hw)
    apply UnitesWeights.congr _ fun w => mem_reorder_dedup
    change UnitesWeights (distinct weights) _
    dsimp only
    generalize distinct weights = weights at h'
    split
    · exact unitesWeights_singleton (h' _ List.mem_cons_self)
    · exact unitesWeights_sweep h' (fun weights => union_all_multiway_impl weights true)
        (unitesWeights_impl h' true validTokenUnions_nil)
  · split
    · rename_i result hresult
      exact (union_all_single_tsid_entries_unites hresult).unitesWeights h
    · exact unionEach_unites h

theorem unionAllReconstructionMap_spec (weights : List Weight) :
    UnitesAll weights (unionAllReconstructionMap weights) := by
  apply unitesAll_of_filter fun meaningful =>
    match meaningful with
    | [] => RangeMap.empty
    | [weight] => weight.map
    | meaningful => reconstructMeaningful meaningful
  intro meaningful hfinite
  match meaningful with
  | [] => exact ⟨finite_empty, by simp⟩
  | [weight] => exact unitesWeights_singleton (hfinite weight List.mem_cons_self)
  | weight :: weight' :: rest => exact reconstructMeaningful_unites hfinite

omit [Runtime] [Interned] in
theorem valid_of_unitesAll {weights : List Weight} {m : WeightMap} (h : UnitesAll weights m) :
    m = allMap ∨ FiniteMap m := by
  obtain ⟨h, -⟩ | ⟨-, h⟩ := h
  · exact Or.inl h
  · exact Or.inr h.finite

omit [Interned] in
def union_all_direct (weights : List Weight) : Weight :=
  ⟨unionAllDirectMap weights, valid_of_unitesAll (unionAllDirectMap_spec weights)⟩

def union_all_reconstruction (weights : List Weight) : Weight :=
  ⟨unionAllReconstructionMap weights, valid_of_unitesAll (unionAllReconstructionMap_spec weights)⟩

end Weight

/-! ## The scoped cache -/

section Scoped

variable [Interned]

structure ScopedWeightOpEntry where
  left_operand : Weight
  right_operand : Weight
  result : Weight

structure ScopedWeightOpCache where
  union_entries : List ((ℕ × ℕ) × ScopedWeightOpEntry)
  bulk_token_union_entries : TokenUnionCache

def ordered_commutative_weight_pair (left right : Weight) : (ℕ × ℕ) × Weight × Weight :=
  if Interned.weight_address left ≤ Interned.weight_address right then
    ((Interned.weight_address left, Interned.weight_address right), left, right)
  else ((Interned.weight_address right, Interned.weight_address left), right, left)

namespace ScopedWeightOpCache

def default : ScopedWeightOpCache := ⟨[], []⟩

/-- Unite two weights and remember the result. -/
def store_union (self : ScopedWeightOpCache) (left right : Weight) : Weight × ScopedWeightOpCache :=
  let (key, ordered_left, ordered_right) := ordered_commutative_weight_pair left right
  let value := left.union right
  (value, { self with
    union_entries := (key, ⟨ordered_left, ordered_right, value⟩) :: self.union_entries })

def union (self : ScopedWeightOpCache) (left right : Weight) : Weight × ScopedWeightOpCache :=
  if left.is_full || right.is_full then (Weight.all, self)
  else if left.is_empty then (right, self)
  else if right.is_empty then (left, self)
  else if left = right then (left, self)
  else
    let (key, ordered_left, ordered_right) := ordered_commutative_weight_pair left right
    match self.union_entries.lookup key with
    | some existing =>
        if existing.left_operand = ordered_left ∧ existing.right_operand = ordered_right then
          (existing.result, self)
        else self.store_union left right
    | none => self.store_union left right

/-- Unite the weights one after the other. -/
def unionEach (self : ScopedWeightOpCache) : List Weight → Weight × ScopedWeightOpCache
  | [] => (Weight.empty, self)
  | weight :: weights => weights.foldl (fun s weight => s.2.union s.1 weight) (weight, self)

def sweepOrEach [Runtime] (self : ScopedWeightOpCache) (meaningful : List Weight) :
    WeightMap × ScopedWeightOpCache :=
  if 4 < meaningful.length then
    let (result, bulk_token_union_entries) := union_all_multiway_impl_with_token_cache
      (meaningful.map Weight.map) false self.bulk_token_union_entries
    (result, { self with bulk_token_union_entries })
  else
    let (result, self) := self.unionEach meaningful
    (result.map, self)

def unionMeaningful [Runtime] (self : ScopedWeightOpCache) (meaningful : List Weight) :
    WeightMap × ScopedWeightOpCache :=
  let meaningful := if 4 < meaningful.length then Weight.distinct meaningful else meaningful
  match meaningful with
  | [weight] => (weight.map, self)
  | _ =>
      match union_all_single_tsid_entries (meaningful.map Weight.map) with
      | some result => (result, self)
      | none => self.sweepOrEach meaningful

def unionAllMap [Runtime] (self : ScopedWeightOpCache) (weights : List Weight) :
    WeightMap × ScopedWeightOpCache :=
  if weights.any Weight.is_full then (allMap, self)
  else
    match weights.filter fun weight => !weight.is_empty with
    | [] => (RangeMap.empty, self)
    | [weight] => (weight.map, self)
    | meaningful => self.unionMeaningful meaningful

/-- Cached results are the unions of their operands. -/
structure Valid (cache : ScopedWeightOpCache) : Prop where
  unions : ∀ key entry, cache.union_entries.lookup key = some entry →
    entry.result = entry.left_operand.union entry.right_operand
  tokens : ValidTokenUnions cache.bulk_token_union_entries

variable {self : ScopedWeightOpCache}

theorem valid_default : default.Valid where
  unions _ _ h := by cases h
  tokens := validTokenUnions_nil

/-- The ordered pair is the pair or the swapped pair. -/
theorem union_ordered (left right : Weight) :
    (ordered_commutative_weight_pair left right).2.1.union
      (ordered_commutative_weight_pair left right).2.2 = left.union right := by
  unfold ordered_commutative_weight_pair
  split_ifs
  · rfl
  · apply Weight.ext_mem
    intro p
    rw [Weight.mem_union, Weight.mem_union, or_comm]

theorem Valid.store_union (h : self.Valid) (left right : Weight) :
    (self.store_union left right).1 = left.union right ∧ (self.store_union left right).2.Valid := by
  refine ⟨rfl, ?_, h.tokens⟩
  intro key entry hl
  rw [ScopedWeightOpCache.store_union, List.lookup_cons] at hl
  by_cases hkey : key = (ordered_commutative_weight_pair left right).1
  · rw [hkey, beq_self_eq_true] at hl
    obtain rfl := Option.some.inj hl
    exact (union_ordered left right).symm
  · rw [beq_false_of_ne hkey] at hl
    exact h.unions key entry hl

/-- The cached union is the union. -/
theorem Valid.union (h : self.Valid) (left right : Weight) :
    (self.union left right).1 = left.union right ∧ (self.union left right).2.Valid := by
  have hsame : ∀ {w : Weight}, (∀ p, p ∈ w ↔ p ∈ left ∨ p ∈ right) → w = left.union right := by
    intro w hw
    apply Weight.ext_mem
    intro p
    rw [hw, Weight.mem_union]
  unfold ScopedWeightOpCache.union
  split_ifs with hfull hleft hright heq
  · refine ⟨hsame fun p => iff_of_true Weight.mem_all ?_, h⟩
    obtain he | he := Weight.full_or_eq_true hfull
    · exact Or.inl (he ▸ Weight.mem_all)
    · exact Or.inr (he ▸ Weight.mem_all)
  · refine ⟨hsame fun p => ?_, h⟩
    rw [Weight.is_empty_iff.mp hleft]
    exact (or_iff_right Weight.not_mem_empty).symm
  · refine ⟨hsame fun p => ?_, h⟩
    rw [Weight.is_empty_iff.mp hright]
    exact (or_iff_left Weight.not_mem_empty).symm
  · refine ⟨hsame fun p => ?_, h⟩
    rw [heq, or_self]
  · dsimp only
    cases hl : self.union_entries.lookup (ordered_commutative_weight_pair left right).1 with
    | none => exact h.store_union left right
    | some existing =>
        dsimp only
        split_ifs with hmatches
        · refine ⟨?_, h⟩
          rw [h.unions _ existing hl, hmatches.1, hmatches.2, union_ordered]
        · exact h.store_union left right

theorem Valid.foldl_union (h : self.Valid) (acc : Weight) (weights : List Weight) :
    (weights.foldl (fun s weight => s.2.union s.1 weight) (acc, self)).1 =
        weights.foldl Weight.union acc ∧
      (weights.foldl (fun s weight => s.2.union s.1 weight) (acc, self)).2.Valid := by
  induction weights generalizing acc self with
  | nil => exact ⟨rfl, h⟩
  | cons weight weights ih =>
      obtain ⟨hunion, hvalid⟩ := h.union acc weight
      rw [List.foldl_cons, List.foldl_cons, ← hunion]
      exact ih hvalid _

theorem Valid.unionEach (h : self.Valid) (weights : List Weight) :
    (self.unionEach weights).1 = Weight.unionEach weights ∧ (self.unionEach weights).2.Valid := by
  cases weights with
  | nil => exact ⟨rfl, h⟩
  | cons weight weights => exact h.foldl_union weight weights

theorem Valid.sweepOrEach [Runtime] (h : self.Valid) {weights : List Weight}
    (hfinite : ∀ w ∈ weights, FiniteMap w.map) :
    UnitesWeights weights (self.sweepOrEach weights).1 ∧ (self.sweepOrEach weights).2.Valid := by
  unfold ScopedWeightOpCache.sweepOrEach
  dsimp only
  split_ifs
  · exact ⟨Weight.unitesWeights_impl hfinite false h.tokens, h.unions,
      (multiway_impl_spec _ false h.tokens).2⟩
  · obtain ⟨heach, hvalid⟩ := h.unionEach weights
    refine ⟨?_, hvalid⟩
    rw [heach]
    exact Weight.unionEach_unites hfinite

theorem Valid.unionMeaningful [Runtime] (h : self.Valid) {weights : List Weight}
    (hfinite : ∀ w ∈ weights, FiniteMap w.map) :
    UnitesWeights weights (self.unionMeaningful weights).1 ∧
      (self.unionMeaningful weights).2.Valid := by
  have hmem : ∀ w, w ∈ (if 4 < weights.length then Weight.distinct weights else weights) ↔
      w ∈ weights := by
    intro w
    split_ifs
    · exact Weight.mem_reorder_dedup
    · rfl
  have hfinite' : ∀ w ∈ (if 4 < weights.length then Weight.distinct weights else weights),
      FiniteMap w.map := fun w hw => hfinite w ((hmem w).mp hw)
  unfold ScopedWeightOpCache.unionMeaningful
  dsimp only
  generalize (if 4 < weights.length then Weight.distinct weights else weights) = meaningful
    at hmem hfinite'
  have hresult : UnitesWeights meaningful (match meaningful with
      | [weight] => (weight.map, self)
      | _ =>
          match union_all_single_tsid_entries (meaningful.map Weight.map) with
          | some result => (result, self)
          | none => self.sweepOrEach meaningful).1 ∧ (match meaningful with
      | [weight] => (weight.map, self)
      | _ =>
          match union_all_single_tsid_entries (meaningful.map Weight.map) with
          | some result => (result, self)
          | none => self.sweepOrEach meaningful).2.Valid := by
    split
    · exact ⟨Weight.unitesWeights_singleton (hfinite' _ List.mem_cons_self), h⟩
    · split
      · rename_i result hresult
        exact ⟨(union_all_single_tsid_entries_unites hresult).unitesWeights hfinite', h⟩
      · exact h.sweepOrEach hfinite'
  exact ⟨hresult.1.congr hmem, hresult.2⟩

theorem Valid.unionAllMap [Runtime] (h : self.Valid) (weights : List Weight) :
    Weight.UnitesAll weights (self.unionAllMap weights).1 ∧ (self.unionAllMap weights).2.Valid := by
  have hinner : ∀ meaningful : List Weight, (∀ w ∈ meaningful, FiniteMap w.map) →
      UnitesWeights meaningful (match meaningful with
        | [] => (RangeMap.empty, self)
        | [weight] => (weight.map, self)
        | meaningful => self.unionMeaningful meaningful).1 := by
    intro meaningful hfinite
    match meaningful with
    | [] => exact ⟨Weight.finite_empty, by simp⟩
    | [weight] => exact Weight.unitesWeights_singleton (hfinite weight List.mem_cons_self)
    | weight :: weight' :: rest => exact (h.unionMeaningful hfinite).1
  have hspec := @Weight.unitesAll_of_filter weights _ hinner
  unfold ScopedWeightOpCache.unionAllMap
  split_ifs at hspec ⊢ with hfull
  · exact ⟨hspec, h⟩
  · refine ⟨hspec, ?_⟩
    have hfinite : ∀ w ∈ weights.filter (fun weight => !weight.is_empty), FiniteMap w.map := by
      intro w hw
      apply Weight.finite_of_ne_all
      intro he
      exact hfull (List.any_eq_true.mpr ⟨w, List.mem_of_mem_filter hw, Weight.is_full_iff.mpr he⟩)
    generalize weights.filter (fun weight => !weight.is_empty) = meaningful at hfinite
    match meaningful with
    | [] => exact h
    | [weight] => exact h
    | weight :: weight' :: rest => exact (h.unionMeaningful hfinite).2

def union_all [Runtime] (self : ScopedWeightOpCache) (h : self.Valid) (weights : List Weight) :
    Weight := ⟨(self.unionAllMap weights).1, Weight.valid_of_unitesAll (h.unionAllMap weights).1⟩

end ScopedWeightOpCache

/-- All variants return what uniting the weights one after the other returns. -/
theorem union_all_variants [Runtime] (weights : List Weight) :
    Weight.union_all weights = weights.foldl Weight.union Weight.empty ∧
    Weight.union_all_direct weights = weights.foldl Weight.union Weight.empty ∧
    Weight.union_all_reconstruction weights = weights.foldl Weight.union Weight.empty ∧
    ScopedWeightOpCache.default.union_all ScopedWeightOpCache.valid_default weights =
      weights.foldl Weight.union Weight.empty := by
  have hfold : ∀ w : Weight, Weight.UnitesAll weights w.map →
      w = weights.foldl Weight.union Weight.empty := by
    intro w hw
    apply Weight.ext_mem
    intro p
    rw [Weight.mem_of_unitesAll hw, Weight.mem_foldl_union, or_iff_right Weight.not_mem_empty]
  refine ⟨?_, ?_, ?_, ?_⟩
  · exact hfold _ (Weight.unionAllMap_spec weights)
  · exact hfold _ (Weight.unionAllDirectMap_spec weights)
  · exact hfold _ (Weight.unionAllReconstructionMap_spec weights)
  · exact hfold _ (ScopedWeightOpCache.valid_default.unionAllMap weights).1

end Scoped

end GlrMask
