import GlrMask.PointwiseGroups

/-!
# Builders of merged states

A merged state collects weights for its final weight and for each label. The
weights of a group are read off its behaviors: each region is decoded once, to
the tokens of final behaviors and of each label, and the decoded token sets of all
tsids make up the weights.
-/

namespace GlrMask

namespace Pointwise

structure MergedStateBuilder where
  final_weights_pending : List Weight
  transitions_pending : SortedMap Label (ℕ × List Weight)

instance : Inhabited MergedStateBuilder := ⟨⟨[], .empty⟩⟩

namespace MergedStateBuilder

def add_final_weight (self : MergedStateBuilder) (weight : Weight) : MergedStateBuilder :=
  { self with final_weights_pending := self.final_weights_pending ++ [weight] }

/-- All transitions of a label lead to the target of the first one. -/
def add_transition (self : MergedStateBuilder) (label : Label) (target : ℕ) (weight : Weight) :
    MergedStateBuilder :=
  match self.transitions_pending.get label with
  | some (existing_target, pending_weights) =>
      { self with transitions_pending :=
          self.transitions_pending.insert label (existing_target, pending_weights ++ [weight]) }
  | none =>
      { self with transitions_pending := self.transitions_pending.insert label (target, [weight]) }

/-- A point of the final weight that is built from the pending weights. -/
def Final (self : MergedStateBuilder) (p : Point) : Prop :=
  ∃ weight ∈ self.final_weights_pending, p ∈ weight

/-- A point of the weight that is built for a label, whose transition leads to a target. -/
def Steps (self : MergedStateBuilder) (label : Label) (target : ℕ) (p : Point) : Prop :=
  ∃ weights, self.transitions_pending.get label = some (target, weights) ∧
    ∃ weight ∈ weights, p ∈ weight

variable {self : MergedStateBuilder} {label : Label} {target : ℕ} {p : Point} {weight : Weight}

@[simp] theorem not_final_default : ¬(default : MergedStateBuilder).Final p := by
  intro h
  obtain ⟨weight, hweight, -⟩ := h
  cases hweight

@[simp] theorem not_steps_default : ¬(default : MergedStateBuilder).Steps label target p := by
  intro h
  obtain ⟨weights, hweights, -⟩ := h
  cases hweights

theorem final_add_final_weight :
    (self.add_final_weight weight).Final p ↔ self.Final p ∨ p ∈ weight := by
  simp only [Final, add_final_weight, List.mem_append, List.mem_singleton, or_and_right, exists_or,
    exists_eq_left]

theorem final_add_transition {l : Label} {t : ℕ} :
    (self.add_transition l t weight).Final p ↔ self.Final p := by
  unfold add_transition
  split
  · exact Iff.rfl
  · exact Iff.rfl

/-- Adding a transition to the target that its label leads to. -/
theorem steps_add_transition {l : Label} {t : ℕ}
    (h : ∀ t' weights, self.transitions_pending.get l = some (t', weights) → t' = t) :
    (self.add_transition l t weight).Steps label target p ↔
      self.Steps label target p ∨ label = l ∧ target = t ∧ p ∈ weight := by
  unfold add_transition Steps
  cases hget : self.transitions_pending.get l with
  | none =>
      simp only [SortedMap.get_insert]
      by_cases hlabel : l = label
      · subst hlabel
        simp [hget]
        grind
      · rw [if_neg hlabel]
        simp [Ne.symm hlabel]
  | some entry =>
      obtain ⟨existing_target, pending_weights⟩ := entry
      obtain rfl := h _ _ hget
      simp only [SortedMap.get_insert]
      by_cases hlabel : l = label
      · subst hlabel
        simp [hget]
        grind
      · rw [if_neg hlabel]
        simp [Ne.symm hlabel]

end MergedStateBuilder

/-! ## Decoding a region -/

def PointwiseBehaviorInterner.get (self : PointwiseBehaviorInterner) (id : ℕ) : PointwiseBehavior :=
  self.values.getD id ⟨false, []⟩

/-- The tokens of final behaviors, and the target and tokens of each label. -/
structure DecodedPointwiseRegion where
  final_tokens : Option TokenSet
  transitions : List (Label × ℕ × TokenSet)

/-- The ranges collected while a region is decoded. -/
structure DecodedRanges where
  final_ranges : List (Run Unit)
  ranges_by_label : SortedMap Label (ℕ × List (Run Unit))

def add_label_range (range : Run Unit) (ranges_by_label : SortedMap Label (ℕ × List (Run Unit)))
    (transition : Label × ℕ) : SortedMap Label (ℕ × List (Run Unit)) :=
  match ranges_by_label.get transition.1 with
  | some (target, ranges) => ranges_by_label.insert transition.1 (target, ranges ++ [range])
  | none => ranges_by_label.insert transition.1 (transition.2, [range])

def decode_range (interner : PointwiseBehaviorInterner) (acc : DecodedRanges)
    (token_range : TokenBehaviorRange) : DecodedRanges :=
  let behavior := interner.get token_range.val
  let range : Run Unit := ⟨token_range.lo, token_range.hi, ()⟩
  ⟨if behavior.final_active then acc.final_ranges ++ [range] else acc.final_ranges,
    behavior.transitions.foldl (add_label_range range) acc.ranges_by_label⟩

def decode_pointwise_region (region : List TokenBehaviorRange)
    (interner : PointwiseBehaviorInterner) : DecodedPointwiseRegion :=
  let decoded := region.foldl (decode_range interner) ⟨[], .empty⟩
  ⟨if decoded.final_ranges.isEmpty then none
    else some (RangeSet.ofRanges u32Max decoded.final_ranges),
    decoded.ranges_by_label.entries.map fun entry =>
      (entry.1, entry.2.1, RangeSet.ofRanges u32Max entry.2.2)⟩

/-- A token that the ranges of a label cover. -/
def LabelCovers (map : SortedMap Label (ℕ × List (Run Unit))) (label : Label) (x : ℕ) : Prop :=
  ∃ entry, map.get label = some entry ∧ ∃ range ∈ entry.2, range.Covers x

/-- Every label that has an entry has ranges, and they are ranges of tokens. -/
def LabelFits (map : SortedMap Label (ℕ × List (Run Unit))) : Prop :=
  ∀ label entry, map.get label = some entry → entry.2 ≠ [] ∧ RangeMap.Fits u32Max entry.2

def PointwiseBehavior.labels (self : PointwiseBehavior) : List Label := self.transitions.map Prod.fst

section Decode

variable {interner : PointwiseBehaviorInterner} {map : SortedMap Label (ℕ × List (Run Unit))}
  {range : Run Unit} {x : ℕ}

theorem labelCovers_add (transition : Label × ℕ) (label : Label) :
    LabelCovers (add_label_range range map transition) label x ↔
      LabelCovers map label x ∨ label = transition.1 ∧ range.Covers x := by
  unfold add_label_range LabelCovers
  by_cases hlabel : label = transition.1
  · subst hlabel
    cases hget : map.get transition.1 with
    | none => simp [SortedMap.get_insert]
    | some entry =>
        obtain ⟨target, ranges⟩ := entry
        simp [SortedMap.get_insert, or_and_right, exists_or]
  · cases hget : map.get transition.1 with
    | none => simp [SortedMap.get_insert, hlabel, Ne.symm hlabel]
    | some entry =>
        obtain ⟨target, ranges⟩ := entry
        simp [SortedMap.get_insert, hlabel, Ne.symm hlabel]

theorem labelFits_add (h : LabelFits map) (hrange : range.lo ≤ range.hi ∧ range.hi ≤ u32Max)
    (transition : Label × ℕ) : LabelFits (add_label_range range map transition) := by
  have hinsert : ∀ {target : ℕ} {ranges : List (Run Unit)}, RangeMap.Fits u32Max ranges →
      LabelFits (map.insert transition.1 (target, ranges ++ [range])) := by
    intro target ranges hfits label entry hentry
    rw [SortedMap.get_insert] at hentry
    split_ifs at hentry
    · cases hentry
      refine ⟨by simp, ?_⟩
      intro r hr
      obtain hr | hr := List.mem_append.mp hr
      · exact hfits r hr
      · obtain rfl := List.mem_singleton.mp hr
        exact hrange
    · exact h label entry hentry
  unfold add_label_range
  split
  · rename_i target ranges hget
    exact hinsert (h _ _ hget).2
  · have hfits : RangeMap.Fits u32Max ([] : List (Run Unit)) := fun r hr => by cases hr
    exact hinsert hfits

theorem labelCovers_foldl (transitions : List (Label × ℕ)) (label : Label) :
    LabelCovers (transitions.foldl (add_label_range range) map) label x ↔
      LabelCovers map label x ∨ label ∈ transitions.map Prod.fst ∧ range.Covers x := by
  induction transitions generalizing map with
  | nil => simp
  | cons transition transitions ih =>
      rw [List.foldl_cons, ih, labelCovers_add, List.map_cons, List.mem_cons]
      grind

theorem labelFits_foldl (h : LabelFits map) (hrange : range.lo ≤ range.hi ∧ range.hi ≤ u32Max)
    (transitions : List (Label × ℕ)) :
    LabelFits (transitions.foldl (add_label_range range) map) := by
  induction transitions generalizing map with
  | nil => exact h
  | cons transition transitions ih => exact ih (labelFits_add h hrange transition)

/-- What the collected ranges cover. -/
structure DecodedSpec (interner : PointwiseBehaviorInterner) (region : List TokenBehaviorRange)
    (decoded : DecodedRanges) : Prop where
  final_fits : RangeMap.Fits u32Max decoded.final_ranges
  fits : LabelFits decoded.ranges_by_label
  final : ∀ x, (∃ range ∈ decoded.final_ranges, range.Covers x) ↔
    ∃ r ∈ region, r.Covers x ∧ (interner.get r.val).final_active = true
  covers : ∀ label x, LabelCovers decoded.ranges_by_label label x ↔
    ∃ r ∈ region, r.Covers x ∧ label ∈ (interner.get r.val).labels

theorem decode_range_spec {region : List TokenBehaviorRange} {decoded : DecodedRanges}
    (h : DecodedSpec interner region decoded) {token_range : TokenBehaviorRange}
    (hrange : token_range.lo ≤ token_range.hi ∧ token_range.hi ≤ u32Max) :
    DecodedSpec interner (region ++ [token_range]) (decode_range interner decoded token_range) := by
  have hor : ∀ {P : TokenBehaviorRange → Prop}, (∃ r ∈ region ++ [token_range], P r) ↔
      (∃ r ∈ region, P r) ∨ P token_range := by
    intro P
    simp only [List.mem_append, List.mem_singleton, or_and_right, exists_or, exists_eq_left]
  refine ⟨?_, labelFits_foldl h.fits hrange _, ?_, ?_⟩
  · intro r hr
    unfold decode_range at hr
    dsimp only at hr
    split_ifs at hr
    · obtain hr | hr := List.mem_append.mp hr
      · exact h.final_fits r hr
      · obtain rfl := List.mem_singleton.mp hr
        exact hrange
    · exact h.final_fits r hr
  · intro x
    rw [hor, ← h.final]
    unfold decode_range
    dsimp only
    split_ifs with hfinal
    · simp only [List.mem_append, List.mem_singleton, or_and_right, exists_or, exists_eq_left,
        hfinal, and_true]
      rfl
    · simp only [hfinal, Bool.false_eq_true, and_false, or_false]
  · intro label x
    rw [hor, ← h.covers]
    refine (labelCovers_foldl _ label).trans (or_congr_right ?_)
    exact and_comm

theorem decode_spec {region : List TokenBehaviorRange}
    (h : ∀ r ∈ region, r.lo ≤ r.hi ∧ r.hi ≤ u32Max) :
    DecodedSpec interner region (region.foldl (decode_range interner) ⟨[], .empty⟩) := by
  suffices hfold : ∀ (done region : List TokenBehaviorRange) (decoded : DecodedRanges),
      (∀ r ∈ region, r.lo ≤ r.hi ∧ r.hi ≤ u32Max) → DecodedSpec interner done decoded →
      DecodedSpec interner (done ++ region) (region.foldl (decode_range interner) decoded) by
    apply hfold [] region _ h
    refine ⟨?_, ?_, by simp, ?_⟩
    · intro r hr
      cases hr
    · intro label entry hentry
      cases hentry
    · simp [LabelCovers]
  intro done region
  induction region generalizing done with
  | nil =>
      intro decoded _ hdecoded
      rw [List.append_nil]
      exact hdecoded
  | cons token_range region ih =>
      intro decoded hranges hdecoded
      rw [List.append_cons]
      exact ih _ _ (fun r hr => hranges r (List.mem_cons_of_mem _ hr))
        (decode_range_spec hdecoded (hranges token_range List.mem_cons_self))

theorem exists_covers_iff {region : List TokenBehaviorRange} (h : Ordered region)
    {P : ℕ → Prop} : (∃ r ∈ region, r.Covers x ∧ P r.val) ↔
      ∃ id, lookupRuns region x = some id ∧ P id := by
  constructor
  · intro hex
    obtain ⟨r, hr, hc, hP⟩ := hex
    exact ⟨r.val, h.lookup_of_mem hr hc, hP⟩
  · intro hex
    obtain ⟨id, hid, hP⟩ := hex
    obtain ⟨r, hr, hc, rfl⟩ := exists_run_of_lookupRuns hid
    exact ⟨r, hr, hc, hP⟩

theorem mem_ofRanges_of_ne_nil {ranges : List (Run Unit)} (h : RangeMap.Fits u32Max ranges)
    (hne : ranges ≠ []) : ∃ x, x ∈ RangeSet.ofRanges u32Max ranges := by
  obtain ⟨range, hrange⟩ := List.exists_mem_of_ne_nil _ hne
  exact ⟨range.lo, (RangeSet.mem_ofRanges h).mpr ⟨range, hrange, le_rfl, (h range hrange).1⟩⟩

/-- The decoded token sets are those of the behaviors of a region, and none is empty. -/
structure Decodes (interner : PointwiseBehaviorInterner) (region : List TokenBehaviorRange)
    (decoded : DecodedPointwiseRegion) : Prop where
  final : ∀ x, (∃ tokens ∈ decoded.final_tokens, x ∈ tokens) ↔
    ∃ id, lookupRuns region x = some id ∧ (interner.get id).final_active = true
  final_nonempty : ∀ tokens ∈ decoded.final_tokens, ∃ x, x ∈ tokens
  labels : (decoded.transitions.map Prod.fst).Nodup
  steps : ∀ label x, (∃ entry, (label, entry) ∈ decoded.transitions ∧ x ∈ entry.2) ↔
    ∃ id, lookupRuns region x = some id ∧ label ∈ (interner.get id).labels
  nonempty : ∀ entry ∈ decoded.transitions, ∃ x, x ∈ entry.2.2

theorem decode_pointwise_region_spec {region : List TokenBehaviorRange} (h : Ordered region)
    (hbound : ∀ r ∈ region, r.hi ≤ u32Max) :
    Decodes interner region (decode_pointwise_region region interner) := by
  have hspec : DecodedSpec interner region _ := decode_spec fun r hr => ⟨h.1 r hr, hbound r hr⟩
  unfold decode_pointwise_region
  generalize region.foldl (decode_range interner) ⟨[], .empty⟩ = decoded at hspec ⊢
  have hentry : ∀ {label entry}, (label, entry) ∈ decoded.ranges_by_label.entries ↔
      decoded.ranges_by_label.get label = some entry := SortedMap.get_eq_some_iff.symm
  refine ⟨?_, ?_, ?_, ?_, ?_⟩
  · intro x
    rw [← exists_covers_iff h (P := fun id => (interner.get id).final_active = true), ← hspec.final,
      ← RangeSet.mem_ofRanges hspec.final_fits]
    dsimp only
    split_ifs with hempty
    · have hnil : decoded.final_ranges = [] := by simpa using hempty
      rw [RangeSet.mem_ofRanges hspec.final_fits, hnil]
      simp
    · simp
  · intro tokens htokens
    dsimp only at htokens
    split_ifs at htokens with hempty
    · cases htokens
    · cases htokens
      exact mem_ofRanges_of_ne_nil hspec.final_fits (by simpa using hempty)
  · rw [List.map_map]
    exact decoded.ranges_by_label.keys_sorted.imp fun hlt => hlt.ne
  · intro label x
    rw [← exists_covers_iff h (P := fun id => label ∈ (interner.get id).labels), ← hspec.covers]
    constructor
    · intro hex
      obtain ⟨entry, hmem, hx⟩ := hex
      obtain ⟨e, he, hsome⟩ := List.mem_map.mp hmem
      cases hsome
      have hget := hentry.mp he
      exact ⟨e.2, hget, (RangeSet.mem_ofRanges (hspec.fits _ _ hget).2).mp hx⟩
    · intro hcovers
      obtain ⟨entry, hget, hx⟩ := hcovers
      refine ⟨(entry.1, RangeSet.ofRanges u32Max entry.2), ?_, ?_⟩
      · exact List.mem_map.mpr ⟨(label, entry), hentry.mpr hget, rfl⟩
      · exact (RangeSet.mem_ofRanges (hspec.fits _ _ hget).2).mpr hx
  · intro entry hmem
    obtain ⟨e, he, rfl⟩ := List.mem_map.mp hmem
    obtain ⟨hne, hfits⟩ := hspec.fits _ _ (hentry.mp he)
    exact mem_ofRanges_of_ne_nil hfits hne

end Decode

/-! ## The builder of a group -/

/-- The weight of token sets by tsid. A finite weight has nothing at the reserved tsid. -/
def weight_of_entries (entries : List (ℕ × TokenSet)) : Weight :=
  if h : ∀ entry ∈ entries, entry.1 < u32Max then Weight.from_per_tsid_shared entries h
  else Weight.empty

/-- The decoded regions by the addresses of the regions. -/
abbrev DecodedRegions := List (ℕ × DecodedPointwiseRegion)

def decode_cached (interner : PointwiseBehaviorInterner) (decoded_by_region_ptr : DecodedRegions)
    (region : Region) : DecodedPointwiseRegion × DecodedRegions :=
  match decoded_by_region_ptr.lookup region.address with
  | some decoded => (decoded, decoded_by_region_ptr)
  | none =>
      let decoded := decode_pointwise_region region.ranges interner
      (decoded, (region.address, decoded) :: decoded_by_region_ptr)

/-- The token sets by tsid for the final weight and for each label. -/
structure GroupEntries where
  final_entries : List (ℕ × TokenSet)
  transition_entries : SortedMap Label (List (ℕ × TokenSet))

def GroupEntries.add (self : GroupEntries) (tsid : ℕ) (decoded : DecodedPointwiseRegion) :
    GroupEntries :=
  ⟨self.final_entries ++ decoded.final_tokens.toList.map fun tokens => (tsid, tokens),
    decoded.transitions.foldl (fun map t =>
      map.insert t.1 ((map.get t.1).getD [] ++ [(tsid, t.2.2)])) self.transition_entries⟩

def collect_entries (interner : PointwiseBehaviorInterner) (entries : List (ℕ × Region))
    (decoded_by_region_ptr : DecodedRegions) : GroupEntries × DecodedRegions :=
  entries.foldl (fun acc entry =>
    let decoded := decode_cached interner acc.2 entry.2
    (acc.1.add entry.1 decoded.1, decoded.2)) (⟨[], .empty⟩, decoded_by_region_ptr)

/-- Add the weight of a label. A label of a behavior has a target in the group. -/
def add_label_weight (targets_by_label : SortedMap Label ℕ) (builder : MergedStateBuilder)
    (entry : Label × List (ℕ × TokenSet)) : MergedStateBuilder :=
  let weight := weight_of_entries entry.2
  if weight.is_empty then builder
  else
    match targets_by_label.get entry.1 with
    | some target => builder.add_transition entry.1 target weight
    | none => builder

def pointwise_group_to_builder (interner : PointwiseBehaviorInterner) (group : PointwiseMergeGroup)
    (decoded_by_region_ptr : DecodedRegions) : MergedStateBuilder × DecodedRegions :=
  let collected := collect_entries interner group.behavior_by_tsid.entries decoded_by_region_ptr
  let final_weight := weight_of_entries collected.1.final_entries
  let builder : MergedStateBuilder :=
    if final_weight.is_empty then default else (default : MergedStateBuilder).add_final_weight final_weight
  (collected.1.transition_entries.entries.foldl (add_label_weight group.targets_by_label) builder,
    collected.2)

def pointwise_groups_to_builders_cached (groups : List PointwiseMergeGroup)
    (interner : PointwiseBehaviorInterner) (decoded_by_region_ptr : DecodedRegions) :
    List MergedStateBuilder × DecodedRegions :=
  groups.foldl (fun acc group =>
    let built := pointwise_group_to_builder interner group acc.2
    (acc.1 ++ [built.1], built.2)) ([], decoded_by_region_ptr)

def pointwise_groups_to_builders (groups : List PointwiseMergeGroup)
    (interner : PointwiseBehaviorInterner) : List MergedStateBuilder :=
  (pointwise_groups_to_builders_cached groups interner []).1

theorem mem_from_tsid_runs_shared {runs : List WeightRangeEntry} (h : Weight.InRange runs)
    (hordered : Ordered runs) (p : Point) : p ∈ Weight.from_tsid_runs_shared runs h ↔
      ∃ k x, p = some (k, x) ∧ ∃ run ∈ runs, run.Covers k ∧ x ∈ run.val := by
  have hfinite := Weight.finite_runsMap h
  have hskip : Ordered (runs.filter fun run => ¬run.val.isEmpty) :=
    ⟨fun r hr => hordered.1 r (List.mem_of_mem_filter hr), hordered.2.filter _⟩
  have hget : ∀ k, (Weight.from_tsid_runs_shared runs h).map.get k =
      lookupRuns (runs.filter fun run => ¬run.val.isEmpty) k := by
    intro k
    apply CompactRangeBuilder.get_finish_extend _ hskip
    intro r hr
    obtain ⟨hle, hlt⟩ := h r (List.mem_of_mem_filter hr)
    exact ⟨hle, hlt.le⟩
  cases p with
  | none =>
      have hnone := Weight.none_not_mem_of_finite (Weight.from_tsid_runs_shared runs h) rfl hfinite
      simp only [hnone, reduceCtorEq, false_and, exists_false]
  | some q =>
      obtain ⟨k, x⟩ := q
      rw [Weight.mem_of_finite_map (Weight.from_tsid_runs_shared runs h) rfl hfinite, hget]
      constructor
      · intro hex
        obtain ⟨tokens, htokens, hx⟩ := hex
        obtain ⟨run, hrun, hc, rfl⟩ := exists_run_of_lookupRuns htokens
        exact ⟨k, x, rfl, run, List.mem_of_mem_filter hrun, hc, hx⟩
      · intro hex
        obtain ⟨k', x', hp, run, hrun, hc, hx⟩ := hex
        cases hp
        have hne : run.val ≠ RangeMap.empty := RangeSet.ne_empty_iff.mpr ⟨x, hx⟩
        refine ⟨run.val, hskip.lookup_of_mem (List.mem_filter.mpr ⟨hrun, ?_⟩) hc, hx⟩
        simpa [RangeMap.isEmpty_eq_true] using hne

theorem mem_weight_of_entries {entries : List (ℕ × TokenSet)}
    (hsorted : entries.Pairwise fun a b => a.1 < b.1) (hbelow : ∀ entry ∈ entries, entry.1 < u32Max)
    (p : Point) : p ∈ weight_of_entries entries ↔
      ∃ k x, p = some (k, x) ∧ ∃ tokens, (k, tokens) ∈ entries ∧ x ∈ tokens := by
  have hrange : Weight.InRange (entries.map fun entry => ⟨entry.1, entry.1, entry.2⟩) := by
    intro r hr
    obtain ⟨entry, hentry, rfl⟩ := List.mem_map.mp hr
    exact ⟨le_rfl, hbelow entry hentry⟩
  have hordered : Ordered (entries.map fun entry =>
      (⟨entry.1, entry.1, entry.2⟩ : WeightRangeEntry)) := by
    refine ⟨?_, ?_⟩
    · intro r hr
      exact (hrange r hr).1
    · rw [List.pairwise_map]
      exact hsorted
  unfold weight_of_entries
  rw [dif_pos hbelow]
  refine (mem_from_tsid_runs_shared hrange hordered p).trans ?_
  constructor
  · intro hex
    obtain ⟨k, x, rfl, run, hrun, hc, hx⟩ := hex
    obtain ⟨entry, hentry, rfl⟩ := List.mem_map.mp hrun
    obtain rfl : entry.1 = k := le_antisymm hc.1 hc.2
    exact ⟨entry.1, x, rfl, entry.2, hentry, hx⟩
  · intro hex
    obtain ⟨k, x, rfl, tokens, hmem, hx⟩ := hex
    exact ⟨k, x, rfl, ⟨k, k, tokens⟩, List.mem_map.mpr ⟨(k, tokens), hmem, rfl⟩, ⟨le_rfl, le_rfl⟩, hx⟩

/-- The cache has the decoded regions of the interner. -/
def CacheValid (interner : PointwiseBehaviorInterner) (regions : PointwiseRegionInterner)
    (decoded_by_region_ptr : DecodedRegions) : Prop :=
  ∀ address decoded, decoded_by_region_ptr.lookup address = some decoded →
    ∃ region ∈ regions.regions, region.address = address ∧
      decoded = decode_pointwise_region region.ranges interner

section Collect

variable {interner : PointwiseBehaviorInterner} {regions : PointwiseRegionInterner}
  {decoded_by_region_ptr : DecodedRegions}

/-- A region with one's address is that region, so its decoded form may be used again. -/
theorem decode_cached_spec (h : regions.Valid)
    (hcache : CacheValid interner regions decoded_by_region_ptr) {region : Region}
    (hregion : region ∈ regions.regions) :
    (decode_cached interner decoded_by_region_ptr region).1 =
        decode_pointwise_region region.ranges interner ∧
      CacheValid interner regions (decode_cached interner decoded_by_region_ptr region).2 := by
  unfold decode_cached
  cases hlookup : decoded_by_region_ptr.lookup region.address with
  | some decoded =>
      obtain ⟨other, hother, haddress, rfl⟩ := hcache _ _ hlookup
      obtain rfl := h.address_inj other hother region hregion haddress
      exact ⟨rfl, hcache⟩
  | none =>
      refine ⟨rfl, ?_⟩
      intro address decoded hdecoded
      by_cases haddress : address = region.address
      · rw [haddress, List.lookup_cons, beq_self_eq_true] at hdecoded
        cases hdecoded
        exact ⟨region, hregion, haddress.symm, rfl⟩
      · rw [List.lookup_cons, beq_false_of_ne haddress] at hdecoded
        exact hcache address decoded hdecoded

/-- The token sets of a tsid for one label, put behind those of earlier tsids. -/
theorem get_add_transitions (tsid : ℕ) {transitions : List (Label × ℕ × TokenSet)}
    (h : (transitions.map Prod.fst).Nodup) (map : SortedMap Label (List (ℕ × TokenSet)))
    (label : Label) :
    ((transitions.foldl (fun map t =>
      map.insert t.1 ((map.get t.1).getD [] ++ [(tsid, t.2.2)])) map).get label).getD [] =
        (map.get label).getD [] ++
          ((transitions.lookup label).map fun t => (tsid, t.2)).toList := by
  induction transitions generalizing map with
  | nil => exact (List.append_nil _).symm
  | cons t transitions ih =>
      rw [List.map_cons, List.nodup_cons] at h
      rw [List.foldl_cons, ih h.2, SortedMap.get_insert]
      by_cases hlabel : label = t.1
      · have hnone : transitions.lookup label = none := by
          cases hlookup : transitions.lookup label with
          | none => rfl
          | some e => exact absurd (List.mem_map_of_mem (mem_of_lookup hlookup)) (hlabel ▸ h.1)
        rw [hnone, if_pos hlabel.symm, hlabel, List.lookup_cons, beq_self_eq_true]
        simp
      · rw [if_neg (Ne.symm hlabel), List.lookup_cons, beq_false_of_ne hlabel]

/-- The token sets of a list of regions by tsid. -/
theorem collect_entries_spec (h : regions.Valid) {entries : List (ℕ × Region)}
    (hentries : ∀ entry ∈ entries, entry.2 ∈ regions.regions)
    (hlabels : ∀ entry ∈ entries,
      ((decode_pointwise_region entry.2.ranges interner).transitions.map Prod.fst).Nodup)
    (hcache : CacheValid interner regions decoded_by_region_ptr) :
    CacheValid interner regions (collect_entries interner entries decoded_by_region_ptr).2 ∧
      (collect_entries interner entries decoded_by_region_ptr).1.final_entries =
        entries.filterMap (fun entry =>
          (decode_pointwise_region entry.2.ranges interner).final_tokens.map fun tokens =>
            (entry.1, tokens)) ∧
      ∀ label, ((collect_entries interner entries
          decoded_by_region_ptr).1.transition_entries.get label).getD [] =
        entries.filterMap fun entry =>
          ((decode_pointwise_region entry.2.ranges interner).transitions.lookup label).map
            fun t => (entry.1, t.2) := by
  suffices hfold : ∀ (entries : List (ℕ × Region)) (acc : GroupEntries × DecodedRegions),
      (∀ entry ∈ entries, entry.2 ∈ regions.regions) →
      (∀ entry ∈ entries,
        ((decode_pointwise_region entry.2.ranges interner).transitions.map Prod.fst).Nodup) →
      CacheValid interner regions acc.2 →
      CacheValid interner regions (entries.foldl (fun acc entry =>
          ((acc.1.add entry.1 (decode_cached interner acc.2 entry.2).1),
            (decode_cached interner acc.2 entry.2).2)) acc).2 ∧
        (entries.foldl (fun acc entry =>
          ((acc.1.add entry.1 (decode_cached interner acc.2 entry.2).1),
            (decode_cached interner acc.2 entry.2).2)) acc).1.final_entries =
          acc.1.final_entries ++ entries.filterMap (fun entry =>
            (decode_pointwise_region entry.2.ranges interner).final_tokens.map fun tokens =>
              (entry.1, tokens)) ∧
        ∀ label, ((entries.foldl (fun acc entry =>
          ((acc.1.add entry.1 (decode_cached interner acc.2 entry.2).1),
            (decode_cached interner acc.2 entry.2).2)) acc).1.transition_entries.get label).getD [] =
          (acc.1.transition_entries.get label).getD [] ++ entries.filterMap fun entry =>
            ((decode_pointwise_region entry.2.ranges interner).transitions.lookup label).map
              fun t => (entry.1, t.2) by
    exact hfold entries (⟨[], .empty⟩, decoded_by_region_ptr) hentries hlabels hcache
  intro entries
  induction entries with
  | nil =>
      intro acc _ _ hcache
      exact ⟨hcache, (List.append_nil _).symm, fun label => (List.append_nil _).symm⟩
  | cons entry entries ih =>
      intro acc hentries hlabels hcache
      obtain ⟨hdecoded, hnext⟩ :=
        decode_cached_spec h hcache (hentries entry List.mem_cons_self)
      obtain ⟨hvalid, hfinal, htransitions⟩ := ih
        (acc.1.add entry.1 (decode_cached interner acc.2 entry.2).1,
          (decode_cached interner acc.2 entry.2).2)
        (fun e he => hentries e (List.mem_cons_of_mem _ he))
        (fun e he => hlabels e (List.mem_cons_of_mem _ he)) hnext
      rw [List.foldl_cons]
      refine ⟨hvalid, ?_, ?_⟩
      · rw [hfinal, hdecoded, GroupEntries.add, List.append_assoc]
        congr 1
        rw [List.filterMap_cons]
        cases (decode_pointwise_region entry.2.ranges interner).final_tokens with
        | none => rfl
        | some tokens => rfl
      · intro label
        rw [htransitions, hdecoded, GroupEntries.add,
          get_add_transitions entry.1 (hlabels entry List.mem_cons_self), List.append_assoc]
        congr 1
        rw [List.filterMap_cons]
        cases (decode_pointwise_region entry.2.ranges interner).transitions.lookup label with
        | none => rfl
        | some tokens => rfl

end Collect

/-! ## The weights of a group -/

/-- A point whose behavior in a group has a property. -/
def Shown (interner : PointwiseBehaviorInterner) (region_at : ℕ → Option Region)
    (P : PointwiseBehavior → Prop) (p : Point) : Prop :=
  ∃ k x id, p = some (k, x) ∧ numbers region_at (k, x) = some id ∧ P (interner.get id)

section Weights

variable {interner : PointwiseBehaviorInterner} {regions : PointwiseRegionInterner}
  {group : PointwiseMergeGroup} {P : PointwiseBehavior → Prop}

/-- The weight of the token sets that are decoded for one property of behaviors. -/
theorem mem_weight_of_decoded {map : PointwiseBehaviorMap}
    (hbound : ∀ k x id, numbers map.get (k, x) = some id → k < u32Max ∧ x ≤ u32Max)
    (decoded : Region → Option TokenSet)
    (hdecoded : ∀ entry ∈ map.entries, ∀ x, (∃ tokens ∈ decoded entry.2, x ∈ tokens) ↔
      ∃ id, lookupRuns entry.2.ranges x = some id ∧ P (interner.get id))
    (hne : ∀ entry ∈ map.entries, ∀ tokens ∈ decoded entry.2, ∃ x, x ∈ tokens) (p : Point) :
    p ∈ weight_of_entries (map.entries.filterMap fun entry =>
      (decoded entry.2).map fun tokens => (entry.1, tokens)) ↔ Shown interner map.get P p := by
  have hlisted : ∀ k tokens, (k, tokens) ∈ map.entries.filterMap (fun entry =>
      (decoded entry.2).map fun tokens => (entry.1, tokens)) ↔
        ∃ region, (k, region) ∈ map.entries ∧ tokens ∈ decoded region := by
    intro k tokens
    rw [List.mem_filterMap]
    constructor
    · intro hex
      obtain ⟨entry, hentry, hmap⟩ := hex
      obtain ⟨tokens', htokens, he⟩ := Option.map_eq_some_iff.mp hmap
      cases he
      exact ⟨entry.2, hentry, htokens⟩
    · intro hex
      obtain ⟨region, hentry, htokens⟩ := hex
      exact ⟨(k, region), hentry, Option.map_eq_some_iff.mpr ⟨tokens, htokens, rfl⟩⟩
  have hshown : ∀ {k x id region}, (k, region) ∈ map.entries →
      lookupRuns region.ranges x = some id → numbers map.get (k, x) = some id := by
    intro k x id region hentry hid
    exact Option.bind_eq_some_iff.mpr ⟨region, PointwiseBehaviorMap.mem_entries.mp hentry, hid⟩
  rw [mem_weight_of_entries]
  · constructor
    · intro hex
      obtain ⟨k, x, rfl, tokens, hmem, hx⟩ := hex
      obtain ⟨region, hentry, htokens⟩ := (hlisted k tokens).mp hmem
      obtain ⟨id, hid, hP⟩ := (hdecoded _ hentry x).mp ⟨tokens, htokens, hx⟩
      exact ⟨k, x, id, rfl, hshown hentry hid, hP⟩
    · intro hex
      obtain ⟨k, x, id, rfl, hid, hP⟩ := hex
      obtain ⟨region, hget, hid⟩ := Option.bind_eq_some_iff.mp hid
      have hentry : (k, region) ∈ map.entries := PointwiseBehaviorMap.mem_entries.mpr hget
      obtain ⟨tokens, htokens, hx⟩ := (hdecoded _ hentry x).mpr ⟨id, hid, hP⟩
      exact ⟨k, x, rfl, tokens, (hlisted k tokens).mpr ⟨region, hentry, htokens⟩, hx⟩
  · rw [List.pairwise_filterMap]
    apply map.entries_sorted.imp
    intro a b hab a' ha b' hb
    obtain ⟨tokens, -, rfl⟩ := Option.map_eq_some_iff.mp ha
    obtain ⟨tokens', -, rfl⟩ := Option.map_eq_some_iff.mp hb
    exact hab
  · intro entry hentry
    obtain ⟨region, hregion, htokens⟩ := (hlisted entry.1 entry.2).mp hentry
    obtain ⟨x, hx⟩ := hne _ hregion _ htokens
    obtain ⟨id, hid, -⟩ := (hdecoded _ hregion x).mp ⟨entry.2, htokens, hx⟩
    exact (hbound _ _ _ (hshown hregion hid)).1

/-- Every label leads to its target. -/
def MergedStateBuilder.Leads (builder : MergedStateBuilder) (targets_by_label : SortedMap Label ℕ) :
    Prop :=
  ∀ label target weights, builder.transitions_pending.get label = some (target, weights) →
    targets_by_label.get label = some target

variable {targets_by_label : SortedMap Label ℕ} {builder : MergedStateBuilder}

theorem MergedStateBuilder.Leads.add_transition (h : builder.Leads targets_by_label) {label : Label}
    {target : ℕ} (htarget : targets_by_label.get label = some target) (weight : Weight) :
    (builder.add_transition label target weight).Leads targets_by_label := by
  have hinsert : ∀ {target' : ℕ} {weights : List Weight}, targets_by_label.get label = some target' →
      MergedStateBuilder.Leads { builder with
        transitions_pending := builder.transitions_pending.insert label (target', weights) }
        targets_by_label := by
    intro target' weights htarget' l t ws hget
    dsimp only at hget
    rw [SortedMap.get_insert] at hget
    split_ifs at hget with hlabel
    · cases hget
      exact hlabel ▸ htarget'
    · exact h l t ws hget
  unfold MergedStateBuilder.add_transition
  split
  · rename_i existing_target pending_weights hget
    exact hinsert (h _ _ _ hget)
  · exact hinsert htarget

theorem add_label_weight_spec (h : builder.Leads targets_by_label)
    (entry : Label × List (ℕ × TokenSet)) :
    (add_label_weight targets_by_label builder entry).Leads targets_by_label ∧
      (∀ p, (add_label_weight targets_by_label builder entry).Final p ↔ builder.Final p) ∧
      ∀ label target p, (add_label_weight targets_by_label builder entry).Steps label target p ↔
        builder.Steps label target p ∨
          label = entry.1 ∧ targets_by_label.get label = some target ∧
            p ∈ weight_of_entries entry.2 := by
  unfold add_label_weight
  dsimp only
  split_ifs with hempty
  · refine ⟨h, fun p => Iff.rfl, ?_⟩
    intro label target p
    rw [Weight.is_empty_iff.mp hempty]
    simp
  · cases htarget : targets_by_label.get entry.1 with
    | none =>
        refine ⟨h, fun p => Iff.rfl, ?_⟩
        intro label target p
        constructor
        · exact Or.inl
        · intro hor
          obtain hsteps | ⟨rfl, hget, -⟩ := hor
          · exact hsteps
          · rw [htarget] at hget
            cases hget
    | some t =>
        refine ⟨h.add_transition htarget _, fun p => MergedStateBuilder.final_add_transition, ?_⟩
        intro label target p
        rw [MergedStateBuilder.steps_add_transition]
        · apply or_congr_right
          apply and_congr_right
          intro hlabel
          rw [hlabel, htarget, Option.some_inj, eq_comm]
        · intro t' weights hget
          exact Option.some.inj ((h _ _ _ hget).symm.trans htarget)

/-- Adding the weights of labels adds their points, each with the label's target. -/
theorem add_label_weights_spec (h : builder.Leads targets_by_label)
    (entries : List (Label × List (ℕ × TokenSet))) :
    (∀ p, (entries.foldl (add_label_weight targets_by_label) builder).Final p ↔ builder.Final p) ∧
      ∀ label target p,
        (entries.foldl (add_label_weight targets_by_label) builder).Steps label target p ↔
          builder.Steps label target p ∨ targets_by_label.get label = some target ∧
            ∃ list, (label, list) ∈ entries ∧ p ∈ weight_of_entries list := by
  induction entries generalizing builder with
  | nil => simp
  | cons entry entries ih =>
      obtain ⟨hnext, hfinal, hsteps⟩ := add_label_weight_spec h entry
      obtain ⟨hrest, hreststeps⟩ := ih hnext
      rw [List.foldl_cons]
      refine ⟨fun p => (hrest p).trans (hfinal p), ?_⟩
      intro label target p
      rw [hreststeps, hsteps, or_assoc]
      apply or_congr_right
      simp only [List.mem_cons, or_and_right, exists_or]
      constructor
      · intro hor
        obtain ⟨rfl, htarget, hp⟩ | ⟨htarget, hex⟩ := hor
        · exact ⟨htarget, Or.inl ⟨entry.2, rfl, hp⟩⟩
        · exact ⟨htarget, Or.inr hex⟩
      · intro hand
        obtain ⟨htarget, ⟨list, he, hp⟩ | hex⟩ := hand
        · cases he
          exact Or.inl ⟨rfl, htarget, hp⟩
        · exact Or.inr ⟨htarget, hex⟩

/-- What the builder of a group has: the points of the group's behaviors. -/
structure Builds (interner : PointwiseBehaviorInterner) (group : PointwiseMergeGroup)
    (builder : MergedStateBuilder) : Prop where
  final : ∀ p, builder.Final p ↔
    Shown interner group.behavior_by_tsid.get (fun behavior => behavior.final_active = true) p
  steps : ∀ label target p, builder.Steps label target p ↔
    group.targets_by_label.get label = some target ∧
      Shown interner group.behavior_by_tsid.get (fun behavior => label ∈ behavior.labels) p

theorem pointwise_group_to_builder_spec (h : regions.Valid) {decoded_by_region_ptr : DecodedRegions}
    (hcache : CacheValid interner regions decoded_by_region_ptr)
    (hknown : Known regions group.behavior_by_tsid.get)
    (hbound : ∀ k x id, numbers group.behavior_by_tsid.get (k, x) = some id →
      k < u32Max ∧ x ≤ u32Max) :
    Builds interner group (pointwise_group_to_builder interner group decoded_by_region_ptr).1 ∧
      CacheValid interner regions
        (pointwise_group_to_builder interner group decoded_by_region_ptr).2 := by
  have hregion : ∀ entry ∈ group.behavior_by_tsid.entries, entry.2 ∈ regions.regions := by
    intro entry hentry
    exact hknown entry.1 entry.2 (PointwiseBehaviorMap.mem_entries.mp hentry)
  have hdecodes : ∀ entry ∈ group.behavior_by_tsid.entries, Decodes interner entry.2.ranges
      (decode_pointwise_region entry.2.ranges interner) := by
    intro entry hentry
    have hordered := h.ordered entry.2 (hregion entry hentry)
    apply decode_pointwise_region_spec hordered
    intro r hr
    apply (hbound entry.1 r.hi r.val _).2
    exact Option.bind_eq_some_iff.mpr ⟨entry.2, PointwiseBehaviorMap.mem_entries.mp hentry,
      hordered.lookup_of_mem hr ⟨hordered.1 r hr, le_rfl⟩⟩
  obtain ⟨hnext, hfinal, htransitions⟩ := collect_entries_spec h hregion
    (fun entry hentry => (hdecodes entry hentry).labels) hcache
  unfold pointwise_group_to_builder
  dsimp only
  generalize collect_entries interner group.behavior_by_tsid.entries decoded_by_region_ptr =
    collected at hnext hfinal htransitions ⊢
  refine ⟨?_, hnext⟩
  have hstart : ∀ weight : Weight, (if weight.is_empty then (default : MergedStateBuilder)
      else (default : MergedStateBuilder).add_final_weight weight).Leads group.targets_by_label ∧
      (∀ p, (if weight.is_empty then (default : MergedStateBuilder)
        else (default : MergedStateBuilder).add_final_weight weight).Final p ↔ p ∈ weight) ∧
      ∀ label target p, ¬(if weight.is_empty then (default : MergedStateBuilder)
        else (default : MergedStateBuilder).add_final_weight weight).Steps label target p := by
    intro weight
    have hleads : (default : MergedStateBuilder).Leads group.targets_by_label := by
      intro label target weights hget
      cases hget
    split_ifs with hempty
    · refine ⟨hleads, ?_, fun label target p => MergedStateBuilder.not_steps_default⟩
      intro p
      rw [Weight.is_empty_iff.mp hempty]
      simp
    · refine ⟨hleads, ?_, fun label target p => MergedStateBuilder.not_steps_default⟩
      intro p
      rw [MergedStateBuilder.final_add_final_weight]
      simp
  obtain ⟨hleads, hstartfinal, hstartsteps⟩ := hstart (weight_of_entries collected.1.final_entries)
  obtain ⟨hbuiltfinal, hbuiltsteps⟩ :=
    add_label_weights_spec hleads collected.1.transition_entries.entries
  refine ⟨?_, ?_⟩
  · intro p
    rw [hbuiltfinal, hstartfinal, hfinal]
    exact mem_weight_of_decoded hbound
      (fun region => (decode_pointwise_region region.ranges interner).final_tokens)
      (fun entry hentry => (hdecodes entry hentry).final)
      (fun entry hentry => (hdecodes entry hentry).final_nonempty) p
  · intro label target p
    rw [hbuiltsteps, or_iff_right (hstartsteps label target p)]
    apply and_congr_right
    intro _
    -- a label without an entry has no token sets
    have hlist : (∃ list, (label, list) ∈ collected.1.transition_entries.entries ∧
        p ∈ weight_of_entries list) ↔
          p ∈ weight_of_entries ((collected.1.transition_entries.get label).getD []) := by
      simp only [← SortedMap.get_eq_some_iff]
      cases collected.1.transition_entries.get label with
      | none => simp [mem_weight_of_entries]
      | some list => simp
    rw [hlist, htransitions]
    have hlookup : ∀ entry ∈ group.behavior_by_tsid.entries, ∀ e,
        (decode_pointwise_region entry.2.ranges interner).transitions.lookup label = some e ↔
          (label, e) ∈ (decode_pointwise_region entry.2.ranges interner).transitions :=
      fun entry hentry e => lookup_iff_mem (hdecodes entry hentry).labels
    have hsteps : ∀ entry ∈ group.behavior_by_tsid.entries, ∀ x,
        (∃ tokens ∈ ((decode_pointwise_region entry.2.ranges interner).transitions.lookup label).map
          Prod.snd, x ∈ tokens) ↔
          ∃ id, lookupRuns entry.2.ranges x = some id ∧ label ∈ (interner.get id).labels := by
      intro entry hentry x
      rw [← (hdecodes entry hentry).steps]
      simp only [Option.mem_def, Option.map_eq_some_iff, ← hlookup entry hentry]
      constructor
      · intro hex
        obtain ⟨tokens, ⟨e, he, rfl⟩, hx⟩ := hex
        exact ⟨e, he, hx⟩
      · intro hex
        obtain ⟨e, he, hx⟩ := hex
        exact ⟨e.2, ⟨e, he, rfl⟩, hx⟩
    have hne : ∀ entry ∈ group.behavior_by_tsid.entries, ∀ tokens ∈
        ((decode_pointwise_region entry.2.ranges interner).transitions.lookup label).map Prod.snd,
          ∃ x, x ∈ tokens := by
      intro entry hentry tokens htokens
      obtain ⟨e, he, rfl⟩ := Option.map_eq_some_iff.mp htokens
      exact (hdecodes entry hentry).nonempty (label, e) ((hlookup entry hentry e).mp he)
    rw [← mem_weight_of_decoded hbound (fun region =>
      ((decode_pointwise_region region.ranges interner).transitions.lookup label).map Prod.snd)
      hsteps hne p]
    simp only [Option.map_map, Function.comp_def]

/-- The builders of a list of groups, each with the points of its group's behaviors. -/
theorem pointwise_groups_to_builders_spec (interner : PointwiseBehaviorInterner)
    (h : regions.Valid) {groups : List PointwiseMergeGroup}
    (hgroups : ∀ group ∈ groups, Known regions group.behavior_by_tsid.get ∧
      ∀ k x id, numbers group.behavior_by_tsid.get (k, x) = some id → k < u32Max ∧ x ≤ u32Max) :
    List.Forall₂ (Builds interner) groups (pointwise_groups_to_builders groups interner) := by
  suffices hfold : ∀ (groups done : List PointwiseMergeGroup)
      (acc : List MergedStateBuilder × DecodedRegions),
      (∀ group ∈ groups, Known regions group.behavior_by_tsid.get ∧
        ∀ k x id, numbers group.behavior_by_tsid.get (k, x) = some id → k < u32Max ∧ x ≤ u32Max) →
      List.Forall₂ (Builds interner) done acc.1 → CacheValid interner regions acc.2 →
      List.Forall₂ (Builds interner) (done ++ groups) (groups.foldl (fun acc group =>
        (acc.1 ++ [(pointwise_group_to_builder interner group acc.2).1],
          (pointwise_group_to_builder interner group acc.2).2)) acc).1 by
    apply hfold groups [] ([], []) hgroups .nil
    intro address decoded hlookup
    cases hlookup
  intro groups
  induction groups with
  | nil =>
      intro done acc _ hdone _
      rw [List.append_nil]
      exact hdone
  | cons group groups ih =>
      intro done acc hgroups hdone hcache
      obtain ⟨hknown, hbound⟩ := hgroups group List.mem_cons_self
      obtain ⟨hbuilds, hnext⟩ := pointwise_group_to_builder_spec h hcache hknown hbound
      rw [List.append_cons]
      apply ih _ _ (fun g hg => hgroups g (List.mem_cons_of_mem _ hg)) _ hnext
      exact List.rel_append hdone (.cons hbuilds .nil)

end Weights

end Pointwise

end GlrMask
