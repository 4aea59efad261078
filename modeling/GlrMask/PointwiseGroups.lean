import GlrMask.FirstFit
import GlrMask.PointwiseSweeps
import GlrMask.SortedMap

/-!
# Merge groups of state classes

A class joins the first group whose targets and behaviors agree with its own. A
group keeps the union of the behaviors of its members: by tsid, in a sparse or a
dense map, or by ranges of tsids.
-/

namespace GlrMask

namespace Pointwise

/-! ## Behaviors by tsid -/

inductive PointwiseBehaviorMapLayout
  | Sparse
  | Dense (slots : ℕ)

inductive PointwiseBehaviorMap
  | Sparse (entries : SortedMap ℕ Region)
  | Dense (entries : List (Option Region))

namespace PointwiseBehaviorMap

def new : PointwiseBehaviorMapLayout → PointwiseBehaviorMap
  | .Sparse => .Sparse .empty
  | .Dense slots => .Dense (List.replicate slots none)

def get : PointwiseBehaviorMap → ℕ → Option Region
  | .Sparse entries, tsid => entries.get tsid
  | .Dense entries, tsid => (entries[tsid]?).join

/-- Write the entry of a tsid. The slots of a dense map cover the tsids of every profile. -/
def put : PointwiseBehaviorMap → ℕ → Region → PointwiseBehaviorMap
  | .Sparse entries, tsid, region => .Sparse (entries.insert tsid region)
  | .Dense entries, tsid, region => .Dense (entries.set tsid (some region))

/-- The entries in the order of their tsids. -/
def entries : PointwiseBehaviorMap → List (ℕ × Region)
  | .Sparse entries => entries.entries
  | .Dense entries => entries.zipIdx.filterMap fun slot => slot.1.map fun region => (slot.2, region)

def Fits : PointwiseBehaviorMap → ℕ → Prop
  | .Sparse _, _ => True
  | .Dense entries, tsid => tsid < entries.length

variable [Allocator]

def merge_entry (acc : PointwiseBehaviorMap × PointwiseRegionInterner) (entry : ℕ × Region) :
    PointwiseBehaviorMap × PointwiseRegionInterner :=
  match acc.1.get entry.1 with
  | some existing =>
      if existing.address = entry.2.address then acc
      else
        let overlaid := acc.2.overlay_compatible existing entry.2
        (acc.1.put entry.1 overlaid.1, overlaid.2)
  | none => (acc.1.put entry.1 entry.2, acc.2)

def merge_profile (self : PointwiseBehaviorMap) (profile : PointwiseProfile)
    (regions : PointwiseRegionInterner) : PointwiseBehaviorMap × PointwiseRegionInterner :=
  profile.by_tsid.foldl merge_entry (self, regions)

end PointwiseBehaviorMap

def regions_compatible (existing ranges : Region) : Bool :=
  existing.address == ranges.address ||
    token_behavior_ranges_compatible existing.ranges ranges.ranges

def pointwise_profile_compatible (group : PointwiseBehaviorMap) (profile : PointwiseProfile) :
    Bool :=
  profile.by_tsid.all fun entry =>
    (group.get entry.1).all fun existing => regions_compatible existing entry.2

/-! ## Behaviors by ranges of tsids -/

structure PointwiseRangeBehaviorMap where
  ranges : List (Run Region)

namespace PointwiseRangeBehaviorMap

def profile_compatible (self : PointwiseRangeBehaviorMap) (profile : PointwiseRangeProfile) : Bool :=
  RunOverlay.agree regions_compatible self.ranges profile.by_tsid_range

variable [Allocator]

def join_regions (regions : PointwiseRegionInterner) (left right : Region) :
    Region × PointwiseRegionInterner :=
  if left.address = right.address then (left, regions) else regions.overlay_compatible left right

def merge_profile (self : PointwiseRangeBehaviorMap) (profile : PointwiseRangeProfile)
    (regions : PointwiseRegionInterner) : PointwiseRangeBehaviorMap × PointwiseRegionInterner :=
  let merged := RunOverlay.overlay
    (RunOverlay.push (fun a b : Region => a.address == b.address) u32Max) join_regions []
    self.ranges profile.by_tsid_range regions
  (⟨merged.1⟩, merged.2)

end PointwiseRangeBehaviorMap

/-! ## Groups -/

structure MergeGroup (B : Type) where
  targets_by_label : SortedMap Label ℕ
  behavior_by_tsid : B
  member_classes : List ℕ

abbrev PointwiseMergeGroup := MergeGroup PointwiseBehaviorMap

abbrev PointwiseRangeMergeGroup := MergeGroup PointwiseRangeBehaviorMap

def targets_compatible_with_group_map (class_targets : List (Label × ℕ))
    (group_targets_by_label : SortedMap Label ℕ) : Bool :=
  class_targets.all fun entry =>
    (group_targets_by_label.get entry.1).all fun group_target => group_target == entry.2

/-- A class with what grouping reads of it: its targets and its profile. -/
structure ClassEntry (P : Type) where
  index : ℕ
  targets : List (Label × ℕ)
  profile : P

/-- What the two kinds of behavior maps offer to grouping. -/
structure BehaviorMaps (B P : Type) where
  new : B
  len : P → ℕ
  profile_compatible : B → P → Bool
  merge_profile : B → P → PointwiseRegionInterner → B × PointwiseRegionInterner

inductive PointwiseClassOrder
  | Stable
  | DescendingDomain

section Grouping

variable {B P : Type} (ops : BehaviorMaps B P)

def accepts (group : MergeGroup B) (c : ClassEntry P) : Bool :=
  targets_compatible_with_group_map c.targets group.targets_by_label &&
    ops.profile_compatible group.behavior_by_tsid c.profile

/-- A target that is there already stays. -/
def or_insert_targets (targets_by_label : SortedMap Label ℕ) (targets : List (Label × ℕ)) :
    SortedMap Label ℕ :=
  targets.foldl (fun map entry =>
    if (map.get entry.1).isSome then map else map.insert entry.1 entry.2) targets_by_label

def join_group (group : MergeGroup B) (c : ClassEntry P) (regions : PointwiseRegionInterner) :
    MergeGroup B × PointwiseRegionInterner :=
  let merged := ops.merge_profile group.behavior_by_tsid c.profile regions
  (⟨or_insert_targets group.targets_by_label c.targets, merged.1,
    group.member_classes ++ [c.index]⟩, merged.2)

def start_group (c : ClassEntry P) (regions : PointwiseRegionInterner) :
    MergeGroup B × PointwiseRegionInterner :=
  let merged := ops.merge_profile ops.new c.profile regions
  (⟨SortedMap.ofList c.targets, merged.1, [c.index]⟩, merged.2)

/-- The larger domain first, then the more targets, then the later class. -/
def class_key (c : ClassEntry P) : ℕ ×ₗ ℕ ×ₗ ℕ :=
  toLex (ops.len c.profile, toLex (c.targets.length, c.index))

def class_order (pointwise_class_order : PointwiseClassOrder) (classes : List (ClassEntry P)) :
    List (ClassEntry P) :=
  match pointwise_class_order with
  | .Stable => classes
  | .DescendingDomain => classes.insertionSort fun a b => class_key ops b ≤ class_key ops a

def group_classes (pointwise_class_order : PointwiseClassOrder) (classes : List (ClassEntry P))
    (regions : PointwiseRegionInterner) : List (MergeGroup B) × PointwiseRegionInterner :=
  FirstFit.group (accepts ops) (join_group ops) (start_group ops)
    (class_order ops pointwise_class_order classes) regions

end Grouping

/-- The number of the list that each index is in. -/
def colors_of (groups : List (List ℕ)) (length : ℕ) : List ℕ :=
  groups.zipIdx.foldl (fun colors group =>
    group.1.foldl (fun colors idx => colors.set idx group.2) colors) (List.replicate length 0)

/-- The group of each class. -/
def class_to_group {B : Type} (groups : List (MergeGroup B)) (classes : ℕ) : List ℕ :=
  colors_of (groups.map (·.member_classes)) classes

/-! ## The maps -/

/-- All regions of a function by tsid are interned. -/
def Known (regions : PointwiseRegionInterner) (region_at : ℕ → Option Region) : Prop :=
  ∀ k region, region_at k = some region → region ∈ regions.regions

theorem Known.later {regions regions' : PointwiseRegionInterner} {region_at : ℕ → Option Region}
    (h : Known regions region_at) (hgrows : regions.regions ⊆ regions'.regions) :
    Known regions' region_at := fun k region hr => hgrows (h k region hr)

/-- Wherever both have a region, the regions agree. -/
def AgreeAt (left right : ℕ → Option Region) : Prop :=
  ∀ k a b, left k = some a → right k = some b → Agree a.ranges b.ranges

/-- The outcome of merging a profile into the map of a group. -/
structure Merged (regions : PointwiseRegionInterner) (left right : ℕ → Option Region)
    (regions' : PointwiseRegionInterner) (result : ℕ → Option Region) : Prop where
  valid : regions'.Valid
  grows : regions.regions ⊆ regions'.regions
  known : Known regions' result
  overlaid : ∀ k, RunOverlay.Overlaid (fun a b v : Region => IsOverlay a.ranges b.ranges v.ranges)
    (left k) (right k) (result k)

theorem regions_compatible_spec {regions : PointwiseRegionInterner} (h : regions.Valid)
    {existing ranges : Region} (hl : existing ∈ regions.regions) (hr : ranges ∈ regions.regions)
    (hcompatible : regions_compatible existing ranges = true) :
    Agree existing.ranges ranges.ranges := by
  unfold regions_compatible at hcompatible
  rw [Bool.or_eq_true] at hcompatible
  obtain hsame | hagree := hcompatible
  · obtain rfl := h.address_inj existing hl ranges hr (beq_iff_eq.mp hsame)
    exact (isOverlay_self existing.ranges).agree
  · exact agree_of_compatible (h.ordered existing hl) (h.ordered ranges hr) hagree

namespace PointwiseBehaviorMap

@[simp] theorem get_new (layout : PointwiseBehaviorMapLayout) (k : ℕ) :
    (new layout).get k = none := by
  cases layout with
  | Sparse => rfl
  | Dense slots =>
      simp only [new, get, List.getElem?_replicate]
      split_ifs
      · rfl
      · rfl

theorem get_put {map : PointwiseBehaviorMap} {tsid : ℕ} (h : map.Fits tsid) (region : Region)
    (k : ℕ) : (map.put tsid region).get k = if tsid = k then some region else map.get k := by
  cases map with
  | Sparse entries => exact SortedMap.get_insert entries tsid k region
  | Dense entries =>
      have hlt : tsid < entries.length := h
      simp only [put, get, List.getElem?_set]
      split_ifs with he
      · rfl
      · rfl

theorem fits_put {map : PointwiseBehaviorMap} {tsid k : ℕ} {region : Region} :
    (map.put tsid region).Fits k ↔ map.Fits k := by
  cases map with
  | Sparse entries => rfl
  | Dense entries => simp only [put, Fits, List.length_set]

theorem mem_entries {map : PointwiseBehaviorMap} {entry : ℕ × Region} :
    entry ∈ map.entries ↔ map.get entry.1 = some entry.2 := by
  cases map with
  | Sparse entries => exact SortedMap.get_eq_some_iff.symm
  | Dense entries =>
      simp only [PointwiseBehaviorMap.entries, get, List.mem_filterMap, Option.map_eq_some_iff,
        Option.join_eq_some_iff]
      constructor
      · intro h
        obtain ⟨slot, hslot, region, hregion, rfl⟩ := h
        rw [← hregion]
        exact List.mem_zipIdx_iff_getElem?.mp hslot
      · intro h
        exact ⟨(some entry.2, entry.1), List.mem_zipIdx_iff_getElem?.mpr h, entry.2, rfl, rfl⟩

theorem entries_sorted (map : PointwiseBehaviorMap) :
    map.entries.Pairwise fun a b => a.1 < b.1 := by
  cases map with
  | Sparse entries => exact entries.sorted
  | Dense entries =>
      have hsorted : entries.zipIdx.Pairwise fun a b => a.2 < b.2 := by
        rw [← List.pairwise_map (f := Prod.snd), List.zipIdx_map_snd]
        exact List.pairwise_lt_range'
      rw [PointwiseBehaviorMap.entries, List.pairwise_filterMap]
      apply hsorted.imp
      intro a b hab entry hentry entry' hentry'
      obtain ⟨region, -, rfl⟩ := Option.map_eq_some_iff.mp hentry
      obtain ⟨region', -, rfl⟩ := Option.map_eq_some_iff.mp hentry'
      exact hab

variable [Allocator]

theorem merge_entry_spec {map : PointwiseBehaviorMap} {regions : PointwiseRegionInterner}
    {entry : ℕ × Region} (h : regions.Valid) (hknown : Known regions map.get)
    (hentry : entry.2 ∈ regions.regions) (hfits : map.Fits entry.1)
    (hagree : ∀ existing, map.get entry.1 = some existing →
      Agree existing.ranges entry.2.ranges) :
    Merged regions map.get (fun k => if entry.1 = k then some entry.2 else none)
        (merge_entry (map, regions) entry).2 (merge_entry (map, regions) entry).1.get ∧
      ∀ k, (merge_entry (map, regions) entry).1.Fits k ↔ map.Fits k := by
  -- writing a region that overlays what the map has
  have hput : ∀ {regions' : PointwiseRegionInterner} {region : Region}, regions'.Valid →
      regions.regions ⊆ regions'.regions → region ∈ regions'.regions →
      RunOverlay.Overlaid (fun a b v : Region => IsOverlay a.ranges b.ranges v.ranges)
        (map.get entry.1) (some entry.2) (some region) →
      Merged regions map.get (fun k => if entry.1 = k then some entry.2 else none) regions'
          (map.put entry.1 region).get ∧
        ∀ k, (map.put entry.1 region).Fits k ↔ map.Fits k := by
    intro regions' region hvalid hgrows hmem hoverlaid
    refine ⟨⟨hvalid, hgrows, ?_, ?_⟩, fun k => fits_put⟩
    · intro k r hr
      rw [get_put hfits] at hr
      split_ifs at hr
      · cases hr
        exact hmem
      · exact hgrows (hknown k r hr)
    · intro k
      rw [get_put hfits]
      split_ifs with hk
      · rw [← hk]
        exact hoverlaid
      · exact RunOverlay.overlaid_none_right
  unfold merge_entry
  dsimp only
  cases hget : map.get entry.1 with
  | none =>
      apply hput h (fun _ hr => hr) hentry
      rw [hget]
      exact .right entry.2
  | some existing =>
      have hexisting := hknown _ _ hget
      dsimp only
      split_ifs with hsame
      · -- the same region is there already
        obtain rfl := h.address_inj existing hexisting entry.2 hentry hsame
        refine ⟨⟨h, fun _ hr => hr, hknown, ?_⟩, fun _ => Iff.rfl⟩
        intro k
        split_ifs with hk
        · rw [← hk, hget]
          exact .both (isOverlay_self _)
        · exact RunOverlay.overlaid_none_right
      · obtain ⟨hvalid, hgrows, hmem, hoverlay⟩ :=
          PointwiseRegionInterner.overlay_compatible_spec h hexisting hentry (hagree existing hget)
        apply hput hvalid hgrows.subset hmem
        rw [hget]
        exact .both hoverlay

theorem merge_profile_spec {map : PointwiseBehaviorMap} {regions : PointwiseRegionInterner}
    {profile : PointwiseProfile} (h : regions.Valid) (hknown : Known regions map.get)
    (hprofile : Known regions fun k => profile.by_tsid.lookup k)
    (hnodup : (profile.by_tsid.map Prod.fst).Nodup)
    (hfits : ∀ k ∈ profile.by_tsid.map Prod.fst, map.Fits k)
    (hagree : AgreeAt map.get fun k => profile.by_tsid.lookup k) :
    Merged regions map.get (fun k => profile.by_tsid.lookup k) (map.merge_profile profile regions).2
        (map.merge_profile profile regions).1.get ∧
      ∀ k, (map.merge_profile profile regions).1.Fits k ↔ map.Fits k := by
  obtain ⟨l⟩ := profile
  unfold merge_profile
  dsimp only at *
  induction l generalizing map regions with
  | nil => exact ⟨⟨h, fun _ hr => hr, hknown, fun k => RunOverlay.overlaid_none_right⟩, fun _ => Iff.rfl⟩
  | cons entry l ih =>
      rw [List.map_cons, List.nodup_cons] at hnodup
      have hhead : (entry :: l).lookup entry.1 = some entry.2 := by
        rw [List.lookup_cons, beq_self_eq_true]
      have htail : ∀ k, k ≠ entry.1 → (entry :: l).lookup k = l.lookup k := by
        intro k hk
        rw [List.lookup_cons, beq_false_of_ne hk]
      have hfresh : l.lookup entry.1 = none := by
        cases hl : l.lookup entry.1 with
        | none => rfl
        | some region => exact absurd (List.mem_map_of_mem (mem_of_lookup hl)) hnodup.1
      have hne : ∀ {k region}, l.lookup k = some region → k ≠ entry.1 := by
        intro k region hk he
        rw [he, hfresh] at hk
        cases hk
      obtain ⟨hstep, hfit⟩ := merge_entry_spec h hknown (hprofile _ _ hhead)
        (hfits entry.1 List.mem_cons_self) fun existing hget => hagree _ _ _ hget hhead
      have hsame : ∀ k, k ≠ entry.1 → (merge_entry (map, regions) entry).1.get k = map.get k := by
        intro k hk
        have hover := hstep.overlaid k
        rw [if_neg hk.symm] at hover
        exact RunOverlay.eq_of_overlaid_none_right hover
      obtain ⟨hrest, hrestfit⟩ := ih hstep.valid hstep.known
        (fun k region hk => hstep.grows (hprofile k region ((htail k (hne hk)).trans hk))) hnodup.2
        (fun k hk => (hfit k).mpr (hfits k (List.mem_cons_of_mem _ hk)))
        (fun k a b ha hb => hagree k a b ((hsame k (hne hb)).symm.trans ha)
          ((htail k (hne hb)).trans hb))
      rw [List.foldl_cons]
      refine ⟨⟨hrest.valid, fun _ hr => hrest.grows (hstep.grows hr), hrest.known, ?_⟩,
        fun k => (hrestfit k).trans (hfit k)⟩
      intro k
      have hover := hrest.overlaid k
      by_cases hk : k = entry.1
      · subst hk
        rw [hfresh] at hover
        have hentry := hstep.overlaid entry.1
        rw [if_pos rfl] at hentry
        rw [RunOverlay.eq_of_overlaid_none_right hover, hhead]
        exact hentry
      · rw [htail k hk, ← hsame k hk]
        exact hover

end PointwiseBehaviorMap

theorem pointwise_profile_compatible_spec {map : PointwiseBehaviorMap} {profile : PointwiseProfile}
    {regions : PointwiseRegionInterner} (h : regions.Valid) (hknown : Known regions map.get)
    (hprofile : Known regions fun k => profile.by_tsid.lookup k)
    (hcompatible : pointwise_profile_compatible map profile = true) :
    AgreeAt map.get fun k => profile.by_tsid.lookup k := by
  intro k a b ha hb
  have hentry := List.all_eq_true.mp hcompatible (k, b) (mem_of_lookup hb)
  rw [ha, Option.all_some] at hentry
  exact regions_compatible_spec h (hknown k a ha) (hprofile k b hb) hentry

namespace PointwiseRangeBehaviorMap

theorem profile_compatible_spec {map : PointwiseRangeBehaviorMap} {profile : PointwiseRangeProfile}
    {regions : PointwiseRegionInterner} (h : regions.Valid)
    (hknown : Known regions (lookupRuns map.ranges))
    (hprofile : Known regions (lookupRuns profile.by_tsid_range)) (hmap : Ordered map.ranges)
    (hranges : Ordered profile.by_tsid_range) (hcompatible : map.profile_compatible profile = true) :
    AgreeAt (lookupRuns map.ranges) (lookupRuns profile.by_tsid_range) := by
  intro k a b ha hb
  exact regions_compatible_spec h (hknown k a ha) (hprofile k b hb)
    (RunOverlay.agree_sound hmap hranges hcompatible ha hb)

theorem values_of_known {regions : PointwiseRegionInterner} {ranges : List (Run Region)}
    (h : Ordered ranges) (hknown : Known regions (lookupRuns ranges)) :
    RunOverlay.Values (· ∈ regions.regions) ranges := by
  intro run hrun
  exact hknown run.lo run.val (h.lookup_of_mem hrun ⟨le_rfl, h.1 run hrun⟩)

variable [Allocator]

/-- Joining regions keeps the interner valid and gives the overlay of the two. -/
theorem joins_regions : RunOverlay.Joins (fun a b : Region => a.address == b.address) join_regions
    PointwiseRegionInterner.Valid (fun regions region => region ∈ regions.regions)
    (fun a b => Agree a.ranges b.ranges) (fun a b v => IsOverlay a.ranges b.ranges v.ranges) := by
  refine ⟨?_, ?_⟩
  · intro regions a b h ha hb hab
    exact h.address_inj a ha b hb (beq_iff_eq.mp hab)
  · intro regions a b h ha hb hagree
    unfold join_regions
    split_ifs with hsame
    · obtain rfl := h.address_inj a ha b hb hsame
      exact ⟨h, ha, isOverlay_self a.ranges, fun _ hv => hv⟩
    · obtain ⟨hvalid, hgrows, hmem, hoverlay⟩ :=
        PointwiseRegionInterner.overlay_compatible_spec h ha hb hagree
      exact ⟨hvalid, hmem, hoverlay, fun _ hv => hgrows.subset hv⟩

theorem merge_profile_spec {map : PointwiseRangeBehaviorMap} {regions : PointwiseRegionInterner}
    {profile : PointwiseRangeProfile} (h : regions.Valid)
    (hknown : Known regions (lookupRuns map.ranges))
    (hprofile : Known regions (lookupRuns profile.by_tsid_range)) (hmap : Ordered map.ranges)
    (hranges : Ordered profile.by_tsid_range)
    (hagree : AgreeAt (lookupRuns map.ranges) (lookupRuns profile.by_tsid_range)) :
    Merged regions (lookupRuns map.ranges) (lookupRuns profile.by_tsid_range)
        (map.merge_profile profile regions).2
        (lookupRuns (map.merge_profile profile regions).1.ranges) ∧
      Ordered (map.merge_profile profile regions).1.ranges := by
  have hspec := RunOverlay.overlay_spec u32Max regions joins_regions h
    (values_of_known hmap hknown) (values_of_known hranges hprofile) hmap hranges hagree
  refine ⟨⟨hspec.inv, fun _ hr => hspec.mono hr, ?_, fun k => hspec.added rfl⟩, hspec.ordered⟩
  intro k region hr
  obtain ⟨run, hrun, -, rfl⟩ := exists_run_of_lookupRuns hr
  exact hspec.values run hrun

end PointwiseRangeBehaviorMap

/-! ## Groups of classes -/

/-- What grouping relies on: the maps hold regions by tsid, compatible maps agree, and merging
overlays the regions. -/
structure BehaviorMaps.Exact {B P : Type} (ops : BehaviorMaps B P)
    (group_at : B → ℕ → Option Region) (profile_at : P → ℕ → Option Region) (group_ok : B → Prop)
    (profile_ok : P → Prop) : Prop where
  new_ok : group_ok ops.new
  new_at : ∀ k, group_at ops.new k = none
  compatible : ∀ {regions : PointwiseRegionInterner} {b p}, regions.Valid →
    Known regions (group_at b) → Known regions (profile_at p) → group_ok b → profile_ok p →
    ops.profile_compatible b p = true → AgreeAt (group_at b) (profile_at p)
  merge : ∀ {regions : PointwiseRegionInterner} {b p}, regions.Valid →
    Known regions (group_at b) → Known regions (profile_at p) → group_ok b → profile_ok p →
    AgreeAt (group_at b) (profile_at p) →
    Merged regions (group_at b) (profile_at p) (ops.merge_profile b p regions).2
        (group_at (ops.merge_profile b p regions).1) ∧
      group_ok (ops.merge_profile b p regions).1

/-- The behavior numbers of a function by tsid, at each tsid and token. -/
def numbers (region_at : ℕ → Option Region) (at_point : ℕ × ℕ) : Option ℕ :=
  (region_at at_point.1).bind fun region => lookupRuns region.ranges at_point.2

theorem Merged.numbers {regions regions' : PointwiseRegionInterner}
    {left right result : ℕ → Option Region} (h : Merged regions left right regions' result)
    (at_point : ℕ × ℕ) :
    Pointwise.numbers result at_point =
      (Pointwise.numbers left at_point).or (Pointwise.numbers right at_point) := by
  have hover := h.overlaid at_point.1
  unfold Pointwise.numbers
  generalize left at_point.1 = a at hover ⊢
  generalize right at_point.1 = b at hover ⊢
  generalize result at_point.1 = v at hover ⊢
  cases hover with
  | neither => rfl
  | left a => exact (Option.or_none).symm
  | right b => exact (Option.none_or).symm
  | both hoverlay => exact hoverlay.lookup at_point.2

theorem AgreeAt.numbers {left right : ℕ → Option Region} (h : AgreeAt left right)
    (at_point : ℕ × ℕ) (v w : ℕ) (hv : Pointwise.numbers left at_point = some v)
    (hw : Pointwise.numbers right at_point = some w) : v = w := by
  obtain ⟨a, ha, hv⟩ := Option.bind_eq_some_iff.mp hv
  obtain ⟨b, hb, hw⟩ := Option.bind_eq_some_iff.mp hw
  exact h _ a b ha hb _ v w hv hw

section Groups

variable {B P : Type}

/-- A group that holds the union of its members' targets and behaviors. -/
structure GroupHolds (group_at : B → ℕ → Option Region) (profile_at : P → ℕ → Option Region)
    (group_ok : B → Prop) (regions : PointwiseRegionInterner) (group : MergeGroup B)
    (members : List (ClassEntry P)) : Prop where
  indices : group.member_classes = members.map (·.index)
  ok : group_ok group.behavior_by_tsid
  known : Known regions (group_at group.behavior_by_tsid)
  targets : FirstFit.IsUnion group.targets_by_label.get
    (members.map fun c label => c.targets.lookup label)
  behaviors : FirstFit.IsUnion (numbers (group_at group.behavior_by_tsid))
    (members.map fun c => numbers (profile_at c.profile))

theorem get_or_insert_targets (targets : List (Label × ℕ)) (map : SortedMap Label ℕ)
    (label : Label) :
    (or_insert_targets map targets).get label = (map.get label).or (targets.lookup label) := by
  unfold or_insert_targets
  induction targets generalizing map with
  | nil => exact (Option.or_none).symm
  | cons entry targets ih =>
      rw [List.foldl_cons, ih]
      cases hget : map.get entry.1 with
      | some target =>
          rw [Option.isSome_some, if_pos rfl]
          by_cases hlabel : label = entry.1
          · rw [hlabel, hget, Option.some_or, Option.some_or]
          · rw [List.lookup_cons, beq_false_of_ne hlabel]
      | none =>
          rw [Option.isSome_none, if_neg (by simp), SortedMap.get_insert]
          by_cases hlabel : label = entry.1
          · rw [if_pos hlabel.symm, hlabel, hget, List.lookup_cons, beq_self_eq_true,
              Option.some_or, Option.none_or]
          · rw [if_neg (Ne.symm hlabel), List.lookup_cons, beq_false_of_ne hlabel]

theorem lookup_eq_lookupEntry (l : List (Label × ℕ)) (label : Label) :
    l.lookup label = SortedMap.lookupEntry l label := by
  induction l with
  | nil => rfl
  | cons entry l ih =>
      rw [SortedMap.lookupEntry, ← ih]
      by_cases hlabel : label = entry.1
      · rw [hlabel, List.lookup_cons, beq_self_eq_true, if_pos rfl]
      · rw [List.lookup_cons, beq_false_of_ne hlabel, if_neg (Ne.symm hlabel)]

theorem targets_agree {targets : List (Label × ℕ)} {map : SortedMap Label ℕ}
    (h : targets_compatible_with_group_map targets map = true) (label : Label) (v w : ℕ)
    (hv : map.get label = some v) (hw : targets.lookup label = some w) : v = w := by
  rw [lookup_eq_lookupEntry] at hw
  have hentry := List.all_eq_true.mp h (label, w) (SortedMap.lookupEntry_eq_some hw)
  rw [hv, Option.all_some] at hentry
  exact beq_iff_eq.mp hentry

/-- What a class that is grouped brings: a profile with known regions and one target a label. -/
structure ClassEntry.Ok (profile_at : P → ℕ → Option Region) (profile_ok : P → Prop)
    (regions : PointwiseRegionInterner) (c : ClassEntry P) : Prop where
  profile : profile_ok c.profile
  known : Known regions (profile_at c.profile)
  labels : (c.targets.map Prod.fst).Nodup

variable {ops : BehaviorMaps B P} {group_at : B → ℕ → Option Region}
  {profile_at : P → ℕ → Option Region} {group_ok : B → Prop} {profile_ok : P → Prop}

/-- Starting a group and joining one keep the groups the unions of their members. -/
theorem keeps_groups (hops : ops.Exact group_at profile_at group_ok profile_ok)
    (base : PointwiseRegionInterner) :
    FirstFit.Keeps (accepts ops) (join_group ops) (start_group ops)
      (fun regions : PointwiseRegionInterner =>
        regions.Valid ∧ base.regions ⊆ regions.regions)
      (fun regions regions' => regions.regions ⊆ regions'.regions)
      (ClassEntry.Ok profile_at profile_ok base) (GroupHolds group_at profile_at group_ok) := by
  refine ⟨?_, ?_, ?_⟩
  · intro regions regions' group members hgrows hholds
    exact ⟨hholds.indices, hholds.ok, hholds.known.later hgrows, hholds.targets, hholds.behaviors⟩
  · intro regions c hinv hc
    have hnone : AgreeAt (group_at ops.new) (profile_at c.profile) := by
      intro k a b ha
      rw [hops.new_at] at ha
      cases ha
    obtain ⟨hmerged, hok⟩ := hops.merge hinv.1
      (fun k r hr => by rw [hops.new_at] at hr; cases hr) (hc.known.later hinv.2) hops.new_ok
      hc.profile hnone
    refine ⟨⟨hmerged.valid, fun _ hr => hmerged.grows (hinv.2 hr)⟩, hmerged.grows, rfl, hok,
      hmerged.known, ?_, ?_⟩
    · have htargets : (start_group ops c regions).1.targets_by_label.get =
          fun label => c.targets.lookup label := by
        funext label
        rw [lookup_eq_lookupEntry]
        exact SortedMap.get_ofList hc.labels label
      rw [htargets]
      exact FirstFit.isUnion_singleton _
    · have hbehaviors : numbers (group_at (start_group ops c regions).1.behavior_by_tsid) =
          numbers (profile_at c.profile) := by
        funext at_point
        have hempty : numbers (group_at ops.new) at_point = none := by
          rw [numbers, hops.new_at, Option.bind_none]
        exact (hmerged.numbers at_point).trans (by rw [hempty, Option.none_or])
      rw [hbehaviors]
      exact FirstFit.isUnion_singleton _
  · intro regions group members c hinv hc hholds haccepts
    unfold accepts at haccepts
    rw [Bool.and_eq_true] at haccepts
    have hagree := hops.compatible hinv.1 hholds.known (hc.known.later hinv.2) hholds.ok hc.profile
      haccepts.2
    obtain ⟨hmerged, hok⟩ := hops.merge hinv.1 hholds.known (hc.known.later hinv.2) hholds.ok
      hc.profile hagree
    refine ⟨⟨hmerged.valid, fun _ hr => hmerged.grows (hinv.2 hr)⟩, hmerged.grows, ?_, hok,
      hmerged.known, ?_, ?_⟩
    · rw [List.map_append, ← hholds.indices]
      rfl
    · rw [List.map_append]
      exact hholds.targets.concat (targets_agree haccepts.1)
        (get_or_insert_targets c.targets group.targets_by_label)
    · rw [List.map_append]
      exact hholds.behaviors.concat hagree.numbers hmerged.numbers

theorem class_order_perm (pointwise_class_order : PointwiseClassOrder)
    (classes : List (ClassEntry P)) : (class_order ops pointwise_class_order classes).Perm classes := by
  cases pointwise_class_order with
  | Stable => exact List.Perm.refl classes
  | DescendingDomain => exact List.perm_insertionSort _ classes

/-- Every class is in one group, and every group holds the union of its members. -/
theorem group_classes_spec (hops : ops.Exact group_at profile_at group_ok profile_ok)
    (pointwise_class_order : PointwiseClassOrder) {classes : List (ClassEntry P)}
    {regions : PointwiseRegionInterner} (h : regions.Valid)
    (hclasses : ∀ c ∈ classes, c.Ok profile_at profile_ok regions) :
    (group_classes ops pointwise_class_order classes regions).2.Valid ∧
      FirstFit.Holds (GroupHolds group_at profile_at group_ok)
        (group_classes ops pointwise_class_order classes regions).2
        (group_classes ops pointwise_class_order classes regions).1 classes := by
  have horder : (class_order ops pointwise_class_order classes).Perm classes :=
    class_order_perm pointwise_class_order classes
  obtain ⟨hinv, members, hgroups, hperm⟩ := FirstFit.group_spec (keeps_groups hops regions)
    (fun c hc => hclasses c (horder.subset hc)) ⟨h, fun _ hr => hr⟩
  exact ⟨hinv.1, members, hgroups, hperm.trans horder⟩

theorem foldl_set_of_not_mem {l : List (ℕ × ℕ)} {k : ℕ} (h : k ∉ l.map Prod.fst) (map : List ℕ) :
    (l.foldl (fun map e => map.set e.1 e.2) map)[k]? = map[k]? := by
  induction l generalizing map with
  | nil => rfl
  | cons e l ih =>
      rw [List.map_cons, List.mem_cons, not_or] at h
      rw [List.foldl_cons, ih h.2, List.getElem?_set_ne (Ne.symm h.1)]

/-- Of writes to different places, each stays. -/
theorem foldl_set_of_mem {l : List (ℕ × ℕ)} (h : (l.map Prod.fst).Nodup) {map : List ℕ}
    {entry : ℕ × ℕ} (hentry : entry ∈ l) (hlt : entry.1 < map.length) :
    (l.foldl (fun map e => map.set e.1 e.2) map)[entry.1]? = some entry.2 := by
  induction l generalizing map with
  | nil => cases hentry
  | cons e l ih =>
      rw [List.map_cons, List.nodup_cons] at h
      rw [List.foldl_cons]
      obtain rfl | hentry := List.mem_cons.mp hentry
      · rw [foldl_set_of_not_mem h.1, List.getElem?_set_self hlt]
      · exact ih h.2 hentry (by rwa [List.length_set])

/-- Every index is given the number of the list that it is in. -/
theorem colors_of_spec {groups : List (List ℕ)} {length : ℕ}
    (h : groups.flatten.Perm (List.range length)) {id c : ℕ} {group : List ℕ}
    (hgroup : groups[id]? = some group) (hc : c ∈ group) :
    (colors_of groups length)[c]? = some id := by
  have hfold : colors_of groups length =
      (groups.zipIdx.flatMap fun group => group.1.map fun c => (c, group.2)).foldl
        (fun map e => map.set e.1 e.2) (List.replicate length 0) := by
    rw [colors_of, List.foldl_flatMap]
    simp only [List.foldl_map]
  have hkeys : (groups.zipIdx.flatMap fun group => group.1.map fun c => (c, group.2)).map Prod.fst =
      groups.flatten := by
    rw [List.map_flatMap]
    simp only [List.map_map, Function.comp_def, List.map_id']
    rw [List.flatMap_def, List.zipIdx_map_fst]
  have hmem : (c, id) ∈ groups.zipIdx.flatMap fun group => group.1.map fun c => (c, group.2) :=
    List.mem_flatMap.mpr ⟨(group, id), List.mem_zipIdx_iff_getElem?.mpr hgroup,
      List.mem_map.mpr ⟨c, hc, rfl⟩⟩
  have hlt : c < length := by
    apply List.mem_range.mp
    apply h.subset
    rw [← hkeys]
    exact List.mem_map_of_mem hmem
  rw [hfold]
  apply foldl_set_of_mem _ hmem
  · rw [List.length_replicate]
    exact hlt
  · rw [hkeys]
    exact h.nodup_iff.mpr List.nodup_range

/-- Every class is given the number of its group. -/
theorem class_to_group_spec {groups : List (MergeGroup B)} {classes : ℕ}
    (h : (groups.map (·.member_classes)).flatten.Perm (List.range classes)) {id c : ℕ}
    {group : MergeGroup B} (hgroup : groups[id]? = some group) (hc : c ∈ group.member_classes) :
    (class_to_group groups classes)[c]? = some id := by
  apply colors_of_spec h _ hc
  rw [List.getElem?_map, hgroup, Option.map_some]

end Groups

/-! ## The two kinds of behavior maps -/

def PointwiseBehaviorMapLayout.Fits : PointwiseBehaviorMapLayout → ℕ → Prop
  | .Sparse, _ => True
  | .Dense slots, tsid => tsid < slots

theorem PointwiseBehaviorMap.fits_new {layout : PointwiseBehaviorMapLayout} {k : ℕ}
    (h : layout.Fits k) : (PointwiseBehaviorMap.new layout).Fits k := by
  cases layout with
  | Sparse => trivial
  | Dense slots => exact lt_of_lt_of_eq h List.length_replicate.symm

variable [Allocator]

def pointwise_maps (layout : PointwiseBehaviorMapLayout) :
    BehaviorMaps PointwiseBehaviorMap PointwiseProfile :=
  ⟨.new layout, fun profile => profile.by_tsid.length, pointwise_profile_compatible,
    PointwiseBehaviorMap.merge_profile⟩

def pointwise_range_maps : BehaviorMaps PointwiseRangeBehaviorMap PointwiseRangeProfile :=
  ⟨⟨[]⟩, fun profile => profile.by_tsid_range.length,
    PointwiseRangeBehaviorMap.profile_compatible, PointwiseRangeBehaviorMap.merge_profile⟩

/-- A profile with one entry a tsid, all of which fit a layout. -/
structure PointwiseProfile.Fits (profile : PointwiseProfile) (layout : PointwiseBehaviorMapLayout) :
    Prop where
  nodup : (profile.by_tsid.map Prod.fst).Nodup
  fits : ∀ k ∈ profile.by_tsid.map Prod.fst, layout.Fits k

theorem pointwise_maps_exact (layout : PointwiseBehaviorMapLayout) :
    (pointwise_maps layout).Exact PointwiseBehaviorMap.get (fun profile k => profile.by_tsid.lookup k)
      (fun map => ∀ k, layout.Fits k → map.Fits k) (fun profile => profile.Fits layout) := by
  refine ⟨?_, PointwiseBehaviorMap.get_new layout, ?_, ?_⟩
  · intro k hk
    exact PointwiseBehaviorMap.fits_new hk
  · intro regions map profile h hknown hprofile _ _ hcompatible
    exact pointwise_profile_compatible_spec h hknown hprofile hcompatible
  · intro regions map profile h hknown hprofile hmap hok hagree
    obtain ⟨hmerged, hfits⟩ := PointwiseBehaviorMap.merge_profile_spec h hknown hprofile hok.nodup
      (fun k hk => hmap k (hok.fits k hk)) hagree
    exact ⟨hmerged, fun k hk => (hfits k).mpr (hmap k hk)⟩

theorem pointwise_range_maps_exact :
    pointwise_range_maps.Exact (fun map => lookupRuns map.ranges)
      (fun profile => lookupRuns profile.by_tsid_range) (fun map => Ordered map.ranges)
      (fun profile => Ordered profile.by_tsid_range) := by
  refine ⟨⟨by simp [pointwise_range_maps], List.Pairwise.nil⟩, fun _ => rfl, ?_, ?_⟩
  · intro regions map profile h hknown hprofile hmap hok hcompatible
    exact PointwiseRangeBehaviorMap.profile_compatible_spec h hknown hprofile hmap hok hcompatible
  · intro regions map profile h hknown hprofile hmap hok hagree
    exact PointwiseRangeBehaviorMap.merge_profile_spec h hknown hprofile hmap hok hagree

end Pointwise

end GlrMask
