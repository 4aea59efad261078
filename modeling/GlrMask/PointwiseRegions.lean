import GlrMask.Nfa
import GlrMask.RunOverlay
import GlrMask.TokenSets

/-!
# Pointwise behaviors and their regions

A behavior says whether a state accepts and where its labels lead, at one tsid
and token. A region gives the behavior of each token at one tsid. Behaviors and
regions are interned; an optional table remembers overlays of two regions.
-/

namespace GlrMask

namespace Pointwise

structure PointwiseBehavior where
  final_active : Bool
  transitions : List (Label × ℕ)
deriving DecidableEq

structure PointwiseBehaviorInterner where
  ids : List (PointwiseBehavior × ℕ)
  values : List PointwiseBehavior

instance : Inhabited PointwiseBehaviorInterner := ⟨⟨[], []⟩⟩

def PointwiseBehaviorInterner.intern (self : PointwiseBehaviorInterner) (final_active : Bool)
    (transitions : List (Label × ℕ)) : ℕ × PointwiseBehaviorInterner :=
  let behavior : PointwiseBehavior := ⟨final_active, transitions⟩
  match self.ids.lookup behavior with
  | some id => (id, self)
  | none =>
      let id := self.values.length
      (id, ⟨(behavior, id) :: self.ids, self.values ++ [behavior]⟩)

/-- Tokens that share a behavior, which is given by its number. -/
abbrev TokenBehaviorRange := Run ℕ

/-- A shared list of ranges with the address at which it is stored. -/
structure Region where
  address : ℕ
  ranges : List TokenBehaviorRange
deriving DecidableEq

/-- Where a list is allocated while lists at other addresses are alive. -/
class Allocator where
  place : List ℕ → ℕ
  fresh : ∀ live, place live ∉ live

/-- Allocation at the first address above all live ones. -/
@[reducible] def Allocator.default : Allocator :=
  ⟨fun live => live.foldr max 0 + 1, fun live h => by
    have hle : ∀ {l : List ℕ} {a : ℕ}, a ∈ l → a ≤ l.foldr max 0 := by
      intro l a ha
      induction l with
      | nil => cases ha
      | cons b l ih =>
          rw [List.foldr_cons]
          obtain rfl | ha := List.mem_cons.mp ha
          · exact le_max_left _ _
          · exact (ih ha).trans (le_max_right _ _)
    exact absurd (hle h) (by omega)⟩

/-- A table of overlays that is indexed by a hash of the two regions' ids. -/
structure DirectOverlayCache where
  region_values : List Region
  region_ids_by_ptr : List (ℕ × ℕ)
  slots : List (Option ((ℕ × ℕ) × ℕ))

/-- The regions are found by their contents, and are all kept alive. -/
structure PointwiseRegionInterner where
  regions : List Region
  direct_overlay : Option DirectOverlayCache

/-- Append a range, extending the last one if it touches and has the same behavior. -/
def push_token_behavior_range (ranges : List TokenBehaviorRange) (start stop behavior : ℕ) :
    List TokenBehaviorRange :=
  RunOverlay.push (· == ·) u32Max ranges ⟨start, stop, behavior⟩

def token_behavior_ranges_compatible (left right : List TokenBehaviorRange) : Bool :=
  RunOverlay.agree (· == ·) left right

/-- The union of two behavior functions that agree wherever both are defined. -/
def overlay_compatible_token_behavior_ranges (existing add : List TokenBehaviorRange) :
    List TokenBehaviorRange :=
  (RunOverlay.overlay (RunOverlay.push (· == ·) u32Max) (fun _ left _ => (left, ())) [] existing
    add ()).1

def overlay_slot (low high slots : ℕ) : ℕ :=
  let key := (BitVec.ofNat 64 low <<< 32) ||| BitVec.ofNat 64 high
  let mixed := (key * 0x9E3779B97F4A7C15#64).rotateLeft 23 ^^^ key.rotateRight 17
  (mixed &&& BitVec.ofNat 64 (slots - 1)).toNat

namespace PointwiseRegionInterner

def with_direct_overlay_slots (slot_count : ℕ) : PointwiseRegionInterner :=
  ⟨[], if slot_count ≠ 0 then some ⟨[], [], List.replicate slot_count none⟩ else none⟩

variable [Allocator]

def intern (self : PointwiseRegionInterner) (ranges : List TokenBehaviorRange) :
    Region × PointwiseRegionInterner :=
  match self.regions.find? (·.ranges = ranges) with
  | some existing => (existing, self)
  | none =>
      let region : Region := ⟨Allocator.place (self.regions.map Region.address), ranges⟩
      (region, ⟨self.regions ++ [region], self.direct_overlay.map fun cache =>
        { cache with
          region_ids_by_ptr := (region.address, cache.region_values.length) :: cache.region_ids_by_ptr
          region_values := cache.region_values ++ [region] }⟩)

/-- Remember the overlay that was interned for a key. -/
def record_overlay (self : PointwiseRegionInterner) (slot_index : ℕ) (key : ℕ × ℕ)
    (result : Region) : PointwiseRegionInterner :=
  { self with direct_overlay := self.direct_overlay.map fun cache =>
      match cache.region_ids_by_ptr.lookup result.address with
      | some result_id => { cache with slots := cache.slots.set slot_index (some (key, result_id)) }
      | none => cache }

def overlay_compatible (self : PointwiseRegionInterner) (left right : Region) :
    Region × PointwiseRegionInterner :=
  let overlaid := self.intern (overlay_compatible_token_behavior_ranges left.ranges right.ranges)
  if left.address = right.address then (left, self)
  else
    match self.direct_overlay with
    | none => overlaid
    | some cache =>
        match cache.region_ids_by_ptr.lookup left.address,
            cache.region_ids_by_ptr.lookup right.address with
        | some left_id, some right_id =>
            let key := if left_id ≤ right_id then (left_id, right_id) else (right_id, left_id)
            let slot_index := overlay_slot key.1 key.2 cache.slots.length
            match (cache.slots[slot_index]?).join.filter (·.1 = key) with
            | some (_, result_id) =>
                match cache.region_values[result_id]? with
                | some region => (region, self)
                | none => overlaid
            | none => (overlaid.1, overlaid.2.record_overlay slot_index key overlaid.1)
        | _, _ => overlaid

end PointwiseRegionInterner

/-! ## Interned behaviors -/

theorem getElem?_of_extends {V : Type} {l l' : List V} (h : l <+: l') {i : ℕ} {v : V}
    (hv : l[i]? = some v) : l'[i]? = some v := by
  obtain ⟨rest, rfl⟩ := h
  rw [List.getElem?_append_left (List.getElem?_eq_some_iff.mp hv).1, hv]

theorem getElem?_concat_cases {V : Type} {l : List V} {i : ℕ} {v last : V}
    (hv : (l ++ [last])[i]? = some v) : l[i]? = some v ∨ i = l.length ∧ v = last := by
  by_cases hi : i < l.length
  · rw [List.getElem?_append_left hi] at hv
    exact Or.inl hv
  · have hlt := (List.getElem?_eq_some_iff.mp hv).1
    rw [List.length_append, List.length_singleton] at hlt
    have he : i = l.length := by omega
    rw [he, List.getElem?_concat_length] at hv
    exact Or.inr ⟨he, (Option.some.inj hv).symm⟩

/-- Every number that is remembered for a behavior is its place among the values. -/
def PointwiseBehaviorInterner.Valid (self : PointwiseBehaviorInterner) : Prop :=
  ∀ behavior id, self.ids.lookup behavior = some id → self.values[id]? = some behavior

theorem PointwiseBehaviorInterner.intern_spec {self : PointwiseBehaviorInterner} (h : self.Valid)
    (final_active : Bool) (transitions : List (Label × ℕ)) :
    (self.intern final_active transitions).2.Valid ∧
      self.values <+: (self.intern final_active transitions).2.values ∧
      (self.intern final_active transitions).2.values[(self.intern final_active transitions).1]? =
        some ⟨final_active, transitions⟩ := by
  unfold intern
  simp only
  cases hid : self.ids.lookup ⟨final_active, transitions⟩ with
  | some id => exact ⟨h, List.prefix_rfl, h _ id hid⟩
  | none =>
      refine ⟨?_, List.prefix_append _ _, List.getElem?_concat_length⟩
      intro behavior id hlookup
      rw [List.lookup_cons] at hlookup
      split at hlookup
      · rename_i heq
        obtain rfl := beq_iff_eq.mp heq
        cases hlookup
        exact List.getElem?_concat_length
      · exact getElem?_of_extends (List.prefix_append _ _) (h behavior id hlookup)

/-! ## Overlays -/

/-- Wherever both are defined, two lists of ranges name the same behavior. -/
def Agree (left right : List TokenBehaviorRange) : Prop :=
  ∀ x a b, lookupRuns left x = some a → lookupRuns right x = some b → a = b

theorem Agree.symm {left right : List TokenBehaviorRange} (h : Agree left right) :
    Agree right left := fun x a b ha hb => (h x b a hb ha).symm

theorem Agree.or_comm {left right : List TokenBehaviorRange} (h : Agree left right) (x : ℕ) :
    (lookupRuns left x).or (lookupRuns right x) = (lookupRuns right x).or (lookupRuns left x) := by
  cases hl : lookupRuns left x with
  | none => simp
  | some a =>
      cases hr : lookupRuns right x with
      | none => simp
      | some b => rw [h x a b hl hr]

theorem agree_of_compatible {left right : List TokenBehaviorRange} (hl : Ordered left)
    (hr : Ordered right) (h : token_behavior_ranges_compatible left right = true) :
    Agree left right := by
  intro x a b ha hb
  exact beq_iff_eq.mp (RunOverlay.agree_sound hl hr h ha hb)

/-- The ranges of an overlay, which is defined where one of the two sides is. -/
structure IsOverlay (left right result : List TokenBehaviorRange) : Prop where
  agree : Agree left right
  lookup : ∀ x, lookupRuns result x = (lookupRuns left x).or (lookupRuns right x)

theorem IsOverlay.symm {left right result : List TokenBehaviorRange}
    (h : IsOverlay left right result) : IsOverlay right left result :=
  ⟨h.agree.symm, fun x => (h.lookup x).trans (h.agree.or_comm x)⟩

theorem isOverlay_self (ranges : List TokenBehaviorRange) : IsOverlay ranges ranges ranges := by
  refine ⟨?_, ?_⟩
  · intro x a b ha hb
    exact Option.some.inj (ha.symm.trans hb)
  · intro x
    rw [Option.or_self]

theorem overlay_compatible_ranges_spec {left right : List TokenBehaviorRange} (hl : Ordered left)
    (hr : Ordered right) (h : Agree left right) :
    Ordered (overlay_compatible_token_behavior_ranges left right) ∧
      IsOverlay left right (overlay_compatible_token_behavior_ranges left right) := by
  have hjoins : RunOverlay.Joins (σ := Unit) (· == ·) (fun _ (l : ℕ) (_ : ℕ) => (l, ()))
      (fun _ => True) (fun _ _ => True) (fun a b => a = b) (fun a _ v => v = a) := by
    refine ⟨?_, ?_⟩
    · intro _ a b _ _ _ hab
      exact beq_iff_eq.mp hab
    · intro _ a b _ _ _ hab
      exact ⟨trivial, trivial, rfl, fun _ _ => trivial⟩
  have hspec := RunOverlay.overlay_spec u32Max () hjoins trivial
    (fun _ _ => trivial) (fun _ _ => trivial) hl hr h
  refine ⟨hspec.ordered, h, ?_⟩
  intro x
  have hadded := hspec.added (k := x) rfl
  unfold overlay_compatible_token_behavior_ranges
  generalize lookupRuns left x = a at hadded
  generalize lookupRuns right x = b at hadded
  generalize lookupRuns _ x = v at hadded
  cases hadded with
  | neither => rfl
  | left a => rfl
  | right b => rfl
  | both hv => rw [hv]; rfl

/-! ## Interned regions -/

/-- What the tables of the overlay cache stand for. -/
structure DirectOverlayCache.Valid (regions : List Region) (cache : DirectOverlayCache) : Prop where
  values : ∀ (id : ℕ) region, cache.region_values[id]? = some region → region ∈ regions
  ids : ∀ (address id : ℕ), cache.region_ids_by_ptr.lookup address = some id →
    ∃ region, cache.region_values[id]? = some region ∧ region.address = address
  slots : ∀ (slot : ℕ) (key : ℕ × ℕ) (id : ℕ), cache.slots[slot]? = some (some (key, id)) →
    ∃ low high result, cache.region_values[key.1]? = some low ∧
      cache.region_values[key.2]? = some high ∧ cache.region_values[id]? = some result ∧
        IsOverlay low.ranges high.ranges result.ranges

/-- No two live regions share an address, and all of them are ordered. -/
structure PointwiseRegionInterner.Valid (interner : PointwiseRegionInterner) : Prop where
  address_inj : ∀ a ∈ interner.regions, ∀ b ∈ interner.regions, a.address = b.address → a = b
  ordered : ∀ region ∈ interner.regions, Ordered region.ranges
  cache : ∀ cache, interner.direct_overlay = some cache → cache.Valid interner.regions

namespace PointwiseRegionInterner

theorem valid_with_direct_overlay_slots (slot_count : ℕ) :
    (with_direct_overlay_slots slot_count).Valid := by
  refine ⟨by simp [with_direct_overlay_slots], by simp [with_direct_overlay_slots], ?_⟩
  intro cache hcache
  simp only [with_direct_overlay_slots] at hcache
  split_ifs at hcache
  cases hcache
  refine ⟨by simp, by simp, ?_⟩
  intro slot key id hslot
  simp only [List.getElem?_replicate] at hslot
  split_ifs at hslot
  cases hslot

variable [Allocator] {self : PointwiseRegionInterner}

theorem intern_spec (h : self.Valid) {ranges : List TokenBehaviorRange} (hranges : Ordered ranges) :
    (self.intern ranges).2.Valid ∧ self.regions <+: (self.intern ranges).2.regions ∧
      (self.intern ranges).1 ∈ (self.intern ranges).2.regions ∧
      (self.intern ranges).1.ranges = ranges := by
  unfold intern
  cases hfind : self.regions.find? (·.ranges = ranges) with
  | some existing =>
      refine ⟨h, List.prefix_rfl, List.mem_of_find?_eq_some hfind, ?_⟩
      simpa using List.find?_some hfind
  | none =>
      have hfresh := Allocator.fresh (self.regions.map Region.address)
      refine ⟨⟨?_, ?_, ?_⟩, List.prefix_append _ _, by simp, rfl⟩
      · intro a ha b hb hab
        simp only [List.mem_append, List.mem_singleton] at ha hb
        obtain ha | rfl := ha <;> obtain hb | rfl := hb
        · exact h.address_inj a ha b hb hab
        · exact (hfresh (List.mem_map.mpr ⟨a, ha, hab⟩)).elim
        · exact (hfresh (List.mem_map.mpr ⟨b, hb, hab.symm⟩)).elim
        · rfl
      · intro region hregion
        simp only [List.mem_append, List.mem_singleton] at hregion
        obtain hregion | rfl := hregion
        · exact h.ordered region hregion
        · exact hranges
      · intro cache hcache
        obtain ⟨old, hold, rfl⟩ := Option.map_eq_some_iff.mp hcache
        have hvalid := h.cache old hold
        refine ⟨?_, ?_, ?_⟩
        · intro id region hregion
          obtain hregion | ⟨-, rfl⟩ := getElem?_concat_cases hregion
          · exact List.mem_append_left _ (hvalid.values id region hregion)
          · exact List.mem_append_right _ List.mem_cons_self
        · intro address id hid
          rw [List.lookup_cons] at hid
          split at hid
          · rename_i heq
            cases hid
            exact ⟨_, List.getElem?_concat_length, (beq_iff_eq.mp heq).symm⟩
          · obtain ⟨region, hregion, haddress⟩ := hvalid.ids address id hid
            exact ⟨region, getElem?_of_extends (List.prefix_append _ _) hregion, haddress⟩
        · intro slot key id hslot
          obtain ⟨low, high, result, hlow, hhigh, hresult, hoverlay⟩ :=
            hvalid.slots slot key id hslot
          have hgrows := List.prefix_append old.region_values
            [⟨Allocator.place (self.regions.map Region.address), ranges⟩]
          exact ⟨low, high, result, getElem?_of_extends hgrows hlow,
            getElem?_of_extends hgrows hhigh, getElem?_of_extends hgrows hresult, hoverlay⟩

theorem intern_values {ranges : List TokenBehaviorRange} {cache : DirectOverlayCache}
    (hcache : (self.intern ranges).2.direct_overlay = some cache) :
    ∃ old, self.direct_overlay = some old ∧ old.region_values <+: cache.region_values := by
  unfold intern at hcache
  split at hcache
  · exact ⟨cache, hcache, List.prefix_rfl⟩
  · obtain ⟨old, hold, rfl⟩ := Option.map_eq_some_iff.mp hcache
    exact ⟨old, hold, List.prefix_append _ _⟩

omit [Allocator] in
theorem record_overlay_spec (h : self.Valid) {slot_index : ℕ} {key : ℕ × ℕ} {result : Region}
    (hresult : result ∈ self.regions)
    (hkey : ∀ cache, self.direct_overlay = some cache → ∃ low high : Region,
      cache.region_values[key.1]? = some low ∧ cache.region_values[key.2]? = some high ∧
        IsOverlay low.ranges high.ranges result.ranges) :
    (self.record_overlay slot_index key result).Valid := by
  refine ⟨h.address_inj, h.ordered, ?_⟩
  intro cache hcache
  obtain ⟨old, hold, rfl⟩ := Option.map_eq_some_iff.mp hcache
  have hvalid := h.cache old hold
  split
  · rename_i result_id hid
    refine ⟨hvalid.values, hvalid.ids, ?_⟩
    intro slot key' id hslot
    rw [List.getElem?_set] at hslot
    split_ifs at hslot with heq hlt
    · cases hslot
      obtain ⟨low, high, hlow, hhigh, hoverlay⟩ := hkey old hold
      obtain ⟨region, hregion, haddress⟩ := hvalid.ids _ _ hid
      obtain rfl := h.address_inj region (hvalid.values _ _ hregion) result hresult haddress
      exact ⟨low, high, region, hlow, hhigh, hregion, hoverlay⟩
    · exact hvalid.slots slot key' id hslot
  · exact hvalid

/-- The overlay of two interned regions, whether it is computed or remembered. -/
theorem overlay_compatible_spec (h : self.Valid) {left right : Region} (hl : left ∈ self.regions)
    (hr : right ∈ self.regions) (hagree : Agree left.ranges right.ranges) :
    (self.overlay_compatible left right).2.Valid ∧
      self.regions <+: (self.overlay_compatible left right).2.regions ∧
      (self.overlay_compatible left right).1 ∈ (self.overlay_compatible left right).2.regions ∧
      IsOverlay left.ranges right.ranges (self.overlay_compatible left right).1.ranges := by
  obtain ⟨hordered, hoverlay⟩ :=
    overlay_compatible_ranges_spec (h.ordered left hl) (h.ordered right hr) hagree
  obtain ⟨hvalid, hgrows, hmem, hranges⟩ := intern_spec h hordered
  rw [← hranges] at hoverlay
  unfold overlay_compatible
  simp only
  split_ifs with hsame
  · obtain rfl := h.address_inj left hl right hr hsame
    exact ⟨h, List.prefix_rfl, hl, isOverlay_self left.ranges⟩
  · split
    · exact ⟨hvalid, hgrows, hmem, hoverlay⟩
    · rename_i cache hcache
      have hcvalid := h.cache cache hcache
      split
      · rename_i left_id right_id hleft hright
        -- the regions that the two ids stand for are the operands, in either order
        have hkey : ∀ {values : List Region}, cache.region_values <+: values →
            ∀ key : ℕ × ℕ,
            key = (if left_id ≤ right_id then (left_id, right_id) else (right_id, left_id)) →
            values[key.1]? = some left ∧ values[key.2]? = some right ∨
              values[key.1]? = some right ∧ values[key.2]? = some left := by
          intro values hvalues key hk
          obtain ⟨region, hregion, haddress⟩ := hcvalid.ids _ _ hleft
          obtain rfl := h.address_inj region (hcvalid.values _ _ hregion) left hl haddress
          obtain ⟨region', hregion', haddress'⟩ := hcvalid.ids _ _ hright
          obtain rfl := h.address_inj region' (hcvalid.values _ _ hregion') right hr haddress'
          have hleft' := getElem?_of_extends hvalues hregion
          have hright' := getElem?_of_extends hvalues hregion'
          split_ifs at hk
          · subst hk
            exact Or.inl ⟨hleft', hright'⟩
          · subst hk
            exact Or.inr ⟨hright', hleft'⟩
        split
        · rename_i key' result_id hslot
          obtain ⟨hjoin, hkey'⟩ := Option.filter_eq_some_iff.mp hslot
          obtain ⟨low, high, result, hlow, hhigh, hresult, hcached⟩ :=
            hcvalid.slots _ _ _ (Option.join_eq_some_iff.mp hjoin)
          rw [hresult]
          refine ⟨h, List.prefix_rfl, hcvalid.values _ _ hresult, ?_⟩
          obtain ⟨h1, h2⟩ | ⟨h1, h2⟩ := hkey List.prefix_rfl key' (by simpa using hkey')
          · rw [hlow] at h1
            rw [hhigh] at h2
            cases h1
            cases h2
            exact hcached
          · rw [hlow] at h1
            rw [hhigh] at h2
            cases h1
            cases h2
            exact hcached.symm
        · refine ⟨record_overlay_spec hvalid hmem ?_, hgrows, hmem, hoverlay⟩
          intro cache' hcache'
          obtain ⟨old, hold, hvalues⟩ := intern_values hcache'
          rw [hcache] at hold
          cases hold
          obtain ⟨h1, h2⟩ | ⟨h1, h2⟩ := hkey hvalues _ rfl
          · exact ⟨left, right, h1, h2, hoverlay⟩
          · exact ⟨right, left, h1, h2, hoverlay.symm⟩
      · exact ⟨hvalid, hgrows, hmem, hoverlay⟩

end PointwiseRegionInterner

end Pointwise

end GlrMask
