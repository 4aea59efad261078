import GlrMask.PointwiseRegions
import GlrMask.RangeMapJoin
import GlrMask.Weight

/-!
# Pointwise profiles of state classes

The profile of a class gives the region of each tsid of its domain. It is built
from the weights of the class in one of three ways: by a sweep of cursors, from
boundaries within each domain entry, or with whole tsid ranges.

Token sets are known by the address at which they are stored; a weight lists the
addresses of its entries, and the heap says which token set stands at an address.
-/

namespace GlrMask

namespace Pointwise

/-- The run with the token set at its address. -/
def deref (heap : ℕ → TokenSet) (entry : Run ℕ) : WeightRangeEntry :=
  ⟨entry.lo, entry.hi, heap entry.val⟩

/-- A weight whose entries are given with the addresses of their token sets. -/
structure SharedWeight (heap : ℕ → TokenSet) where
  weight : Weight
  entries : List (Run ℕ)
  stored : entries.map (deref heap) = weight.map.runs
  nonnull : ∀ entry ∈ entries, entry.val ≠ 0

def SharedWeight.token_set_for_tsid_ref {heap : ℕ → TokenSet} (self : SharedWeight heap)
    (tsid : ℕ) : Option ℕ :=
  lookupRuns self.entries tsid

structure ClassProfile (W : Type) where
  targets : List (Label × ℕ)
  weights : List (Label × W)
  final_weight : Option W

def profile_target_for_label {W : Type} (profile : ClassProfile W) (label : Label) : Option ℕ :=
  profile.targets.lookup label

/-- The addresses of the token sets that a region is built from; 0 stands for no final tokens. -/
structure PointwiseRegionBuildKey where
  domain_tokens : ℕ
  final_tokens : ℕ
  transitions : List (Label × ℕ × ℕ)
deriving DecidableEq

/-- The tables that are shared by the profiles of all classes. -/
structure PointwiseBuild where
  behaviors : PointwiseBehaviorInterner
  regions : PointwiseRegionInterner
  build_cache : List (PointwiseRegionBuildKey × Option Region)

def PointwiseBuild.new (direct_overlay_slots : ℕ) : PointwiseBuild :=
  ⟨default, .with_direct_overlay_slots direct_overlay_slots, []⟩

/-! ## Regions -/

section Region

variable (heap : ℕ → TokenSet)

/-- One step over two neighbouring boundaries; a token of the domain without behavior ends the
construction. -/
def region_step (domain_tokens : ℕ) (final_tokens : Option ℕ)
    (active_transitions : List (Label × ℕ × ℕ))
    (acc : List TokenBehaviorRange × PointwiseBehaviorInterner) (pair : ℕ × ℕ) :
    Option (List TokenBehaviorRange × PointwiseBehaviorInterner) :=
  if pair.1 > u32Max ∨ pair.1 ≥ pair.2 then some acc
  else if pair.1 ∉ heap domain_tokens then some acc
  else
    let final_active := final_tokens.any fun tokens => pair.1 ∈ heap tokens
    let transitions := (active_transitions.filter fun t => pair.1 ∈ heap t.2.2).map
      fun t => (t.1, t.2.1)
    if !final_active && transitions.isEmpty then none
    else
      let interned := acc.2.intern final_active transitions
      some (push_token_behavior_range acc.1 pair.1 (pair.2 - 1) interned.1, interned.2)

def region_boundaries (domain_tokens : ℕ) (final_tokens : Option ℕ)
    (active_transitions : List (Label × ℕ × ℕ)) : List ℕ :=
  sortDedup (cutPoints (heap domain_tokens).runs ++
    (final_tokens.elim [] fun tokens => cutPoints (heap tokens).runs) ++
    active_transitions.flatMap fun t => cutPoints (heap t.2.2).runs)

/-- The region of a row of token sets. Nothing reads the tables once there is none. -/
def build_token_behavior_region [Allocator] (domain_tokens : ℕ) (final_tokens : Option ℕ)
    (active_transitions : List (Label × ℕ × ℕ)) (build : PointwiseBuild) :
    Option (Region × PointwiseBuild) :=
  let key : PointwiseRegionBuildKey := ⟨domain_tokens, final_tokens.getD 0, active_transitions⟩
  match build.build_cache.lookup key with
  | some existing => existing.map fun region => (region, build)
  | none =>
      ((windows (region_boundaries heap domain_tokens final_tokens active_transitions)).foldlM
        (region_step heap domain_tokens final_tokens active_transitions)
        ([], build.behaviors)).bind fun acc =>
      if acc.1.isEmpty then none
      else
        let interned := build.regions.intern acc.1
        some (interned.1, ⟨acc.2, interned.2, (key, some interned.1) :: build.build_cache⟩)

end Region

/-! ## Profiles -/

/-- The region of each tsid, in the order of the tsids. -/
structure PointwiseProfile where
  by_tsid : List (ℕ × Region)

/-- The region of each range of tsids, in the order of the tsids. -/
structure PointwiseRangeProfile where
  by_tsid_range : List (Run Region)

/-- Append a range of tsids, extending the last one if it touches and shares its region. -/
def push_pointwise_tsid_range (ranges : List (Run Region)) (start stop : ℕ) (region : Region) :
    List (Run Region) :=
  RunOverlay.push (fun a b => a.address == b.address) u32Max ranges ⟨start, stop, region⟩

section Profile

variable {heap : ℕ → TokenSet}

/-- A label with its mapped target and its weight. -/
abbrev ProfileTransition (heap : ℕ → TokenSet) := Label × ℕ × SharedWeight heap

def any_full (domain : SharedWeight heap) (profile : ClassProfile (SharedWeight heap)) : Bool :=
  domain.weight.is_full || profile.final_weight.any (·.weight.is_full) ||
    profile.weights.any (·.2.weight.is_full)

def profile_transitions (profile : ClassProfile (SharedWeight heap)) :
    Option (List (ProfileTransition heap)) :=
  profile.weights.mapM fun entry =>
    (profile_target_for_label profile entry.1).map fun target => (entry.1, target, entry.2)

/-- The active transitions, from the address that each transition has at a tsid, if any. -/
def active_transitions (transitions : List (ProfileTransition heap)) (tokens : List (Option ℕ)) :
    List (Label × ℕ × ℕ) :=
  (transitions.zip tokens).filterMap fun t => t.2.map fun address => (t.1.1, t.1.2.1, address)

variable [Allocator]

variable (heap) in
/-- The region of a row, given to every tsid from `start` to before `stop`. -/
def emit_tsids (domain_tokens : ℕ) (final_tokens : Option ℕ) (active : List (Label × ℕ × ℕ))
    (start stop : ℕ) (by_tsid : List (ℕ × Region)) (build : PointwiseBuild) :
    Option (List (ℕ × Region) × PointwiseBuild) :=
  (build_token_behavior_region heap domain_tokens final_tokens active build).map fun built =>
    (by_tsid ++ (List.range' start (stop - start)).map fun tsid => (tsid, built.1), built.2)

/-! ### By cursors -/

/-- The address at `pos` and the next position at which it may change, before the window's end. -/
def pointwise_cursor_at (iter : List (Run ℕ)) (pos window_end_exclusive : ℕ) :
    (Option ℕ × ℕ) × List (Run ℕ) :=
  let iter := iter.dropWhile (·.hi < pos)
  match iter with
  | [] => ((none, window_end_exclusive), iter)
  | range :: _ =>
      if range.lo ≤ pos then ((some range.val, min (range.hi + 1) window_end_exclusive), iter)
      else ((none, min range.lo window_end_exclusive), iter)

/-- The cursors, the entries emitted so far and the tables. -/
structure SweepState where
  final_iter : Option (List (Run ℕ))
  transition_iters : List (List (Run ℕ))
  by_tsid : List (ℕ × Region)
  build : PointwiseBuild

/-- What all cursors show at a position. -/
structure SweepRow where
  final : Option ((Option ℕ × ℕ) × List (Run ℕ))
  cursors : List ((Option ℕ × ℕ) × List (Run ℕ))

def SweepState.read (self : SweepState) (pos window_end : ℕ) : SweepRow :=
  ⟨self.final_iter.map fun iter => pointwise_cursor_at iter pos window_end,
    self.transition_iters.map fun iter => pointwise_cursor_at iter pos window_end⟩

def SweepRow.next_change (self : SweepRow) (window_end : ℕ) : ℕ :=
  (self.cursors.map (·.1.2)).foldl min (self.final.elim window_end (·.1.2))

def sweep_window (transitions : List (ProfileTransition heap)) (domain_tokens window_end pos : ℕ)
    (state : SweepState) : Option SweepState :=
  let row := state.read pos window_end
  let next_change := row.next_change window_end
  if next_change ≤ pos then none
  else
    match emit_tsids heap domain_tokens (row.final.bind (·.1.1))
      (active_transitions transitions (row.cursors.map (·.1.1))) pos next_change state.by_tsid
      state.build with
    | none => none
    | some (by_tsid, build) =>
        let state : SweepState := ⟨row.final.map (·.2), row.cursors.map (·.2), by_tsid, build⟩
        if next_change ≥ window_end then some state
        else sweep_window transitions domain_tokens window_end next_change state
termination_by window_end - pos
decreasing_by
  change window_end - next_change < window_end - pos
  omega

def build_pointwise_profile_monotone (domain : SharedWeight heap)
    (profile : ClassProfile (SharedWeight heap)) (build : PointwiseBuild) :
    Option (PointwiseProfile × PointwiseBuild) :=
  if any_full domain profile then none
  else
    (profile_transitions profile).bind fun transitions =>
    (domain.entries.foldlM
      (fun state entry => sweep_window transitions entry.val (entry.hi + 1) entry.lo state)
      ⟨profile.final_weight.map (·.entries), transitions.map (·.2.2.entries), [], build⟩).map
      fun state => (⟨state.by_tsid⟩, state.build)

/-! ### From boundaries -/

/-- The part of an entry in a window, if there is one. -/
def clip_range (domain_start domain_end : ℕ) (range : Run ℕ) : Option (Run ℕ) :=
  let start := max domain_start range.lo
  let stop := min domain_end range.hi
  if start ≤ stop then some ⟨start, stop, range.val⟩ else none

/-- The entries that overlap a window, clipped to it. -/
def clip_to_window (full : List (Run ℕ)) (domain_start domain_end : ℕ) : List (Run ℕ) :=
  (full.takeWhile (·.lo ≤ domain_end)).filterMap (clip_range domain_start domain_end)

/-- The address of the first entry that is left, if the entry has started. -/
def cursor_tokens (cursor : List (Run ℕ)) (tsid : ℕ) : Option ℕ :=
  (cursor.head?.filter (·.lo ≤ tsid)).map (·.val)

def boundary_step (transitions : List (ProfileTransition heap)) (domain_tokens : ℕ)
    (state : SweepState) (pair : ℕ × ℕ) : Option SweepState :=
  if pair.1 > u32Max ∨ pair.1 ≥ pair.2 then some state
  else
    let final := state.final_iter.map fun cursor => cursor.dropWhile (·.hi < pair.1)
    let cursors := state.transition_iters.map fun cursor => cursor.dropWhile (·.hi < pair.1)
    (emit_tsids heap domain_tokens (final.bind (cursor_tokens · pair.1))
      (active_transitions transitions (cursors.map (cursor_tokens · pair.1))) pair.1 pair.2
      state.by_tsid state.build).map fun emitted => ⟨final, cursors, emitted.1, emitted.2⟩

/-- One domain entry. The scans keep what does not end before the entry; only transitions that
overlap the entry take part in its windows. -/
def boundary_window (transitions : List (ProfileTransition heap)) (state : SweepState)
    (entry : Run ℕ) : Option SweepState :=
  let final_scan := state.final_iter.map fun scan => scan.dropWhile (·.hi < entry.lo)
  let transition_scan := state.transition_iters.map fun scan => scan.dropWhile (·.hi < entry.lo)
  let final_ranges := final_scan.map fun scan => clip_to_window scan entry.lo entry.hi
  let transition_ranges := transition_scan.map fun scan => clip_to_window scan entry.lo entry.hi
  let boundaries := sortDedup ([entry.lo, entry.hi + 1] ++ final_ranges.elim [] cutPoints ++
    transition_ranges.flatMap cutPoints)
  let live := (transitions.zip transition_ranges).filter fun t => !t.2.isEmpty
  ((windows boundaries).foldlM (boundary_step (live.map (·.1)) entry.val)
    ⟨final_ranges, live.map (·.2), state.by_tsid, state.build⟩).map fun swept =>
      ⟨final_scan, transition_scan, swept.by_tsid, swept.build⟩

def build_pointwise_profile (domain : SharedWeight heap)
    (profile : ClassProfile (SharedWeight heap)) (build : PointwiseBuild)
    (monotone_pointwise : Bool) : Option (PointwiseProfile × PointwiseBuild) :=
  if monotone_pointwise then build_pointwise_profile_monotone domain profile build
  else if any_full domain profile then none
  else
    (profile_transitions profile).bind fun transitions =>
    (domain.entries.foldlM (boundary_window transitions)
      ⟨profile.final_weight.map (·.entries), transitions.map (·.2.2.entries), [], build⟩).map
      fun state => (⟨state.by_tsid⟩, state.build)

/-! ### With tsid ranges -/

def add_tsid_boundary_if_overlapping (domain_start domain_end : ℕ) (range : Run ℕ) : List ℕ :=
  let start := max domain_start range.lo
  let stop := min domain_end range.hi
  if start ≤ stop then [start, stop + 1] else []

def range_step (profile : ClassProfile (SharedWeight heap))
    (transitions : List (ProfileTransition heap)) (domain_tokens : ℕ)
    (state : List (Run Region) × PointwiseBuild) (pair : ℕ × ℕ) :
    Option (List (Run Region) × PointwiseBuild) :=
  if pair.1 > u32Max ∨ pair.1 ≥ pair.2 then some state
  else
    (build_token_behavior_region heap domain_tokens
      (profile.final_weight.bind (·.token_set_for_tsid_ref pair.1))
      (active_transitions transitions (transitions.map (·.2.2.token_set_for_tsid_ref pair.1)))
      state.2).map fun built =>
        (push_pointwise_tsid_range state.1 pair.1 (pair.2 - 1) built.1, built.2)

def range_window (profile : ClassProfile (SharedWeight heap))
    (transitions : List (ProfileTransition heap)) (state : List (Run Region) × PointwiseBuild)
    (entry : Run ℕ) : Option (List (Run Region) × PointwiseBuild) :=
  let overlapping := add_tsid_boundary_if_overlapping entry.lo entry.hi
  let boundaries := sortDedup ([entry.lo, entry.hi + 1] ++
    (profile.final_weight.elim [] fun weight => weight.entries.flatMap overlapping) ++
    transitions.flatMap fun t => t.2.2.entries.flatMap overlapping)
  (windows boundaries).foldlM (range_step profile transitions entry.val) state

def build_pointwise_range_profile (domain : SharedWeight heap)
    (profile : ClassProfile (SharedWeight heap)) (build : PointwiseBuild) :
    Option (PointwiseRangeProfile × PointwiseBuild) :=
  if any_full domain profile then none
  else
    (profile_transitions profile).bind fun transitions =>
    (domain.entries.foldlM (range_window profile transitions) ([], build)).map fun state =>
      (⟨state.1⟩, state.2)

end Profile

end Pointwise

end GlrMask
