import GlrMask.PointwiseCursors

/-!
# The three ways to build a profile

The sweep of cursors finds the next change among all cursors; the boundaries of a
domain entry are the changes within it. Both keep the cursors and the emitted
entries in step. The range form keeps each window as one range.
-/

namespace GlrMask

namespace Pointwise

variable {heap : ℕ → TokenSet}

/-! ## Cursors of all transitions -/

/-- The cursors of the final weight and of the transitions, and the entries before them. -/
structure SweepCovers (heap : ℕ → TokenSet) (origin : PointwiseBuild)
    (rows : ℕ → ℕ → Option PointwiseBehavior) (final : ℕ → Option ℕ)
    (transitions : List (ProfileTransition heap)) (last pos : ℕ) (state : SweepState) : Prop where
  covers : CoversTsids heap origin rows pos state.by_tsid state.build
  final : Shows pos last (state.final_iter.getD []) final
  transitions : List.Forall₂
    (fun cursor (t : ProfileTransition heap) => Shows pos last cursor t.2.2.token_set_for_tsid_ref)
    state.transition_iters transitions

/-- What the cursors read at a position is the row of the transitions there. -/
theorem active_transitions_of_forall₂ {transitions : List (ProfileTransition heap)}
    {tokens : List (Option ℕ)} {pos : ℕ}
    (h : List.Forall₂ (fun address (t : ProfileTransition heap) =>
      address = t.2.2.token_set_for_tsid_ref pos) tokens transitions) :
    active_transitions transitions tokens = active_at transitions pos := by
  have htokens : tokens = transitions.map (·.2.2.token_set_for_tsid_ref pos) := by
    induction h with
    | nil => rfl
    | cons hhead _ ih => rw [List.map_cons, ← hhead, ← ih]
  rw [htokens, active_at]

theorem foldl_min_le (l : List ℕ) (start : ℕ) :
    l.foldl min start ≤ start ∧ ∀ c ∈ l, l.foldl min start ≤ c := by
  induction l generalizing start with
  | nil => exact ⟨le_rfl, by simp⟩
  | cons a l ih =>
      obtain ⟨hstart, hrest⟩ := ih (min start a)
      rw [List.foldl_cons]
      refine ⟨hstart.trans (min_le_left _ _), ?_⟩
      intro c hc
      obtain rfl | hc := List.mem_cons.mp hc
      · exact hstart.trans (min_le_right _ _)
      · exact hrest c hc

/-- Two tsids at which every weight has the same tokens have the same row. -/
theorem active_at_congr {transitions : List (ProfileTransition heap)} {k k' : ℕ}
    (h : ∀ t ∈ transitions, t.2.2.token_set_for_tsid_ref k = t.2.2.token_set_for_tsid_ref k') :
    active_at transitions k = active_at transitions k' := by
  unfold active_at
  rw [List.map_congr_left h]

theorem exists_of_forall₂ {A B : Type} {R : A → B → Prop} {l : List A} {l' : List B}
    (h : List.Forall₂ R l l') {b : B} (hb : b ∈ l') : ∃ a ∈ l, R a b := by
  induction h with
  | nil => cases hb
  | cons hhead _ ih =>
      obtain rfl | hb := List.mem_cons.mp hb
      · exact ⟨_, List.mem_cons_self, hhead⟩
      · obtain ⟨a, ha, hab⟩ := ih hb
        exact ⟨a, List.mem_cons_of_mem _ ha, hab⟩

section Sweep

variable {origin : PointwiseBuild} {rows : ℕ → ℕ → Option PointwiseBehavior}
  {final : ℕ → Option ℕ} {transitions : List (ProfileTransition heap)} {last pos : ℕ}
  {state : SweepState}

theorem SweepCovers.read (h : SweepCovers heap origin rows final transitions last pos state)
    (window_end : ℕ) (hpos : pos < window_end) (hlast : window_end ≤ last + 1) :
    (state.read pos window_end).final.bind (·.1.1) = final pos ∧
      active_transitions transitions ((state.read pos window_end).cursors.map (·.1.1)) =
        active_at transitions pos ∧
      (state.read pos window_end).next_change window_end ≤ window_end ∧
      (∀ k, pos ≤ k → k < (state.read pos window_end).next_change window_end →
        final k = final pos ∧ active_at transitions k = active_at transitions pos) ∧
      Shows pos last (((state.read pos window_end).final.map (·.2)).getD []) final ∧
      List.Forall₂ (fun cursor (t : ProfileTransition heap) =>
        Shows pos last cursor t.2.2.token_set_for_tsid_ref)
        ((state.read pos window_end).cursors.map (·.2)) transitions := by
  obtain ⟨htokens, hconst, hshows⟩ := h.final.cursor_at hpos hlast
  have hstart : (state.read pos window_end).final.elim window_end (·.1.2) =
        (pointwise_cursor_at (state.final_iter.getD []) pos window_end).1.2 ∧
      (state.read pos window_end).final.bind (·.1.1) =
        (pointwise_cursor_at (state.final_iter.getD []) pos window_end).1.1 ∧
      ((state.read pos window_end).final.map (·.2)).getD [] =
        (pointwise_cursor_at (state.final_iter.getD []) pos window_end).2 := by
    unfold SweepState.read
    cases state.final_iter with
    | none => exact ⟨rfl, rfl, rfl⟩
    | some iter => exact ⟨rfl, rfl, rfl⟩
  obtain ⟨hmin, hmins⟩ := foldl_min_le ((state.read pos window_end).cursors.map (·.1.2))
    ((state.read pos window_end).final.elim window_end (·.1.2))
  replace hmin := hmin.trans hstart.1.le
  have hend : (pointwise_cursor_at (state.final_iter.getD []) pos window_end).1.2 ≤ window_end := by
    unfold pointwise_cursor_at
    dsimp only
    split
    · exact le_rfl
    · split_ifs
      · exact min_le_right _ _
      · exact min_le_right _ _
  refine ⟨hstart.2.1.trans htokens, ?_, hmin.trans hend, ?_, hstart.2.2 ▸ hshows, ?_⟩
  · apply active_transitions_of_forall₂
    unfold SweepState.read
    rw [List.map_map, List.forall₂_map_left_iff]
    exact h.transitions.imp fun cursor t hshow => (hshow.cursor_at hpos hlast).1
  · intro k hk hnext
    have hlt : k < window_end := hnext.trans_le (hmin.trans hend)
    refine ⟨hconst k hk (hnext.trans_le hmin) hlt, ?_⟩
    apply active_at_congr
    intro t ht
    obtain ⟨cursor, hcursor, hshow⟩ := exists_of_forall₂ h.transitions ht
    apply (hshow.cursor_at hpos hlast).2.1 k hk _ hlt
    apply hnext.trans_le
    apply hmins
    rw [SweepState.read, List.map_map]
    exact List.mem_map_of_mem (f := fun iter => (pointwise_cursor_at iter pos window_end).1.2) hcursor
  · unfold SweepState.read
    rw [List.map_map, List.forall₂_map_left_iff]
    exact h.transitions.imp fun cursor t hshow => (hshow.cursor_at hpos hlast).2.2

variable {domain : SharedWeight heap} {profile : ClassProfile (SharedWeight heap)}

/-- Between the domain entries there is no behavior. -/
theorem SweepCovers.skip {stop : ℕ}
    (h : SweepCovers heap origin (class_behavior domain profile transitions) final transitions last
      pos state) (hle : pos ≤ stop)
    (hnone : ∀ k, pos ≤ k → k < stop → lookupRuns domain.entries k = none) :
    SweepCovers heap origin (class_behavior domain profile transitions) final transitions last
      stop state :=
  ⟨⟨h.covers.covers.skip hle fun k hk hlt => class_behavior_of_none (hnone k hk hlt),
    h.covers.nodup⟩, h.final.later hle, h.transitions.imp fun _ _ hc => hc.later hle⟩

theorem SharedWeight.le_u32Max (weight : SharedWeight heap) {entry : Run ℕ}
    (h : entry ∈ weight.entries) : entry.hi ≤ u32Max :=
  weight.weight.map.bounded _ (weight.entry_mem h)

/-- Before the first domain entry nothing is emitted, and every cursor shows its whole weight. -/
theorem sweepCovers_start {build : PointwiseBuild} (h : build.Valid heap) :
    SweepCovers heap build (class_behavior domain profile transitions) (final_at profile)
      transitions u32Max 0 ⟨profile.final_weight.map (·.entries), transitions.map (·.2.2.entries),
        [], build⟩ := by
  refine ⟨⟨⟨h, .refl build, ?_, ?_⟩, List.nodup_nil⟩, ?_, ?_⟩
  · intro k region hr
    cases hr
  · intro k hk
    omega
  · unfold final_at
    cases profile.final_weight with
    | none => exact ⟨⟨by simp, List.Pairwise.nil⟩, fun _ _ _ => rfl⟩
    | some weight => exact ⟨weight.ordered, fun _ _ _ => rfl⟩
  · rw [List.forall₂_map_left_iff, List.forall₂_same]
    intro t _
    exact ⟨t.2.2.ordered, fun _ _ _ => rfl⟩

/-- A profile that is complete: it gives the behavior of its class at every tsid. -/
structure ProfileMeans (heap : ℕ → TokenSet) (origin : PointwiseBuild)
    (rows : ℕ → ℕ → Option PointwiseBehavior) (region_at : ℕ → Option Region)
    (build : PointwiseBuild) : Prop where
  valid : build.Valid heap
  grows : origin.Extends build
  known : ∀ k region, region_at k = some region → region ∈ build.regions.regions
  means : ∀ k x, Means build.behaviors.values
    ((region_at k).bind fun region => lookupRuns region.ranges x) (rows k x)

theorem Covers.profileMeans {bound : ℕ} {region_at : ℕ → Option Region} {build : PointwiseBuild}
    (h : Covers heap origin (class_behavior domain profile transitions) bound region_at build)
    (hnone : ∀ k, bound ≤ k → lookupRuns domain.entries k = none) :
    ProfileMeans heap origin (class_behavior domain profile transitions) region_at build := by
  refine ⟨h.valid, h.grows, fun k region hr => (h.known k region hr).1, ?_⟩
  intro k x
  by_cases hk : k < bound
  · exact h.means k hk x
  · rw [h.none_of_le (by omega), class_behavior_of_none (hnone k (by omega))]
    exact means_none _

/-- A fold over the domain entries, each of which keeps the cursors and entries in step. -/
theorem domain_fold_spec {build : PointwiseBuild} (h : build.Valid heap)
    {step : SweepState → Run ℕ → Option SweepState}
    (hstep : ∀ entry ∈ domain.entries, ∀ state,
      SweepCovers heap build (class_behavior domain profile transitions) (final_at profile)
        transitions u32Max entry.lo state →
      Ensures (step state entry) (SweepCovers heap build
        (class_behavior domain profile transitions) (final_at profile) transitions u32Max
        (entry.hi + 1))) :
    Ensures (domain.entries.foldlM step
        ⟨profile.final_weight.map (·.entries), transitions.map (·.2.2.entries), [], build⟩)
      fun state => (state.by_tsid.map Prod.fst).Nodup ∧
        ProfileMeans heap build (class_behavior domain profile transitions)
          (fun k => state.by_tsid.lookup k) state.build := by
  refine Ensures.mono (Ensures.foldlM_runs domain.ordered (fun _ hrun => hrun)
    (fun run _ => Nat.zero_le run.lo) (fun _ _ => rfl) (fun hs hle hnone => hs.skip hle hnone) hstep
    (sweepCovers_start h)) ?_
  intro state hstate
  obtain ⟨bound, hcovers, hnone⟩ := hstate
  exact ⟨hcovers.covers.nodup, hcovers.covers.covers.profileMeans hnone⟩

variable [Allocator]

/-- One domain entry of the sweep of cursors. -/
theorem sweep_window_spec {entry : Run ℕ} (hentry : entry ∈ domain.entries)
    (hlast : entry.hi ≤ last) (hlo : entry.lo ≤ pos) (hhi : pos ≤ entry.hi)
    (h : SweepCovers heap origin (class_behavior domain profile transitions) (final_at profile)
      transitions last pos state) :
    Ensures (sweep_window transitions entry.val (entry.hi + 1) pos state)
      (SweepCovers heap origin (class_behavior domain profile transitions) (final_at profile)
        transitions last (entry.hi + 1)) := by
  induction hn : entry.hi + 1 - pos using Nat.strong_induction_on generalizing pos state with
  | _ n ih =>
  obtain ⟨hfinal, hactive, hend, hconst, hshows, hcursors⟩ :=
    h.read (entry.hi + 1) (by omega) (by omega)
  rw [sweep_window]
  dsimp only
  generalize state.read pos (entry.hi + 1) = row at *
  rw [hfinal, hactive]
  by_cases hstuck : row.next_change (entry.hi + 1) ≤ pos
  · rw [if_pos hstuck]
    exact Ensures.none _
  rw [if_neg hstuck]
  -- every row before the next change is the row at `pos`
  have hemit := emit_tsids_spec h.covers (not_le.mp hstuck) final_at_nonnull (by
    intro k hk hlt x
    rw [class_behavior_of_entry hentry ⟨by omega, by omega⟩, (hconst k hk hlt).1,
      (hconst k hk hlt).2])
  split
  · exact Ensures.none _
  · rename_i by_tsid build hout
    have hcovers := hemit _ hout
    have hnext : SweepCovers heap origin (class_behavior domain profile transitions)
        (final_at profile) transitions last (row.next_change (entry.hi + 1))
        ⟨row.final.map (·.2), row.cursors.map (·.2), by_tsid, build⟩ :=
      ⟨hcovers, hshows.later (by omega), hcursors.imp fun _ _ hc => hc.later (by omega)⟩
    split_ifs with hdone
    · apply Ensures.some
      have he : row.next_change (entry.hi + 1) = entry.hi + 1 := by omega
      rw [he] at hnext
      exact hnext
    · exact ih _ (by omega) (by omega) (by omega) hnext rfl

/-- The sweep of cursors builds the profile of the class. -/
theorem build_pointwise_profile_monotone_spec {build : PointwiseBuild} (h : build.Valid heap) :
    Ensures (build_pointwise_profile_monotone domain profile build) fun built =>
      any_full domain profile = false ∧ ∃ transitions,
        profile_transitions profile = some transitions ∧ (built.1.by_tsid.map Prod.fst).Nodup ∧
          ProfileMeans heap build (class_behavior domain profile transitions)
            (fun k => built.1.by_tsid.lookup k) built.2 := by
  unfold build_pointwise_profile_monotone
  split_ifs with hfull
  · exact Ensures.none _
  · intro built hbuilt
    obtain ⟨transitions, htransitions, hbuilt⟩ := Option.bind_eq_some_iff.mp hbuilt
    obtain ⟨state, hstate, rfl⟩ := Option.map_eq_some_iff.mp hbuilt
    refine ⟨by simpa using hfull, transitions, htransitions, ?_⟩
    apply domain_fold_spec h _ state hstate
    intro entry hentry s hs
    exact sweep_window_spec hentry (domain.le_u32Max hentry) le_rfl
      (domain.ordered.1 entry hentry) hs

/-! ## Boundaries within a domain entry -/

omit [Allocator] in
theorem clip_range_eq_some {lo hi : ℕ} {range clipped : Run ℕ}
    (h : clip_range lo hi range = some clipped) :
    clipped.lo = max lo range.lo ∧ clipped.hi = min hi range.hi ∧ clipped.val = range.val ∧
      clipped.lo ≤ clipped.hi := by
  unfold clip_range at h
  dsimp only at h
  split_ifs at h with hle
  cases h
  exact ⟨rfl, rfl, rfl, hle⟩

omit [Allocator] in
theorem mem_clip_to_window {l : List (Run ℕ)} {lo hi : ℕ} {r : Run ℕ}
    (h : r ∈ clip_to_window l lo hi) : ∃ range ∈ l, clip_range lo hi range = some r := by
  obtain ⟨range, hrange, he⟩ := List.mem_filterMap.mp h
  exact ⟨range, List.takeWhile_subset _ hrange, he⟩

omit [Allocator] in
theorem cut_clip_to_window {l : List (Run ℕ)} {lo hi c : ℕ}
    (h : c ∈ cutPoints (clip_to_window l lo hi)) : lo ≤ c ∧ c ≤ hi + 1 := by
  obtain ⟨r, hr, hc⟩ := List.mem_flatMap.mp h
  obtain ⟨range, -, he⟩ := mem_clip_to_window hr
  obtain ⟨hlo, hhi, -, hle⟩ := clip_range_eq_some he
  simp only [List.mem_cons, List.not_mem_nil, or_false] at hc
  omega

omit [Allocator] in
theorem clip_to_window_spec {l : List (Run ℕ)} (h : Ordered l) (lo hi : ℕ) :
    Ordered (clip_to_window l lo hi) ∧
      ∀ k, lo ≤ k → k ≤ hi → lookupRuns (clip_to_window l lo hi) k = lookupRuns l k := by
  refine ⟨⟨?_, ?_⟩, ?_⟩
  · intro r hr
    obtain ⟨range, -, he⟩ := mem_clip_to_window hr
    exact (clip_range_eq_some he).2.2.2
  · rw [clip_to_window, List.pairwise_filterMap]
    apply (h.2.sublist (List.takeWhile_sublist _)).imp
    intro a b hab r hr s hs
    obtain ⟨-, hhi, -, -⟩ := clip_range_eq_some hr
    obtain ⟨hlo, -, -, -⟩ := clip_range_eq_some hs
    omega
  · intro k hlo hhi
    induction l with
    | nil => rfl
    | cons range l ih =>
        unfold clip_to_window at ih ⊢
        rw [List.takeWhile_cons]
        split_ifs with hstart
        · rw [List.filterMap_cons]
          have hcov : range.Covers k ↔ ∃ r, clip_range lo hi range = some r ∧ r.Covers k := by
            unfold clip_range
            dsimp only
            split_ifs with hle
            · simp [Run.Covers]
              omega
            · simp [Run.Covers]
              omega
          cases hc : clip_range lo hi range with
          | none =>
              dsimp only
              rw [ih h.tail, RunOverlay.lookup_tail]
              intro hk
              obtain ⟨r, hr, -⟩ := hcov.mp hk
              rw [hc] at hr
              cases hr
          | some r =>
              dsimp only
              have hiff : r.Covers k ↔ range.Covers k := by
                rw [hcov]
                simp [hc]
              rw [lookupRuns_cons, lookupRuns_cons, ih h.tail, (clip_range_eq_some hc).2.2.1]
              simp only [hiff]
        · rw [RunOverlay.lookup_before h (by simpa using lt_of_le_of_lt hhi (by simpa using hstart))]
          rfl

omit [Allocator] in
theorem Shows.clip {pos lo hi : ℕ} {cursor : List (Run ℕ)} {full : ℕ → Option ℕ}
    (h : Shows pos last cursor full) (hpos : pos ≤ lo) (hlast : hi ≤ last) :
    Shows lo hi (clip_to_window cursor lo hi) full := by
  obtain ⟨hordered, hlookup⟩ := clip_to_window_spec h.ordered lo hi
  refine ⟨hordered, ?_⟩
  intro k hlo hhi
  rw [hlookup k hlo hhi, h.lookup k (hpos.trans hlo) (hhi.trans hlast)]

/-- One window of a domain entry, whose live transitions make up the rows of all transitions. -/
theorem boundary_step_spec {entry : Run ℕ} (hentry : entry ∈ domain.entries)
    {live : List (ProfileTransition heap)} {w : ℕ × ℕ} (hlo : entry.lo ≤ w.1)
    (hhi : w.2 ≤ entry.hi + 1) (hlt : w.1 < w.2)
    (hlive : ∀ k, entry.lo ≤ k → k ≤ entry.hi → active_at live k = active_at transitions k)
    (hconst : ∀ k, w.1 ≤ k → k < w.2 → final_at profile k = final_at profile w.1 ∧
      active_at live k = active_at live w.1)
    (h : SweepCovers heap origin (class_behavior domain profile transitions) (final_at profile)
      live entry.hi w.1 state) :
    Ensures (boundary_step live entry.val state w)
      (SweepCovers heap origin (class_behavior domain profile transitions) (final_at profile)
        live entry.hi w.2) := by
  have hbound := domain.le_u32Max hentry
  unfold boundary_step
  rw [if_neg (by omega)]
  dsimp only
  have hfinal : (state.final_iter.map fun cursor => cursor.dropWhile (·.hi < w.1)).bind
      (cursor_tokens · w.1) = final_at profile w.1 ∧
      (state.final_iter.map fun cursor => cursor.dropWhile (·.hi < w.1)).getD [] =
        (state.final_iter.getD []).dropWhile (·.hi < w.1) := by
    rw [← h.final.cursor_tokens le_rfl (by omega)]
    cases state.final_iter with
    | none => exact ⟨rfl, rfl⟩
    | some cursor => exact ⟨rfl, rfl⟩
  have hactive : active_transitions live ((state.transition_iters.map
      fun cursor => cursor.dropWhile (·.hi < w.1)).map (cursor_tokens · w.1)) =
        active_at live w.1 := by
    apply active_transitions_of_forall₂
    rw [List.map_map, List.forall₂_map_left_iff]
    exact h.transitions.imp fun cursor t hshow => hshow.cursor_tokens le_rfl (by omega)
  rw [hfinal.1, hactive]
  apply Ensures.map
  refine Ensures.mono (emit_tsids_spec h.covers hlt final_at_nonnull ?_) ?_
  · intro k hk hkw x
    rw [class_behavior_of_entry hentry ⟨by omega, by omega⟩, ← hlive k (by omega) (by omega),
      (hconst k hk hkw).1, (hconst k hk hkw).2]
  · intro emitted hemitted
    refine ⟨hemitted, ?_, ?_⟩
    · rw [hfinal.2]
      exact (h.final.dropWhile le_rfl).later hlt.le
    · rw [List.forall₂_map_left_iff]
      exact h.transitions.imp fun cursor t hshow => (hshow.dropWhile le_rfl).later hlt.le

omit [Allocator] in
/-- Dropping the transitions that show nothing in a domain entry changes no row in it. -/
theorem live_spec {lo hi : ℕ} {ranges : List (List (Run ℕ))}
    (h : List.Forall₂ (fun cursor (t : ProfileTransition heap) =>
      Shows lo hi cursor t.2.2.token_set_for_tsid_ref) ranges transitions) :
    List.Forall₂ (fun cursor (t : ProfileTransition heap) =>
        Shows lo hi cursor t.2.2.token_set_for_tsid_ref)
      (((transitions.zip ranges).filter fun t => !t.2.isEmpty).map (·.2))
      (((transitions.zip ranges).filter fun t => !t.2.isEmpty).map (·.1)) ∧
    ∀ k, lo ≤ k → k ≤ hi →
      active_at (((transitions.zip ranges).filter fun t => !t.2.isEmpty).map (·.1)) k =
        active_at transitions k := by
  induction h with
  | nil => exact ⟨.nil, fun _ _ _ => rfl⟩
  | cons hhead _ ih =>
      rename_i cursor t cursors ts _
      obtain ⟨hforall, hactive⟩ := ih
      rw [List.zip_cons_cons, List.filter_cons]
      split_ifs with hne
      · refine ⟨.cons hhead hforall, ?_⟩
        intro k hlo hhi
        have hrest := hactive k hlo hhi
        simp only [active_at, active_transitions, List.map_cons, List.zip_cons_cons,
          List.filterMap_cons] at hrest ⊢
        rw [hrest]
      · refine ⟨hforall, ?_⟩
        intro k hlo hhi
        have hrest := hactive k hlo hhi
        have hempty : cursor = [] := by simpa using hne
        have hnone : t.2.2.token_set_for_tsid_ref k = none := by
          rw [← hhead.lookup k hlo hhi, hempty]
          rfl
        rw [hrest]
        simp only [active_at, active_transitions, List.map_cons, List.zip_cons_cons,
          List.filterMap_cons, hnone, Option.map_none]

omit [Allocator] in
/-- A function that a list shows is constant on windows that know the list's boundaries. -/
theorem Shows.eq_on_window {lo hi : ℕ} {cursor : List (Run ℕ)} {full : ℕ → Option ℕ}
    (h : Shows lo hi cursor full) {cuts : List ℕ} (hcut : ∀ c ∈ cutPoints cursor, c ∈ cuts)
    {w : ℕ × ℕ} (hw : w ∈ windows (sortDedup cuts)) (hlo : lo ≤ w.1) (hhi : w.2 ≤ hi + 1) {k : ℕ}
    (hk : w.1 ≤ k) (hkw : k < w.2) : full k = full w.1 := by
  rw [← h.lookup k (hlo.trans hk) (by omega), ← h.lookup w.1 hlo (by omega)]
  exact lookupRuns_eq_on_window (sortDedup_sorted _) (fun c hc => mem_sortDedup.mpr (hcut c hc))
    hw hk hkw

/-- One domain entry, from its boundaries. -/
theorem boundary_window_spec {entry : Run ℕ} (hentry : entry ∈ domain.entries)
    (h : SweepCovers heap origin (class_behavior domain profile transitions) (final_at profile)
      transitions u32Max entry.lo state) :
    Ensures (boundary_window transitions state entry)
      (SweepCovers heap origin (class_behavior domain profile transitions) (final_at profile)
        transitions u32Max (entry.hi + 1)) := by
  have hbound := domain.le_u32Max hentry
  have hle := domain.ordered.1 entry hentry
  unfold boundary_window
  dsimp only
  -- the scans, and the parts of them in this entry
  have hfinal_scan := h.final.dropWhile le_rfl
  have hfinal := hfinal_scan.clip le_rfl hbound
  have hscans : List.Forall₂ (fun cursor (t : ProfileTransition heap) =>
      Shows entry.lo u32Max cursor t.2.2.token_set_for_tsid_ref)
      (state.transition_iters.map fun scan => scan.dropWhile (·.hi < entry.lo)) transitions := by
    rw [List.forall₂_map_left_iff]
    exact h.transitions.imp fun _ _ hshow => hshow.dropWhile le_rfl
  have hranges : List.Forall₂ (fun cursor (t : ProfileTransition heap) =>
      Shows entry.lo entry.hi cursor t.2.2.token_set_for_tsid_ref)
      ((state.transition_iters.map fun scan => scan.dropWhile (·.hi < entry.lo)).map
        fun scan => clip_to_window scan entry.lo entry.hi) transitions := by
    rw [List.forall₂_map_left_iff]
    exact hscans.imp fun _ _ hshow => hshow.clip le_rfl hbound
  have hfinal_iter : ((state.final_iter.map fun scan => scan.dropWhile (·.hi < entry.lo)).getD [] =
      (state.final_iter.getD []).dropWhile (·.hi < entry.lo)) ∧
      (((state.final_iter.map fun scan => scan.dropWhile (·.hi < entry.lo)).map
        fun scan => clip_to_window scan entry.lo entry.hi).getD [] =
          clip_to_window ((state.final_iter.getD []).dropWhile (·.hi < entry.lo)) entry.lo
            entry.hi) ∧
      (((state.final_iter.map fun scan => scan.dropWhile (·.hi < entry.lo)).map
        fun scan => clip_to_window scan entry.lo entry.hi).elim [] cutPoints =
          cutPoints (clip_to_window ((state.final_iter.getD []).dropWhile (·.hi < entry.lo))
            entry.lo entry.hi)) := by
    cases state.final_iter with
    | none => exact ⟨rfl, rfl, rfl⟩
    | some scan => exact ⟨rfl, rfl, rfl⟩
  rw [hfinal_iter.2.2]
  have hrange_cuts : ∀ ranges ∈ (state.transition_iters.map fun scan =>
      scan.dropWhile (·.hi < entry.lo)).map fun scan => clip_to_window scan entry.lo entry.hi,
        ∀ c ∈ cutPoints ranges, entry.lo ≤ c ∧ c ≤ entry.hi + 1 := by
    intro ranges hmem c hc
    obtain ⟨scan, -, rfl⟩ := List.mem_map.mp hmem
    exact cut_clip_to_window hc
  generalize (state.transition_iters.map fun scan => scan.dropWhile (·.hi < entry.lo)) = scans at *
  generalize (scans.map fun scan => clip_to_window scan entry.lo entry.hi) = ranges at *
  obtain ⟨hlive, hlive_active⟩ := live_spec hranges
  have hlive_ranges : ∀ {t : ProfileTransition heap × List (Run ℕ)},
      t ∈ (transitions.zip ranges).filter (fun t => !t.2.isEmpty) → t.2 ∈ ranges :=
    fun ht => (List.of_mem_zip (List.mem_of_mem_filter ht)).2
  have hlive_cuts : ∀ cursor ∈ ((transitions.zip ranges).filter fun t => !t.2.isEmpty).map (·.2),
      ∀ c ∈ cutPoints cursor, c ∈ ranges.flatMap cutPoints := by
    intro cursor hcursor c hc
    obtain ⟨t, ht, rfl⟩ := List.mem_map.mp hcursor
    exact List.mem_flatMap.mpr ⟨t.2, hlive_ranges ht, hc⟩
  generalize ((transitions.zip ranges).filter fun t => !t.2.isEmpty) = live at *
  apply Ensures.map
  refine Ensures.mono (Ensures.foldlM_cuts (P := SweepCovers heap origin
    (class_behavior domain profile transitions) (final_at profile) (live.map (·.1)) entry.hi)
    ?_ (List.mem_append_left _ (List.mem_append_left _ List.mem_cons_self))
    (List.mem_append_left _ (List.mem_append_left _ (List.mem_cons_of_mem _ List.mem_cons_self)))
    ?_ ⟨h.covers, hfinal_iter.2.1 ▸ hfinal, hlive⟩) ?_
  · intro c hc
    obtain hc | hc := List.mem_append.mp hc
    · obtain hc | hc := List.mem_append.mp hc
      · simp only [List.mem_cons, List.not_mem_nil, or_false] at hc
        omega
      · exact cut_clip_to_window hc
    · obtain ⟨range, hrange, hc⟩ := List.mem_flatMap.mp hc
      exact hrange_cuts range hrange c hc
  · intro w hw hwlo hwhi hwlt s hs
    apply boundary_step_spec hentry hwlo hwhi hwlt hlive_active _ hs
    intro k hk hkw
    refine ⟨?_, ?_⟩
    · exact hfinal.eq_on_window
        (fun c hc => List.mem_append_left _ (List.mem_append_right _ hc)) hw hwlo hwhi hk hkw
    · apply active_at_congr
      intro t ht
      obtain ⟨cursor, hcursor, hshow⟩ := exists_of_forall₂ hlive ht
      exact hshow.eq_on_window
        (fun c hc => List.mem_append_right _ (hlive_cuts cursor hcursor c hc)) hw hwlo hwhi hk hkw
  · intro swept hswept
    refine ⟨hswept.covers, ?_, hscans.imp fun _ _ hshow => hshow.later (by omega)⟩
    exact hfinal_iter.1 ▸ hfinal_scan.later (by omega)

/-- Both ways of building a profile give the behavior of the class. -/
theorem build_pointwise_profile_spec {build : PointwiseBuild} (h : build.Valid heap)
    (monotone_pointwise : Bool) :
    Ensures (build_pointwise_profile domain profile build monotone_pointwise) fun built =>
      any_full domain profile = false ∧ ∃ transitions,
        profile_transitions profile = some transitions ∧ (built.1.by_tsid.map Prod.fst).Nodup ∧
          ProfileMeans heap build (class_behavior domain profile transitions)
            (fun k => built.1.by_tsid.lookup k) built.2 := by
  unfold build_pointwise_profile
  split_ifs with hmonotone hfull
  · exact build_pointwise_profile_monotone_spec h
  · exact Ensures.none _
  · intro built hbuilt
    obtain ⟨transitions, htransitions, hbuilt⟩ := Option.bind_eq_some_iff.mp hbuilt
    obtain ⟨state, hstate, rfl⟩ := Option.map_eq_some_iff.mp hbuilt
    refine ⟨by simpa using hfull, transitions, htransitions, ?_⟩
    apply domain_fold_spec h _ state hstate
    intro entry hentry s hs
    exact boundary_window_spec hentry hs

/-! ## Ranges of tsids -/

/-- What `Covers` says of ranges of tsids in order. -/
structure CoversRanges (heap : ℕ → TokenSet) (origin : PointwiseBuild)
    (rows : ℕ → ℕ → Option PointwiseBehavior) (bound : ℕ)
    (state : List (Run Region) × PointwiseBuild) : Prop where
  covers : Covers heap origin rows bound (lookupRuns state.1) state.2
  ordered : Ordered state.1
  below : RunOverlay.EndsBefore state.1 bound

omit [Allocator] in
theorem CoversRanges.skip {origin : PointwiseBuild} {s : List (Run Region) × PointwiseBuild}
    {bound stop : ℕ}
    (h : CoversRanges heap origin (class_behavior domain profile transitions) bound s)
    (hle : bound ≤ stop)
    (hnone : ∀ k, bound ≤ k → k < stop → lookupRuns domain.entries k = none) :
    CoversRanges heap origin (class_behavior domain profile transitions) stop s :=
  ⟨h.covers.skip hle fun k hk hlt => class_behavior_of_none (hnone k hk hlt), h.ordered,
    fun run hrun => (h.below run hrun).trans_le hle⟩

omit [Allocator] in
/-- The entries that start behind a window do not overlap it. -/
theorem clip_to_window_eq_filterMap {l : List (Run ℕ)} (h : Ordered l) (lo hi : ℕ) :
    clip_to_window l lo hi = l.filterMap (clip_range lo hi) := by
  induction l with
  | nil => rfl
  | cons range l ih =>
      unfold clip_to_window at ih ⊢
      rw [List.takeWhile_cons]
      split_ifs with hstart
      · rw [List.filterMap_cons, List.filterMap_cons, ih h.tail]
      · have hlt : hi < range.lo := by simpa using hstart
        symm
        rw [List.filterMap_nil, List.filterMap_eq_nil_iff]
        intro r hr
        have hbehind : hi < r.lo := by
          obtain rfl | hr := List.mem_cons.mp hr
          · exact hlt
          · exact hlt.trans ((h.1 range List.mem_cons_self).trans_lt
              (List.rel_of_pairwise_cons h.2 hr))
        unfold clip_range
        dsimp only
        rw [if_neg (by omega)]

omit [Allocator] in
theorem cutPoints_filterMap_clip_range (l : List (Run ℕ)) (lo hi : ℕ) :
    cutPoints (l.filterMap (clip_range lo hi)) =
      l.flatMap (add_tsid_boundary_if_overlapping lo hi) := by
  induction l with
  | nil => rfl
  | cons range l ih =>
      rw [List.filterMap_cons, List.flatMap_cons, ← ih]
      unfold clip_range add_tsid_boundary_if_overlapping
      dsimp only
      split_ifs
      · rfl
      · rfl

omit [Allocator] in
/-- The boundaries of a weight in a domain entry cut it into parts of equal tokens. -/
theorem SharedWeight.eq_on_window (weight : SharedWeight heap) {lo hi : ℕ} {cuts : List ℕ}
    (hcut : ∀ c ∈ weight.entries.flatMap (add_tsid_boundary_if_overlapping lo hi), c ∈ cuts)
    {w : ℕ × ℕ} (hw : w ∈ windows (sortDedup cuts)) (hlo : lo ≤ w.1) (hhi : w.2 ≤ hi + 1) {k : ℕ}
    (hk : w.1 ≤ k) (hkw : k < w.2) :
    weight.token_set_for_tsid_ref k = weight.token_set_for_tsid_ref w.1 := by
  have hshows : Shows lo hi weight.entries weight.token_set_for_tsid_ref :=
    ⟨weight.ordered, fun _ _ _ => rfl⟩
  apply (hshows.clip le_rfl le_rfl).eq_on_window _ hw hlo hhi hk hkw
  rw [clip_to_window_eq_filterMap weight.ordered, cutPoints_filterMap_clip_range]
  exact hcut

omit [Allocator] in
theorem cut_add_tsid_boundary {l : List (Run ℕ)} {lo hi c : ℕ}
    (h : c ∈ l.flatMap (add_tsid_boundary_if_overlapping lo hi)) : lo ≤ c ∧ c ≤ hi + 1 := by
  obtain ⟨range, -, hc⟩ := List.mem_flatMap.mp h
  unfold add_tsid_boundary_if_overlapping at hc
  dsimp only at hc
  split_ifs at hc with hle
  · simp only [List.mem_cons, List.not_mem_nil, or_false] at hc
    omega
  · cases hc

/-- One window of a domain entry, given its region as one range. -/
theorem range_step_spec {origin : PointwiseBuild} {entry : Run ℕ} (hentry : entry ∈ domain.entries)
    {w : ℕ × ℕ} (hlo : entry.lo ≤ w.1) (hhi : w.2 ≤ entry.hi + 1) (hlt : w.1 < w.2)
    (hconst : ∀ k, w.1 ≤ k → k < w.2 → final_at profile k = final_at profile w.1 ∧
      active_at transitions k = active_at transitions w.1)
    {s : List (Run Region) × PointwiseBuild}
    (h : CoversRanges heap origin (class_behavior domain profile transitions) w.1 s) :
    Ensures (range_step profile transitions entry.val s w)
      (CoversRanges heap origin (class_behavior domain profile transitions) w.2) := by
  have hbound := domain.le_u32Max hentry
  unfold range_step
  rw [if_neg (by omega)]
  apply Ensures.map
  refine Ensures.mono (h.covers.emit hlt final_at_nonnull ?_) ?_
  · intro k hk hkw x
    rw [class_behavior_of_entry hentry ⟨by omega, by omega⟩, (hconst k hk hkw).1,
      (hconst k hk hkw).2]
    rfl
  · intro built hbuilt
    have hcovers := hbuilt _ fun _ => rfl
    -- regions with one address are one region, since all of them are interned
    have hsame : ∀ previous ∈ s.1, (previous.val.address == built.1.address) = true →
        previous.val = built.1 := by
      intro previous hprevious haddress
      have hbelow := h.below previous hprevious
      have hle := h.ordered.1 previous hprevious
      have hat := h.ordered.lookup_of_mem hprevious ⟨le_rfl, hle⟩
      refine hcovers.valid.regions.address_inj _ (hcovers.known previous.lo _ ?_).1 _
        (hcovers.known w.1 _ ?_).1 (beq_iff_eq.mp haddress)
      · rw [if_neg (by omega), hat]
      · rw [if_pos ⟨le_rfl, hlt⟩]
    obtain ⟨hordered, hbelow, hlookup⟩ :=
      RunOverlay.push_spec (fun a b : Region => a.address == b.address) u32Max
        ⟨w.1, w.2 - 1, built.1⟩ hsame h.ordered (by change w.1 ≤ w.2 - 1; omega) h.below
    refine ⟨hbuilt _ ?_, hordered, ?_⟩
    · intro k
      unfold push_pointwise_tsid_range
      rw [hlookup]
      apply if_congr _ rfl rfl
      simp only [Run.Covers]
      omega
    · intro run hrun
      have : run.hi < w.2 - 1 + 1 := hbelow run hrun
      omega

/-- One domain entry, whose parts are given their regions as ranges. -/
theorem range_window_spec {origin : PointwiseBuild} {entry : Run ℕ} (hentry : entry ∈ domain.entries)
    {s : List (Run Region) × PointwiseBuild}
    (h : CoversRanges heap origin (class_behavior domain profile transitions) entry.lo s) :
    Ensures (range_window profile transitions s entry)
      (CoversRanges heap origin (class_behavior domain profile transitions) (entry.hi + 1)) := by
  have hle := domain.ordered.1 entry hentry
  unfold range_window
  dsimp only
  refine Ensures.foldlM_cuts ?_ (List.mem_append_left _ (List.mem_append_left _ List.mem_cons_self))
    (List.mem_append_left _ (List.mem_append_left _ (List.mem_cons_of_mem _ List.mem_cons_self)))
    ?_ h
  · intro c hc
    obtain hc | hc := List.mem_append.mp hc
    · obtain hc | hc := List.mem_append.mp hc
      · simp only [List.mem_cons, List.not_mem_nil, or_false] at hc
        omega
      · cases hfinal : profile.final_weight with
        | none =>
            rw [hfinal] at hc
            cases hc
        | some weight =>
            rw [hfinal] at hc
            exact cut_add_tsid_boundary hc
    · obtain ⟨t, -, hc⟩ := List.mem_flatMap.mp hc
      exact cut_add_tsid_boundary hc
  · intro w hw hlo hhi hlt state hstate
    apply range_step_spec hentry hlo hhi hlt _ hstate
    intro k hk hkw
    refine ⟨?_, ?_⟩
    · unfold final_at
      cases hfinal : profile.final_weight with
      | none => rfl
      | some weight =>
          rw [Option.bind_some, Option.bind_some]
          apply weight.eq_on_window _ hw hlo hhi hk hkw
          intro c hc
          rw [hfinal]
          exact List.mem_append_left _ (List.mem_append_right _ hc)
    · apply active_at_congr
      intro t ht
      apply t.2.2.eq_on_window _ hw hlo hhi hk hkw
      intro c hc
      exact List.mem_append_right _ (List.mem_flatMap.mpr ⟨t, ht, hc⟩)

/-- A profile of tsid ranges gives the behavior of the class, too. -/
theorem build_pointwise_range_profile_spec {build : PointwiseBuild} (h : build.Valid heap) :
    Ensures (build_pointwise_range_profile domain profile build) fun built =>
      any_full domain profile = false ∧ ∃ transitions,
        profile_transitions profile = some transitions ∧ Ordered built.1.by_tsid_range ∧
          ProfileMeans heap build (class_behavior domain profile transitions)
            (lookupRuns built.1.by_tsid_range) built.2 := by
  unfold build_pointwise_range_profile
  split_ifs with hfull
  · exact Ensures.none _
  · intro built hbuilt
    obtain ⟨transitions, htransitions, hbuilt⟩ := Option.bind_eq_some_iff.mp hbuilt
    obtain ⟨state, hstate, rfl⟩ := Option.map_eq_some_iff.mp hbuilt
    refine ⟨by simpa using hfull, transitions, htransitions, ?_⟩
    have hstart : CoversRanges heap build (class_behavior domain profile transitions) 0
        ([], build) := by
      refine ⟨⟨h, .refl build, ?_, ?_⟩, ⟨by simp, List.Pairwise.nil⟩, by simp [RunOverlay.EndsBefore]⟩
      · intro k region hr
        cases hr
      · intro k hk
        omega
    obtain ⟨bound, hcovers, hnone⟩ := Ensures.foldlM_runs domain.ordered (fun _ hrun => hrun)
      (fun run _ => Nat.zero_le run.lo) (fun _ _ => rfl) (fun hs hle hnone => hs.skip hle hnone)
      (fun entry hentry s hs => range_window_spec hentry hs) hstart state hstate
    exact ⟨hcovers.ordered, hcovers.covers.profileMeans hnone⟩

end Sweep

end Pointwise

end GlrMask
