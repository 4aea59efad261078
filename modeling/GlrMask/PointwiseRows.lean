import GlrMask.Fuel
import GlrMask.PointwiseProfiles

/-!
# What regions and profiles stand for

A region stands for the behavior of every token of one domain entry. The entries
that a profile has so far stand for the behavior of the class at every tsid below
a bound; emitting a region of a window moves the bound behind the window.
-/

namespace GlrMask

/-! ## Folds in key order -/

/-- A fold over the windows of a sorted list moves an invariant from its first to its last entry. -/
theorem Ensures.foldlM_windows {σ : Type} {f : σ → ℕ × ℕ → Option σ} {P : ℕ → σ → Prop}
    {first : ℕ} {cs : List ℕ} {s : σ} (hsorted : (first :: cs).Pairwise (· < ·))
    (hstep : ∀ w ∈ windows (first :: cs), ∀ s, P w.1 s → Ensures (f s w) (P w.2))
    (hs : P first s) :
    Ensures ((windows (first :: cs)).foldlM f s) fun s' =>
      ∃ last ∈ first :: cs, P last s' ∧ ∀ c ∈ first :: cs, c ≤ last := by
  induction cs generalizing first s with
  | nil =>
      apply Ensures.some
      exact ⟨first, List.mem_cons_self, hs, fun c hc => (List.mem_singleton.mp hc).le⟩
  | cons next cs ih =>
      rw [windows_cons_cons, List.foldlM_cons]
      have hfirst : (first, next) ∈ windows (first :: next :: cs) := List.mem_cons_self
      refine Ensures.bind (hstep _ hfirst s hs) ?_
      intro s' hs'
      refine Ensures.mono
        (ih hsorted.tail (fun w hw => hstep w (List.mem_cons_of_mem _ hw)) hs') ?_
      intro t ht
      obtain ⟨last, hmem, hlast, hle⟩ := ht
      refine ⟨last, List.mem_cons_of_mem _ hmem, hlast, ?_⟩
      intro c hc
      obtain rfl | hc := List.mem_cons.mp hc
      · have hlt : c < next := List.rel_of_pairwise_cons hsorted List.mem_cons_self
        exact hlt.le.trans (hle next List.mem_cons_self)
      · exact hle c hc

theorem head_le_of_sorted {first : ℕ} {cs : List ℕ} (h : (first :: cs).Pairwise (· < ·)) {c : ℕ}
    (hc : c ∈ first :: cs) : first ≤ c := by
  obtain rfl | hc := List.mem_cons.mp hc
  · exact le_rfl
  · exact (List.rel_of_pairwise_cons h hc).le

/-- A fold over the windows of cuts that start at `lo` and end behind `hi`. -/
theorem Ensures.foldlM_cuts {σ : Type} {f : σ → ℕ × ℕ → Option σ} {P : ℕ → σ → Prop}
    {cuts : List ℕ} {lo hi : ℕ} {s : σ} (hcuts : ∀ c ∈ cuts, lo ≤ c ∧ c ≤ hi + 1)
    (hlo : lo ∈ cuts) (hhi : hi + 1 ∈ cuts)
    (hstep : ∀ w ∈ windows (sortDedup cuts), lo ≤ w.1 → w.2 ≤ hi + 1 → w.1 < w.2 → ∀ s,
      P w.1 s → Ensures (f s w) (P w.2))
    (hs : P lo s) :
    Ensures ((windows (sortDedup cuts)).foldlM f s) (P (hi + 1)) := by
  have hsorted := sortDedup_sorted cuts
  have hmem : ∀ c, c ∈ sortDedup cuts ↔ c ∈ cuts := fun c => mem_sortDedup
  cases hcs : sortDedup cuts with
  | nil =>
      have := (hmem lo).mpr hlo
      rw [hcs] at this
      cases this
  | cons first cs =>
      rw [hcs] at hsorted hmem hstep
      have hfirst : first = lo :=
        le_antisymm (head_le_of_sorted hsorted ((hmem lo).mpr hlo))
          (hcuts first ((hmem first).mp List.mem_cons_self)).1
      subst hfirst
      refine Ensures.mono (Ensures.foldlM_windows hsorted ?_ hs) ?_
      · intro w hw
        obtain ⟨h1, h2⟩ := mem_of_mem_windows hw
        exact hstep w hw (hcuts w.1 ((hmem _).mp h1)).1 (hcuts w.2 ((hmem _).mp h2)).2
          (windows_gap hsorted hw).1
      · intro s' hs'
        obtain ⟨last, hlast, hP, hle⟩ := hs'
        have he : last = hi + 1 :=
          le_antisymm (hcuts last ((hmem last).mp hlast)).2 (hle (hi + 1) ((hmem _).mpr hhi))
        exact he ▸ hP

/-- A fold over ordered runs moves an invariant behind all of them. -/
theorem Ensures.foldlM_runs {σ V : Type} {f : σ → Run V → Option σ} {P : ℕ → σ → Prop}
    {full runs : List (Run V)} {bound : ℕ} {s : σ} (hruns : Ordered runs)
    (hsub : ∀ run ∈ runs, run ∈ full)
    (hbound : ∀ run ∈ runs, bound ≤ run.lo)
    (hfull : ∀ k, bound ≤ k → lookupRuns full k = lookupRuns runs k)
    (hskip : ∀ {a b s}, P a s → a ≤ b → (∀ k, a ≤ k → k < b → lookupRuns full k = Option.none) → P b s)
    (hstep : ∀ run ∈ full, ∀ s, P run.lo s → Ensures (f s run) (P (run.hi + 1)))
    (hs : P bound s) :
    Ensures (runs.foldlM f s) fun s' =>
      ∃ last, P last s' ∧ ∀ k, last ≤ k → lookupRuns full k = Option.none := by
  induction runs generalizing bound s with
  | nil => exact Ensures.some ⟨bound, hs, hfull⟩
  | cons run runs ih =>
      rw [List.foldlM_cons]
      have hstart : P run.lo s := by
        apply hskip hs (hbound run List.mem_cons_self)
        intro k hk hlt
        rw [hfull k hk, RunOverlay.lookup_before hruns hlt]
      refine Ensures.bind (hstep run (hsub run List.mem_cons_self) s hstart) ?_
      intro s' hs'
      have hle := hruns.1 run List.mem_cons_self
      apply ih hruns.tail (fun r hr => hsub r (List.mem_cons_of_mem _ hr)) _ _ hs'
      · intro r hr
        exact List.rel_of_pairwise_cons hruns.2 hr
      · intro k hk
        have := hbound run List.mem_cons_self
        rw [hfull k (by omega), RunOverlay.lookup_tail]
        intro hc
        have := hc.2
        omega

namespace Pointwise

/-! ## The tables -/

/-- The behavior of a token in a row of token sets. -/
def token_behavior (heap : ℕ → TokenSet) (domain_tokens : ℕ) (final_tokens : Option ℕ)
    (active_transitions : List (Label × ℕ × ℕ)) (x : ℕ) : Option PointwiseBehavior :=
  if x ∈ heap domain_tokens then
    some ⟨final_tokens.any fun tokens => x ∈ heap tokens,
      (active_transitions.filter fun t => x ∈ heap t.2.2).map fun t => (t.1, t.2.1)⟩
  else none

/-- The numbers stand for the behaviors of a function. -/
def Means (values : List PointwiseBehavior) (number : Option ℕ)
    (behavior : Option PointwiseBehavior) : Prop :=
  number.map (values[·]?) = behavior.map some

theorem Means.later {values values' : List PointwiseBehavior} (h : values <+: values')
    {number : Option ℕ} {behavior : Option PointwiseBehavior} (hm : Means values number behavior) :
    Means values' number behavior := by
  unfold Means at *
  cases number with
  | none => exact hm
  | some id =>
      cases behavior with
      | none => cases hm
      | some b =>
          have hb : values[id]? = some b := Option.some.inj hm
          exact congrArg some (getElem?_of_extends h hb)

theorem means_none (values : List PointwiseBehavior) : Means values none none := rfl

theorem means_some {values : List PointwiseBehavior} {id : ℕ} {behavior : PointwiseBehavior}
    (h : values[id]? = some behavior) : Means values (some id) (some behavior) :=
  congrArg some h

theorem Means.of_some {values : List PointwiseBehavior} {id : ℕ}
    {behavior : Option PointwiseBehavior} (h : Means values (some id) behavior) :
    ∃ b, values[id]? = some b ∧ behavior = some b := by
  cases behavior with
  | none => cases h
  | some b => exact ⟨b, Option.some.inj h, rfl⟩

/-- The behavior of a token in the row of a key. -/
def PointwiseRegionBuildKey.behavior (heap : ℕ → TokenSet) (key : PointwiseRegionBuildKey) (x : ℕ) :
    Option PointwiseBehavior :=
  token_behavior heap key.domain_tokens
    (if key.final_tokens = 0 then none else some key.final_tokens) key.transitions x

structure PointwiseBuild.Valid (heap : ℕ → TokenSet) (build : PointwiseBuild) : Prop where
  behaviors : build.behaviors.Valid
  regions : build.regions.Valid
  cached : ∀ key region, build.build_cache.lookup key = some (some region) →
    region ∈ build.regions.regions ∧
      ∀ x, Means build.behaviors.values (lookupRuns region.ranges x) (key.behavior heap x)

/-- The tables only grow. -/
structure PointwiseBuild.Extends (before after : PointwiseBuild) : Prop where
  values : before.behaviors.values <+: after.behaviors.values
  regions : before.regions.regions <+: after.regions.regions

theorem PointwiseBuild.Extends.refl (build : PointwiseBuild) : build.Extends build :=
  ⟨List.prefix_rfl, List.prefix_rfl⟩

theorem PointwiseBuild.Extends.trans {a b c : PointwiseBuild} (hab : a.Extends b)
    (hbc : b.Extends c) : a.Extends c :=
  ⟨hab.values.trans hbc.values, hab.regions.trans hbc.regions⟩

theorem PointwiseBuild.valid_new (heap : ℕ → TokenSet) (slots : ℕ) :
    (PointwiseBuild.new slots).Valid heap := by
  refine ⟨?_, PointwiseRegionInterner.valid_with_direct_overlay_slots slots, ?_⟩
  · intro behavior id hid
    cases hid
  · intro key region hregion
    cases hregion

/-! ## One region -/

section Region

variable {heap : ℕ → TokenSet} {domain_tokens : ℕ} {final_tokens : Option ℕ}
  {active : List (Label × ℕ × ℕ)}

/-- Between two boundaries of a row every token behaves alike. -/
theorem token_behavior_eq_on_window {w : ℕ × ℕ}
    (hw : w ∈ windows (region_boundaries heap domain_tokens final_tokens active)) {x : ℕ}
    (hlo : w.1 ≤ x) (hhi : x < w.2) :
    token_behavior heap domain_tokens final_tokens active x =
      token_behavior heap domain_tokens final_tokens active w.1 := by
  have hmem : ∀ {tokens : TokenSet}, (∀ c ∈ cutPoints tokens.runs,
      c ∈ region_boundaries heap domain_tokens final_tokens active) →
        (x ∈ tokens ↔ w.1 ∈ tokens) := by
    intro tokens hcut
    rw [RangeSet.mem_def, RangeSet.mem_def, RangeMap.get, RangeMap.get,
      lookupRuns_eq_on_window (sortDedup_sorted _) hcut hw hlo hhi]
  have hdomain : x ∈ heap domain_tokens ↔ w.1 ∈ heap domain_tokens := by
    apply hmem
    intro c hc
    exact mem_sortDedup.mpr (List.mem_append_left _ (List.mem_append_left _ hc))
  have hfinal : (final_tokens.any fun tokens => decide (x ∈ heap tokens)) =
      final_tokens.any fun tokens => decide (w.1 ∈ heap tokens) := by
    cases final_tokens with
    | none => rfl
    | some tokens =>
        apply decide_eq_decide.mpr
        apply hmem
        intro c hc
        exact mem_sortDedup.mpr (List.mem_append_left _ (List.mem_append_right _ hc))
  have hactive : (active.filter fun t => decide (x ∈ heap t.2.2)) =
      active.filter fun t => decide (w.1 ∈ heap t.2.2) := by
    apply List.filter_congr
    intro t ht
    apply decide_eq_decide.mpr
    apply hmem
    intro c hc
    exact mem_sortDedup.mpr (List.mem_append_right _ (List.mem_flatMap.mpr ⟨t, ht, hc⟩))
  unfold token_behavior
  rw [hfinal, hactive]
  simp only [hdomain]

/-- The ranges so far give the behavior of every token below a bound. -/
structure RegionUpTo (heap : ℕ → TokenSet) (domain_tokens : ℕ) (final_tokens : Option ℕ)
    (active : List (Label × ℕ × ℕ)) (before : PointwiseBehaviorInterner) (bound : ℕ)
    (acc : List TokenBehaviorRange × PointwiseBehaviorInterner) : Prop where
  behaviors : acc.2.Valid
  grows : before.values <+: acc.2.values
  ordered : Ordered acc.1
  below : RunOverlay.EndsBefore acc.1 bound
  means : ∀ x < bound, Means acc.2.values (lookupRuns acc.1 x)
    (token_behavior heap domain_tokens final_tokens active x)

theorem le_of_mem {tokens : TokenSet} {x : ℕ} (h : x ∈ tokens) : x ≤ u32Max :=
  RangeMap.le_of_get (RangeSet.mem_def.mp h)

theorem region_step_spec {before : PointwiseBehaviorInterner}
    {acc : List TokenBehaviorRange × PointwiseBehaviorInterner} {w : ℕ × ℕ}
    (hw : w ∈ windows (region_boundaries heap domain_tokens final_tokens active))
    (h : RegionUpTo heap domain_tokens final_tokens active before w.1 acc) :
    Ensures (region_step heap domain_tokens final_tokens active acc w)
      (RegionUpTo heap domain_tokens final_tokens active before w.2) := by
  have hlt := (windows_gap (sortDedup_sorted _) hw).1
  have hconst := fun x => token_behavior_eq_on_window (x := x) hw
  -- a window whose first token has no behavior adds nothing
  have hskip : token_behavior heap domain_tokens final_tokens active w.1 = none →
      RegionUpTo heap domain_tokens final_tokens active before w.2 acc := by
    intro hnone
    refine ⟨h.behaviors, h.grows, h.ordered, ?_, ?_⟩
    · intro run hrun
      exact (h.below run hrun).trans hlt
    · intro x hx
      by_cases hlo : x < w.1
      · exact h.means x hlo
      · rw [h.below.lookup (by omega), hconst x (by omega) hx, hnone]
        exact means_none _
  unfold region_step
  dsimp only
  split_ifs with hrange hmem hidle
  · apply Ensures.some
    apply hskip
    unfold token_behavior
    rw [if_neg]
    intro hx
    have := le_of_mem hx
    omega
  · exact Ensures.none _
  · apply Ensures.some
    obtain ⟨hvalid, hgrows, hid⟩ := PointwiseBehaviorInterner.intern_spec h.behaviors
      (final_tokens.any fun tokens => decide (w.1 ∈ heap tokens))
      ((active.filter fun t => decide (w.1 ∈ heap t.2.2)).map fun t => (t.1, t.2.1))
    generalize acc.2.intern _ _ = interned at hvalid hgrows hid
    obtain ⟨hordered, hends, hlookup⟩ := RunOverlay.push_spec (· == ·) u32Max
      ⟨w.1, w.2 - 1, interned.1⟩ (fun _ _ => beq_iff_eq.mp) h.ordered
      (by change w.1 ≤ w.2 - 1; omega) h.below
    refine ⟨hvalid, h.grows.trans hgrows, hordered, ?_, ?_⟩
    · intro run hrun
      have : run.hi < w.2 - 1 + 1 := hends run hrun
      omega
    · intro x hx
      unfold push_token_behavior_range
      rw [hlookup]
      by_cases hlo : x < w.1
      · rw [if_neg fun hc => absurd hc.1 (by change ¬w.1 ≤ x; omega)]
        exact (h.means x hlo).later hgrows
      · rw [if_pos ⟨by change w.1 ≤ x; omega, by change x ≤ w.2 - 1; omega⟩,
          hconst x (by omega) hx]
        unfold token_behavior
        rw [if_pos hmem]
        exact means_some hid
  · apply Ensures.some
    apply hskip
    unfold token_behavior
    rw [if_neg hmem]

/-- A token with a behavior lies between the first and the last boundary. -/
theorem boundary_of_behavior {x : ℕ}
    (h : token_behavior heap domain_tokens final_tokens active x ≠ none) :
    ∃ lo ∈ region_boundaries heap domain_tokens final_tokens active, ∃ hi ∈
      region_boundaries heap domain_tokens final_tokens active, lo ≤ x ∧ x < hi := by
  have hmem : x ∈ heap domain_tokens := by
    by_contra hx
    unfold token_behavior at h
    exact h (if_neg hx)
  obtain ⟨run, hrun, hc⟩ := RangeSet.mem_iff_exists_run.mp hmem
  have hcut : ∀ c ∈ cutPoints (heap domain_tokens).runs,
      c ∈ region_boundaries heap domain_tokens final_tokens active := by
    intro c hc
    exact mem_sortDedup.mpr (List.mem_append_left _ (List.mem_append_left _ hc))
  exact ⟨run.lo, hcut _ (lo_mem_cutPoints hrun), run.hi + 1, hcut _ (succ_hi_mem_cutPoints hrun),
    hc.1, Nat.lt_succ_of_le hc.2⟩

theorem region_ranges_spec {before : PointwiseBehaviorInterner} (hbefore : before.Valid) :
    Ensures ((windows (region_boundaries heap domain_tokens final_tokens active)).foldlM
        (region_step heap domain_tokens final_tokens active) ([], before)) fun acc =>
      acc.2.Valid ∧ before.values <+: acc.2.values ∧ Ordered acc.1 ∧
        ∀ x, Means acc.2.values (lookupRuns acc.1 x)
          (token_behavior heap domain_tokens final_tokens active x) := by
  have hsorted : (region_boundaries heap domain_tokens final_tokens active).Pairwise (· < ·) :=
    sortDedup_sorted _
  have hstep : ∀ w ∈ windows (region_boundaries heap domain_tokens final_tokens active), ∀ s,
      RegionUpTo heap domain_tokens final_tokens active before w.1 s →
        Ensures (region_step heap domain_tokens final_tokens active s w)
          (RegionUpTo heap domain_tokens final_tokens active before w.2) :=
    fun w hw s => region_step_spec hw
  have hinside : ∀ x, token_behavior heap domain_tokens final_tokens active x ≠ none →
      ∃ lo ∈ region_boundaries heap domain_tokens final_tokens active, ∃ hi ∈
        region_boundaries heap domain_tokens final_tokens active, lo ≤ x ∧ x < hi :=
    fun x => boundary_of_behavior
  have houtside : ∀ x, (∀ lo ∈ region_boundaries heap domain_tokens final_tokens active,
      ∀ hi ∈ region_boundaries heap domain_tokens final_tokens active, ¬(lo ≤ x ∧ x < hi)) →
        token_behavior heap domain_tokens final_tokens active x = none := by
    intro x hx
    by_contra hne
    obtain ⟨lo, hlo, hi, hhi, hin⟩ := hinside x hne
    exact hx lo hlo hi hhi hin
  cases hcs : region_boundaries heap domain_tokens final_tokens active with
  | nil =>
      rw [hcs] at houtside
      apply Ensures.some
      refine ⟨hbefore, List.prefix_rfl, ⟨by simp, List.Pairwise.nil⟩, ?_⟩
      intro x
      rw [houtside x (by simp)]
      exact means_none _
  | cons first cs =>
      rw [hcs] at hsorted hstep houtside
      have hstart : RegionUpTo heap domain_tokens final_tokens active before first
          ([], before) := by
        refine ⟨hbefore, List.prefix_rfl, ⟨by simp, List.Pairwise.nil⟩,
          fun run hrun => (List.not_mem_nil hrun).elim, ?_⟩
        intro x hx
        rw [houtside x]
        · exact means_none _
        · intro lo hlo hi hhi hin
          have := head_le_of_sorted hsorted hlo
          omega
      refine Ensures.mono (Ensures.foldlM_windows hsorted hstep hstart) ?_
      intro acc hacc
      obtain ⟨last, -, hacc, hlast⟩ := hacc
      refine ⟨hacc.behaviors, hacc.grows, hacc.ordered, ?_⟩
      intro x
      by_cases hx : x < last
      · exact hacc.means x hx
      · rw [hacc.below.lookup (by omega), houtside x]
        · exact means_none _
        · intro lo hlo hi hhi hin
          have := hlast hi hhi
          omega

/-- The region that is built, or found, for a row gives the behavior of every token in the row. -/
theorem build_token_behavior_region_spec [Allocator] {build : PointwiseBuild}
    (h : build.Valid heap) (hnonnull : ∀ address ∈ final_tokens, address ≠ 0) :
    Ensures (build_token_behavior_region heap domain_tokens final_tokens active build) fun built =>
      built.2.Valid heap ∧ build.Extends built.2 ∧ built.1 ∈ built.2.regions.regions ∧
        ∀ x, Means built.2.behaviors.values (lookupRuns built.1.ranges x)
          (token_behavior heap domain_tokens final_tokens active x) := by
  have hkey : ∀ x, PointwiseRegionBuildKey.behavior heap
      ⟨domain_tokens, final_tokens.getD 0, active⟩ x =
        token_behavior heap domain_tokens final_tokens active x := by
    intro x
    unfold PointwiseRegionBuildKey.behavior
    cases final_tokens with
    | none => rfl
    | some address =>
        dsimp only [Option.getD_some]
        rw [if_neg (hnonnull address rfl)]
  unfold build_token_behavior_region
  dsimp only
  split
  · rename_i existing hexisting
    apply Ensures.map
    intro region hregion
    subst hregion
    obtain ⟨hmem, hmeans⟩ := h.cached _ _ hexisting
    refine ⟨h, .refl build, hmem, ?_⟩
    intro x
    rw [← hkey]
    exact hmeans x
  · refine Ensures.bind (region_ranges_spec h.behaviors) ?_
    intro acc hacc
    obtain ⟨hvalid, hgrows, hordered, hmeans⟩ := hacc
    split_ifs
    · exact Ensures.none _
    · apply Ensures.some
      obtain ⟨hregions, hextends, hmem, hranges⟩ :=
        PointwiseRegionInterner.intern_spec h.regions hordered
      refine ⟨⟨hvalid, hregions, ?_⟩, ⟨hgrows, hextends⟩, hmem, ?_⟩
      · intro key region hregion
        rw [List.lookup_cons] at hregion
        split at hregion
        · rename_i heq
          obtain rfl := beq_iff_eq.mp heq
          cases hregion
          refine ⟨hmem, ?_⟩
          intro x
          rw [hkey, hranges]
          exact hmeans x
        · obtain ⟨hold, holdmeans⟩ := h.cached key region hregion
          exact ⟨hextends.subset hold, fun x => (holdmeans x).later hgrows⟩
      · intro x
        rw [hranges]
        exact hmeans x

end Region

end Pointwise

end GlrMask
