import GlrMask.PointwiseRows

/-!
# Exactness of pointwise profiles

Every entry of a profile is the region of the row of token sets at its tsid,
whichever way the profile is built. A cursor that moves to the right keeps showing
what its weight holds from its position on.
-/

namespace GlrMask

namespace Pointwise

variable {heap : ℕ → TokenSet}

/-! ## Shared weights -/

theorem SharedWeight.entry_mem (weight : SharedWeight heap) {entry : Run ℕ}
    (h : entry ∈ weight.entries) : deref heap entry ∈ weight.weight.map.runs := by
  rw [← weight.stored]
  exact List.mem_map_of_mem h

theorem SharedWeight.ordered (weight : SharedWeight heap) : Ordered weight.entries := by
  have hruns := weight.weight.map.canonical.ordered
  rw [← weight.stored] at hruns
  refine ⟨?_, ?_⟩
  · intro entry hentry
    exact hruns.1 _ (List.mem_map_of_mem hentry)
  · exact (List.pairwise_map.mp hruns.2).imp id

theorem SharedWeight.nonnull_of_get (weight : SharedWeight heap) {k address : ℕ}
    (h : weight.token_set_for_tsid_ref k = some address) : address ≠ 0 := by
  obtain ⟨entry, hentry, -, rfl⟩ := exists_run_of_lookupRuns h
  exact weight.nonnull entry hentry

/-! ## Rows of a class -/

/-- The address of the final tokens at a tsid. -/
def final_at (profile : ClassProfile (SharedWeight heap)) (k : ℕ) : Option ℕ :=
  profile.final_weight.bind (·.token_set_for_tsid_ref k)

/-- The transitions that are active at a tsid. -/
def active_at (transitions : List (ProfileTransition heap)) (k : ℕ) : List (Label × ℕ × ℕ) :=
  active_transitions transitions (transitions.map (·.2.2.token_set_for_tsid_ref k))

/-- The behavior of a class at a tsid and token of its domain. -/
def class_behavior (domain : SharedWeight heap) (profile : ClassProfile (SharedWeight heap))
    (transitions : List (ProfileTransition heap)) (k x : ℕ) : Option PointwiseBehavior :=
  (domain.token_set_for_tsid_ref k).bind fun tokens =>
    token_behavior heap tokens (final_at profile k) (active_at transitions k) x

theorem final_at_nonnull {profile : ClassProfile (SharedWeight heap)} {k : ℕ} :
    ∀ address ∈ final_at profile k, address ≠ 0 := by
  intro address haddress
  obtain ⟨weight, -, hget⟩ := Option.bind_eq_some_iff.mp haddress
  exact weight.nonnull_of_get hget

theorem class_behavior_of_entry {domain : SharedWeight heap}
    {profile : ClassProfile (SharedWeight heap)} {transitions : List (ProfileTransition heap)}
    {entry : Run ℕ} (hentry : entry ∈ domain.entries) {k : ℕ} (hk : entry.Covers k) (x : ℕ) :
    class_behavior domain profile transitions k x =
      token_behavior heap entry.val (final_at profile k) (active_at transitions k) x := by
  unfold class_behavior SharedWeight.token_set_for_tsid_ref
  rw [domain.ordered.lookup_of_mem hentry hk, Option.bind_some]

theorem class_behavior_of_none {domain : SharedWeight heap}
    {profile : ClassProfile (SharedWeight heap)} {transitions : List (ProfileTransition heap)}
    {k : ℕ} (hk : lookupRuns domain.entries k = none) (x : ℕ) :
    class_behavior domain profile transitions k x = none := by
  unfold class_behavior SharedWeight.token_set_for_tsid_ref
  rw [hk, Option.bind_none]

/-! ## Entries that are emitted -/

/-- The regions so far give the behavior of a class at every tsid below a bound. -/
structure Covers (heap : ℕ → TokenSet) (origin : PointwiseBuild)
    (rows : ℕ → ℕ → Option PointwiseBehavior) (bound : ℕ) (region_at : ℕ → Option Region)
    (build : PointwiseBuild) : Prop where
  valid : build.Valid heap
  grows : origin.Extends build
  known : ∀ k region, region_at k = some region → region ∈ build.regions.regions ∧ k < bound
  means : ∀ k < bound, ∀ x, Means build.behaviors.values
    ((region_at k).bind fun region => lookupRuns region.ranges x) (rows k x)

section Covers

variable {origin build : PointwiseBuild} {rows : ℕ → ℕ → Option PointwiseBehavior}
  {region_at : ℕ → Option Region} {bound start stop : ℕ}

theorem Covers.none_of_le (h : Covers heap origin rows bound region_at build) {k : ℕ}
    (hk : bound ≤ k) : region_at k = none := by
  cases hr : region_at k with
  | none => rfl
  | some region =>
      have := (h.known k region hr).2
      omega

theorem Covers.skip (h : Covers heap origin rows bound region_at build) (hle : bound ≤ stop)
    (hnone : ∀ k, bound ≤ k → k < stop → ∀ x, rows k x = none) :
    Covers heap origin rows stop region_at build := by
  refine ⟨h.valid, h.grows, ?_, ?_⟩
  · intro k region hr
    obtain ⟨hmem, hlt⟩ := h.known k region hr
    exact ⟨hmem, by omega⟩
  · intro k hk x
    by_cases hlt : k < bound
    · exact h.means k hlt x
    · rw [h.none_of_le (by omega), hnone k (by omega) hk]
      exact means_none _

/-- Emitting the region of a window of equal rows. -/
theorem Covers.emit [Allocator] {domain_tokens : ℕ} {final_tokens : Option ℕ}
    {active : List (Label × ℕ × ℕ)} (h : Covers heap origin rows start region_at build)
    (hlt : start < stop) (hnonnull : ∀ address ∈ final_tokens, address ≠ 0)
    (hrows : ∀ k, start ≤ k → k < stop → ∀ x,
      rows k x = token_behavior heap domain_tokens final_tokens active x) :
    Ensures (build_token_behavior_region heap domain_tokens final_tokens active build)
      fun built => ∀ region_at' : ℕ → Option Region,
        (∀ k, region_at' k = if start ≤ k ∧ k < stop then some built.1 else region_at k) →
          Covers heap origin rows stop region_at' built.2 := by
  refine Ensures.mono (build_token_behavior_region_spec h.valid hnonnull) ?_
  intro built hbuilt region_at' hat
  obtain ⟨hvalid, hextends, hmem, hmeans⟩ := hbuilt
  refine ⟨hvalid, h.grows.trans hextends, ?_, ?_⟩
  · intro k region hr
    rw [hat] at hr
    split_ifs at hr with hin
    · cases hr
      exact ⟨hmem, hin.2⟩
    · obtain ⟨hold, hk⟩ := h.known k region hr
      exact ⟨hextends.regions.subset hold, by omega⟩
  · intro k hk x
    rw [hat]
    by_cases hin : start ≤ k
    · rw [if_pos ⟨hin, hk⟩, hrows k hin hk]
      exact hmeans x
    · rw [if_neg fun hc => hin hc.1]
      exact (h.means k (by omega) x).later hextends.values

/-- What `Covers` says of a list of entries, none of which is repeated. -/
structure CoversTsids (heap : ℕ → TokenSet) (origin : PointwiseBuild)
    (rows : ℕ → ℕ → Option PointwiseBehavior) (bound : ℕ) (by_tsid : List (ℕ × Region))
    (build : PointwiseBuild) : Prop where
  covers : Covers heap origin rows bound (fun k => by_tsid.lookup k) build
  nodup : (by_tsid.map Prod.fst).Nodup

theorem lookup_map_const {V : Type} (keys : List ℕ) (v : V) (k : ℕ) :
    (keys.map fun key => (key, v)).lookup k = if k ∈ keys then some v else none := by
  induction keys with
  | nil => rfl
  | cons key keys ih =>
      rw [List.map_cons, List.lookup_cons, ih]
      by_cases hk : k = key
      · simp [hk]
      · simp [beq_false_of_ne hk, hk]

theorem mem_of_lookup {K V : Type} [BEq K] [LawfulBEq K] {l : List (K × V)} {k : K} {v : V}
    (h : l.lookup k = some v) : (k, v) ∈ l := by
  obtain ⟨front, rest, rfl, -⟩ := List.lookup_eq_some_iff.mp h
  exact List.mem_append_right _ List.mem_cons_self

theorem lookup_iff_mem {K V : Type} [BEq K] [LawfulBEq K] {l : List (K × V)}
    (h : (l.map Prod.fst).Nodup) {k : K} {v : V} : l.lookup k = some v ↔ (k, v) ∈ l := by
  refine ⟨mem_of_lookup, ?_⟩
  intro hmem
  induction l with
  | nil => cases hmem
  | cons entry l ih =>
      rw [List.map_cons, List.nodup_cons] at h
      obtain rfl | hmem := List.mem_cons.mp hmem
      · rw [List.lookup_cons, beq_self_eq_true]
      · have hne : k ≠ entry.1 := by
          intro he
          exact h.1 (he ▸ List.mem_map_of_mem hmem)
        rw [List.lookup_cons, beq_false_of_ne hne, ih h.2 hmem]

theorem exists_lookup {V : Type} {l : List (ℕ × V)} {k : ℕ} (h : k ∈ l.map Prod.fst) :
    ∃ v, l.lookup k = some v := by
  induction l with
  | nil => cases h
  | cons entry l ih =>
      rw [List.lookup_cons]
      by_cases hk : k = entry.1
      · exact ⟨entry.2, by simp [hk]⟩
      · rw [beq_false_of_ne hk]
        obtain h | h := List.mem_cons.mp h
        · exact absurd h hk
        · exact ih h

theorem emit_tsids_spec [Allocator] {domain_tokens : ℕ} {final_tokens : Option ℕ}
    {active : List (Label × ℕ × ℕ)} {by_tsid : List (ℕ × Region)}
    (h : CoversTsids heap origin rows start by_tsid build)
    (hlt : start < stop) (hnonnull : ∀ address ∈ final_tokens, address ≠ 0)
    (hrows : ∀ k, start ≤ k → k < stop → ∀ x,
      rows k x = token_behavior heap domain_tokens final_tokens active x) :
    Ensures (emit_tsids heap domain_tokens final_tokens active start stop by_tsid build)
      fun emitted => CoversTsids heap origin rows stop emitted.1 emitted.2 := by
  unfold emit_tsids
  apply Ensures.map
  refine Ensures.mono (h.covers.emit hlt hnonnull hrows) ?_
  intro built hbuilt
  have hkeys : ∀ k, k ∈ List.range' start (stop - start) ↔ start ≤ k ∧ k < stop := by
    intro k
    rw [List.mem_range'_1]
    omega
  refine ⟨?_, ?_⟩
  · apply hbuilt
    intro k
    rw [List.lookup_append, lookup_map_const]
    by_cases hin : start ≤ k ∧ k < stop
    · rw [h.covers.none_of_le hin.1, if_pos ((hkeys k).mpr hin), if_pos hin, Option.none_or]
    · rw [if_neg fun hc => hin ((hkeys k).mp hc), if_neg hin, Option.or_none]
  · rw [List.map_append, List.nodup_append]
    refine ⟨h.nodup, ?_, ?_⟩
    · rw [List.map_map]
      exact (List.nodup_range' (s := start) (n := stop - start)).map fun a b hab => hab
    · intro a ha b hb hab
      subst hab
      obtain ⟨region, hregion⟩ := exists_lookup ha
      rw [List.map_map] at hb
      obtain ⟨k, hk, rfl⟩ := List.mem_map.mp hb
      have hlt : k < start := (h.covers.known _ region hregion).2
      have hle := ((hkeys k).mp hk).1
      omega

end Covers

/-! ## Cursors -/

theorem dropWhile_spec {l : List (Run ℕ)} (h : Ordered l) (pos : ℕ) :
    Ordered (l.dropWhile (·.hi < pos)) ∧
      (∀ k, pos ≤ k → lookupRuns (l.dropWhile (·.hi < pos)) k = lookupRuns l k) ∧
      ∀ run rest, l.dropWhile (·.hi < pos) = run :: rest → pos ≤ run.hi := by
  induction l with
  | nil => exact ⟨h, fun _ _ => rfl, fun run rest he => by cases he⟩
  | cons run l ih =>
      rw [List.dropWhile_cons]
      split_ifs with hlt
      · obtain ⟨hordered, hlookup, hhead⟩ := ih h.tail
        refine ⟨hordered, ?_, hhead⟩
        intro k hk
        rw [hlookup k hk, RunOverlay.lookup_tail]
        intro hc
        have := hc.2
        have : run.hi < pos := by simpa using hlt
        omega
      · refine ⟨h, fun _ _ => rfl, ?_⟩
        intro r rest he
        cases he
        simpa using hlt

/-- The first entry left decides what an ordered list holds at a position it reaches. -/
theorem lookup_head {run : Run ℕ} {rest : List (Run ℕ)} (h : Ordered (run :: rest)) {pos : ℕ}
    (hpos : pos ≤ run.hi) :
    lookupRuns (run :: rest) pos = if run.lo ≤ pos then some run.val else none := by
  split_ifs with hlo
  · rw [lookupRuns_cons, if_pos ⟨hlo, hpos⟩]
  · exact RunOverlay.lookup_before h (by omega)

theorem pointwise_cursor_at_spec {iter : List (Run ℕ)} (h : Ordered iter) (pos window_end : ℕ) :
    (pointwise_cursor_at iter pos window_end).1.1 = lookupRuns iter pos ∧
      (∀ k, pos ≤ k → k < (pointwise_cursor_at iter pos window_end).1.2 →
        lookupRuns iter k = lookupRuns iter pos) ∧
      Ordered (pointwise_cursor_at iter pos window_end).2 ∧
      ∀ k, pos ≤ k →
        lookupRuns (pointwise_cursor_at iter pos window_end).2 k = lookupRuns iter k := by
  obtain ⟨hordered, hlookup, hhead⟩ := dropWhile_spec h pos
  unfold pointwise_cursor_at
  dsimp only
  split
  · rename_i hnil
    rw [hnil] at hlookup ⊢
    refine ⟨hlookup pos le_rfl, ?_, ⟨by simp, List.Pairwise.nil⟩, hlookup⟩
    intro k hk _
    rw [← hlookup k hk, ← hlookup pos le_rfl]
    rfl
  · rename_i range rest hcons
    have hhi := hhead range rest hcons
    rw [hcons] at hordered hlookup ⊢
    have hfirst := lookup_head hordered hhi
    rw [hlookup pos le_rfl] at hfirst
    split_ifs with hlo
    · rw [if_pos hlo] at hfirst
      refine ⟨hfirst.symm, ?_, hordered, hlookup⟩
      intro k hk hlt
      have hk' : k < min (range.hi + 1) window_end := hlt
      rw [← hlookup k hk, lookup_head hordered (by omega), if_pos (by omega), hfirst]
    · rw [if_neg hlo] at hfirst
      refine ⟨hfirst.symm, ?_, hordered, hlookup⟩
      intro k hk hlt
      have hk' : k < min range.lo window_end := hlt
      rw [← hlookup k hk, RunOverlay.lookup_before hordered (by omega), hfirst]

/-- A cursor shows a function from a position to a last one. -/
structure Shows (pos last : ℕ) (cursor : List (Run ℕ)) (full : ℕ → Option ℕ) : Prop where
  ordered : Ordered cursor
  lookup : ∀ k, pos ≤ k → k ≤ last → lookupRuns cursor k = full k

theorem Shows.later {pos pos' last : ℕ} {cursor : List (Run ℕ)} {full : ℕ → Option ℕ}
    (h : Shows pos last cursor full) (hle : pos ≤ pos') : Shows pos' last cursor full :=
  ⟨h.ordered, fun k hk hlast => h.lookup k (hle.trans hk) hlast⟩

theorem Shows.dropWhile {pos pos' last : ℕ} {cursor : List (Run ℕ)} {full : ℕ → Option ℕ}
    (h : Shows pos last cursor full) (hle : pos ≤ pos') :
    Shows pos' last (cursor.dropWhile (·.hi < pos')) full := by
  obtain ⟨hordered, hlookup, -⟩ := dropWhile_spec h.ordered pos'
  refine ⟨hordered, ?_⟩
  intro k hk hlast
  rw [hlookup k hk, h.lookup k (hle.trans hk) hlast]

theorem Shows.cursor_at {pos last window_end : ℕ} {cursor : List (Run ℕ)} {full : ℕ → Option ℕ}
    (h : Shows pos last cursor full) (hpos : pos < window_end) (hlast : window_end ≤ last + 1) :
    (pointwise_cursor_at cursor pos window_end).1.1 = full pos ∧
      (∀ k, pos ≤ k → k < (pointwise_cursor_at cursor pos window_end).1.2 → k < window_end →
        full k = full pos) ∧
      Shows pos last (pointwise_cursor_at cursor pos window_end).2 full := by
  obtain ⟨htokens, hconst, hordered, hlookup⟩ := pointwise_cursor_at_spec h.ordered pos window_end
  refine ⟨?_, ?_, hordered, ?_⟩
  · rw [htokens, h.lookup pos le_rfl (by omega)]
  · intro k hk hnext hend
    rw [← h.lookup k hk (by omega), ← h.lookup pos le_rfl (by omega)]
    exact hconst k hk hnext
  · intro k hk hle
    rw [hlookup k hk, h.lookup k hk hle]

theorem Shows.cursor_tokens {pos pos' last : ℕ} {cursor : List (Run ℕ)} {full : ℕ → Option ℕ}
    (h : Shows pos last cursor full) (hle : pos ≤ pos') (hlast : pos' ≤ last) :
    cursor_tokens (cursor.dropWhile (·.hi < pos')) pos' = full pos' := by
  obtain ⟨hordered, hlookup, hhead⟩ := dropWhile_spec h.ordered pos'
  rw [← h.lookup pos' hle hlast, ← hlookup pos' le_rfl]
  unfold Pointwise.cursor_tokens
  cases hd : cursor.dropWhile (·.hi < pos') with
  | nil => rfl
  | cons run rest =>
      rw [hd] at hordered
      rw [lookup_head hordered (hhead run rest hd), List.head?_cons, Option.filter_some]
      by_cases hlo : run.lo ≤ pos'
      · simp [hlo]
      · simp [hlo]

end Pointwise

end GlrMask
