import GlrMask.Weight

/-!
# Weights built from point entries

A point entry allows tokens at a single tsid. Sorted point entries are united
without building a weight for each of them.
-/

namespace GlrMask

open RangeSet RangeMap CompactRangeBuilder

/-- Tokens at one tsid below the reserved one. -/
structure PointEntry where
  tsid : ℕ
  tokens : TokenSet
  below : tsid < u32Max

def PointEntry.run (self : PointEntry) : WeightRangeEntry := ⟨self.tsid, self.tsid, self.tokens⟩

theorem PointEntry.covers_iff {e : PointEntry} {k : ℕ} : e.run.Covers k ↔ e.tsid = k :=
  ⟨fun h => le_antisymm h.1 h.2, fun h => h ▸ ⟨le_rfl, le_rfl⟩⟩

/-- Push the entries, the last one held back as long as its tsid comes again. -/
def pushPoints (builder : CompactRangeBuilder) (current : Option PointEntry) :
    List PointEntry → CompactRangeBuilder
  | [] =>
      match current with
      | some held => builder.push held.run
      | none => builder
  | entry :: entries =>
      if entry.tokens.isEmpty then pushPoints builder current entries
      else
        match current with
        | some held =>
            if held.tsid = entry.tsid then
              pushPoints builder
                (some { held with tokens := shared_token_union held.tokens entry.tokens }) entries
            else pushPoints (builder.push held.run) (some entry) entries
        | none => pushPoints builder (some entry) entries

theorem PointEntry.get_push {builder : CompactRangeBuilder} (h : builder.Valid) (e : PointEntry)
    (k : ℕ) : (builder.push e.run).Valid ∧
      (builder.push e.run).get k = if e.tsid = k then some e.tokens else builder.get k := by
  refine ⟨valid_push h le_rfl e.below.le, ?_⟩
  rw [CompactRangeBuilder.get_push h (show e.run.lo ≤ e.run.hi from le_rfl)]
  exact if_congr covers_iff rfl rfl

/-- Everything a builder holds is a nonempty token set at an unreserved tsid. -/
def HoldsFinite (builder : CompactRangeBuilder) : Prop :=
  ∀ k t, builder.get k = some t → k ≠ u32Max ∧ t ≠ RangeMap.empty

theorem HoldsFinite.push {builder : CompactRangeBuilder} (hb : builder.Valid)
    (h : HoldsFinite builder) {e : PointEntry} (he : e.tokens ≠ RangeMap.empty) :
    HoldsFinite (builder.push e.run) := by
  intro k t ht
  rw [(e.get_push hb k).2] at ht
  split_ifs at ht with hk
  · obtain rfl := Option.some.inj ht
    exact ⟨hk ▸ e.below.ne, he⟩
  · exact h k t ht

theorem pushPoints_finite {builder : CompactRangeBuilder} {current : Option PointEntry}
    {entries : List PointEntry} (hb : builder.Valid) (h : HoldsFinite builder)
    (hc : ∀ e ∈ current, e.tokens ≠ RangeMap.empty) :
    (pushPoints builder current entries).Valid ∧
      HoldsFinite (pushPoints builder current entries) := by
  induction entries generalizing builder current with
  | nil =>
      cases current with
      | none => exact ⟨hb, h⟩
      | some held => exact ⟨(held.get_push hb 0).1, h.push hb (hc held rfl)⟩
  | cons entry entries ih =>
      rw [pushPoints.eq_def]
      dsimp only
      by_cases hempty : entry.tokens.isEmpty = true
      · rw [if_pos hempty]
        exact ih hb h hc
      · have hne : entry.tokens ≠ RangeMap.empty := fun he => hempty (isEmpty_eq_true.mpr he)
        rw [if_neg hempty]
        cases current with
        | none => exact ih hb h (by simpa using hne)
        | some held =>
            by_cases hk : held.tsid = entry.tsid
            · simp only [if_pos hk]
              apply ih hb h
              simpa [shared_token_union_eq] using Weight.union_ne_empty (hc held rfl)
            · simp only [if_neg hk]
              exact ih (held.get_push hb 0).1 (h.push hb (hc held rfl)) (by simpa using hne)

/-- The builder holds nothing from the tsid of the held back entry on. -/
def BelowCurrent (builder : CompactRangeBuilder) : Option PointEntry → Prop
  | some held => ∀ k, held.tsid ≤ k → builder.get k = none
  | none => ∀ k, builder.get k = none

theorem mem_pushPoints {builder : CompactRangeBuilder} {current : Option PointEntry}
    {entries : List PointEntry} (hb : builder.Valid) (hbelow : BelowCurrent builder current)
    (hsorted : (current.toList ++ entries).Pairwise fun a b => a.tsid ≤ b.tsid) (k x : ℕ) :
    (∃ t ∈ (pushPoints builder current entries).get k, x ∈ t) ↔
      (∃ t ∈ builder.get k, x ∈ t) ∨
        ∃ e ∈ current.toList ++ entries, e.tsid = k ∧ x ∈ e.tokens := by
  induction entries generalizing builder current with
  | nil =>
      cases current with
      | none => simp [pushPoints]
      | some held =>
          rw [pushPoints, (held.get_push hb k).2]
          by_cases hk : held.tsid = k
          · simp [hk, hbelow k hk.le]
          · simp [hk]
  | cons entry entries ih =>
      rw [pushPoints.eq_def]
      dsimp only
      by_cases hempty : entry.tokens.isEmpty = true
      · -- An entry without tokens contributes nothing.
        rw [if_pos hempty]
        have hsub : (current.toList ++ entries).Sublist (current.toList ++ entry :: entries) :=
          (List.sublist_cons_self entry entries).append_left _
        rw [ih hb hbelow (hsorted.sublist hsub)]
        have hnone : ¬ (entry.tsid = k ∧ x ∈ entry.tokens) := fun h => by
          rw [isEmpty_eq_true.mp hempty] at h
          exact RangeSet.not_mem_empty x h.2
        simp only [List.mem_append, List.mem_cons, or_and_right, exists_or, exists_eq_left, hnone,
          false_or]
      · rw [if_neg hempty]
        cases current with
        | none => exact ih hb (fun k _ => hbelow k) hsorted
        | some held =>
            have hsorted' : (held :: entry :: entries).Pairwise fun a b => a.tsid ≤ b.tsid := hsorted
            by_cases hk : held.tsid = entry.tsid
            · simp only [if_pos hk]
              rw [@ih builder (some { held with
                tokens := shared_token_union held.tokens entry.tokens }) hb hbelow]
              · simp only [Option.toList_some, List.singleton_append, List.exists_mem_cons_iff,
                  shared_token_union_eq, RangeSet.mem_union, hk, and_or_left, or_assoc]
              · exact List.pairwise_cons.mpr ⟨fun e he => List.rel_of_pairwise_cons hsorted'
                  (List.mem_cons_of_mem _ he), hsorted'.tail.tail⟩
            · simp only [if_neg hk]
              have hlt : held.tsid < entry.tsid :=
                lt_of_le_of_ne (List.rel_of_pairwise_cons hsorted' List.mem_cons_self) hk
              rw [ih (held.get_push hb 0).1]
              · rw [(held.get_push hb k).2]
                simp only [Option.toList_some, List.singleton_append, List.exists_mem_cons_iff]
                by_cases hk' : held.tsid = k
                · simp [hk', hbelow k hk'.le]
                · simp [hk']
              · intro j hj
                rw [(held.get_push hb j).2, if_neg (by omega)]
                exact hbelow j (by omega)
              · exact hsorted'.tail

/-- The points an entry stands for. -/
def PointEntry.Allows (self : PointEntry) (p : Point) : Prop :=
  ∃ x ∈ self.tokens, p = some (self.tsid, x)

namespace Weight

theorem finite_pushPoints (entries : List PointEntry) :
    FiniteMap (pushPoints new none entries).finish := by
  have h := @pushPoints_finite new none entries valid_new
    (fun k t ht => by simp at ht) (by simp)
  apply finite_of_get
  intro k t ht
  rw [get_finish h.1] at ht
  exact h.2 k t ht

def union_sorted_point_entries (entries : List PointEntry) : Weight :=
  ⟨(pushPoints new none entries).finish, Or.inr (finite_pushPoints entries)⟩

theorem mem_union_sorted_point_entries {entries : List PointEntry}
    (hsorted : entries.Pairwise fun a b => a.tsid ≤ b.tsid) {p : Point} :
    p ∈ union_sorted_point_entries entries ↔ ∃ e ∈ entries, e.Allows p := by
  have hfin := finite_pushPoints entries
  cases p with
  | none =>
      simp [none_not_mem_of_finite (union_sorted_point_entries entries) rfl hfin, PointEntry.Allows]
  | some q =>
      obtain ⟨k, x⟩ := q
      have hvalid := (@pushPoints_finite new none entries valid_new
        (fun k t ht => by simp at ht) (by simp)).1
      rw [mem_of_finite_map (union_sorted_point_entries entries) rfl hfin,
        union_sorted_point_entries, get_finish hvalid, @mem_pushPoints new none entries valid_new (fun k => rfl) hsorted]
      simp only [get_new, Option.mem_def, reduceCtorEq, false_and, exists_false, false_or,
        Option.toList_none, List.nil_append, PointEntry.Allows, Option.some.injEq, Prod.mk.injEq]
      apply exists_congr
      intro e
      apply and_congr_right
      intro _
      constructor
      · rintro ⟨rfl, hx⟩
        exact ⟨x, hx, rfl, rfl⟩
      · rintro ⟨y, hy, rfl, rfl⟩
        exact ⟨rfl, hy⟩

/-- The only entry of a weight with a single unreserved tsid. -/
def single_tsid_shared_entry (self : Weight) : Option PointEntry :=
  (single_compact_entry self.map).bind fun entry =>
    if h : entry.lo = entry.hi ∧ entry.lo < u32Max then some ⟨entry.lo, entry.val, h.2⟩ else none

theorem mem_of_single_tsid {w : Weight} {e : PointEntry}
    (h : w.single_tsid_shared_entry = some e) {p : Point} : p ∈ w ↔ e.Allows p := by
  obtain ⟨entry, hentry, he⟩ := Option.bind_eq_some_iff.mp h
  split_ifs at he with hcond
  obtain rfl := Option.some.inj he
  obtain ⟨hruns, hbound, -⟩ := single_compact_entry_spec hentry
  have hne : w ≠ all := by
    rintro rfl
    have hall : [entry] = [⟨u32Max, u32Max, sentinel_token_set⟩] := hruns.symm.trans allMap_runs
    obtain rfl := (List.cons.inj hall).1
    exact absurd hcond.2 (lt_irrefl _)
  cases p with
  | none => simp [none_mem_iff, hne, PointEntry.Allows]
  | some q =>
      obtain ⟨k, x⟩ := q
      rw [mem_iff_of_ne_all hne, RangeMap.get, hruns, lookupRuns_cons, lookupRuns_nil]
      simp only [PointEntry.Allows, Run.Covers, ← hcond.1, Option.some.injEq, Prod.mk.injEq]
      constructor
      · rintro ⟨t, ht, hx⟩
        split_ifs at ht with hk
        · obtain rfl := Option.some.inj ht
          exact ⟨x, hx, by omega, rfl⟩
        · cases ht
      · rintro ⟨y, hy, rfl, rfl⟩
        exact ⟨entry.val, by simp, hy⟩

end Weight

end GlrMask
