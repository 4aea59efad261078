import GlrMask.WeightUnion

/-!
# Uncached difference of weight maps

The left ranges are walked against one shared iterator over the right ranges.
The left operand itself is returned when no range lost a token.
-/

namespace GlrMask

open RangeSet RangeMap CompactRangeBuilder

/-- The part of the row before a range that starts inside it is copied. -/
def copyGap (left : WeightRangeEntry) (cursor lo : ℕ) (builder : CompactRangeBuilder) :
    CompactRangeBuilder :=
  if cursor < lo then builder.push ⟨cursor, min (lo - 1) left.hi, left.val⟩ else builder

/-- The inner loop over one left range, from `cursor` to the range's end. -/
def differenceRow (left : WeightRangeEntry) (cursor : ℕ) (rights : List WeightRangeEntry)
    (builder : CompactRangeBuilder) (same_as_left : Bool) :
    List WeightRangeEntry × CompactRangeBuilder × Bool :=
  if cursor ≤ left.hi then
    match rights with
    | [] => ([], builder.push ⟨cursor, left.hi, left.val⟩, same_as_left)
    | right :: rest =>
        if left.hi < right.lo then
          (right :: rest, builder.push ⟨cursor, left.hi, left.val⟩, same_as_left)
        else if right.hi < cursor then differenceRow left cursor rest builder same_as_left
        else
          let gapped := copyGap left cursor right.lo builder
          let start := if cursor < right.lo then min (right.lo - 1) left.hi + 1 else cursor
          if left.hi < start then (right :: rest, gapped, same_as_left)
          else
            let overlap_end := min left.hi right.hi
            let tokens := shared_token_difference left.val right.val
            let pushed := gapped.pushOrFlush start overlap_end tokens
            let same := same_as_left && decide (tokens = some left.val)
            if right.hi ≤ overlap_end then differenceRow left (overlap_end + 1) rest pushed same
            else differenceRow left (overlap_end + 1) (right :: rest) pushed same
  else (rights, builder, same_as_left)
termination_by rights.length + (left.hi + 1 - cursor)
decreasing_by all_goals simp only [List.length_cons]; omega

def differenceLoop : List WeightRangeEntry → List WeightRangeEntry → CompactRangeBuilder → Bool →
    CompactRangeBuilder × Bool
  | [], _, builder, same_as_left => (builder, same_as_left)
  | left :: lefts, rights, builder, same_as_left =>
      let skipped := rights.dropWhile fun right => right.hi < left.lo
      let row := differenceRow left left.lo skipped builder same_as_left
      differenceLoop lefts row.1 row.2.1 row.2.2

def difference_weights (left right : WeightMap) : WeightMap :=
  let result := differenceLoop left.runs right.runs new true
  if result.2 then left else result.1.finish

/-- What the inner loop leaves behind when it starts at `cursor`. -/
structure RowSpec (left : WeightRangeEntry) (cursor : ℕ) (rights : List WeightRangeEntry)
    (builder : CompactRangeBuilder) (same : Bool)
    (out : List WeightRangeEntry × CompactRangeBuilder × Bool) : Prop where
  ordered : Ordered out.1
  later : ∀ k, left.hi < k → lookupRuns out.1 k = lookupRuns rights k
  valid : out.2.1.Valid
  get : ∀ k, out.2.1.get k =
    if cursor ≤ k ∧ k ≤ left.hi then
      (difference_token_sets (some left.val) (lookupRuns rights k)).or (builder.get k)
    else builder.get k
  same : out.2.2 = true → same = true ∧ ∀ k, cursor ≤ k → k ≤ left.hi →
    difference_token_sets (some left.val) (lookupRuns rights k) = some left.val

/-- No right range reaches the rest of the row, which is copied. -/
theorem RowSpec.rest_uncovered {left : WeightRangeEntry} {cursor : ℕ}
    {rights : List WeightRangeEntry} {builder : CompactRangeBuilder} {same : Bool}
    (ho : Ordered rights) (hb : builder.Valid) (hc : cursor ≤ left.hi) (hM : left.hi ≤ u32Max)
    (hnone : ∀ k, k ≤ left.hi → lookupRuns rights k = none) :
    RowSpec left cursor rights builder same
      (rights, builder.push ⟨cursor, left.hi, left.val⟩, same) where
  ordered := ho
  later k _ := rfl
  valid := valid_push hb hc hM
  get k := by
    rw [get_push hb hc]
    by_cases hk : cursor ≤ k ∧ k ≤ left.hi
    · rw [if_pos (show Run.Covers ⟨cursor, left.hi, left.val⟩ k from hk), if_pos hk,
        hnone k hk.2]
      rfl
    · rw [if_neg (show ¬ Run.Covers ⟨cursor, left.hi, left.val⟩ k from hk), if_neg hk]
  same h := ⟨h, fun k _ hk => by rw [hnone k hk]; rfl⟩

/-- The row from `cursor` on is its part below `next` followed by the row from `next` on. -/
theorem RowSpec.advance {left : WeightRangeEntry} {cursor next : ℕ}
    {rights rights' : List WeightRangeEntry} {builder builder' : CompactRangeBuilder}
    {same same' : Bool} {out : List WeightRangeEntry × CompactRangeBuilder × Bool}
    (h : RowSpec left next rights' builder' same' out) (hcn : cursor ≤ next)
    (hnl : next ≤ left.hi + 1)
    (hlook : ∀ k, next ≤ k → lookupRuns rights' k = lookupRuns rights k)
    (hget : ∀ k, builder'.get k =
      if cursor ≤ k ∧ k < next then
        (difference_token_sets (some left.val) (lookupRuns rights k)).or (builder.get k)
      else builder.get k)
    (hsame : same' = true → same = true ∧ ∀ k, cursor ≤ k → k < next →
      difference_token_sets (some left.val) (lookupRuns rights k) = some left.val) :
    RowSpec left cursor rights builder same out where
  ordered := h.ordered
  later k hk := (h.later k hk).trans (hlook k (by omega))
  valid := h.valid
  get k := by
    rw [h.get]
    by_cases hk : next ≤ k
    · by_cases hle : k ≤ left.hi
      · rw [if_pos ⟨hk, hle⟩, if_pos ⟨hcn.trans hk, hle⟩, hget, if_neg (by omega), hlook k hk]
      · rw [if_neg (by omega), if_neg (by omega), hget, if_neg (by omega)]
    · rw [if_neg (by omega), hget]
      by_cases hc : cursor ≤ k
      · rw [if_pos (by omega), if_pos (by omega)]
      · rw [if_neg (by omega), if_neg (by omega)]
  same hs := by
    obtain ⟨hs', hrest⟩ := h.same hs
    obtain ⟨hs'', hfirst⟩ := hsame hs'
    refine ⟨hs'', fun k h₁ h₂ => ?_⟩
    by_cases hk : next ≤ k
    · rw [← hlook k hk]
      exact hrest k hk h₂
    · exact hfirst k h₁ (by omega)

theorem RowSpec.done {left : WeightRangeEntry} {cursor : ℕ} {rights : List WeightRangeEntry}
    {builder : CompactRangeBuilder} {same : Bool} (ho : Ordered rights) (hb : builder.Valid)
    (hc : left.hi < cursor) : RowSpec left cursor rights builder same (rights, builder, same) where
  ordered := ho
  later _ _ := rfl
  valid := hb
  get k := by rw [if_neg (by omega)]
  same h := ⟨h, fun k h₁ h₂ => by omega⟩

theorem copyGap_spec {left : WeightRangeEntry} {cursor lo : ℕ} {builder : CompactRangeBuilder}
    (hb : builder.Valid) (hlo : lo ≤ left.hi) (hM : left.hi ≤ u32Max) :
    (copyGap left cursor lo builder).Valid ∧ ∀ k, (copyGap left cursor lo builder).get k =
      if cursor ≤ k ∧ k < max cursor lo then some left.val else builder.get k := by
  unfold copyGap
  split_ifs with hc
  · have hle : cursor ≤ min (lo - 1) left.hi := le_min (by omega) (by omega)
    refine ⟨valid_push hb hle ((min_le_right _ _).trans hM), fun k => ?_⟩
    rw [get_push hb hle]
    have hcov : Run.Covers ⟨cursor, min (lo - 1) left.hi, left.val⟩ k ↔
        cursor ≤ k ∧ k < max cursor lo := by
      simp only [Run.Covers]
      omega
    simp only [hcov]
  · refine ⟨hb, fun k => ?_⟩
    rw [if_neg (by omega)]

theorem differenceRow_spec (left : WeightRangeEntry) (hM : left.hi ≤ u32Max) (cursor : ℕ)
    (rights : List WeightRangeEntry) (builder : CompactRangeBuilder) (same : Bool)
    (ho : Ordered rights) (hb : builder.Valid) :
    RowSpec left cursor rights builder same (differenceRow left cursor rights builder same) := by
  induction hn : rights.length + (left.hi + 1 - cursor) using Nat.strong_induction_on
    generalizing cursor rights builder same with
  | _ n ih =>
  rw [differenceRow.eq_def]
  by_cases hc : cursor ≤ left.hi
  swap
  · rw [if_neg hc]
    exact RowSpec.done ho hb (by omega)
  rw [if_pos hc]
  cases rights with
  | nil => exact RowSpec.rest_uncovered ho hb hc hM fun _ _ => rfl
  | cons right rest =>
      have hright := ho.1 right List.mem_cons_self
      dsimp only
      by_cases hlt : left.hi < right.lo
      · rw [if_pos hlt]
        refine RowSpec.rest_uncovered ho hb hc hM fun k hk => ?_
        rw [lookupRuns_cons, if_neg (fun h => by have := h.1; omega),
          ho.lookup_tail_of_le (by omega)]
      rw [if_neg hlt]
      by_cases hlate : right.hi < cursor
      · rw [if_pos hlate]
        refine (ih _ (by subst hn; simp) cursor rest builder same ho.tail hb rfl).advance le_rfl
          (by omega) (fun k hk => ?_) (fun k => ?_) fun h => ⟨h, fun k h₁ h₂ => by omega⟩
        · rw [lookupRuns_cons, if_neg (fun h => by have := h.2; omega)]
        · rw [if_neg (by omega)]
      rw [if_neg hlate]
      -- The gap before `right` is copied, then the overlap loses the tokens of `right`.
      have hstart : (if cursor < right.lo then min (right.lo - 1) left.hi + 1 else cursor) =
          max cursor right.lo := by
        split_ifs <;> omega
      obtain ⟨hgv, hgget⟩ := @copyGap_spec left cursor right.lo builder hb (not_lt.mp hlt) hM
      have hle : max cursor right.lo ≤ min left.hi right.hi := by omega
      have hover : ∀ k, max cursor right.lo ≤ k → k < min left.hi right.hi + 1 →
          lookupRuns (right :: rest) k = some right.val := fun k h₁ h₂ => by
        rw [lookupRuns_cons, if_pos ⟨by omega, by omega⟩]
      have hgap : ∀ k, cursor ≤ k → k < max cursor right.lo →
          lookupRuns (right :: rest) k = none := fun k h₁ h₂ => by
        rw [lookupRuns_cons, if_neg (fun h => by have := h.1; omega),
          ho.lookup_tail_of_le (by omega)]
      rw [hstart, if_neg (by omega)]
      have hpv := valid_pushOrFlush hgv hle (by omega)
        (shared_token_difference left.val right.val)
      have hpget := get_pushOrFlush hgv hle (shared_token_difference left.val right.val)
      have hget : ∀ k, ((copyGap left cursor right.lo builder).pushOrFlush (max cursor right.lo)
          (min left.hi right.hi) (shared_token_difference left.val right.val)).get k =
          if cursor ≤ k ∧ k < min left.hi right.hi + 1 then
            (difference_token_sets (some left.val) (lookupRuns (right :: rest) k)).or
              (builder.get k)
          else builder.get k := fun k => by
        rw [hpget, hgget]
        by_cases hk : max cursor right.lo ≤ k ∧ k ≤ min left.hi right.hi
        · rw [if_pos hk, if_neg (by omega), if_pos (by omega), hover k hk.1 (by omega)]
          rfl
        · rw [if_neg hk]
          by_cases hk' : cursor ≤ k ∧ k < max cursor right.lo
          · rw [if_pos hk', if_pos (by omega), hgap k hk'.1 hk'.2]
            rfl
          · rw [if_neg hk', if_neg (by omega)]
      have hsame : (same && decide (shared_token_difference left.val right.val = some left.val)) =
          true → same = true ∧ ∀ k, cursor ≤ k → k < min left.hi right.hi + 1 →
            difference_token_sets (some left.val) (lookupRuns (right :: rest) k) =
              some left.val := fun h => by
        obtain ⟨hs, hd⟩ := Bool.and_eq_true_iff.mp h
        refine ⟨hs, fun k h₁ h₂ => ?_⟩
        by_cases hk : max cursor right.lo ≤ k
        · rw [hover k hk h₂]
          exact of_decide_eq_true hd
        · rw [hgap k h₁ (by omega)]
          rfl
      split_ifs with hend
      · refine (ih _ ?_ (min left.hi right.hi + 1) rest _ _ ho.tail hpv rfl).advance (by omega)
          (by omega) (fun k hk => ?_) hget hsame
        · subst hn
          simp only [List.length_cons]
          omega
        · rw [lookupRuns_cons, if_neg (fun h => by have := h.2; omega)]
      · refine (ih _ ?_ (min left.hi right.hi + 1) (right :: rest) _ _ ho hpv rfl).advance
          (by omega) (by omega) (fun k hk => rfl) hget hsame
        subst hn
        simp only [List.length_cons]
        omega

/-! ## The difference is pointwise -/

theorem difference_token_sets_none (t : Option TokenSet) : difference_token_sets none t = none := by
  cases t <;> rfl

theorem ordered_dropWhile {l : List WeightRangeEntry} (h : Ordered l)
    (p : WeightRangeEntry → Bool) : Ordered (l.dropWhile p) :=
  ⟨fun r hr => h.1 r ((List.dropWhile_sublist p).subset hr), h.2.sublist (List.dropWhile_sublist p)⟩

/-- Ranges that end before a tsid do not answer for it. -/
theorem lookupRuns_dropWhile (l : List WeightRangeEntry) {lo k : ℕ} (hk : lo ≤ k) :
    lookupRuns (l.dropWhile fun r => r.hi < lo) k = lookupRuns l k := by
  induction l with
  | nil => rfl
  | cons r l ih =>
      rw [List.dropWhile_cons]
      by_cases hr : r.hi < lo
      · rw [if_pos (by simpa using hr), ih, lookupRuns_cons,
          if_neg (fun h => by have := h.2; omega)]
      · rw [if_neg (by simpa using hr)]

theorem differenceLoop_spec {lefts rights : List WeightRangeEntry} {builder : CompactRangeBuilder}
    (same : Bool) (hl : Ordered lefts) (hM : ∀ l ∈ lefts, l.hi ≤ u32Max) (hr : Ordered rights)
    (hb : builder.Valid) :
    (differenceLoop lefts rights builder same).1.Valid ∧
      (∀ k, (differenceLoop lefts rights builder same).1.get k =
        (difference_token_sets (lookupRuns lefts k) (lookupRuns rights k)).or (builder.get k)) ∧
      ((differenceLoop lefts rights builder same).2 = true → same = true ∧ ∀ k,
        difference_token_sets (lookupRuns lefts k) (lookupRuns rights k) = lookupRuns lefts k) := by
  induction lefts generalizing rights builder same with
  | nil =>
      refine ⟨hb, fun k => ?_, fun h => ⟨h, fun k => difference_token_sets_none _⟩⟩
      rw [lookupRuns_nil, difference_token_sets_none]
      rfl
  | cons left lefts ih =>
      have hrow := differenceRow_spec left (hM left List.mem_cons_self) left.lo
        (rights.dropWhile fun right => right.hi < left.lo) builder same (ordered_dropWhile hr _) hb
      have hloop := ih (differenceRow left left.lo
        (rights.dropWhile fun right => right.hi < left.lo) builder same).2.2 hl.tail
        (fun l h => hM l (List.mem_cons_of_mem _ h)) hrow.ordered hrow.valid
      have hlater : ∀ k, left.hi < k → lookupRuns (differenceRow left left.lo
          (rights.dropWhile fun right => right.hi < left.lo) builder same).1 k =
          lookupRuns rights k := fun k hk => by
        have := hl.1 left List.mem_cons_self
        rw [hrow.later k hk, lookupRuns_dropWhile rights (by omega)]
      refine ⟨hloop.1, fun k => ?_, fun hs => ?_⟩
      · rw [differenceLoop, hloop.2.1, hrow.get, lookupRuns_cons]
        by_cases hk : left.Covers k
        · rw [if_pos hk, if_pos (show left.lo ≤ k ∧ k ≤ left.hi from hk),
            hl.lookup_tail_of_le hk.2, difference_token_sets_none,
            lookupRuns_dropWhile rights hk.1]
          rfl
        · rw [if_neg hk, if_neg (show ¬ (left.lo ≤ k ∧ k ≤ left.hi) from hk)]
          by_cases hlt : left.hi < k
          · rw [hlater k hlt]
          · rw [hl.lookup_tail_of_le (by omega), difference_token_sets_none,
              difference_token_sets_none]
      · obtain ⟨hrs, hrest⟩ := hloop.2.2 hs
        obtain ⟨hsame, hfirst⟩ := hrow.same hrs
        refine ⟨hsame, fun k => ?_⟩
        rw [lookupRuns_cons]
        by_cases hk : left.Covers k
        · rw [if_pos hk, ← lookupRuns_dropWhile rights hk.1]
          exact hfirst k hk.1 hk.2
        · rw [if_neg hk]
          by_cases hlt : left.hi < k
          · rw [← hlater k hlt]
            exact hrest k
          · rw [hl.lookup_tail_of_le (by omega), difference_token_sets_none]

theorem get_difference_weights (left right : WeightMap) (k : ℕ) :
    (difference_weights left right).get k =
      difference_token_sets (left.get k) (right.get k) := by
  obtain ⟨hv, hget, hsame⟩ := differenceLoop_spec true left.canonical.ordered left.bounded
    right.canonical.ordered valid_new
  unfold difference_weights
  dsimp only
  split_ifs with h
  · exact ((hsame h).2 k).symm
  · rw [get_finish hv, hget, get_new, Option.or_none]
    rfl

end GlrMask
