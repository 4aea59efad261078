import Mathlib.Data.List.TakeWhile
import GlrMask.WeightDifference

/-!
# Uncached intersection of weight maps

Two single entries are swept over their boundaries, a single entry is clipped
against the other operand, and two longer maps are walked in lockstep. The walk
returns an operand itself when every range of it survived unchanged.
-/

namespace GlrMask

open RangeSet RangeMap CompactRangeBuilder

/-! ## Pushing overlaps -/

namespace CompactRangeBuilder

/-- Push the range of a computed token set; without one the pending range stays open. -/
def pushSome (b : CompactRangeBuilder) (lo hi : ℕ) : Option TokenSet → CompactRangeBuilder
  | some tokens => b.push ⟨lo, hi, tokens⟩
  | none => b

theorem valid_pushSome {b : CompactRangeBuilder} (h : b.Valid) {lo hi : ℕ} (hle : lo ≤ hi)
    (hM : hi ≤ u32Max) (t : Option TokenSet) : (b.pushSome lo hi t).Valid := by
  cases t with
  | none => exact h
  | some t => exact valid_push h hle hM

theorem get_pushSome {b : CompactRangeBuilder} (h : b.Valid) {lo hi : ℕ} (hle : lo ≤ hi)
    (t : Option TokenSet) (k : ℕ) :
    (b.pushSome lo hi t).get k = if lo ≤ k ∧ k ≤ hi then t.or (b.get k) else b.get k := by
  cases t with
  | none => simp [pushSome]
  | some t =>
      rw [pushSome, get_push h hle]
      rfl

end CompactRangeBuilder

/-! ## The operations -/

variable [Runtime]

/-- Drop the head of an entry list once the other side's range ends behind it. -/
def advancePast (hi : ℕ) (entry : WeightRangeEntry) (entries : List WeightRangeEntry) :
    List WeightRangeEntry :=
  if entry.hi ≤ hi then entries else entry :: entries

omit [Runtime] in
theorem length_advancePast (hi : ℕ) (entry : WeightRangeEntry) (entries : List WeightRangeEntry) :
    (advancePast hi entry entries).length =
      if entry.hi ≤ hi then entries.length else entries.length + 1 := by
  unfold advancePast
  split_ifs <;> rfl

/-- Whether the overlap `start..=stop` with tokens `tokens` is the whole of `entry`. -/
def isWhole (entry : WeightRangeEntry) (start stop : ℕ) (tokens : Option TokenSet) : Bool :=
  start = entry.lo && stop = entry.hi && tokens = some entry.val

def intersectLoop : List WeightRangeEntry → List WeightRangeEntry → CompactRangeBuilder →
    Bool → Bool → CompactRangeBuilder × Bool × Bool
  | [], [], builder, same_as_left, same_as_right => (builder, same_as_left, same_as_right)
  | _ :: _, [], builder, _, same_as_right => (builder, false, same_as_right)
  | [], _ :: _, builder, same_as_left, _ => (builder, same_as_left, false)
  | left :: lefts, right :: rights, builder, same_as_left, same_as_right =>
      let start := max left.lo right.lo
      let stop := min left.hi right.hi
      let lefts' := advancePast right.hi left lefts
      let rights' := advancePast left.hi right rights
      if start ≤ stop then
        let tokens := shared_token_intersection left.val right.val
        intersectLoop lefts' rights' (builder.pushSome start stop tokens)
          (same_as_left && isWhole left start stop tokens)
          (same_as_right && isWhole right start stop tokens)
      else if left.hi < right.lo then intersectLoop lefts' rights' builder false same_as_right
      else if right.hi < left.lo then intersectLoop lefts' rights' builder same_as_left false
      else intersectLoop lefts' rights' builder same_as_left same_as_right
termination_by lefts rights => lefts.length + rights.length
decreasing_by
  all_goals
    simp +zetaDelta only [length_advancePast, List.length_cons]
    split_ifs <;> omega

def intersect_weights (left right : WeightMap) : WeightMap :=
  let result := intersectLoop left.runs right.runs new true true
  if result.2.1 then left else if result.2.2 then right else result.1.finish

/-- The part of an entry inside `lo..=hi`. -/
def clipRun (lo hi : ℕ) (entry : WeightRangeEntry) : Option WeightRangeEntry :=
  if max entry.lo lo ≤ min entry.hi hi then some ⟨max entry.lo lo, min entry.hi hi, entry.val⟩
  else none

/-- The token set of the other operand at a single entry's only tsid: the first range is
looked at before the index is searched. -/
def pointTokens (other : WeightMap) (tsid : ℕ) : Option TokenSet :=
  match other.runs with
  | [] => none
  | first :: _ =>
      if first.lo ≤ tsid ∧ tsid ≤ first.hi then some first.val
      else if tsid < first.lo then none
      else other.get tsid

def singleOverlap (single tokens : TokenSet) : Option TokenSet :=
  if single = tokens then some single else shared_token_intersection single tokens

def intersect_single_entry_with_weight (single : WeightRangeEntry) (other : WeightMap) :
    WeightMap :=
  if single.lo = single.hi then
    match (pointTokens other single.lo).bind (singleOverlap single.val) with
    | none => RangeMap.empty
    | some tokens => (new.push ⟨single.lo, single.hi, tokens⟩).finish
  else
    ((other.runs.filterMap (clipRun single.lo single.hi)).foldl (fun builder entry =>
      builder.pushOrFlush entry.lo entry.hi (singleOverlap single.val entry.val)) new).finish

def intersection_uncached_impl (self other : WeightMap) : WeightMap :=
  match single_compact_entry self, single_compact_entry other with
  | some left, some right => combine_single_entries left right intersect_token_sets
  | some single, none => intersect_single_entry_with_weight single other
  | none, some single => intersect_single_entry_with_weight single self
  | none, none => intersect_weights self other

/-- The entries of an index that a sparse range overlaps. -/
def indexed_overlaps (entries : List WeightRangeEntry) (sparse : WeightRangeEntry) :
    List WeightRangeEntry :=
  (entries.dropWhile fun entry => entry.hi < sparse.lo).takeWhile fun entry => entry.lo ≤ sparse.hi

def intersect_weight_with_index (sparse index : WeightMap) : WeightMap :=
  (sparse.runs.foldl (fun builder sparse =>
    (indexed_overlaps index.runs sparse).foldl (fun builder entry =>
      builder.pushSome (max sparse.lo entry.lo) (min sparse.hi entry.hi)
        (shared_token_intersection sparse.val entry.val)) builder) new).finish

/-! ## The lockstep walk -/

@[simp] theorem intersect_token_sets_none_left (t : Option TokenSet) :
    intersect_token_sets none t = none := by
  cases t <;> rfl

@[simp] theorem intersect_token_sets_none_right (t : Option TokenSet) :
    intersect_token_sets t none = none := by
  cases t <;> rfl

omit [Runtime] in
theorem ordered_advancePast {hi : ℕ} {l : WeightRangeEntry} {ls : List WeightRangeEntry}
    (h : Ordered (l :: ls)) : Ordered (advancePast hi l ls) := by
  unfold advancePast
  split_ifs
  · exact h.tail
  · exact h

omit [Runtime] in
theorem lookupRuns_advancePast {hi k : ℕ} {l : WeightRangeEntry} {ls : List WeightRangeEntry}
    (hk : hi < k) : lookupRuns (advancePast hi l ls) k = lookupRuns (l :: ls) k := by
  unfold advancePast
  split_ifs with h
  · rw [lookupRuns_cons, if_neg (fun hc => by have := hc.2; omega)]
  · rfl

omit [Runtime] in
theorem lookupRuns_advancePast_of_le {hi k : ℕ} {l : WeightRangeEntry}
    {ls : List WeightRangeEntry} (h : Ordered (l :: ls)) (hl : l.hi ≤ hi) (hk : k ≤ l.hi) :
    lookupRuns (advancePast hi l ls) k = none := by
  rw [advancePast, if_pos hl, h.lookup_tail_of_le hk]

omit [Runtime] in
theorem bounded_advancePast {hi M : ℕ} {l : WeightRangeEntry} {ls : List WeightRangeEntry}
    (h : ∀ e ∈ l :: ls, e.hi ≤ M) : ∀ e ∈ advancePast hi l ls, e.hi ≤ M := by
  unfold advancePast
  split_ifs
  · exact fun e he => h e (List.mem_cons_of_mem _ he)
  · exact h

/-- The pointwise intersection of two entry lists is that of their heads, and elsewhere that
of what the walk goes on with. -/
theorem intersect_lookup_cons {l r : WeightRangeEntry} {ls rs : List WeightRangeEntry}
    (hl : Ordered (l :: ls)) (hr : Ordered (r :: rs)) (k : ℕ) :
    intersect_token_sets (lookupRuns (l :: ls) k) (lookupRuns (r :: rs) k) =
      if l.Covers k ∧ r.Covers k then shared_token_intersection l.val r.val
      else intersect_token_sets (lookupRuns (advancePast r.hi l ls) k)
        (lookupRuns (advancePast l.hi r rs) k) := by
  by_cases hc : l.Covers k ∧ r.Covers k
  · rw [if_pos hc, lookupRuns_cons, lookupRuns_cons, if_pos hc.1, if_pos hc.2]
    rfl
  rw [if_neg hc]
  by_cases hk : k ≤ min l.hi r.hi
  · have hnone : (lookupRuns (l :: ls) k = none ∨ lookupRuns (r :: rs) k = none) := by
      by_cases hcl : l.Covers k
      · right
        rw [lookupRuns_cons, if_neg (fun h => hc ⟨hcl, h⟩), hr.lookup_tail_of_le (by omega)]
      · left
        rw [lookupRuns_cons, if_neg hcl, hl.lookup_tail_of_le (by omega)]
    have hnone' : lookupRuns (advancePast r.hi l ls) k = none ∨
        lookupRuns (advancePast l.hi r rs) k = none := by
      rcases le_total l.hi r.hi with h | h
      · exact Or.inl (lookupRuns_advancePast_of_le hl h (by omega))
      · exact Or.inr (lookupRuns_advancePast_of_le hr h (by omega))
    rcases hnone with h | h <;> rcases hnone' with h' | h' <;> simp [h, h']
  · rcases le_or_gt k r.hi with hkr | hkr
    · rw [lookupRuns_advancePast (show l.hi < k by omega)]
      unfold advancePast
      split_ifs with hle
      · rw [lookupRuns_cons, if_neg (fun h => by have := h.2; omega)]
      · omega
    · rw [lookupRuns_advancePast hkr]
      unfold advancePast
      split_ifs with hle
      · rw [lookupRuns_cons r, if_neg (fun h => by have := h.2; omega)]
      · rfl

/-- A builder that has taken the overlap of two heads already holds nothing else of them. -/
theorem intersect_lookup_advance_none {l r : WeightRangeEntry} {ls rs : List WeightRangeEntry}
    (hl : Ordered (l :: ls)) (hr : Ordered (r :: rs)) {k : ℕ} (hk : k ≤ min l.hi r.hi) :
    intersect_token_sets (lookupRuns (advancePast r.hi l ls) k)
      (lookupRuns (advancePast l.hi r rs) k) = none := by
  rcases le_total l.hi r.hi with h | h
  · rw [lookupRuns_advancePast_of_le hl h (by omega), intersect_token_sets_none_left]
  · rw [lookupRuns_advancePast_of_le hr h (by omega), intersect_token_sets_none_right]

/-- What the walk over two entry lists leaves in the builder and in the two flags. -/
structure WalkSpec (lefts rights : List WeightRangeEntry) (builder : CompactRangeBuilder)
    (same_left same_right : Bool) (out : CompactRangeBuilder × Bool × Bool) : Prop where
  valid : out.1.Valid
  get : ∀ k, out.1.get k =
    (intersect_token_sets (lookupRuns lefts k) (lookupRuns rights k)).or (builder.get k)
  left : out.2.1 = true → same_left = true ∧ ∀ k,
    intersect_token_sets (lookupRuns lefts k) (lookupRuns rights k) = lookupRuns lefts k
  right : out.2.2 = true → same_right = true ∧ ∀ k,
    intersect_token_sets (lookupRuns lefts k) (lookupRuns rights k) = lookupRuns rights k

omit [Runtime] in
theorem isWhole_eq_true {entry : WeightRangeEntry} {start stop : ℕ} {tokens : Option TokenSet}
    (h : isWhole entry start stop tokens = true) :
    start = entry.lo ∧ stop = entry.hi ∧ tokens = some entry.val := by
  simpa [isWhole, and_assoc] using h

/-- A flag that survives a step without overlap belongs to the side whose head is kept. -/
theorem WalkSpec.skip {l r : WeightRangeEntry} {ls rs : List WeightRangeEntry}
    {builder : CompactRangeBuilder} {sl sr sl' sr' : Bool}
    {out : CompactRangeBuilder × Bool × Bool} (hl : Ordered (l :: ls)) (hr : Ordered (r :: rs))
    (hgap : ¬ max l.lo r.lo ≤ min l.hi r.hi)
    (hsl : sl' = true → sl = true ∧ r.hi < l.hi) (hsr : sr' = true → sr = true ∧ l.hi < r.hi)
    (h : WalkSpec (advancePast r.hi l ls) (advancePast l.hi r rs) builder sl' sr' out) :
    WalkSpec (l :: ls) (r :: rs) builder sl sr out := by
  have heq : ∀ k, intersect_token_sets (lookupRuns (l :: ls) k) (lookupRuns (r :: rs) k) =
      intersect_token_sets (lookupRuns (advancePast r.hi l ls) k)
        (lookupRuns (advancePast l.hi r rs) k) := fun k => by
    rw [intersect_lookup_cons hl hr, if_neg]
    rintro ⟨⟨h₁, h₂⟩, h₃, h₄⟩
    omega
  refine ⟨h.valid, fun k => by rw [heq, h.get], fun ho => ?_, fun ho => ?_⟩
  · obtain ⟨hs, hrest⟩ := h.left ho
    obtain ⟨hs', hlt⟩ := hsl hs
    refine ⟨hs', fun k => ?_⟩
    rw [heq, hrest, advancePast, if_neg (by omega)]
  · obtain ⟨hs, hrest⟩ := h.right ho
    obtain ⟨hs', hlt⟩ := hsr hs
    refine ⟨hs', fun k => ?_⟩
    rw [heq, hrest, advancePast, if_neg (by omega)]

/-- A flag that survives an overlap says that its side's head is the overlap. -/
theorem WalkSpec.overlap {l r : WeightRangeEntry} {ls rs : List WeightRangeEntry}
    {builder : CompactRangeBuilder} {sl sr : Bool} {out : CompactRangeBuilder × Bool × Bool}
    (hl : Ordered (l :: ls)) (hr : Ordered (r :: rs)) (hb : builder.Valid)
    (hover : max l.lo r.lo ≤ min l.hi r.hi)
    (h : WalkSpec (advancePast r.hi l ls) (advancePast l.hi r rs)
      (builder.pushSome (max l.lo r.lo) (min l.hi r.hi) (shared_token_intersection l.val r.val))
      (sl && isWhole l (max l.lo r.lo) (min l.hi r.hi) (shared_token_intersection l.val r.val))
      (sr && isWhole r (max l.lo r.lo) (min l.hi r.hi) (shared_token_intersection l.val r.val))
      out) :
    WalkSpec (l :: ls) (r :: rs) builder sl sr out := by
  have hcov : ∀ k, (l.Covers k ∧ r.Covers k) ↔ max l.lo r.lo ≤ k ∧ k ≤ min l.hi r.hi :=
    fun k => by
      simp only [Run.Covers]
      omega
  refine ⟨h.valid, fun k => ?_, fun ho => ?_, fun ho => ?_⟩
  · rw [h.get, get_pushSome hb hover, intersect_lookup_cons hl hr]
    by_cases hc : l.Covers k ∧ r.Covers k
    · rw [if_pos hc, if_pos ((hcov k).mp hc),
        intersect_lookup_advance_none hl hr ((hcov k).mp hc).2]
      rfl
    · rw [if_neg hc, if_neg (fun h => hc ((hcov k).mpr h))]
  · obtain ⟨hs, hrest⟩ := h.left ho
    obtain ⟨hs', hw⟩ := Bool.and_eq_true_iff.mp hs
    obtain ⟨hlo, hhi, htok⟩ := isWhole_eq_true hw
    refine ⟨hs', fun k => ?_⟩
    rw [intersect_lookup_cons hl hr]
    by_cases hc : l.Covers k
    · rw [if_pos ((hcov k).mpr (by rw [hlo, hhi]; exact hc)), lookupRuns_cons, if_pos hc, htok]
    · rw [if_neg (fun h => hc h.1), hrest, advancePast, if_pos (by omega), lookupRuns_cons,
        if_neg hc]
  · obtain ⟨hs, hrest⟩ := h.right ho
    obtain ⟨hs', hw⟩ := Bool.and_eq_true_iff.mp hs
    obtain ⟨hlo, hhi, htok⟩ := isWhole_eq_true hw
    refine ⟨hs', fun k => ?_⟩
    rw [intersect_lookup_cons hl hr]
    by_cases hc : r.Covers k
    · rw [if_pos ((hcov k).mpr (by rw [hlo, hhi]; exact hc)), lookupRuns_cons, if_pos hc, htok]
    · rw [if_neg (fun h => hc h.2), hrest, advancePast, if_pos (by omega), lookupRuns_cons,
        if_neg hc]

theorem intersectLoop_spec {lefts rights : List WeightRangeEntry} {builder : CompactRangeBuilder}
    (same_left same_right : Bool) (hl : Ordered lefts) (hM : ∀ l ∈ lefts, l.hi ≤ u32Max)
    (hr : Ordered rights) (hb : builder.Valid) :
    WalkSpec lefts rights builder same_left same_right
      (intersectLoop lefts rights builder same_left same_right) := by
  induction lefts, rights, builder, same_left, same_right using intersectLoop.induct with
  | case1 builder sl sr =>
      rw [intersectLoop]
      exact ⟨hb, fun k => rfl, fun h => ⟨h, fun k => rfl⟩, fun h => ⟨h, fun k => rfl⟩⟩
  | case2 l ls builder sl sr =>
      rw [intersectLoop]
      exact ⟨hb, fun k => by simp, fun h => by simp at h, fun h => ⟨h, fun k => by simp⟩⟩
  | case3 r rs builder sl sr =>
      rw [intersectLoop]
      exact ⟨hb, fun k => by simp, fun h => ⟨h, fun k => by simp⟩, fun h => by simp at h⟩
  | case4 left lefts right rights builder sl sr start stop lefts' rights' hle tokens ih =>
      rw [intersectLoop, if_pos hle]
      have hstop : stop ≤ u32Max := (min_le_left _ _).trans (hM left List.mem_cons_self)
      exact WalkSpec.overlap hl hr hb hle (ih (ordered_advancePast hl)
        (bounded_advancePast hM) (ordered_advancePast hr) (valid_pushSome hb hle hstop tokens))
  | case5 left lefts right rights builder sl sr start stop lefts' rights' hle hlt ih =>
      rw [intersectLoop, if_neg hle, if_pos hlt]
      have := hr.1 right List.mem_cons_self
      exact WalkSpec.skip hl hr hle (by simp) (fun h => ⟨h, by omega⟩)
        (ih (ordered_advancePast hl) (bounded_advancePast hM) (ordered_advancePast hr) hb)
  | case6 left lefts right rights builder sl sr start stop lefts' rights' hle hlt hgt ih =>
      rw [intersectLoop, if_neg hle, if_neg hlt, if_pos hgt]
      have := hl.1 left List.mem_cons_self
      exact WalkSpec.skip hl hr hle (fun h => ⟨h, by omega⟩) (by simp)
        (ih (ordered_advancePast hl) (bounded_advancePast hM) (ordered_advancePast hr) hb)
  | case7 left lefts right rights builder sl sr start stop lefts' rights' hle hlt hgt ih =>
      -- Nonempty ranges that do not overlap are apart.
      have := hl.1 left List.mem_cons_self
      have := hr.1 right List.mem_cons_self
      exact absurd (max_le (le_min (by omega) (by omega)) (le_min (by omega) (by omega))) hle

theorem get_intersect_weights (left right : WeightMap) (k : ℕ) :
    (intersect_weights left right).get k =
      intersect_token_sets (left.get k) (right.get k) := by
  have h := intersectLoop_spec true true left.canonical.ordered left.bounded
    right.canonical.ordered valid_new
  unfold intersect_weights
  dsimp only
  split_ifs with hsl hsr
  · exact ((h.left hsl).2 k).symm
  · exact ((h.right hsr).2 k).symm
  · rw [get_finish h.valid, h.get, get_new, Option.or_none]
    rfl

/-! ## A single entry against a map -/

/-- Every token set of the map is nonempty. -/
def NonemptyTokens (m : WeightMap) : Prop := ∀ r ∈ m.runs, r.val ≠ RangeMap.empty

omit [Runtime] in
theorem NonemptyTokens.of_get {m : WeightMap} (h : NonemptyTokens m) {k : ℕ} {t : TokenSet}
    (ht : m.get k = some t) : t ≠ RangeMap.empty := by
  obtain ⟨r, hr, -, rfl⟩ := exists_run_of_get ht
  exact h r hr

theorem singleOverlap_eq {single tokens : TokenSet} (hs : single ≠ RangeMap.empty) :
    singleOverlap single tokens = intersect_token_sets (some single) (some tokens) := by
  unfold singleOverlap
  split_ifs with h
  · subst h
    change _ = shared_token_intersection single single
    rw [shared_token_intersection_eq hs hs, inter_eq_left (isSubset_refl single), nonemptyTokens,
      if_neg hs]
  · rfl

omit [Runtime] in
theorem pointTokens_eq (other : WeightMap) (tsid : ℕ) :
    pointTokens other tsid = other.get tsid := by
  have hord := other.canonical.ordered
  unfold pointTokens
  split
  · rename_i he
    rw [RangeMap.get, he]
    rfl
  · rename_i first rest he
    rw [he] at hord
    split_ifs with h₁ h₂
    · rw [RangeMap.get, he, lookupRuns_cons, if_pos (show first.Covers tsid from h₁)]
    · have := hord.1 first List.mem_cons_self
      rw [RangeMap.get, he, lookupRuns_cons,
        if_neg (show ¬ first.Covers tsid from h₁), hord.lookup_tail_of_le (by omega)]
    · rfl

omit [Runtime] in
theorem clipRun_eq_some {lo hi : ℕ} {e c : WeightRangeEntry} (h : clipRun lo hi e = some c) :
    max e.lo lo ≤ min e.hi hi ∧ c = ⟨max e.lo lo, min e.hi hi, e.val⟩ := by
  unfold clipRun at h
  split_ifs at h with hle
  exact ⟨hle, (Option.some.inj h).symm⟩

omit [Runtime] in
theorem ordered_clip {l : List WeightRangeEntry} (h : Ordered l) (lo hi : ℕ) :
    Ordered (l.filterMap (clipRun lo hi)) := by
  constructor
  · intro c hc
    obtain ⟨e, -, he⟩ := List.mem_filterMap.mp hc
    obtain ⟨hle, rfl⟩ := clipRun_eq_some he
    exact hle
  · rw [List.pairwise_filterMap]
    refine h.2.imp fun {e f} hef c hc d hd => ?_
    obtain ⟨-, rfl⟩ := clipRun_eq_some hc
    obtain ⟨-, rfl⟩ := clipRun_eq_some hd
    simp only [min_lt_iff, lt_max_iff]
    omega

omit [Runtime] in
theorem lookupRuns_clip (l : List WeightRangeEntry) (lo hi k : ℕ) :
    lookupRuns (l.filterMap (clipRun lo hi)) k =
      if lo ≤ k ∧ k ≤ hi then lookupRuns l k else none := by
  induction l with
  | nil => simp
  | cons e l ih =>
      have hcov : Run.Covers ⟨max e.lo lo, min e.hi hi, e.val⟩ k ↔
          e.Covers k ∧ lo ≤ k ∧ k ≤ hi := by
        simp only [Run.Covers]
        omega
      rw [List.filterMap_cons, lookupRuns_cons]
      by_cases hle : max e.lo lo ≤ min e.hi hi
      · rw [clipRun, if_pos hle, lookupRuns_cons, ih]
        simp only [hcov]
        by_cases hk : lo ≤ k ∧ k ≤ hi <;> simp [hk]
      · rw [clipRun, if_neg hle, ih]
        by_cases hk : lo ≤ k ∧ k ≤ hi
        · rw [if_pos hk, if_pos hk, if_neg fun hc => ?_]
          obtain ⟨h₁, h₂⟩ := hcov.mpr ⟨hc, hk⟩
          exact hle (h₁.trans h₂)
        · rw [if_neg hk, if_neg hk]

omit [Runtime] in
/-- Mapping the token sets of ordered entries, where the image may be absent. -/
theorem ordered_filterMap_map {l : List WeightRangeEntry} (h : Ordered l)
    (f : TokenSet → Option TokenSet) :
    Ordered (l.filterMap fun x => (f x.val).map (Run.mk x.lo x.hi)) := by
  constructor
  · intro c hc
    obtain ⟨e, he, hce⟩ := List.mem_filterMap.mp hc
    obtain ⟨t, -, rfl⟩ := Option.map_eq_some_iff.mp hce
    exact h.1 e he
  · rw [List.pairwise_filterMap]
    refine h.2.imp fun {e e'} hlt c hc d hd => ?_
    obtain ⟨t, -, rfl⟩ := Option.map_eq_some_iff.mp hc
    obtain ⟨t', -, rfl⟩ := Option.map_eq_some_iff.mp hd
    exact hlt

omit [Runtime] in
theorem lookupRuns_filterMap_map {l : List WeightRangeEntry} (h : Ordered l)
    (f : TokenSet → Option TokenSet) (k : ℕ) :
    lookupRuns (l.filterMap fun x => (f x.val).map (Run.mk x.lo x.hi)) k =
      (lookupRuns l k).bind f := by
  induction l with
  | nil => rfl
  | cons e l ih =>
      rw [List.filterMap_cons, lookupRuns_cons]
      cases hf : f e.val with
      | none =>
          rw [Option.map_none, ih h.tail]
          by_cases hc : e.Covers k
          · rw [if_pos hc, h.lookup_tail_of_le hc.2, Option.bind_some, hf]
            rfl
          · rw [if_neg hc]
      | some t =>
          rw [Option.map_some, lookupRuns_cons, ih h.tail]
          by_cases hc : e.Covers k
          · rw [if_pos (show Run.Covers ⟨e.lo, e.hi, t⟩ k from hc), if_pos hc, Option.bind_some, hf]
          · rw [if_neg (show ¬ Run.Covers ⟨e.lo, e.hi, t⟩ k from hc), if_neg hc]

theorem get_intersect_single_entry_with_weight {single : WeightRangeEntry} {other : WeightMap}
    (hle : single.lo ≤ single.hi) (hM : single.hi ≤ u32Max)
    (hne : single.val ≠ RangeMap.empty) (k : ℕ) :
    (intersect_single_entry_with_weight single other).get k =
      intersect_token_sets (tokensAt single k) (other.get k) := by
  have hbind : ∀ o : Option TokenSet, o.bind (singleOverlap single.val) =
      intersect_token_sets (some single.val) o := fun o => by
    cases o with
    | none => rfl
    | some t => exact singleOverlap_eq hne
  unfold intersect_single_entry_with_weight
  split_ifs with hpt
  · have hk : (tokensAt single k = none ∧ ¬ (single.lo ≤ k ∧ k ≤ single.hi)) ∨
        (tokensAt single k = some single.val ∧ k = single.lo ∧ k ≤ single.hi) := by
      unfold tokensAt
      split_ifs with h
      · exact Or.inr ⟨rfl, by omega, h.2⟩
      · exact Or.inl ⟨rfl, h⟩
    rw [pointTokens_eq, hbind]
    cases he : intersect_token_sets (some single.val) (other.get single.lo) with
    | none =>
        rcases hk with ⟨h, -⟩ | ⟨h, rfl, -⟩
        · simp [h]
        · rw [h, he, get_empty]
    | some tokens =>
        have hpush := get_push valid_new (e := ⟨single.lo, single.hi, tokens⟩) hle k
        simp only [get_finish (valid_push valid_new
          (e := ⟨single.lo, single.hi, tokens⟩) hle hM), hpush, get_new]
        rcases hk with ⟨h, hn⟩ | ⟨h, rfl, hh⟩
        · rw [h, if_neg (show ¬ Run.Covers ⟨single.lo, single.hi, tokens⟩ k from hn),
            intersect_token_sets_none_left]
        · rw [h, he, if_pos (show Run.Covers ⟨single.lo, single.hi, tokens⟩ single.lo from
            ⟨le_rfl, hh⟩)]
  · have hord := ordered_clip other.canonical.ordered single.lo single.hi
    have hfit : ∀ x ∈ other.runs.filterMap (clipRun single.lo single.hi),
        x.lo ≤ x.hi ∧ x.hi ≤ u32Max := fun x hx => by
      obtain ⟨e, -, he⟩ := List.mem_filterMap.mp hx
      obtain ⟨hc, rfl⟩ := clipRun_eq_some he
      exact ⟨hc, (min_le_right _ _).trans hM⟩
    obtain ⟨hv, hget⟩ := foldl_pushOrFlush (fun x : WeightRangeEntry => x.lo) (fun x => x.hi)
      (fun x => singleOverlap single.val x.val) _ hfit valid_new
    rw [get_finish hv, hget, get_new, Option.or_none,
      (ordered_filterMap_map hord _).lookupRuns_reverse, lookupRuns_filterMap_map hord,
      lookupRuns_clip, hbind, tokensAt]
    by_cases hk : single.lo ≤ k ∧ k ≤ single.hi
    · rw [if_pos hk, if_pos hk]
      rfl
    · rw [if_neg hk, if_neg hk, intersect_token_sets_none_left, intersect_token_sets_none_right]

/-! ## The intersection is pointwise -/

theorem intersect_token_sets_comm {x y : Option TokenSet} (hx : ∀ t, x = some t → t ≠ RangeMap.empty)
    (hy : ∀ t, y = some t → t ≠ RangeMap.empty) :
    intersect_token_sets x y = intersect_token_sets y x := by
  cases x with
  | none => simp
  | some s =>
      cases y with
      | none => simp
      | some t =>
          have hinter : inter s t = inter t s := ext_mem fun k => by simp [and_comm]
          change shared_token_intersection s t = shared_token_intersection t s
          rw [shared_token_intersection_eq (hx s rfl) (hy t rfl),
            shared_token_intersection_eq (hy t rfl) (hx s rfl), hinter]

theorem get_intersection_uncached_impl {self other : WeightMap} (hs : NonemptyTokens self)
    (ho : NonemptyTokens other) (k : ℕ) :
    (intersection_uncached_impl self other).get k =
      intersect_token_sets (self.get k) (other.get k) := by
  unfold intersection_uncached_impl
  split
  · rename_i left right hl hr
    obtain ⟨-, hfl, hgl⟩ := single_compact_entry_spec hl
    obtain ⟨-, hfr, hgr⟩ := single_compact_entry_spec hr
    rw [get_combine_single_entries hfl hfr rfl, hgl, hgr]
  · rename_i single hl hr
    obtain ⟨hruns, ⟨hle, hM⟩, hget⟩ := single_compact_entry_spec hl
    rw [get_intersect_single_entry_with_weight hle hM (hs single (by simp [hruns])), hget]
  · rename_i single hl hr
    obtain ⟨hruns, ⟨hle, hM⟩, hget⟩ := single_compact_entry_spec hr
    rw [get_intersect_single_entry_with_weight hle hM (ho single (by simp [hruns])), ← hget,
      intersect_token_sets_comm (fun _ h => ho.of_get h) fun _ h => hs.of_get h]
  · exact get_intersect_weights self other k

/-! ## Intersection through an index -/

omit [Runtime] in
theorem lookupRuns_takeWhile {l : List WeightRangeEntry} (h : Ordered l) {hi k : ℕ} (hk : k ≤ hi) :
    lookupRuns (l.takeWhile fun e => e.lo ≤ hi) k = lookupRuns l k := by
  induction l with
  | nil => rfl
  | cons e l ih =>
      rw [List.takeWhile_cons]
      by_cases he : e.lo ≤ hi
      · rw [if_pos (by simpa using he), lookupRuns_cons, lookupRuns_cons, ih h.tail]
      · have := h.1 e List.mem_cons_self
        rw [if_neg (by simpa using he), lookupRuns_cons,
          if_neg (fun hc => by have := hc.1; omega), h.lookup_tail_of_le (by omega)]
        rfl

omit [Runtime] in
theorem indexed_overlaps_spec {entries : List WeightRangeEntry} (h : Ordered entries)
    (sparse : WeightRangeEntry) :
    Ordered (indexed_overlaps entries sparse) ∧
      (∀ e ∈ indexed_overlaps entries sparse, sparse.lo ≤ e.hi ∧ e.lo ≤ sparse.hi) ∧
      ∀ k, sparse.Covers k →
        lookupRuns (indexed_overlaps entries sparse) k = lookupRuns entries k := by
  have hd := ordered_dropWhile h fun entry => decide (entry.hi < sparse.lo)
  have hlate : ∀ (l : List WeightRangeEntry), Ordered l →
      ∀ e ∈ l.dropWhile fun entry => decide (entry.hi < sparse.lo), sparse.lo ≤ e.hi := by
    intro l hl
    induction l with
    | nil => simp
    | cons e l ih =>
        rw [List.dropWhile_cons]
        split_ifs with he
        · exact ih hl.tail
        · intro e' he'
          simp only [decide_eq_true_eq, not_lt] at he
          rcases List.mem_cons.mp he' with rfl | hmem
          · exact he
          · have hlt : e.hi < e'.lo := List.rel_of_pairwise_cons hl.2 hmem
            have := hl.1 e' (List.mem_cons_of_mem _ hmem)
            omega
  refine ⟨⟨fun e he => hd.1 e ((List.takeWhile_sublist _).subset he),
    hd.2.sublist (List.takeWhile_sublist _)⟩, fun e he => ⟨?_, ?_⟩, fun k hk => ?_⟩
  · exact hlate entries h e ((List.takeWhile_sublist _).subset he)
  · simpa using List.mem_takeWhile_imp he
  · rw [indexed_overlaps, lookupRuns_takeWhile hd hk.2, lookupRuns_dropWhile entries hk.1]

theorem foldl_pushSome_overlaps {l : List WeightRangeEntry} {sparse : WeightRangeEntry}
    (hl : Ordered l) (hover : ∀ e ∈ l, sparse.lo ≤ e.hi ∧ e.lo ≤ sparse.hi)
    (hsp : sparse.lo ≤ sparse.hi) (hM : sparse.hi ≤ u32Max) {b : CompactRangeBuilder}
    (hb : b.Valid) :
    (l.foldl (fun b e => b.pushSome (max sparse.lo e.lo) (min sparse.hi e.hi)
        (shared_token_intersection sparse.val e.val)) b).Valid ∧
      ∀ k, (l.foldl (fun b e => b.pushSome (max sparse.lo e.lo) (min sparse.hi e.hi)
          (shared_token_intersection sparse.val e.val)) b).get k =
        if sparse.Covers k then
          (intersect_token_sets (some sparse.val) (lookupRuns l k)).or (b.get k)
        else b.get k := by
  induction l generalizing b with
  | nil => exact ⟨hb, fun k => by simp⟩
  | cons e l ih =>
      have he := hl.1 e List.mem_cons_self
      have hoe := hover e List.mem_cons_self
      have hle : max sparse.lo e.lo ≤ min sparse.hi e.hi := by omega
      obtain ⟨hv, hget⟩ := ih hl.tail (fun e' h' => hover e' (List.mem_cons_of_mem _ h'))
        (valid_pushSome hb hle (by omega) (shared_token_intersection sparse.val e.val))
      refine ⟨hv, fun k => ?_⟩
      rw [List.foldl_cons, hget, get_pushSome hb hle, lookupRuns_cons]
      by_cases hk : sparse.Covers k
      · rw [if_pos hk, if_pos hk]
        have hiff : (max sparse.lo e.lo ≤ k ∧ k ≤ min sparse.hi e.hi) ↔ e.Covers k := by
          have := hk.1
          have := hk.2
          simp only [Run.Covers]
          omega
        simp only [hiff]
        by_cases hc : e.Covers k
        · rw [if_pos hc, if_pos hc, hl.lookup_tail_of_le hc.2, intersect_token_sets_none_right]
          rfl
        · rw [if_neg hc, if_neg hc]
      · rw [if_neg hk, if_neg hk, if_neg]
        rintro ⟨h₁, h₂⟩
        exact hk ⟨by omega, by omega⟩

theorem foldl_indexed_spec {l entries : List WeightRangeEntry} (hl : Ordered l)
    (hM : ∀ e ∈ l, e.hi ≤ u32Max) (he : Ordered entries) {b : CompactRangeBuilder}
    (hb : b.Valid) :
    (l.foldl (fun b sparse => (indexed_overlaps entries sparse).foldl (fun b e =>
        b.pushSome (max sparse.lo e.lo) (min sparse.hi e.hi)
          (shared_token_intersection sparse.val e.val)) b) b).Valid ∧
      ∀ k, (l.foldl (fun b sparse => (indexed_overlaps entries sparse).foldl (fun b e =>
          b.pushSome (max sparse.lo e.lo) (min sparse.hi e.hi)
            (shared_token_intersection sparse.val e.val)) b) b).get k =
        (intersect_token_sets (lookupRuns l k) (lookupRuns entries k)).or (b.get k) := by
  induction l generalizing b with
  | nil => exact ⟨hb, fun k => by simp⟩
  | cons s l ih =>
      obtain ⟨ho, hover, hlook⟩ := indexed_overlaps_spec he s
      obtain ⟨hv, hget⟩ := foldl_pushSome_overlaps ho hover (hl.1 s List.mem_cons_self)
        (hM s List.mem_cons_self) hb
      obtain ⟨hv', hget'⟩ := ih hl.tail (fun e h => hM e (List.mem_cons_of_mem _ h)) hv
      refine ⟨hv', fun k => ?_⟩
      rw [List.foldl_cons, hget', hget, lookupRuns_cons]
      by_cases hk : s.Covers k
      · rw [if_pos hk, if_pos hk, hlook k hk, hl.lookup_tail_of_le hk.2,
          intersect_token_sets_none_left]
        rfl
      · rw [if_neg hk, if_neg hk]

theorem get_intersect_weight_with_index (sparse index : WeightMap) (k : ℕ) :
    (intersect_weight_with_index sparse index).get k =
      intersect_token_sets (sparse.get k) (index.get k) := by
  obtain ⟨hv, hget⟩ := foldl_indexed_spec sparse.canonical.ordered sparse.bounded
    index.canonical.ordered valid_new
  rw [intersect_weight_with_index, get_finish hv, hget, get_new, Option.or_none]
  rfl

end GlrMask
