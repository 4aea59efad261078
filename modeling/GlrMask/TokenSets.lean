import GlrMask.RangeSet

/-!
# Shared token sets

The operations on interned token sets: a result that equals an operand is that
operand, and an empty intersection or difference is reported as `none`. Equal
token sets share one allocation, so an allocation is identified with its value.
-/

namespace GlrMask

def u32Max : ℕ := 4294967295

abbrev TokenSet := RangeSet u32Max

def saturatingAdd (a b : ℕ) : ℕ := min (a + b) u32Max

/-- The three implementations selected by `GLRMASK_EXPERIMENT_TOKEN_INTERSECTION`. -/
inductive TokenIntersectionMode
  | legacy
  | memo
  | sweep
deriving DecidableEq

def tokenIntersectionMode : Option String → TokenIntersectionMode
  | none => .sweep
  | some "sweep" => .sweep
  | some "memo" => .memo
  | some _ => .legacy

/-- What the operations depend on beside their operands: the experiment setting, and the
order in which a hash map is iterated or a sort by address leaves its elements. -/
class Runtime where
  intersectionMode : TokenIntersectionMode
  reorder : {α : Type} → List α → List α
  reorder_perm : ∀ {α : Type} (l : List α), (reorder l).Perm l

/-- The default setting, with every hash map iterated in insertion order. -/
@[reducible] def Runtime.default : Runtime := ⟨.sweep, id, fun _ => .refl _⟩

open RangeSet RangeMap

/-! ## Union -/

def shared_token_union (left right : TokenSet) : TokenSet :=
  if left = right ∨ isSubset left right then right
  else if isSubset right left then left
  else union left right

theorem shared_token_union_eq (left right : TokenSet) :
    shared_token_union left right = union left right := by
  unfold shared_token_union
  split_ifs with h h'
  · rcases h with rfl | h
    · exact ext_mem fun k => by simp
    · rw [isSubset_iff] at h
      exact ext_mem fun k => by simpa using h k
  · rw [isSubset_iff] at h'
    exact ext_mem fun k => by simpa using h' k
  · rfl

def lexLe (a b : ℕ × ℕ) : Prop := a.1 < b.1 ∨ a.1 = b.1 ∧ a.2 ≤ b.2

instance (a b : ℕ × ℕ) : Decidable (lexLe a b) := inferInstanceAs (Decidable (_ ∨ _))

/-- Merge start-sorted ranges into the pending range `current` as far as they touch it. -/
def mergeRanges (current : ℕ × ℕ) : List (ℕ × ℕ) → List (ℕ × ℕ)
  | [] => [current]
  | (start, stop) :: ranges =>
      if start ≤ saturatingAdd current.2 1 then
        mergeRanges (current.1, max current.2 stop) ranges
      else current :: mergeRanges (start, stop) ranges

def toRun (p : ℕ × ℕ) : Run Unit := ⟨p.1, p.2, ()⟩

/-- The ranges of a family of token sets, sorted by their start. -/
def sortedRanges (tokens : List TokenSet) : List (ℕ × ℕ) :=
  (tokens.flatMap fun t => t.runs.map fun r => (r.lo, r.hi)).insertionSort lexLe

def shared_token_union_many : List TokenSet → Option TokenSet
  | [] => none
  | [tokens] => some tokens
  | [left, right] => some (shared_token_union left right)
  | tokens =>
      match sortedRanges tokens with
      | [] => none
      | first :: ranges => some (ofRanges u32Max ((mergeRanges first ranges).map toRun))

theorem mergeRanges_covers {current : ℕ × ℕ} {l : List (ℕ × ℕ)} {k : ℕ}
    (hc : current.1 ≤ current.2) (hl : ∀ p ∈ l, current.1 ≤ p.1 ∧ p.1 ≤ p.2 ∧ p.1 ≤ u32Max)
    (hs : l.Pairwise (fun p q => p.1 ≤ q.1)) :
    (∃ p ∈ mergeRanges current l, p.1 ≤ k ∧ k ≤ p.2) ↔
      ∃ p ∈ current :: l, p.1 ≤ k ∧ k ≤ p.2 := by
  induction l generalizing current with
  | nil => simp [mergeRanges]
  | cons p l ih =>
      obtain ⟨hcp, hp, hM⟩ := hl p List.mem_cons_self
      have htl : ∀ q ∈ l, p.1 ≤ q.1 ∧ q.1 ≤ q.2 ∧ q.1 ≤ u32Max := fun q hq =>
        ⟨List.rel_of_pairwise_cons hs hq, (hl q (List.mem_cons_of_mem _ hq)).2⟩
      simp only [mergeRanges]
      split_ifs with ht
      · have htouch : p.1 ≤ current.2 + 1 := ht.trans (min_le_left _ _)
        have hih := @ih (current.1, max current.2 p.2) (le_max_of_le_left hc)
          (fun q hq => ⟨hcp.trans (htl q hq).1, (htl q hq).2⟩) hs.tail
        rw [hih]
        simp only [List.exists_mem_cons_iff, ← or_assoc]
        refine or_congr ?_ Iff.rfl
        simp only [le_max_iff]
        omega
      · rw [List.exists_mem_cons_iff, ih hp htl hs.tail]
        simp only [List.exists_mem_cons_iff]

theorem mergeRanges_fits {current : ℕ × ℕ} {l : List (ℕ × ℕ)}
    (h : ∀ p ∈ current :: l, p.1 ≤ p.2 ∧ p.2 ≤ u32Max) :
    ∀ p ∈ mergeRanges current l, p.1 ≤ p.2 ∧ p.2 ≤ u32Max := by
  induction l generalizing current with
  | nil => simpa [mergeRanges] using h
  | cons p l ih =>
      obtain ⟨hc, hcM⟩ := h current List.mem_cons_self
      obtain ⟨hp, hpM⟩ := h p (List.mem_cons_of_mem _ List.mem_cons_self)
      have htl : ∀ q ∈ l, q.1 ≤ q.2 ∧ q.2 ≤ u32Max := fun q hq =>
        h q (List.mem_cons_of_mem _ (List.mem_cons_of_mem _ hq))
      simp only [mergeRanges]
      split_ifs
      · apply ih
        intro q hq
        rcases List.mem_cons.mp hq with rfl | hq
        · exact ⟨le_max_of_le_left hc, max_le hcM hpM⟩
        · exact htl q hq
      · intro q hq
        rcases List.mem_cons.mp hq with rfl | hq
        · exact ⟨hc, hcM⟩
        · refine ih ?_ q hq
          intro w hw
          rcases List.mem_cons.mp hw with rfl | hw
          · exact ⟨hp, hpM⟩
          · exact htl w hw

theorem lexLe_sorted (l : List (ℕ × ℕ)) :
    (l.insertionSort lexLe).Pairwise (fun p q => p.1 ≤ q.1) := by
  have htotal : Std.Total lexLe := ⟨fun a b => by unfold lexLe; omega⟩
  have htrans : IsTrans _ lexLe := ⟨fun a b c => by unfold lexLe; omega⟩
  exact (List.pairwise_insertionSort lexLe l).imp fun h => by unfold lexLe at h; omega

theorem mem_sortedRanges {l : List TokenSet} {p : ℕ × ℕ} :
    p ∈ sortedRanges l ↔ ∃ t ∈ l, ∃ r ∈ t.runs, (r.lo, r.hi) = p := by
  simp [sortedRanges, List.mem_flatMap]

theorem sortedRanges_covers {l : List TokenSet} {k : ℕ} :
    (∃ p ∈ sortedRanges l, p.1 ≤ k ∧ k ≤ p.2) ↔ ∃ t ∈ l, k ∈ t := by
  constructor
  · rintro ⟨p, hp, hk⟩
    obtain ⟨t, ht, r, hr, rfl⟩ := mem_sortedRanges.mp hp
    exact ⟨t, ht, mem_iff_exists_run.mpr ⟨r, hr, hk⟩⟩
  · rintro ⟨t, ht, hk⟩
    obtain ⟨r, hr, hc⟩ := mem_iff_exists_run.mp hk
    exact ⟨(r.lo, r.hi), mem_sortedRanges.mpr ⟨t, ht, r, hr, rfl⟩, hc⟩

theorem sortedRanges_fits {l : List TokenSet} :
    ∀ p ∈ sortedRanges l, p.1 ≤ p.2 ∧ p.2 ≤ u32Max := by
  intro p hp
  obtain ⟨t, -, r, hr, rfl⟩ := mem_sortedRanges.mp hp
  exact ⟨t.canonical.1 r hr, t.bounded r hr⟩

theorem mem_ofRanges_mergeRanges {l : List TokenSet} {first : ℕ × ℕ} {ranges : List (ℕ × ℕ)}
    (h : sortedRanges l = first :: ranges) {k : ℕ} :
    k ∈ ofRanges u32Max ((mergeRanges first ranges).map toRun) ↔ ∃ t ∈ l, k ∈ t := by
  have hfits : ∀ p ∈ first :: ranges, p.1 ≤ p.2 ∧ p.2 ≤ u32Max := h ▸ sortedRanges_fits
  have hsorted : (first :: ranges).Pairwise (fun p q => p.1 ≤ q.1) := h ▸ lexLe_sorted _
  have hmem : Fits u32Max ((mergeRanges first ranges).map toRun) := by
    intro r hr
    obtain ⟨p, hp, rfl⟩ := List.mem_map.mp hr
    exact mergeRanges_fits hfits p hp
  have hstep : ∀ p ∈ ranges, first.1 ≤ p.1 ∧ p.1 ≤ p.2 ∧ p.1 ≤ u32Max := fun p hp => by
    obtain ⟨hle, hM⟩ := hfits p (List.mem_cons_of_mem _ hp)
    exact ⟨List.rel_of_pairwise_cons hsorted hp, hle, hle.trans hM⟩
  have hcov := mergeRanges_covers (k := k) (hfits first List.mem_cons_self).1 hstep hsorted.tail
  rw [mem_ofRanges hmem, ← sortedRanges_covers, h, ← hcov]
  simp [Run.Covers, toRun]

theorem mem_shared_token_union_many {l : List TokenSet} {t : TokenSet}
    (h : shared_token_union_many l = some t) {k : ℕ} : k ∈ t ↔ ∃ s ∈ l, k ∈ s := by
  match l with
  | [] => simp [shared_token_union_many] at h
  | [s] => simp_all [shared_token_union_many]
  | [s, s'] =>
      rw [shared_token_union_many, Option.some.injEq] at h
      rw [← h, shared_token_union_eq]
      simp
  | s :: s' :: s'' :: l =>
      cases he : sortedRanges (s :: s' :: s'' :: l) with
      | nil => simp [shared_token_union_many, he] at h
      | cons first ranges =>
          simp only [shared_token_union_many, he, Option.some.injEq] at h
          rw [← h, mem_ofRanges_mergeRanges he]

theorem shared_token_union_many_ne_none {l : List TokenSet} {s : TokenSet} (hs : s ∈ l)
    (hne : s ≠ RangeMap.empty) : shared_token_union_many l ≠ none := by
  match l with
  | [] => simp at hs
  | [_] => simp [shared_token_union_many]
  | [_, _] => simp [shared_token_union_many]
  | a :: b :: c :: l =>
      obtain ⟨k, hk⟩ := ne_empty_iff.mp hne
      obtain ⟨p, hp, -⟩ := sortedRanges_covers.mpr ⟨s, hs, hk⟩
      cases he : sortedRanges (a :: b :: c :: l) with
      | nil => simp [he] at hp
      | cons first ranges => simp [shared_token_union_many, he]

/-! ## Intersection -/

/-- Record the overlap `start..=stop`, if there is one, in front of the later overlaps. -/
def emitOverlap (start stop : ℕ) (rest : List (Run Unit) × ℕ) : List (Run Unit) × ℕ :=
  if start ≤ stop then (⟨start, stop, ()⟩ :: rest.1, (stop - start + 1) + rest.2) else rest

/-- One merge pass over two canonical interval sequences, with the size of the overlap. -/
def intersectRanges : List (Run Unit) → List (Run Unit) → List (Run Unit) × ℕ
  | [], _ => ([], 0)
  | _ :: _, [] => ([], 0)
  | l :: ls, r :: rs =>
      emitOverlap (max l.lo r.lo) (min l.hi r.hi)
        (if l.hi ≤ r.hi then
          if r.hi ≤ l.hi then intersectRanges ls rs else intersectRanges ls (r :: rs)
        else intersectRanges (l :: ls) rs)
termination_by ls rs => ls.length + rs.length

def intersect_token_ranges_once (left right : TokenSet) : TokenSet :=
  let (ranges, cardinality) := intersectRanges left.runs right.runs
  if cardinality = left.len then left
  else if cardinality = right.len then right
  else if cardinality = 0 then RangeMap.empty
  else ofRanges u32Max ranges

def shared_token_intersection_legacy (left right : TokenSet) : Option TokenSet :=
  if left = right ∨ isSubset left right then some left
  else if isSubset right left then some right
  else
    let result := inter left right
    if result.isEmpty then none else some result

def shared_token_intersection_cached (single_pass : Bool) (left right : TokenSet) :
    Option TokenSet :=
  if left = right ∨ left.isEmpty then some left
  else if right.isEmpty then some right
  else
    let result :=
      if single_pass then intersect_token_ranges_once left right
      else if left.len ≤ right.len ∧ isSubset left right then left
      else if right.len ≤ left.len ∧ isSubset right left then right
      else inter left right
    if result.isEmpty then none else some result

def shared_token_intersection [Runtime] (left right : TokenSet) : Option TokenSet :=
  match Runtime.intersectionMode with
  | .memo => shared_token_intersection_cached false left right
  | .sweep => shared_token_intersection_cached true left right
  | .legacy => shared_token_intersection_legacy left right

/-- `out` lists the overlaps of two ordered interval sequences, with their total size. -/
structure IsOverlap (ls rs : List (Run Unit)) (out : List (Run Unit) × ℕ) : Prop where
  ordered : Ordered out.1
  size : out.2 = runsLen out.1
  left : ∀ o ∈ out.1, ∃ l ∈ ls, l.lo ≤ o.lo ∧ o.hi ≤ l.hi
  right : ∀ o ∈ out.1, ∃ r ∈ rs, r.lo ≤ o.lo ∧ o.hi ≤ r.hi
  covers : ∀ k, (∃ l ∈ ls, l.Covers k) → (∃ r ∈ rs, r.Covers k) → ∃ o ∈ out.1, o.Covers k

theorem IsOverlap.emit {l r : Run Unit} {ls rs ls' rs' : List (Run Unit)}
    {rest : List (Run Unit) × ℕ} (h : IsOverlap ls' rs' rest)
    (hls : ∀ x ∈ ls', x ∈ l :: ls) (hrs : ∀ x ∈ rs', x ∈ r :: rs)
    (hafter : ∀ o ∈ rest.1, min l.hi r.hi < o.lo)
    (hkeep : ∀ k, (∃ x ∈ l :: ls, x.Covers k) → (∃ x ∈ r :: rs, x.Covers k) →
      l.Covers k ∧ r.Covers k ∨ (∃ x ∈ ls', x.Covers k) ∧ ∃ x ∈ rs', x.Covers k) :
    IsOverlap (l :: ls) (r :: rs) (emitOverlap (max l.lo r.lo) (min l.hi r.hi) rest) := by
  have hleft : ∀ o ∈ rest.1, ∃ x ∈ l :: ls, x.lo ≤ o.lo ∧ o.hi ≤ x.hi := fun o ho => by
    obtain ⟨x, hx, hb⟩ := h.left o ho
    exact ⟨x, hls x hx, hb⟩
  have hright : ∀ o ∈ rest.1, ∃ x ∈ r :: rs, x.lo ≤ o.lo ∧ o.hi ≤ x.hi := fun o ho => by
    obtain ⟨x, hx, hb⟩ := h.right o ho
    exact ⟨x, hrs x hx, hb⟩
  unfold emitOverlap
  split_ifs with hle
  · refine ⟨⟨?_, List.pairwise_cons.mpr ⟨hafter, h.ordered.2⟩⟩, ?_, ?_, ?_, ?_⟩
    · intro o ho
      rcases List.mem_cons.mp ho with rfl | ho
      · exact hle
      · exact h.ordered.1 o ho
    · simp only [runsLen, List.map_cons, List.sum_cons]
      have := h.size
      unfold runsLen at this
      omega
    · intro o ho
      rcases List.mem_cons.mp ho with rfl | ho
      · exact ⟨l, List.mem_cons_self, le_max_left _ _, min_le_left _ _⟩
      · exact hleft o ho
    · intro o ho
      rcases List.mem_cons.mp ho with rfl | ho
      · exact ⟨r, List.mem_cons_self, le_max_right _ _, min_le_right _ _⟩
      · exact hright o ho
    · intro k hl hr
      rcases hkeep k hl hr with ⟨hcl, hcr⟩ | ⟨hl', hr'⟩
      · exact ⟨_, List.mem_cons_self, max_le hcl.1 hcr.1, le_min hcl.2 hcr.2⟩
      · obtain ⟨o, ho, hc⟩ := h.covers k hl' hr'
        exact ⟨o, List.mem_cons_of_mem _ ho, hc⟩
  · refine ⟨h.ordered, h.size, hleft, hright, fun k hl hr => ?_⟩
    rcases hkeep k hl hr with ⟨hcl, hcr⟩ | ⟨hl', hr'⟩
    · exact absurd ((max_le hcl.1 hcr.1).trans (le_min hcl.2 hcr.2)) hle
    · exact h.covers k hl' hr'

/-- A key covered behind an ordered list's head lies past that head. -/
theorem Ordered.lt_of_covers_tail {r : Run V} {l : List (Run V)} (h : Ordered (r :: l)) {k : ℕ}
    (hk : ∃ s ∈ l, s.Covers k) : r.hi < k := by
  obtain ⟨s, hs, hc⟩ := hk
  exact lt_of_lt_of_le (List.rel_of_pairwise_cons h.2 hs) hc.1

theorem intersectRanges_isOverlap {ls rs : List (Run Unit)} (hl : Ordered ls) (hr : Ordered rs) :
    IsOverlap ls rs (intersectRanges ls rs) := by
  induction ls, rs using intersectRanges.induct with
  | case1 rs =>
      rw [intersectRanges]
      exact ⟨by simp [Ordered], rfl, by simp, by simp, by simp⟩
  | case2 l ls =>
      rw [intersectRanges]
      exact ⟨by simp [Ordered], rfl, by simp, by simp, by simp⟩
  | case3 l ls r rs ih₁ ih₂ ih₃ =>
      rw [intersectRanges]
      split_ifs with hlr hrl
      · have h := ih₁ hl.tail hr.tail
        refine h.emit (fun x hx => List.mem_cons_of_mem _ hx) (fun x hx => List.mem_cons_of_mem _ hx)
          (fun o ho => ?_) fun k hkl hkr => ?_
        · obtain ⟨x, hx, hb, -⟩ := h.left o ho
          exact lt_of_le_of_lt (min_le_left _ _)
            (lt_of_lt_of_le (List.rel_of_pairwise_cons hl.2 hx) hb)
        · rw [List.exists_mem_cons_iff] at hkl hkr
          rcases hkl with hcl | hcl <;> rcases hkr with hcr | hcr
          · exact Or.inl ⟨hcl, hcr⟩
          · have := hr.lt_of_covers_tail hcr
            have := hcl.2
            omega
          · have := hl.lt_of_covers_tail hcl
            have := hcr.2
            omega
          · exact Or.inr ⟨hcl, hcr⟩
      · have h := ih₂ hl.tail hr
        refine h.emit (fun x hx => List.mem_cons_of_mem _ hx) (fun x hx => hx)
          (fun o ho => ?_) fun k hkl hkr => ?_
        · obtain ⟨x, hx, hb, -⟩ := h.left o ho
          exact lt_of_le_of_lt (min_le_left _ _)
            (lt_of_lt_of_le (List.rel_of_pairwise_cons hl.2 hx) hb)
        · rw [List.exists_mem_cons_iff] at hkl
          rcases hkl with hcl | hcl
          · rw [List.exists_mem_cons_iff] at hkr
            rcases hkr with hcr | hcr
            · exact Or.inl ⟨hcl, hcr⟩
            · have := hr.lt_of_covers_tail hcr
              have := hcl.2
              omega
          · exact Or.inr ⟨hcl, hkr⟩
      · have h := ih₃ hl hr.tail
        refine h.emit (fun x hx => hx) (fun x hx => List.mem_cons_of_mem _ hx)
          (fun o ho => ?_) fun k hkl hkr => ?_
        · obtain ⟨x, hx, hb, -⟩ := h.right o ho
          exact lt_of_le_of_lt (min_le_right _ _)
            (lt_of_lt_of_le (List.rel_of_pairwise_cons hr.2 hx) hb)
        · rw [List.exists_mem_cons_iff] at hkr
          rcases hkr with hcr | hcr
          · rw [List.exists_mem_cons_iff] at hkl
            rcases hkl with hcl | hcl
            · exact Or.inl ⟨hcl, hcr⟩
            · have := hl.lt_of_covers_tail hcl
              have := hcr.2
              omega
          · exact Or.inr ⟨hkl, hcr⟩

theorem intersect_token_ranges_once_eq (left right : TokenSet) :
    intersect_token_ranges_once left right = inter left right := by
  have h := intersectRanges_isOverlap left.canonical.ordered right.canonical.ordered
  unfold intersect_token_ranges_once
  generalize intersectRanges left.runs right.runs = out at h
  obtain ⟨ranges, cardinality⟩ := out
  have hsound : ∀ k, (∃ o ∈ ranges, o.Covers k) → k ∈ left ∧ k ∈ right := by
    rintro k ⟨o, ho, hc⟩
    obtain ⟨x, hx, hxl, hxh⟩ := h.left o ho
    obtain ⟨y, hy, hyl, hyh⟩ := h.right o ho
    exact ⟨mem_iff_exists_run.mpr ⟨x, hx, hxl.trans hc.1, hc.2.trans hxh⟩,
      mem_iff_exists_run.mpr ⟨y, hy, hyl.trans hc.1, hc.2.trans hyh⟩⟩
  have hsize : cardinality = runsLen ranges := h.size
  dsimp only
  split_ifs with hleft hright hzero
  · refine ext_mem fun k => ⟨fun hk => ?_, fun hk => (mem_inter.mp hk).1⟩
    exact mem_inter.mpr (hsound k (h.ordered.covers_of_len_eq left.canonical.ordered
      (fun j hj => mem_iff_exists_run.mp (hsound j hj).1) (hsize.symm.trans hleft)
      (mem_iff_exists_run.mp hk)))
  · refine ext_mem fun k => ⟨fun hk => ?_, fun hk => (mem_inter.mp hk).2⟩
    exact mem_inter.mpr (hsound k (h.ordered.covers_of_len_eq right.canonical.ordered
      (fun j hj => mem_iff_exists_run.mp (hsound j hj).2) (hsize.symm.trans hright)
      (mem_iff_exists_run.mp hk)))
  · refine ext_mem fun k => ⟨fun hk => absurd hk (not_mem_empty k), fun hk => ?_⟩
    obtain ⟨hl, hr⟩ := mem_inter.mp hk
    have hmem := mem_coveredKeys.mpr
      (h.covers k (mem_iff_exists_run.mp hl) (mem_iff_exists_run.mp hr))
    have hcard := h.ordered.card_coveredKeys
    rw [← hsize, hzero, Finset.card_eq_zero] at hcard
    simp [hcard] at hmem
  · have hfits : Fits u32Max ranges := fun o ho => by
      obtain ⟨x, hx, -, hxh⟩ := h.left o ho
      exact ⟨h.ordered.1 o ho, hxh.trans (left.bounded x hx)⟩
    refine ext_mem fun k => ?_
    rw [mem_ofRanges hfits, mem_inter]
    exact ⟨hsound k, fun hk =>
      h.covers k (mem_iff_exists_run.mp hk.1) (mem_iff_exists_run.mp hk.2)⟩

theorem inter_eq_left {left right : TokenSet} (h : isSubset left right = true) :
    inter left right = left := by
  rw [isSubset_iff] at h
  exact ext_mem fun k => by simpa using h k

theorem inter_eq_right {left right : TokenSet} (h : isSubset right left = true) :
    inter left right = right := by
  rw [isSubset_iff] at h
  exact ext_mem fun k => by simpa using h k

theorem isSubset_refl (s : TokenSet) : isSubset s s = true := isSubset_iff.mpr fun _ h => h

/-- The nonempty result of a token-set operation. -/
def nonemptyTokens (t : TokenSet) : Option TokenSet := if t = RangeMap.empty then none else some t

/-- All three implementations compute the intersection of nonempty token sets. -/
theorem shared_token_intersection_eq [Runtime] {left right : TokenSet}
    (hl : left ≠ RangeMap.empty) (hr : right ≠ RangeMap.empty) :
    shared_token_intersection left right = nonemptyTokens (inter left right) := by
  have hsub : left = right ∨ isSubset left right = true → isSubset left right = true := by
    rintro (rfl | h)
    · exact isSubset_refl left
    · exact h
  have hcached : ∀ single_pass, shared_token_intersection_cached single_pass left right =
      nonemptyTokens (inter left right) := by
    intro single_pass
    have hle : ¬ left.isEmpty = true := fun h => hl (isEmpty_eq_true.mp h)
    have hre : ¬ right.isEmpty = true := fun h => hr (isEmpty_eq_true.mp h)
    unfold shared_token_intersection_cached
    by_cases heq : left = right
    · subst heq
      rw [if_pos (Or.inl rfl), inter_eq_left (isSubset_refl left), nonemptyTokens, if_neg hl]
    · rw [if_neg (not_or.mpr ⟨heq, hle⟩), if_neg hre]
      have hres : (if single_pass = true then intersect_token_ranges_once left right
          else if left.len ≤ right.len ∧ isSubset left right = true then left
          else if right.len ≤ left.len ∧ isSubset right left = true then right
          else inter left right) = inter left right := by
        split_ifs with h₁ h₂ h₃
        · exact intersect_token_ranges_once_eq left right
        · exact (inter_eq_left h₂.2).symm
        · exact (inter_eq_right h₃.2).symm
        · rfl
      simp only [hres, nonemptyTokens, isEmpty_eq_true]
  unfold shared_token_intersection
  split
  · exact hcached false
  · exact hcached true
  · unfold shared_token_intersection_legacy
    split_ifs with h₁ h₂
    · rw [inter_eq_left (hsub h₁), nonemptyTokens, if_neg hl]
    · rw [inter_eq_right h₂, nonemptyTokens, if_neg hr]
    · simp only [nonemptyTokens, isEmpty_eq_true]

/-! ## Difference -/

def shared_token_difference (left right : TokenSet) : Option TokenSet :=
  if left = right ∨ isSubset left right then none
  else if isDisjoint left right then some left
  else
    let difference := diff left right
    if difference.isEmpty then none else some difference

theorem shared_token_difference_eq {left right : TokenSet} (hl : left ≠ RangeMap.empty) :
    shared_token_difference left right = nonemptyTokens (diff left right) := by
  unfold shared_token_difference
  split_ifs with h₁ h₂
  · have hsub : ∀ k, k ∈ left → k ∈ right := by
      rcases h₁ with rfl | h
      · exact fun _ h => h
      · exact isSubset_iff.mp h
    have hnone : diff left right = RangeMap.empty := ext_mem fun k => by
      simpa using hsub k
    rw [nonemptyTokens, if_pos hnone]
  · have hsome : diff left right = left := ext_mem fun k => by
      simpa using isDisjoint_iff.mp h₂ k
    rw [hsome, nonemptyTokens, if_neg hl]
  · simp only [nonemptyTokens, isEmpty_eq_true]

/-! ## Operations on absent token sets -/

def union_token_sets : Option TokenSet → Option TokenSet → Option TokenSet
  | some left, some right => some (shared_token_union left right)
  | some tokens, none => some tokens
  | none, some tokens => some tokens
  | none, none => none

def intersect_token_sets [Runtime] : Option TokenSet → Option TokenSet → Option TokenSet
  | some left, some right => shared_token_intersection left right
  | _, _ => none

def difference_token_sets : Option TokenSet → Option TokenSet → Option TokenSet
  | some left, some right => shared_token_difference left right
  | some left, none => some left
  | none, _ => none

end GlrMask
