import GlrMask.TokenSets

/-!
# Weight maps and the compact range builder

A weight map assigns token sets to tsid ranges. The builder receives ranges one
by one, joins a range with the pending one where they touch and agree, and
writes finished ranges to the map.
-/

namespace GlrMask

open RangeSet RangeMap

abbrev WeightMap := RangeMap u32Max TokenSet

abbrev WeightRangeEntry := Run TokenSet

def checkedAdd (a b : ℕ) : Option ℕ := if a + b ≤ u32Max then some (a + b) else none

theorem checkedAdd_eq_some {a b c : ℕ} (h : checkedAdd a b = some c) : a + b = c := by
  unfold checkedAdd at h
  split_ifs at h
  exact Option.some.inj h

structure CompactRangeBuilder where
  map : WeightMap
  pending : Option WeightRangeEntry

namespace CompactRangeBuilder

def new : CompactRangeBuilder := ⟨RangeMap.empty, none⟩

def flush (b : CompactRangeBuilder) : CompactRangeBuilder :=
  match b.pending with
  | some pending => ⟨b.map.insert pending, none⟩
  | none => b

def push (b : CompactRangeBuilder) (entry : WeightRangeEntry) : CompactRangeBuilder :=
  match b.pending with
  | some pending =>
      if checkedAdd pending.hi 1 = some entry.lo ∧ pending.val = entry.val then
        ⟨b.map, some ⟨pending.lo, entry.hi, pending.val⟩⟩
      else ⟨b.flush.map, some entry⟩
  | none => ⟨b.flush.map, some entry⟩

def finish (b : CompactRangeBuilder) : WeightMap := b.flush.map

/-- Push the range of a computed token set, or flush when there is none. -/
def pushOrFlush (b : CompactRangeBuilder) (lo hi : ℕ) : Option TokenSet → CompactRangeBuilder
  | some tokens => b.push ⟨lo, hi, tokens⟩
  | none => b.flush

def extend (b : CompactRangeBuilder) (entries : List WeightRangeEntry) : CompactRangeBuilder :=
  entries.foldl push b

/-- The token set the builder holds for a tsid, written or pending. -/
def get (b : CompactRangeBuilder) (k : ℕ) : Option TokenSet :=
  match b.pending with
  | some pending => if pending.Covers k then some pending.val else b.map.get k
  | none => b.map.get k

def Valid (b : CompactRangeBuilder) : Prop := ∀ p ∈ b.pending, p.lo ≤ p.hi ∧ p.hi ≤ u32Max

@[simp] theorem valid_new : new.Valid := by simp [Valid, new]

@[simp] theorem get_new (k : ℕ) : new.get k = none := rfl

theorem flush_of_none {b : CompactRangeBuilder} (h : b.pending = none) : b.flush = b := by
  simp [flush, h]

theorem flush_of_some {b : CompactRangeBuilder} {p : WeightRangeEntry} (h : b.pending = some p) :
    b.flush = ⟨b.map.insert p, none⟩ := by
  simp [flush, h]

theorem valid_flush (b : CompactRangeBuilder) : b.flush.Valid := by
  cases hp : b.pending with
  | none => simp [flush_of_none hp, Valid, hp]
  | some p => simp [flush_of_some hp, Valid]

theorem get_flush {b : CompactRangeBuilder} (h : b.Valid) (k : ℕ) : b.flush.get k = b.get k := by
  cases hp : b.pending with
  | none => rw [flush_of_none hp]
  | some p =>
      obtain ⟨hle, hM⟩ := h p hp
      rw [flush_of_some hp]
      change (b.map.insert p).get k = _
      rw [get_insert _ hle hM, get, hp]

theorem get_finish {b : CompactRangeBuilder} (h : b.Valid) (k : ℕ) : b.finish.get k = b.get k := by
  rw [← get_flush h]
  cases hp : b.pending with
  | none => rw [finish, flush_of_none hp, get, hp]
  | some p => rw [finish, flush_of_some hp, get]

theorem valid_push {b : CompactRangeBuilder} (h : b.Valid) {e : WeightRangeEntry}
    (he : e.lo ≤ e.hi) (hM : e.hi ≤ u32Max) : (b.push e).Valid := by
  cases hp : b.pending with
  | none => simpa [push, hp, Valid] using ⟨he, hM⟩
  | some p =>
      have hp' := h p hp
      simp only [push, hp]
      split_ifs with ht
      · have := checkedAdd_eq_some ht.1
        simp only [Valid, Option.mem_some_iff, forall_eq']
        omega
      · simpa [Valid] using ⟨he, hM⟩

/-- A pushed range overwrites what the builder held. -/
theorem get_push {b : CompactRangeBuilder} (h : b.Valid) {e : WeightRangeEntry}
    (he : e.lo ≤ e.hi) (k : ℕ) :
    (b.push e).get k = if e.Covers k then some e.val else b.get k := by
  have hflush : (⟨b.flush.map, some e⟩ : CompactRangeBuilder).get k =
      if e.Covers k then some e.val else b.get k := by
    rw [← get_finish h]
    rfl
  cases hp : b.pending with
  | none => simpa only [push, hp] using hflush
  | some p =>
      simp only [push, hp]
      by_cases ht : checkedAdd p.hi 1 = some e.lo ∧ p.val = e.val
      · have hlo := checkedAdd_eq_some ht.1
        have hpv := h p hp
        have hcov : Run.Covers ⟨p.lo, e.hi, p.val⟩ k ↔ e.Covers k ∨ p.Covers k := by
          simp only [Run.Covers]
          omega
        rw [if_pos ht, ← ht.2]
        simp only [get, hp, hcov]
        by_cases hc : e.Covers k <;> simp [hc]
      · rw [if_neg ht]
        exact hflush

theorem valid_pushOrFlush {b : CompactRangeBuilder} (h : b.Valid) {lo hi : ℕ} (hle : lo ≤ hi)
    (hM : hi ≤ u32Max) (t : Option TokenSet) : (b.pushOrFlush lo hi t).Valid := by
  cases t with
  | none => exact valid_flush b
  | some t => exact valid_push h hle hM

theorem get_pushOrFlush {b : CompactRangeBuilder} (h : b.Valid) {lo hi : ℕ} (hle : lo ≤ hi)
    (t : Option TokenSet) (k : ℕ) :
    (b.pushOrFlush lo hi t).get k = if lo ≤ k ∧ k ≤ hi then t.or (b.get k) else b.get k := by
  cases t with
  | none => simp [pushOrFlush, get_flush h]
  | some t =>
      rw [pushOrFlush, get_push h hle]
      rfl

theorem valid_extend {b : CompactRangeBuilder} (h : b.Valid) {l : List WeightRangeEntry}
    (hl : Fits u32Max l) : (b.extend l).Valid := by
  induction l generalizing b with
  | nil => exact h
  | cons e l ih =>
      obtain ⟨he, hM⟩ := hl e List.mem_cons_self
      exact ih (valid_push h he hM) fun s hs => hl s (List.mem_cons_of_mem _ hs)

theorem get_extend {b : CompactRangeBuilder} (h : b.Valid) {l : List WeightRangeEntry}
    (hl : Fits u32Max l) (k : ℕ) :
    (b.extend l).get k = (lookupRuns l.reverse k).or (b.get k) := by
  induction l generalizing b with
  | nil => rfl
  | cons e l ih =>
      obtain ⟨he, hM⟩ := hl e List.mem_cons_self
      change ((b.push e).extend l).get k = _
      rw [ih (valid_push h he hM) fun s hs => hl s (List.mem_cons_of_mem _ hs),
        get_push h he, List.reverse_cons, lookupRuns_append, Option.or_assoc, lookupRuns_cons]
      split <;> rfl

/-- A builder fed with ordered ranges ends with exactly these. -/
theorem get_finish_extend {l : List WeightRangeEntry} (hl : Fits u32Max l) (ho : Ordered l)
    (k : ℕ) : (new.extend l).finish.get k = lookupRuns l k := by
  rw [get_finish (valid_extend valid_new hl), get_extend valid_new hl, get_new, Option.or_none,
    ho.lookupRuns_reverse]

end CompactRangeBuilder

theorem RangeMap.fits_runs {M : ℕ} {V : Type*} (m : RangeMap M V) : Fits M m.runs := fun r hr =>
  ⟨m.canonical.1 r hr, m.bounded r hr⟩

end GlrMask
