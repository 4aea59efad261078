import Mathlib.Data.Set.Basic
import Mathlib.Order.Interval.Finset.Nat
import Mathlib.Tactic

/-!
# Scanning the set bits of a word

A scan acts on groups of set bits and takes them out of the word: lanes whose
bits are all set, the patterns of lanes, or one bit at a time from the lowest.
What holds of the bits acted on so far is carried through by one rule each.
-/

namespace GlrMask

namespace BitScan

variable {w : ℕ} {σ τ : Type}

/-- The positions of the set bits. -/
def ones (bits : BitVec w) : Set ℕ := {i | bits.getLsbD i = true}

@[simp] theorem mem_ones {bits : BitVec w} {i : ℕ} : i ∈ ones bits ↔ bits.getLsbD i = true := Iff.rfl

theorem lt_of_mem_ones {bits : BitVec w} {i : ℕ} (h : i ∈ ones bits) : i < w :=
  BitVec.lt_of_getLsbD h

@[simp] theorem ones_zero : ones 0#w = ∅ := by
  ext i
  simp

theorem ones_andnot (bits mask : BitVec w) : ones (bits &&& ~~~mask) = ones bits \ ones mask := by
  ext i
  simp only [mem_ones, Set.mem_sdiff, BitVec.getLsbD_and, BitVec.getLsbD_not, Bool.and_eq_true,
    Bool.not_eq_true']
  constructor
  · intro h
    exact ⟨h.1, by simp [h.2.2]⟩
  · intro h
    exact ⟨h.1, by simpa using lt_of_mem_ones h.1, by simpa using h.2⟩

theorem and_eq_right_iff {bits mask : BitVec w} : bits &&& mask = mask ↔ ones mask ⊆ ones bits := by
  constructor
  · intro h i hi
    rw [mem_ones, ← h, BitVec.getLsbD_and, Bool.and_eq_true] at hi
    exact hi.1
  · intro h
    apply BitVec.eq_of_getLsbD_eq
    intro i _
    rw [BitVec.getLsbD_and, Bool.and_eq_right_iff_imp]
    exact fun hi => h hi

theorem cpopNatRec_eq_card (bits : BitVec w) (n : ℕ) :
    bits.cpopNatRec n 0 = ((Finset.range n).filter (fun i => bits.getLsbD i = true)).card := by
  induction n with
  | zero => rfl
  | succ n ih =>
    rw [BitVec.cpopNatRec_succ, BitVec.cpopNatRec_eq, ih, Finset.range_add_one, Finset.filter_insert]
    by_cases hn : bits.getLsbD n = true
    · rw [if_pos hn, Finset.card_insert_of_notMem (by simp), hn]
      simp
    · rw [if_neg hn]
      simp [hn]

/-- The number of set bits. -/
theorem toNat_cpop_eq_card (bits : BitVec w) :
    bits.cpop.toNat = ((Finset.range w).filter (fun i => bits.getLsbD i = true)).card := by
  rw [BitVec.toNat_cpop, cpopNatRec_eq_card]

/-! ## The lowest set bit -/

theorem testBit_sub_one {x t : ℕ} (hbelow : ∀ i < t, x.testBit i = false)
    (hat : x.testBit t = true) (i : ℕ) :
    (x.testBit i && (x - 1).testBit i) = (x.testBit i && decide (i ≠ t)) := by
  have hmod : x % 2 ^ t = 0 := by
    apply Nat.eq_of_testBit_eq
    intro j
    rw [Nat.testBit_mod_two_pow, Nat.zero_testBit]
    by_cases hj : j < t
    · simp [hbelow j hj]
    · simp [hj]
  have hodd : x / 2 ^ t % 2 = 1 := by
    rw [Nat.testBit_eq_decide_div_mod_eq] at hat
    exact of_decide_eq_true hat
  have hpos : 0 < 2 ^ t := Nat.two_pow_pos t
  have hx : x = 2 ^ t * (x / 2 ^ t) := by
    have := Nat.div_add_mod x (2 ^ t)
    omega
  have hq : 1 ≤ x / 2 ^ t := by
    apply Nat.one_le_iff_ne_zero.mpr
    intro hzero
    rw [hzero] at hodd
    contradiction
  have hpred : x - 1 = 2 ^ t * (x / 2 ^ t - 1) + (2 ^ t - 1) := by
    have hle : 2 ^ t * 1 ≤ 2 ^ t * (x / 2 ^ t) := Nat.mul_le_mul_left _ hq
    rw [← hx] at hle
    rw [Nat.mul_sub, ← hx]
    omega
  rcases lt_trichotomy i t with hi | hi | hi
  · simp [hbelow i hi]
  · subst hi
    rw [hpred, Nat.testBit_two_pow_mul_add _ (by omega), if_neg (lt_irrefl i), Nat.sub_self,
      Nat.testBit_zero]
    have heven : (x / 2 ^ i - 1) % 2 = 0 := by
      generalize x / 2 ^ i = q at *
      omega
    simp [heven]
  · have hshift : x.testBit i = (x / 2 ^ t).testBit (i - t) := by
      rw [Nat.testBit_div_two_pow, Nat.sub_add_cancel hi.le]
    obtain ⟨k, hk⟩ : ∃ k, i - t = k + 1 := ⟨i - t - 1, by omega⟩
    have hhalf : (x / 2 ^ t - 1) / 2 = x / 2 ^ t / 2 := by
      generalize x / 2 ^ t = q at *
      omega
    rw [hpred, Nat.testBit_two_pow_mul_add _ (by omega), if_neg (by omega), hshift, hk,
      Nat.testBit_add_one, Nat.testBit_add_one, hhalf]
    simp [show i ≠ t by omega]

/-- Clearing the lowest set bit takes out that bit and no other. -/
theorem ones_clear_lowest {bits : BitVec w} (h : bits ≠ 0#w) :
    ones (bits &&& (bits - 1#w)) = ones bits \ {bits.ctz.toNat} := by
  have hat := BitVec.getLsbD_true_ctz_of_ne_zero h
  have hpos : bits.toNat ≠ 0 := fun hzero => h (BitVec.eq_of_toNat_eq (by simpa using hzero))
  have hw : 0 < w := by
    have := lt_of_mem_ones hat
    omega
  have hone : (1#w).toNat = 1 := by
    rw [BitVec.toNat_ofNat, Nat.mod_eq_of_lt (Nat.one_lt_two_pow (by omega))]
  have hsub : (bits - 1#w).toNat = bits.toNat - 1 := by
    rw [BitVec.toNat_sub_of_le (BitVec.le_def.mpr (by rw [hone]; omega)), hone]
  ext i
  have hbit := testBit_sub_one (fun j hj => BitVec.getLsbD_false_of_lt_ctz hj) hat i
  simp only [mem_ones, Set.mem_sdiff, Set.mem_singleton_iff, BitVec.getLsbD_and]
  unfold BitVec.getLsbD at hbit ⊢
  rw [hsub, hbit, Bool.and_eq_true, decide_eq_true_eq]

/-- `while bits != 0`: act on the lowest set bit and clear it. -/
def forEachBit (act : ℕ → σ → σ) : ℕ → BitVec w → σ → σ
  | 0, _, s => s
  | fuel + 1, bits, s =>
      if bits = 0#w then s
      else forEachBit act fuel (bits &&& (bits - 1#w)) (act bits.ctz.toNat s)

/-! ## Lanes -/

def laneMask (w width lane : ℕ) : BitVec w := BitVec.ofNat w (2 ^ width - 1) <<< (lane * width)

/-- The positions of a lane. -/
def lane (width i : ℕ) : Set ℕ := {n | i * width ≤ n ∧ n < i * width + width}

/-- Act on each of the first lanes whose bits are all set, and clear it. -/
def fullLanes (width count : ℕ) (act : ℕ → σ → σ) (state : BitVec w × σ) : BitVec w × σ :=
  (List.range count).foldl (fun state i =>
    let mask := laneMask w width i
    if state.1 &&& mask = mask then (state.1 &&& ~~~mask, act i state.2) else state) state

/-- Act on each of the first lanes with the pattern of its set bits if it has
any, and clear it. -/
def lanePatterns (width count : ℕ) (act : ℕ → ℕ → σ → σ) (state : BitVec w × σ) : BitVec w × σ :=
  (List.range count).foldl (fun state i =>
    let pattern := ((state.1 >>> (i * width)) &&& BitVec.ofNat w (2 ^ width - 1)).toNat
    if pattern ≠ 0 then (state.1 &&& ~~~laneMask w width i, act i pattern state.2) else state) state

theorem ones_laneMask {width i : ℕ} (h : i * width + width ≤ w) :
    ones (laneMask w width i) = lane width i := by
  ext n
  simp only [mem_ones, laneMask, lane, BitVec.getLsbD_shiftLeft, BitVec.getLsbD_ofNat,
    Nat.testBit_two_pow_sub_one, Bool.and_eq_true, decide_eq_true_eq, Bool.not_eq_true',
    decide_eq_false_iff_not, Set.mem_ofPred_eq]
  omega

theorem testBit_pattern {width i : ℕ} (bits : BitVec w) (j : ℕ) :
    ((bits >>> (i * width)) &&& BitVec.ofNat w (2 ^ width - 1)).toNat.testBit j =
      (decide (j < width) && bits.getLsbD (i * width + j)) := by
  rw [BitVec.testBit_toNat, BitVec.getLsbD_and, BitVec.getLsbD_ushiftRight, BitVec.getLsbD_ofNat,
    Nat.testBit_two_pow_sub_one]
  by_cases hj : j < w
  · simp [hj, Bool.and_comm]
  · have hge : bits.getLsbD (i * width + j) = false := BitVec.getLsbD_of_ge _ _ (by omega)
    simp [hge]

/-! ## Rules -/

/-- The bits acted on are those of the whole that are no longer set, and `P`
holds of them. -/
def Scanned (P : Set ℕ → σ → Prop) (total : Set ℕ) (state : BitVec w × σ) : Prop :=
  ∃ done ⊆ total, ones state.1 = total \ done ∧ P done state.2

theorem Scanned.start {P : Set ℕ → σ → Prop} {bits : BitVec w} {s : σ} (h : P ∅ s) :
    Scanned P (ones bits) (bits, s) :=
  ⟨∅, Set.empty_subset _, Set.sdiff_empty.symm, h⟩

/-- One more group is acted on and cleared. -/
theorem Scanned.clear {P : Set ℕ → σ → Prop} {total group mask : Set ℕ} {bits bits' : BitVec w}
    {s s' : σ} (h : Scanned P total (bits, s)) (hones : ones bits' = ones bits \ mask)
    (hgroup : group = ones bits ∩ mask)
    (hact : ∀ done, done ⊆ total → P done s → P (done ∪ group) s') :
    Scanned P total (bits', s') := by
  obtain ⟨done, hdone, hrest, hP⟩ := h
  refine ⟨done ∪ group, ?_, ?_, hact done hdone hP⟩
  · intro n hn
    rcases hn with hn | hn
    · exact hdone hn
    · rw [hgroup] at hn
      have hbit : n ∈ total \ done := hrest ▸ hn.1
      exact hbit.1
  · show ones bits' = _
    have hbits : ones bits = total \ done := hrest
    rw [hones, hgroup, hbits]
    ext n
    simp only [Set.mem_sdiff, Set.mem_union, Set.mem_inter_iff]
    tauto

theorem Scanned.fullLanes {P : Set ℕ → σ → Prop} {total : Set ℕ} {width count : ℕ}
    {act : ℕ → σ → σ} {state : BitVec w × σ} (h : Scanned P total state) (hw : count * width ≤ w)
    (hact : ∀ done s i, i < count → lane width i ⊆ total → P done s →
      P (done ∪ lane width i) (act i s)) :
    Scanned P total (fullLanes width count act state) := by
  unfold BitScan.fullLanes
  induction count with
  | zero => exact h
  | succ count ih =>
    rw [Nat.succ_mul] at hw
    rw [List.range_succ, List.foldl_append]
    have hprev := ih (by omega) (fun done s i hi => hact done s i (by omega))
    rw [List.foldl_cons, List.foldl_nil]
    dsimp only
    split
    · rename_i hfull
      rw [and_eq_right_iff, ones_laneMask hw] at hfull
      apply hprev.clear (by rw [ones_andnot, ones_laneMask hw])
        (Set.inter_eq_self_of_subset_right hfull).symm
      intro done _ hP
      refine hact done _ count (by omega) ?_ hP
      obtain ⟨done', -, hrest, -⟩ := hprev
      exact hfull.trans (hrest ▸ Set.sdiff_subset)
    · exact hprev

theorem Scanned.lanePatterns {P : Set ℕ → σ → Prop} {total : Set ℕ} {width count : ℕ}
    {act : ℕ → ℕ → σ → σ} {state : BitVec w × σ} (h : Scanned P total state)
    (hw : count * width ≤ w)
    (hact : ∀ done s i pattern, i < count → pattern < 2 ^ width → P done s →
      P (done ∪ {n | i * width ≤ n ∧ pattern.testBit (n - i * width) = true}) (act i pattern s)) :
    Scanned P total (lanePatterns width count act state) := by
  unfold BitScan.lanePatterns
  induction count with
  | zero => exact h
  | succ count ih =>
    rw [Nat.succ_mul] at hw
    rw [List.range_succ, List.foldl_append]
    have hprev := ih (by omega) (fun done s i pattern hi => hact done s i pattern (by omega))
    rw [List.foldl_cons, List.foldl_nil]
    dsimp only
    split
    · apply hprev.clear (by rw [ones_andnot, ones_laneMask hw])
      rotate_left
      · intro done _ hP
        refine hact done _ count _ (by omega) ?_ hP
        rw [BitVec.toNat_and, BitVec.toNat_ofNat]
        apply lt_of_le_of_lt Nat.and_le_right
        exact lt_of_le_of_lt (Nat.mod_le _ _) (Nat.sub_lt (Nat.two_pow_pos width) one_pos)
      · ext n
        simp only [Set.mem_ofPred_eq, testBit_pattern, Set.mem_inter_iff, mem_ones, lane,
          Bool.and_eq_true, decide_eq_true_eq]
        constructor
        · intro hn
          rw [Nat.add_sub_cancel' hn.1] at hn
          exact ⟨hn.2.2, hn.1, by omega⟩
        · intro hn
          rw [Nat.add_sub_cancel' hn.2.1]
          exact ⟨hn.2.1, by omega, hn.1⟩
    · exact hprev

/-- Each turn clears one bit, so there are no more turns than bits. -/
theorem Scanned.forEachBit_of_le {P : Set ℕ → σ → Prop} {total : Set ℕ} {act : ℕ → σ → σ}
    (hact : ∀ done s i, i ∈ total → P done s → P (done ∪ {i}) (act i s)) (fuel : ℕ) (bits : BitVec w)
    (s : σ) (h : Scanned P total (bits, s))
    (hfuel : ((Finset.range w).filter (fun i => bits.getLsbD i = true)).card ≤ fuel) :
    P total (forEachBit act fuel bits s) := by
  have hall : ones bits = ∅ → P total s := by
    intro hzero
    obtain ⟨done, hdone, hrest, hP⟩ := h
    have hnone : total \ done = ∅ := hrest.symm.trans hzero
    rwa [hdone.antisymm (Set.sdiff_eq_empty.mp hnone)] at hP
  induction fuel generalizing bits s with
  | zero =>
    apply hall
    ext i
    rw [Nat.le_zero, Finset.card_eq_zero, Finset.filter_eq_empty_iff] at hfuel
    constructor
    · intro hi
      exact hfuel (Finset.mem_range.mpr (lt_of_mem_ones hi)) hi
    · intro hi
      contradiction
  | succ fuel ih =>
    unfold forEachBit
    split
    · rename_i hzero
      exact hall (by rw [hzero, ones_zero])
    · rename_i hne
      have hat : bits.ctz.toNat ∈ ones bits := BitVec.getLsbD_true_ctz_of_ne_zero hne
      have hmem : bits.ctz.toNat ∈ total := by
        obtain ⟨done, -, hrest, -⟩ := h
        have hbit : bits.ctz.toNat ∈ total \ done := hrest ▸ hat
        exact hbit.1
      have hnext : Scanned P total (bits &&& (bits - 1#w), act bits.ctz.toNat s) := by
        apply h.clear (ones_clear_lowest hne)
          (Set.inter_eq_self_of_subset_right (Set.singleton_subset_iff.mpr hat)).symm
        intro done _ hP
        exact hact done s _ hmem hP
      apply ih _ _ hnext
      · have herase : (Finset.range w).filter (fun i => (bits &&& (bits - 1#w)).getLsbD i = true) =
            ((Finset.range w).filter (fun i => bits.getLsbD i = true)).erase bits.ctz.toNat := by
          ext i
          have hi := Set.ext_iff.mp (ones_clear_lowest hne) i
          simp only [mem_ones, Set.mem_sdiff, Set.mem_singleton_iff] at hi
          simp only [Finset.mem_filter, Finset.mem_erase, hi]
          tauto
        rw [herase, Finset.card_erase_of_mem (by
          simpa using ⟨lt_of_mem_ones hat, hat⟩)]
        omega
      · intro hzero
        obtain ⟨done, hdone, hrest, hP⟩ := hnext
        have hnone : total \ done = ∅ := hrest.symm.trans hzero
        rwa [hdone.antisymm (Set.sdiff_eq_empty.mp hnone)] at hP

theorem Scanned.forEachBit {P : Set ℕ → σ → Prop} {total : Set ℕ} {act : ℕ → σ → σ}
    {state : BitVec w × σ} (h : Scanned P total state)
    (hact : ∀ done s i, i ∈ total → P done s → P (done ∪ {i}) (act i s)) :
    P total (forEachBit act w state.1 state.2) := by
  apply h.forEachBit_of_le hact
  exact (Finset.card_filter_le _ _).trans (Finset.card_range w).le

/-! ## Scans with more in their state -/

section Map

variable {g : σ → τ} {state : BitVec w × σ} {state' : BitVec w × τ}

theorem fullLanes_map {act : ℕ → σ → σ} {act' : ℕ → τ → τ} (hstate : Prod.map id g state = state')
    (h : ∀ i s, g (act i s) = act' i (g s)) (width count : ℕ) :
    Prod.map id g (fullLanes width count act state) = fullLanes width count act' state' := by
  unfold fullLanes
  induction count with
  | zero => exact hstate
  | succ count ih =>
    rw [List.range_succ, List.foldl_append, List.foldl_append, ← ih]
    simp only [List.foldl_cons, List.foldl_nil, Prod.map_fst, Prod.map_snd, id_eq]
    split
    · simp [Prod.map, h]
    · rfl

theorem lanePatterns_map {act : ℕ → ℕ → σ → σ} {act' : ℕ → ℕ → τ → τ}
    (hstate : Prod.map id g state = state')
    (h : ∀ i pattern s, g (act i pattern s) = act' i pattern (g s)) (width count : ℕ) :
    Prod.map id g (lanePatterns width count act state) = lanePatterns width count act' state' := by
  unfold lanePatterns
  induction count with
  | zero => exact hstate
  | succ count ih =>
    rw [List.range_succ, List.foldl_append, List.foldl_append, ← ih]
    simp only [List.foldl_cons, List.foldl_nil, Prod.map_fst, Prod.map_snd, id_eq]
    split
    · simp [Prod.map, h]
    · rfl

theorem forEachBit_map {act : ℕ → σ → σ} {act' : ℕ → τ → τ} (hstate : Prod.map id g state = state')
    (h : ∀ i s, g (act i s) = act' i (g s)) (fuel : ℕ) :
    g (forEachBit act fuel state.1 state.2) = forEachBit act' fuel state'.1 state'.2 := by
  subst hstate
  obtain ⟨bits, s⟩ := state
  induction fuel generalizing bits s with
  | zero => rfl
  | succ fuel ih =>
    unfold forEachBit
    dsimp only [Prod.map, id_eq]
    split
    · rfl
    · rw [← h]
      exact ih _ _

end Map

end BitScan

end GlrMask
