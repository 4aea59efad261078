import GlrMask.MaskMappingGroups

/-!
# What each write adds or clears

Over a mapping that represents its lists, every operation adds the original ids
of its tokens to the output mask, or clears them.
-/

namespace GlrMask

namespace MaskMapping

open WordBitmap BitScan

/-! ## Dense masks -/

section Dense

variable {out mask before after : Words}

theorem adds_or_dense (h : mask.length = out.length) :
    Adds out (or_dense out mask) (members mask) := by
  have hop : Bitwise (fun _ b _ m => b ||| m) (fun b _ m => b || m) :=
    fun _ _ _ _ _ _ => BitVec.getLsbD_or
  unfold or_dense
  rw [h, Nat.min_self]
  refine ⟨length_updateWords hop (le_refl _), ?_⟩
  ext n
  rw [mem_members, bitAt_updateWords_all hop (by omega) rfl (by simp) h.le, Bool.or_eq_true]
  rfl

theorem bitwise_andnot : Bitwise (fun _ b _ m => b &&& ~~~m) (fun b _ m => b && !m) := by
  intro v b _ m i hi
  rw [BitVec.getLsbD_and, BitVec.getLsbD_not, decide_eq_true hi, Bool.true_and]

theorem clears_andnot_dense (h : mask.length = out.length) :
    Clears out (andnot_dense out mask) (members mask) := by
  unfold andnot_dense
  rw [h, Nat.min_self]
  refine ⟨length_updateWords bitwise_andnot (le_refl _), ?_⟩
  ext n
  rw [mem_members, bitAt_updateWords_all bitwise_andnot (by omega) rfl (by simp) h.le,
    Bool.and_eq_true, Bool.not_eq_true', ← Bool.not_eq_true]
  rfl

theorem copy_dense_eq (h : mask.length = out.length) : copy_dense out mask = mask := by
  unfold copy_dense
  dsimp only
  rw [h, Nat.min_self, List.drop_length, List.append_nil, ← h, List.take_length]

/-- Copying adds where nothing was set. -/
theorem adds_copy_dense (h : mask.length = out.length) (hempty : members out = ∅) :
    Adds out (copy_dense out mask) (members mask) := by
  rw [copy_dense_eq h]
  exact ⟨h, by rw [hempty, Set.empty_union]⟩

theorem bitAt_diff {op : (v : ℕ) → BitVec v → BitVec v → BitVec v → BitVec v}
    {f : Bool → Bool → Bool → Bool} (hop : Bitwise op f) (hf : f false false false = false)
    (hbefore : before.length = out.length) (hafter : after.length = out.length) (n : ℕ) :
    bitAt (updateWords op (min (min out.length before.length) after.length) out before after) n =
      f (bitAt out n) (bitAt before n) (bitAt after n) := by
  rw [hbefore, hafter, Nat.min_self, Nat.min_self]
  exact bitAt_updateWords_all hop (by omega) hf hbefore.le hafter.le n

theorem length_diff {op : (v : ℕ) → BitVec v → BitVec v → BitVec v → BitVec v}
    {f : Bool → Bool → Bool → Bool} (hop : Bitwise op f) :
    (updateWords op (min (min out.length before.length) after.length) out before after).length =
      out.length :=
  length_updateWords hop ((min_le_left _ _).trans (min_le_left _ _))

theorem adds_or_prefix_diff (hbefore : before.length = out.length)
    (hafter : after.length = out.length) :
    Adds out (or_prefix_diff out before after) (members after \ members before) := by
  have hop : Bitwise (fun _ b s e => b ||| (e &&& ~~~s)) (fun b s e => b || (e && !s)) := by
    intro v b s e i hi
    rw [BitVec.getLsbD_or, BitVec.getLsbD_and, BitVec.getLsbD_not, decide_eq_true hi, Bool.true_and]
  refine ⟨length_diff hop, ?_⟩
  ext n
  rw [mem_members]
  unfold or_prefix_diff
  rw [bitAt_diff hop rfl hbefore hafter]
  simp

theorem adds_copy_prefix_diff (hbefore : before.length = out.length)
    (hafter : after.length = out.length) (hempty : members out = ∅) :
    Adds out (copy_prefix_diff out before after) (members after \ members before) := by
  have hop : Bitwise (fun _ _ s e => e &&& ~~~s) (fun _ s e => e && !s) := by
    intro v b s e i hi
    rw [BitVec.getLsbD_and, BitVec.getLsbD_not, decide_eq_true hi, Bool.true_and]
  refine ⟨length_diff hop, ?_⟩
  ext n
  rw [mem_members, hempty]
  unfold copy_prefix_diff
  rw [bitAt_diff hop rfl hbefore hafter]
  simp

theorem clears_andnot_prefix_diff (hbefore : before.length = out.length)
    (hafter : after.length = out.length) :
    Clears out (andnot_prefix_diff out before after) (members after \ members before) := by
  have hop : Bitwise (fun _ b s e => b &&& ~~~(e &&& ~~~s)) (fun b s e => b && !(e && !s)) := by
    intro v b s e i hi
    rw [BitVec.getLsbD_and, BitVec.getLsbD_not, BitVec.getLsbD_and, BitVec.getLsbD_not,
      decide_eq_true hi, Bool.true_and, Bool.true_and]
  refine ⟨length_diff hop, ?_⟩
  ext n
  rw [mem_members]
  unfold andnot_prefix_diff
  rw [bitAt_diff hop rfl hbefore hafter, Bool.and_eq_true, Bool.not_eq_true', ← Bool.not_eq_true,
    Bool.and_eq_true, Bool.not_eq_true', ← Bool.not_eq_true]
  rfl

end Dense

/-! ## Groups -/

section Groups

variable {internal_to_original : List (List ℕ)} {buf_words : ℕ} {out : Words}
  {dense : List (Option Words)} {entries : EntryTable} {cover : ℕ → Set ℕ}

theorem adds_or_group (h : GroupTable internal_to_original buf_words dense entries cover)
    (hlen : out.length = buf_words) (g : ℕ) :
    Adds out (or_group dense entries g out).1
      (originalBits internal_to_original buf_words (cover g)) := by
  unfold or_group
  split
  · rename_i mask hmask
    rw [← h.dense_members hmask]
    exact adds_or_dense ((h.dense_length hmask).trans hlen.symm)
  · split
    · rename_i group hgroup
      rw [← h.entries_hold.bits hgroup]
      exact adds_or_sparse (hlen ▸ h.entries_hold.fits hgroup)
    · rename_i hgroup
      rw [h.entries_hold.missing hgroup]
      exact Adds.refl out

theorem clears_andnot_group (h : GroupTable internal_to_original buf_words dense entries cover)
    (hlen : out.length = buf_words) (g : ℕ) :
    Clears out (andnot_group dense entries g out).1
      (originalBits internal_to_original buf_words (cover g)) := by
  unfold andnot_group
  split
  · rename_i mask hmask
    rw [← h.dense_members hmask]
    exact clears_andnot_dense ((h.dense_length hmask).trans hlen.symm)
  · split
    · rename_i group hgroup
      rw [← h.entries_hold.bits hgroup]
      exact clears_andnot_sparse (hlen ▸ h.entries_hold.fits hgroup)
    · rename_i hgroup
      rw [h.entries_hold.missing hgroup]
      exact Clears.refl out

theorem or_sparse_of_isEmpty {entries : List SparseEntry} (h : (!entries.isEmpty) = false) :
    or_sparse out entries = out := by
  have hnil : entries = [] := by simpa using h
  rw [hnil]
  rfl

/-- A group that reports nothing written leaves the mask as it was. -/
theorem or_group_unwritten {g : ℕ} (h : (or_group dense entries g out).2 = false) :
    (or_group dense entries g out).1 = out := by
  unfold or_group at h ⊢
  split at h
  · contradiction
  · split at h
    · exact or_sparse_of_isEmpty h
    · rfl

end Groups

namespace Represents

variable {mapping : FinalMaskMapping} {internal_to_original : List (List ℕ)} {buf_words : ℕ}
  {out : Words}

theorem adds_or_token (h : Represents mapping internal_to_original buf_words)
    (hlen : out.length = buf_words) (token : ℕ) :
    Adds out (mapping.or_token token out).1
      (originalBits internal_to_original buf_words {token}) := by
  unfold FinalMaskMapping.or_token
  split
  · rename_i group hgroup
    rw [← h.tokens.bits hgroup]
    exact adds_or_sparse (hlen ▸ h.tokens.fits hgroup)
  · rename_i hgroup
    rw [h.tokens.missing hgroup]
    exact Adds.refl out

theorem clears_andnot_token (h : Represents mapping internal_to_original buf_words)
    (hlen : out.length = buf_words) (token : ℕ) :
    Clears out (mapping.andnot_token token out)
      (originalBits internal_to_original buf_words {token}) := by
  unfold FinalMaskMapping.andnot_token
  split
  · rename_i group hgroup
    rw [← h.tokens.bits hgroup]
    exact clears_andnot_sparse (hlen ▸ h.tokens.fits hgroup)
  · rename_i hgroup
    rw [h.tokens.missing hgroup]
    exact Clears.refl out

/-- The groups between two prefixes are their difference. -/
theorem prefix_diff (h : Represents mapping internal_to_original buf_words)
    (hdisjoint : internal_to_original.Pairwise List.Disjoint) (start stop : ℕ)
    (hstart : start < mapping.word_group_dense_prefix.length)
    (hstop : stop < mapping.word_group_dense_prefix.length) :
    ( mapping.word_group_dense_prefix.getD start []).length = buf_words ∧
      ( mapping.word_group_dense_prefix.getD stop []).length = buf_words ∧
      members ( mapping.word_group_dense_prefix.getD stop []) \
        members ( mapping.word_group_dense_prefix.getD start []) =
        originalBits internal_to_original buf_words
          {token | start * 64 ≤ token ∧ token < stop * 64} := by
  have hget := List.getElem?_eq_getElem hstart
  have hget' := List.getElem?_eq_getElem hstop
  rw [List.getD_eq_getElem _ _ hstart, List.getD_eq_getElem _ _ hstop]
  refine ⟨h.prefix_length hget, h.prefix_length hget', ?_⟩
  rw [h.prefix_members hget, h.prefix_members hget', originalBits_sdiff hdisjoint]
  congr 1
  ext token
  simp only [Set.mem_sdiff, Set.mem_ofPred_eq]
  omega

theorem adds_or_word_groups (h : Represents mapping internal_to_original buf_words)
    (hlen : out.length = buf_words) (start stop : ℕ) :
    Adds out (mapping.or_word_groups start stop out).1 (originalBits internal_to_original buf_words
      {token | start * 64 ≤ token ∧ token < stop * 64}) ∧
    ((mapping.or_word_groups start stop out).2 = false →
      (mapping.or_word_groups start stop out).1 = out) := by
  have hempty : stop - start = 0 →
      {token : ℕ | start * 64 ≤ token ∧ token < stop * 64} = ∅ := by
    intro hzero
    ext token
    simp only [Set.mem_ofPred_eq, Set.mem_empty_iff_false, iff_false]
    omega
  unfold FinalMaskMapping.or_word_groups
  generalize hk : stop - start = k at hempty
  induction k generalizing stop with
  | zero =>
    rw [hempty rfl, originalBits_empty]
    exact ⟨Adds.refl out, fun _ => rfl⟩
  | succ k ih =>
    obtain ⟨hprev, hsame⟩ := ih (start + k) (by omega) (by
      intro hzero
      ext token
      simp only [Set.mem_ofPred_eq, Set.mem_empty_iff_false, iff_false]
      omega)
    have hset : {token | start * 64 ≤ token ∧ token < stop * 64} =
        {token | start * 64 ≤ token ∧ token < (start + k) * 64} ∪ groupTokens 64 (start + k) := by
      ext token
      simp only [groupTokens, Set.mem_ofPred_eq, Set.mem_union]
      omega
    have hold := hprev.length_eq.trans hlen
    rw [List.range'_1_concat, List.foldl_concat, hset, originalBits_union]
    split
    · rename_i group hgroup
      constructor
      · apply hprev.trans
        rw [← h.words.entries_hold.bits hgroup]
        exact adds_or_sparse (hold ▸ h.words.entries_hold.fits hgroup)
      · intro hwrote
        rw [Bool.or_eq_false_iff] at hwrote
        exact (or_sparse_of_isEmpty hwrote.2).trans (hsame hwrote.1)
    · rename_i hgroup
      rw [h.words.entries_hold.missing hgroup, Set.union_empty]
      exact ⟨hprev, hsame⟩

theorem adds_or_full_group_run (h : Represents mapping internal_to_original buf_words)
    (hdisjoint : internal_to_original.Pairwise List.Disjoint) (hlen : out.length = buf_words)
    (start stop : ℕ) (can_copy : Bool) (hcopy : can_copy = true → members out = ∅) :
    Adds out (mapping.or_full_group_run start stop out can_copy).1
      (originalBits internal_to_original buf_words
        {token | start * 64 ≤ token ∧ token < stop * 64}) ∧
    ((mapping.or_full_group_run start stop out can_copy).2 = false →
      (mapping.or_full_group_run start stop out can_copy).1 = out) := by
  unfold FinalMaskMapping.or_full_group_run
  split
  · rename_i hle
    have hempty : {token : ℕ | start * 64 ≤ token ∧ token < stop * 64} = ∅ := by
      ext token
      simp only [Set.mem_ofPred_eq, Set.mem_empty_iff_false, iff_false]
      omega
    rw [hempty, originalBits_empty]
    exact ⟨Adds.refl out, fun _ => rfl⟩
  · rename_i hlt
    split
    · rename_i mask hmask
      split at hmask
      · rename_i hone
        have hset : {token : ℕ | start * 64 ≤ token ∧ token < stop * 64} = groupTokens 64 start := by
          ext token
          simp only [groupTokens, Set.mem_ofPred_eq]
          omega
        have hmasklen := (h.words.dense_length hmask).trans hlen.symm
        rw [hset, ← h.words.dense_members hmask]
        refine ⟨?_, fun hwrote => Bool.noConfusion hwrote⟩
        cases can_copy with
        | false => exact adds_or_dense hmasklen
        | true => exact adds_copy_dense hmasklen (hcopy rfl)
      · contradiction
    · split
      · rename_i hmany
        obtain ⟨hbefore, hafter, hdiff⟩ := h.prefix_diff hdisjoint start stop (by omega)
          hmany.2
        rw [← hdiff]
        refine ⟨?_, fun hwrote => Bool.noConfusion hwrote⟩
        cases can_copy with
        | false => exact adds_or_prefix_diff (hbefore.trans hlen.symm) (hafter.trans hlen.symm)
        | true =>
          exact adds_copy_prefix_diff (hbefore.trans hlen.symm) (hafter.trans hlen.symm) (hcopy rfl)
      · exact h.adds_or_word_groups hlen start stop

theorem clears_andnot_word_group (h : Represents mapping internal_to_original buf_words)
    (hdisjoint : internal_to_original.Pairwise List.Disjoint) (hlen : out.length = buf_words)
    (g : ℕ) :
    Clears out (mapping.andnot_word_group g out).1
      (originalBits internal_to_original buf_words (groupTokens 64 g)) := by
  unfold FinalMaskMapping.andnot_word_group
  split
  · rename_i hgroup
    rw [h.words.entries_hold.missing hgroup]
    exact Clears.refl out
  · rename_i group hgroup
    split
    · rename_i mask hmask
      rw [← h.words.dense_members hmask]
      exact clears_andnot_dense ((h.words.dense_length hmask).trans hlen.symm)
    · split
      · rename_i hmany
        obtain ⟨hbefore, hafter, hdiff⟩ := h.prefix_diff hdisjoint g (g + 1) (by omega)
          hmany.2
        have hset : groupTokens 64 g = {token | g * 64 ≤ token ∧ token < (g + 1) * 64} := by
          ext token
          simp only [groupTokens, Set.mem_ofPred_eq]
          omega
        rw [hset, ← hdiff]
        exact clears_andnot_prefix_diff (hbefore.trans hlen.symm) (hafter.trans hlen.symm)
      · rw [← h.words.entries_hold.bits hgroup]
        exact clears_andnot_sparse (hlen ▸ h.words.entries_hold.fits hgroup)

theorem clears_andnot_word_groups (h : Represents mapping internal_to_original buf_words)
    (hlen : out.length = buf_words) (start k : ℕ) :
    Clears out (mapping.andnot_word_groups start (start + k) out).1
      (originalBits internal_to_original buf_words
        {token | start * 64 ≤ token ∧ token < (start + k) * 64}) := by
  unfold FinalMaskMapping.andnot_word_groups
  rw [Nat.add_sub_cancel_left]
  induction k with
  | zero =>
    have hempty : {token : ℕ | start * 64 ≤ token ∧ token < (start + 0) * 64} = ∅ := by
      ext token
      simp only [Set.mem_ofPred_eq, Set.mem_empty_iff_false, iff_false]
      omega
    rw [hempty, originalBits_empty]
    exact Clears.refl out
  | succ k ih =>
    have hset : {token | start * 64 ≤ token ∧ token < (start + (k + 1)) * 64} =
        {token | start * 64 ≤ token ∧ token < (start + k) * 64} ∪ groupTokens 64 (start + k) := by
      ext token
      simp only [groupTokens, Set.mem_ofPred_eq, Set.mem_union]
      omega
    have hold := ih.length_eq.trans hlen
    rw [List.range'_1_concat, List.foldl_concat, hset, originalBits_union]
    split
    · rename_i group hgroup
      apply ih.trans
      rw [← h.words.entries_hold.bits hgroup]
      exact clears_andnot_sparse (hold ▸ h.words.entries_hold.fits hgroup)
    · rename_i hgroup
      rw [h.words.entries_hold.missing hgroup, Set.union_empty]
      exact ih

theorem clears_andnot_word_group_run (h : Represents mapping internal_to_original buf_words)
    (hdisjoint : internal_to_original.Pairwise List.Disjoint) (hlen : out.length = buf_words)
    {start stop : ℕ} (hlt : start < stop) :
    Clears out (mapping.andnot_word_group_run start stop out).1
      (originalBits internal_to_original buf_words
        {token | start * 64 ≤ token ∧ token < stop * 64}) := by
  unfold FinalMaskMapping.andnot_word_group_run
  rw [if_neg (not_le.mpr hlt)]
  split
  · rename_i hone
    have hset : {token : ℕ | start * 64 ≤ token ∧ token < stop * 64} = groupTokens 64 start := by
      ext token
      simp only [groupTokens, Set.mem_ofPred_eq]
      omega
    rw [hset]
    exact h.clears_andnot_word_group hdisjoint hlen start
  · split
    · rename_i hmany
      obtain ⟨hbefore, hafter, hdiff⟩ := h.prefix_diff hdisjoint start stop
        (hlt.trans hmany.2) hmany.2
      rw [← hdiff]
      exact clears_andnot_prefix_diff (hbefore.trans hlen.symm) (hafter.trans hlen.symm)
    · have hgroups := h.clears_andnot_word_groups hlen start (stop - start)
      rwa [Nat.add_sub_cancel' hlt.le] at hgroups

end Represents

/-! ## Tokens of one word -/

/-- The tokens at the positions, counted from the base. -/
def tokensAt (base : ℕ) (positions : Set ℕ) : Set ℕ := {token | base ≤ token ∧ token - base ∈ positions}

theorem tokensAt_union (base : ℕ) (s t : Set ℕ) :
    tokensAt base (s ∪ t) = tokensAt base s ∪ tokensAt base t := by
  ext token
  simp only [tokensAt, Set.mem_union, Set.mem_ofPred_eq]
  tauto

@[simp] theorem tokensAt_empty (base : ℕ) : tokensAt base ∅ = ∅ := by
  ext token
  simp [tokensAt]

@[simp] theorem tokensAt_singleton (base i : ℕ) : tokensAt base {i} = {base + i} := by
  ext token
  simp only [tokensAt, Set.mem_singleton_iff, Set.mem_ofPred_eq]
  omega

theorem tokensAt_lane {base width : ℕ} (hwidth : 0 < width) (h : width ∣ base) (i : ℕ) :
    tokensAt base (lane width i) = groupTokens width (base / width + i) := by
  obtain ⟨k, hk⟩ := h
  subst hk
  ext token
  simp only [tokensAt, lane, groupTokens, Set.mem_ofPred_eq]
  rw [Nat.mul_div_cancel_left k hwidth, Nat.div_eq_iff hwidth, Nat.add_mul, Nat.mul_comm k width]
  omega

theorem tokensAt_pattern {base i pattern : ℕ} (h : 4 ∣ base) (hpattern : pattern < 2 ^ 4) :
    tokensAt base {n | i * 4 ≤ n ∧ pattern.testBit (n - i * 4) = true} =
      quadPattern ((base / 4 + i) * 16 + pattern) := by
  obtain ⟨k, hk⟩ := h
  subst hk
  have hmod : ((4 * k / 4 + i) * 16 + pattern) % 16 = pattern := by omega
  have hdiv : ((4 * k / 4 + i) * 16 + pattern) / 16 = k + i := by omega
  ext token
  simp only [tokensAt, quadPattern, Set.mem_ofPred_eq, hmod, hdiv]
  constructor
  · intro htoken
    obtain ⟨hbase, hlow, hbit⟩ := htoken
    have hsmall : token - 4 * k - i * 4 < 4 := by
      by_contra hge
      rw [Nat.testBit_lt_two_pow (lt_of_lt_of_le hpattern
        (Nat.pow_le_pow_right (by omega) (not_lt.mp hge)))] at hbit
      contradiction
    have hpos : token % 4 = token - 4 * k - i * 4 := by omega
    rw [hpos]
    exact ⟨by omega, hbit⟩
  · intro htoken
    obtain ⟨hquad, hbit⟩ := htoken
    have hpos : token - 4 * k - i * 4 = token % 4 := by omega
    rw [hpos]
    exact ⟨by omega, by omega, hbit⟩

namespace Represents

variable {mapping : FinalMaskMapping} {internal_to_original : List (List ℕ)} {buf_words : ℕ}
  {out : Words}

theorem clears_andnot_bits_fast (h : Represents mapping internal_to_original buf_words)
    (hdisjoint : internal_to_original.Pairwise List.Disjoint) (hlen : out.length = buf_words)
    {base : ℕ} (hbase : 64 ∣ base) (bits : BitVec 64) :
    Clears out (mapping.andnot_bits_fast base bits out)
      (originalBits internal_to_original buf_words (tokensAt base (ones bits))) := by
  unfold FinalMaskMapping.andnot_bits_fast
  split
  · rename_i hall
    have hones : ones bits = lane 64 0 := by
      ext i
      rw [hall, mem_ones, BitVec.getLsbD_allOnes]
      simp [lane]
    rw [hones, tokensAt_lane (by omega) hbase, Nat.add_zero]
    exact h.clears_andnot_word_group hdisjoint hlen _
  · -- what is acted on so far is cleared
    have hadd : ∀ {done group : Set ℕ} {words words' : Words} {cover : Set ℕ},
        tokensAt base group = cover →
        Clears out words (originalBits internal_to_original buf_words (tokensAt base done)) →
        Clears words words' (originalBits internal_to_original buf_words cover) →
        Clears out words' (originalBits internal_to_original buf_words
          (tokensAt base (done ∪ group))) := by
      intro done group words words' cover hcover hdone hstep
      rw [tokensAt_union, originalBits_union, hcover]
      exact hdone.trans hstep
    have hstart : Scanned (fun done words => Clears out words
        (originalBits internal_to_original buf_words (tokensAt base done))) (ones bits) (bits, out) :=
      Scanned.start (by simp)
    refine ((((hstart.fullLanes (by omega) ?_).fullLanes (by omega) ?_).fullLanes (by omega)
      ?_).lanePatterns (by omega) ?_).forEachBit ?_
    · intro done words i _ _ hdone
      exact hadd (tokensAt_lane (by omega) (by omega) i) hdone
        (clears_andnot_group h.word32s (hdone.length_eq.trans hlen) _)
    · intro done words i _ _ hdone
      exact hadd (tokensAt_lane (by omega) (by omega) i) hdone
        (clears_andnot_group h.halfwords (hdone.length_eq.trans hlen) _)
    · intro done words i _ _ hdone
      exact hadd (tokensAt_lane (by omega) (by omega) i) hdone
        (clears_andnot_group h.bytes (hdone.length_eq.trans hlen) _)
    · intro done words i pattern _ hpattern hdone
      exact hadd (tokensAt_pattern (by omega) hpattern) hdone
        (clears_andnot_group h.quad_patterns (hdone.length_eq.trans hlen) _)
    · intro done words i _ hdone
      exact hadd (tokensAt_singleton base i) hdone
        (h.clears_andnot_token (hdone.length_eq.trans hlen) _)

theorem group_complement_bits_eq {base : ℕ} {bits missing : BitVec 64} {group_id : ℕ}
    (h : mapping.group_complement_bits base bits = some (group_id, missing)) :
    group_id = base / 64 ∧ missing = ~~~bits := by
  unfold FinalMaskMapping.group_complement_bits at h
  split at h
  · contradiction
  · split at h
    · contradiction
    · split at h
      · contradiction
      · dsimp only at h
        generalize (if entry_count mapping.word_group_entries (base / 64) > mapping.buf_words / 4
          then mapping.buf_words else entry_count mapping.word_group_entries (base / 64)) = cost at h
        split at h
        · have hpair := Option.some.inj h
          exact ⟨(congrArg Prod.fst hpair).symm, (congrArg Prod.snd hpair).symm⟩
        · contradiction

/-- Adding the whole group and clearing the missing tokens is allowed where
nothing of the group is set yet. -/
theorem adds_or_bits_fast (h : Represents mapping internal_to_original buf_words)
    (hdisjoint : internal_to_original.Pairwise List.Disjoint) (hlen : out.length = buf_words)
    {base : ℕ} (hbase : 64 ∣ base) (bits : BitVec 64) (allow : Bool)
    (hfree : allow = true → Disjoint (members out)
      (originalBits internal_to_original buf_words (groupTokens 64 (base / 64)))) :
    Adds out (mapping.or_bits_fast base bits out allow)
      (originalBits internal_to_original buf_words (tokensAt base (ones bits))) := by
  unfold FinalMaskMapping.or_bits_fast
  split
  · rename_i group_id missing hsome
    split at hsome
    · rename_i hallow
      obtain ⟨hgroup, hmissing⟩ := group_complement_bits_eq hsome
      subst hgroup
      subst hmissing
      obtain ⟨hadds, -⟩ := h.adds_or_full_group_run hdisjoint hlen (base / 64)
        (base / 64 + 1) false (fun hfalse => Bool.noConfusion hfalse)
      have hset : {token : ℕ | base / 64 * 64 ≤ token ∧ token < (base / 64 + 1) * 64} =
          groupTokens 64 (base / 64) := by
        ext token
        simp only [groupTokens, Set.mem_ofPred_eq]
        omega
      rw [hset] at hadds
      have hclears := h.clears_andnot_bits_fast hdisjoint (hadds.length_eq.trans hlen) hbase (~~~bits)
      have hpart : tokensAt base (ones (~~~bits)) ⊆ groupTokens 64 (base / 64) := by
        intro token htoken
        have hlt := lt_of_mem_ones htoken.2
        have hge := htoken.1
        show token / 64 = base / 64
        omega
      have hresult := hadds.clear hclears ((hfree hallow).mono_right (originalBits_mono hpart))
      rw [originalBits_sdiff hdisjoint] at hresult
      have hrest : groupTokens 64 (base / 64) \ tokensAt base (ones (~~~bits)) =
          tokensAt base (ones bits) := by
        ext token
        simp only [groupTokens, tokensAt, Set.mem_sdiff, Set.mem_ofPred_eq, mem_ones,
          BitVec.getLsbD_not, Bool.and_eq_true, decide_eq_true_eq, Bool.not_eq_true',
          not_and, Bool.not_eq_false]
        constructor
        · intro hin
          exact ⟨by omega, hin.2 (by omega) (by omega)⟩
        · intro hin
          have hlt : token - base < 64 := lt_of_mem_ones hin.2
          exact ⟨by omega, fun _ _ => hin.2⟩
      rwa [hrest] at hresult
    · contradiction
  · have hadd : ∀ {done group : Set ℕ} {words words' : Words} {cover : Set ℕ},
        tokensAt base group = cover →
        Adds out words (originalBits internal_to_original buf_words (tokensAt base done)) →
        Adds words words' (originalBits internal_to_original buf_words cover) →
        Adds out words' (originalBits internal_to_original buf_words
          (tokensAt base (done ∪ group))) := by
      intro done group words words' cover hcover hdone hstep
      rw [tokensAt_union, originalBits_union, hcover]
      exact hdone.trans hstep
    have hstart : Scanned (fun done words => Adds out words
        (originalBits internal_to_original buf_words (tokensAt base done))) (ones bits) (bits, out) :=
      Scanned.start (by simp)
    refine ((hstart.fullLanes (by omega) ?_).lanePatterns (by omega) ?_).forEachBit ?_
    · intro done words i _ _ hdone
      exact hadd (tokensAt_lane (by omega) (by omega) i) hdone
        (adds_or_group h.bytes (hdone.length_eq.trans hlen) _)
    · intro done words i pattern _ hpattern hdone
      exact hadd (tokensAt_pattern (by omega) hpattern) hdone
        (adds_or_group h.quad_patterns (hdone.length_eq.trans hlen) _)
    · intro done words i _ hdone
      exact hadd (tokensAt_singleton base i) hdone
        (h.adds_or_token (hdone.length_eq.trans hlen) _)

end Represents

end MaskMapping

end GlrMask
