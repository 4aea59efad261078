import GlrMask.MaskMappingIds
import GlrMask.MaskMappingProfile

/-!
# When the bitmap is exact

A mapping writes exactly the original ids of every selection when no word index
is cut off and the selection has words for all tokens with original ids in the
mask. The index of an entry has 16 bits, and the words a selection leaves out
count as selected where the missing tokens are cleared.
-/

namespace GlrMask

namespace MaskMapping

open WordBitmap BitScan FinalMaskMapping

/-- Every way to write a selection writes exactly its original ids: given by
dense words onto any mask and onto a zeroed one, or by internal ids. -/
structure WritesExactBitmap (internal_to_original : List (List ℕ)) (buf_words : ℕ)
    (dense : List (BitVec 64)) (internal_ids : List ℕ) (buf : Words) : Prop where
  or_dense_to_buf : Adds buf
    ((FinalMaskMapping.new internal_to_original buf_words).or_dense_to_buf dense buf false).1
    (originalBits internal_to_original buf_words (members dense))
  or_dense_to_buf_fast : Adds buf
    ((FinalMaskMapping.new internal_to_original buf_words).or_dense_to_buf_fast dense buf false)
    (originalBits internal_to_original buf_words (members dense))
  or_dense_to_buf_zeroed : Adds (zeros buf_words)
    ((FinalMaskMapping.new internal_to_original buf_words).or_dense_to_buf dense
      (zeros buf_words) true).1
    (originalBits internal_to_original buf_words (members dense))
  or_dense_to_buf_fast_zeroed : Adds (zeros buf_words)
    ((FinalMaskMapping.new internal_to_original buf_words).or_dense_to_buf_fast dense
      (zeros buf_words) true)
    (originalBits internal_to_original buf_words (members dense))
  fill_dense_words : Adds (zeros buf_words)
    ((FinalMaskMapping.new internal_to_original buf_words).fill_dense_words dense (zeros buf_words))
    (originalBits internal_to_original buf_words (members dense))
  fill_dense_words_complement : Adds (zeros buf_words)
    ((FinalMaskMapping.new internal_to_original buf_words).fill_dense_words_complement dense
      (zeros buf_words))
    (originalBits internal_to_original buf_words (members dense))
  fill_internal_ids : Adds (zeros buf_words)
    ((FinalMaskMapping.new internal_to_original buf_words).fill_internal_ids internal_ids
      (zeros buf_words))
    (originalBits internal_to_original buf_words {token | token ∈ internal_ids})

/-! ## Narrow indices -/

section Narrow

variable {internal_to_original : List (List ℕ)} {buf_words : ℕ} {dense : List (BitVec 64)}
  {internal_ids : List ℕ} {buf : Words}

theorem writes_exact_of_covers (hdisjoint : internal_to_original.Pairwise List.Disjoint)
    (hnarrow : NarrowIndices internal_to_original buf_words)
    (hcovers : CoversTokens internal_to_original buf_words dense.length)
    (hascending : internal_ids.Pairwise (· < ·)) (hbuf : buf.length = buf_words) :
    WritesExactBitmap internal_to_original buf_words dense internal_ids buf := by
  have h := represents_new hdisjoint hnarrow
  have honto := h.adds_or_dense_to_buf_fast hdisjoint hbuf dense false
    (fun hfalse => Bool.noConfusion hfalse) (fun hfalse => Bool.noConfusion hfalse)
  have hzeroed := h.adds_or_dense_to_buf_fast hdisjoint (length_zeros buf_words) dense true
    (fun _ => members_zeros buf_words) (fun _ => hcovers)
  have hcomplement := h.adds_complement hdisjoint (length_zeros buf_words)
    (members_zeros buf_words) dense
  rw [originalBits_union, coversTokens_iff.mp hcovers, Set.union_empty] at hcomplement
  constructor
  · rw [or_dense_to_buf_fst]
    exact honto
  · exact honto
  · rw [or_dense_to_buf_fst]
    exact hzeroed
  · exact hzeroed
  · exact hzeroed
  · exact hcomplement
  · exact h.adds_fill_internal_ids hdisjoint (length_zeros buf_words) (members_zeros buf_words)
      hascending

/-- The tokens of absent words are left selected by clearing, so they must not count. -/
theorem covers_of_writes_exact (hdisjoint : internal_to_original.Pairwise List.Disjoint)
    (hnarrow : NarrowIndices internal_to_original buf_words)
    (h : WritesExactBitmap internal_to_original buf_words dense internal_ids buf) :
    CoversTokens internal_to_original buf_words dense.length := by
  have hcomplement := (represents_new hdisjoint hnarrow).adds_complement hdisjoint
    (length_zeros buf_words) (members_zeros buf_words) dense
  have hexact := h.fill_dense_words_complement.members_eq
  unfold FinalMaskMapping.fill_dense_words_complement at hexact
  rw [hcomplement.members_eq, members_zeros, Set.empty_union, Set.empty_union,
    originalBits_union] at hexact
  have hin := Set.union_eq_left.mp hexact
  have hapart : Disjoint (members dense) {token | dense.length * 64 ≤ token} := by
    rw [Set.disjoint_left]
    intro token hmem hge
    have hlt := div_lt_length hmem
    have : dense.length * 64 ≤ token := hge
    omega
  rw [coversTokens_iff, ← Set.subset_empty_iff]
  intro n hn
  exact Set.disjoint_left.mp (originalBits_disjoint hdisjoint hapart) (hin hn) hn

end Narrow

/-! ## Wide indices -/

section Wide

variable {out : Words} {n : ℕ}

theorem bitAt_modify_of_ne {i : ℕ} (f : BitVec 32 → BitVec 32) (h : i ≠ n / 32) :
    bitAt (out.modify i f) n = bitAt out n := by
  unfold bitAt
  simp [List.getD_eq_getElem?_getD, h]

theorem word_idx_ne (entry : SparseEntry) (hn : 2 ^ 16 ≤ n / 32) :
    entry.word_idx.toNat ≠ n / 32 := by
  have := entry.word_idx.isLt
  omega

/-- Entries do not reach the words from `2 ^ 16` on. -/
theorem bitAt_or_sparse (entries : List SparseEntry) (hn : 2 ^ 16 ≤ n / 32) :
    bitAt (or_sparse out entries) n = bitAt out n := by
  unfold or_sparse
  induction entries generalizing out with
  | nil => rfl
  | cons entry entries ih => rw [List.foldl_cons, ih, bitAt_modify_of_ne _ (word_idx_ne entry hn)]

theorem bitAt_andnot_sparse (entries : List SparseEntry) (hn : 2 ^ 16 ≤ n / 32) :
    bitAt (andnot_sparse out entries) n = bitAt out n := by
  unfold andnot_sparse
  induction entries generalizing out with
  | nil => rfl
  | cons entry entries ih => rw [List.foldl_cons, ih, bitAt_modify_of_ne _ (word_idx_ne entry hn)]

theorem length_or_sparse (entries : List SparseEntry) : (or_sparse out entries).length = out.length := by
  unfold or_sparse
  induction entries generalizing out with
  | nil => rfl
  | cons entry entries ih => rw [List.foldl_cons, ih, List.length_modify]

variable {mapping : FinalMaskMapping}

theorem bitAt_or_token (token : ℕ) (hn : 2 ^ 16 ≤ n / 32) :
    bitAt (mapping.or_token token out).1 n = bitAt out n := by
  unfold FinalMaskMapping.or_token
  split
  · exact bitAt_or_sparse _ hn
  · rfl

theorem bitAt_andnot_tokens (expected stop : ℕ) (hn : 2 ^ 16 ≤ n / 32) :
    bitAt (mapping.andnot_tokens expected stop out) n = bitAt out n := by
  unfold FinalMaskMapping.andnot_tokens
  induction (List.range' expected (stop - expected)) generalizing out with
  | nil => rfl
  | cons token rest ih =>
    rw [List.foldl_cons, ih]
    unfold FinalMaskMapping.andnot_token
    split
    · exact bitAt_andnot_sparse _ hn
    · rfl

theorem bitAt_andnot_missing_ids_loop (ids : List ℕ) (expected : ℕ) (hn : 2 ^ 16 ≤ n / 32) :
    bitAt (mapping.andnot_missing_ids_loop expected ids out) n = bitAt out n := by
  induction ids generalizing expected out with
  | nil => exact bitAt_andnot_tokens _ _ hn
  | cons selected rest ih =>
    unfold FinalMaskMapping.andnot_missing_ids_loop
    split
    · exact bitAt_andnot_tokens _ _ hn
    · rw [ih, bitAt_andnot_tokens _ _ hn]

/-- A walk by single tokens. -/
theorem bitAt_walk_tokens (cond : ℕ → Bool) (fuel : ℕ) (state : RunWalk) (hn : 2 ^ 16 ≤ n / 32) :
    bitAt (walk cond 1 mapping.or_token fuel state).out n = bitAt state.out n := by
  induction fuel generalizing state with
  | zero => rfl
  | succ fuel ih =>
    unfold walk
    split
    · rw [ih]
      exact bitAt_or_token _ hn
    · rfl

theorem walk_of_false {cond : ℕ → Bool} {step : ℕ} {act : ℕ → Words → Words × Bool} (fuel : ℕ)
    {state : RunWalk} (h : cond state.start = false) : walk cond step act fuel state = state := by
  cases fuel with
  | zero => rfl
  | succ fuel =>
    unfold walk
    rw [h]
    rfl

theorem le_walk {cond : ℕ → Bool} {step : ℕ} {act : ℕ → Words → Words × Bool} (fuel : ℕ)
    (state : RunWalk) : state.start ≤ (walk cond step act fuel state).start := by
  induction fuel generalizing state with
  | zero => exact le_refl _
  | succ fuel ih =>
    unfold walk
    split
    · have hnext := ih ⟨state.start + step, state.wrote || (act state.start state.out).2,
        (act state.start state.out).1⟩
      exact (Nat.le_add_right state.start step).trans hnext
    · exact le_refl _

/-- The run of one token is written by itself. -/
theorem bitAt_or_internal_run_single (token : ℕ) (can_copy : Bool) (hn : 2 ^ 16 ≤ n / 32) :
    bitAt (mapping.or_internal_run token (token + 1) out can_copy).1 n = bitAt out n := by
  unfold FinalMaskMapping.or_internal_run
  extract_lets tokens_4 quads_8 tokens_8 bytes_64 tokens_64 group_start group_end written
    groups bytes quads tokens
  have hge_4 : token ≤ tokens_4.start := le_walk (token + 1) ⟨token, false, out⟩
  have hquads_8 : quads_8 = tokens_4 := by
    apply walk_of_false
    rw [Bool.and_eq_false_iff]
    exact .inl (decide_eq_false (by omega))
  have hge_8 : token ≤ tokens_8.start := (hquads_8 ▸ hge_4).trans (le_walk _ quads_8)
  have hbytes_64 : bytes_64 = tokens_8 := by
    apply walk_of_false
    rw [Bool.and_eq_false_iff]
    exact .inl (decide_eq_false (by omega))
  have hge_64 : token ≤ tokens_64.start := (hbytes_64 ▸ hge_8).trans (le_walk _ bytes_64)
  have haligned : 64 ∣ tokens_64.start ∨ token + 1 ≤ tokens_64.start :=
    Represents.aligned_or_stop mapping.or_token 64 (token + 1) bytes_64
  have hgroups : groups = tokens_64 := by
    apply if_neg
    have hstart : group_start = tokens_64.start / 64 := rfl
    have hend : group_end = (token + 1) / 64 := rfl
    omega
  have hbytes : bytes = groups := walk_of_false _ (decide_eq_false (by rw [hgroups]; omega))
  have hquads : quads = bytes := walk_of_false _ (decide_eq_false (by rw [hbytes, hgroups]; omega))
  calc bitAt tokens.out n = bitAt quads.out n := bitAt_walk_tokens _ _ _ hn
    _ = bitAt tokens_64.out n := by rw [hquads, hbytes, hgroups]
    _ = bitAt bytes_64.out n := bitAt_walk_tokens _ _ _ hn
    _ = bitAt tokens_8.out n := by rw [hbytes_64]
    _ = bitAt quads_8.out n := bitAt_walk_tokens _ _ _ hn
    _ = bitAt tokens_4.out n := by rw [hquads_8]
    _ = bitAt out n := bitAt_walk_tokens _ _ _ hn

/-- The mask of all tokens does not reach the words from `2 ^ 16` on. -/
theorem bitAt_all_tokens_mask (internal_to_original : List (List ℕ)) (buf_words : ℕ)
    (hn : 2 ^ 16 ≤ n / 32) :
    (FinalMaskMapping.new internal_to_original buf_words).all_tokens_mask.length = buf_words ∧
      bitAt (FinalMaskMapping.new internal_to_original buf_words).all_tokens_mask n = false := by
  have hmask : (FinalMaskMapping.new internal_to_original buf_words).all_tokens_mask =
      (compute_block_entries (compute_token_entries internal_to_original buf_words) buf_words
        64).foldl or_sparse (zeros buf_words) := by
    unfold FinalMaskMapping.new compute_dense_prefix
    dsimp only
    rw [List.getLast?_scanl]
    rfl
  have hfold : ∀ (groups : List (List SparseEntry)) (out : Words),
      (groups.foldl or_sparse out).length = out.length ∧
        bitAt (groups.foldl or_sparse out) n = bitAt out n := by
    intro groups
    induction groups with
    | nil => exact fun out => ⟨rfl, rfl⟩
    | cons group groups ih =>
      intro out
      obtain ⟨hlen, hbit⟩ := ih (or_sparse out group)
      exact ⟨hlen.trans (length_or_sparse group), hbit.trans (bitAt_or_sparse group hn)⟩
  obtain ⟨hlen, hbit⟩ := hfold _ (zeros buf_words)
  rw [hmask, hlen, hbit, length_zeros]
  refine ⟨rfl, ?_⟩
  rw [← Bool.not_eq_true, ← mem_members, members_zeros]
  exact Set.notMem_empty n

end Wide

/-! ## The condition -/

/-- An original id whose word index does not fit is never written. -/
theorem not_writes_exact_of_wide {internal_to_original : List (List ℕ)} {buf_words token original : ℕ}
    {ids : List ℕ} (hids : internal_to_original[token]? = some ids) (hmem : original ∈ ids)
    (hin : original / 32 < buf_words) (hwide : 2 ^ 16 ≤ original / 32)
    {dense : List (BitVec 64)} {buf : Words} :
    ¬WritesExactBitmap internal_to_original buf_words dense [token] buf := by
  intro h
  have hset : original ∈ originalBits internal_to_original buf_words
      {token' | token' ∈ [token]} :=
    ⟨hin, token, List.mem_singleton.mpr rfl, ids, hids, hmem⟩
  have hmembers := h.fill_internal_ids.members_eq
  rw [members_zeros, Set.empty_union] at hmembers
  rw [← hmembers, mem_members] at hset
  have hzero : bitAt (zeros buf_words) original = false := by
    rw [← Bool.not_eq_true, ← mem_members, members_zeros]
    exact Set.notMem_empty original
  have hlt := (List.getElem?_eq_some_iff.mp hids).1
  have hlen : (FinalMaskMapping.new internal_to_original buf_words).token_entries.len =
      internal_to_original.length :=
    (EntryTable.len_from_groups _).trans length_compute_token_entries
  unfold FinalMaskMapping.fill_internal_ids at hset
  dsimp only at hset
  split at hset
  · obtain ⟨hmask, hfalse⟩ := bitAt_all_tokens_mask internal_to_original buf_words hwide
    unfold FinalMaskMapping.andnot_missing_ids at hset
    rw [bitAt_andnot_missing_ids_loop _ _ hwide,
      copy_dense_eq (hmask.trans (length_zeros buf_words).symm), hfalse] at hset
    contradiction
  · have hrun : (FinalMaskMapping.new internal_to_original buf_words).fill_internal_ids_by_runs
        [token] (zeros buf_words) =
        (if (FinalMaskMapping.new internal_to_original buf_words).token_entries.len < token + 1 then
          (FinalMaskMapping.new internal_to_original buf_words).or_tokens
            ([token].take (token + 1 - token)) (zeros buf_words)
        else (FinalMaskMapping.new internal_to_original buf_words).or_internal_run token (token + 1)
          (zeros buf_words) true).1 := rfl
    rw [hrun, if_neg (by rw [hlen]; omega), bitAt_or_internal_run_single _ _ hwide, hzero] at hset
    contradiction

/-- With narrow indices a selection is written exactly when it has words for all
tokens with original ids in the mask. For all selections of a length the mask is
exact just when, besides, the indices are narrow. -/
theorem writes_exact_bitmap_iff (internal_to_original : List (List ℕ)) (buf_words : ℕ)
    (hdisjoint : internal_to_original.Pairwise List.Disjoint) :
    (NarrowIndices internal_to_original buf_words →
      ∀ dense internal_ids buf, internal_ids.Pairwise (· < ·) → buf.length = buf_words →
        (WritesExactBitmap internal_to_original buf_words dense internal_ids buf ↔
          CoversTokens internal_to_original buf_words dense.length)) ∧
    ∀ n_words, (∀ dense internal_ids buf, dense.length = n_words →
        internal_ids.Pairwise (· < ·) → buf.length = buf_words →
        WritesExactBitmap internal_to_original buf_words dense internal_ids buf) ↔
      NarrowIndices internal_to_original buf_words ∧
        CoversTokens internal_to_original buf_words n_words := by
  constructor
  · intro hnarrow dense internal_ids buf hascending hbuf
    exact ⟨covers_of_writes_exact hdisjoint hnarrow,
      fun hcovers => writes_exact_of_covers hdisjoint hnarrow hcovers hascending hbuf⟩
  · intro n_words
    constructor
    · intro h
      have hnarrow : NarrowIndices internal_to_original buf_words := by
        intro ids hmem original horiginal hin
        by_contra hwide
        obtain ⟨token, htoken⟩ := List.mem_iff_getElem?.mp hmem
        exact not_writes_exact_of_wide htoken horiginal hin (not_lt.mp hwide)
          (h (List.replicate n_words 0#64) [token] (zeros buf_words) List.length_replicate
            (List.pairwise_singleton _ _) (length_zeros buf_words))
      refine ⟨hnarrow, ?_⟩
      have hexact := h (List.replicate n_words 0#64) [] (zeros buf_words) List.length_replicate
        List.Pairwise.nil (length_zeros buf_words)
      have hcovers := covers_of_writes_exact hdisjoint hnarrow hexact
      rwa [List.length_replicate] at hcovers
    · intro h dense internal_ids buf hlength hascending hbuf
      exact writes_exact_of_covers hdisjoint h.1 (hlength ▸ h.2) hascending hbuf

/-- A selection in one word of four tokens. -/
theorem writes_exact_one_word :
    WritesExactBitmap [[0, 4], [1], [2, 5], [3]] 1 [5#64] [0, 2] [8#32] := by
  have hdisjoint : List.Pairwise List.Disjoint [[0, 4], [1], [2, 5], [3]] := by
    simp [List.Disjoint]
  have hnarrow : NarrowIndices [[0, 4], [1], [2, 5], [3]] 1 := by
    unfold NarrowIndices
    decide
  have hcovers : CoversTokens [[0, 4], [1], [2, 5], [3]] 1 [5#64].length := by
    intro token ids hids hge
    rw [List.length_singleton] at hge
    rw [List.getElem?_eq_none (by simp; omega)] at hids
    contradiction
  exact ((writes_exact_bitmap_iff [[0, 4], [1], [2, 5], [3]] 1 hdisjoint).1 hnarrow [5#64] [0, 2]
    [8#32] (by decide) rfl).mpr hcovers

/-- 65 tokens, each with one original id. -/
def singleTokens : List (List ℕ) := (List.range 65).map (fun token => [token])

/-- One full word selects 64 of 65 tokens, and the mask gets all 65. An original id
of word `2 ^ 16` is never written. -/
theorem absent_word_and_wide_index :
    (FinalMaskMapping.new singleTokens 3).fill_dense_words [BitVec.allOnes 64] (zeros 3) =
        [BitVec.allOnes 32, BitVec.allOnes 32, 1#32] ∧
      ¬WritesExactBitmap singleTokens 3 [BitVec.allOnes 64] [] (zeros 3) ∧
      ¬WritesExactBitmap [[2 ^ 21]] (2 ^ 16 + 1) [1#64] [0] (zeros (2 ^ 16 + 1)) := by
  have hwritten : (FinalMaskMapping.new singleTokens 3).fill_dense_words [BitVec.allOnes 64]
      (zeros 3) = [BitVec.allOnes 32, BitVec.allOnes 32, 1#32] := by decide +kernel
  refine ⟨hwritten, ?_, not_writes_exact_of_wide rfl (List.mem_singleton_self _) (by norm_num)
    (by norm_num)⟩
  intro h
  have hmembers := h.fill_dense_words.members_eq
  rw [hwritten, members_zeros, Set.empty_union] at hmembers
  have hset : 64 ∈ members [BitVec.allOnes 32, BitVec.allOnes 32, 1#32] := by
    rw [mem_members]
    rfl
  rw [hmembers] at hset
  obtain ⟨-, token, htoken, ids, hids, hmem⟩ := hset
  have hlt := div_lt_length htoken
  rw [List.length_singleton] at hlt
  unfold singleTokens at hids
  rw [List.getElem?_map, List.getElem?_range (by omega), Option.map_some, Option.some.injEq] at hids
  rw [← hids, List.mem_singleton] at hmem
  omega

end MaskMapping

end GlrMask
