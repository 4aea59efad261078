import GlrMask.MaskMappingOps
import GlrMask.MaskMappingTables

/-!
# What a new mask mapping represents

The groups of each table hold the original ids of their tokens, so the mapping
represents the lists it was made from.
-/

namespace GlrMask

namespace MaskMapping

open WordBitmap BitScan

/-- Group by group, the entries are the original ids of the tokens they cover. -/
structure Holds (internal_to_original : List (List ℕ)) (buf_words : ℕ)
    (groups : ℕ → Option (List SparseEntry)) (cover : ℕ → Set ℕ) : Prop where
  fits : ∀ {g entries}, groups g = some entries → Fits buf_words entries
  bits : ∀ {g entries}, groups g = some entries →
    entriesBits entries = originalBits internal_to_original buf_words (cover g)
  missing : ∀ {g}, groups g = none → originalBits internal_to_original buf_words (cover g) = ∅

section Groups

variable {internal_to_original : List (List ℕ)} {buf_words : ℕ}

theorem getElem?_compute_token_entries (token : ℕ) :
    (compute_token_entries internal_to_original buf_words)[token]? =
      internal_to_original[token]?.map (token_entry buf_words) :=
  List.getElem?_map

theorem length_compute_token_entries :
    (compute_token_entries internal_to_original buf_words).length = internal_to_original.length :=
  List.length_map ..

theorem holds_token_entries (hnarrow : NarrowIndices internal_to_original buf_words) :
    Holds internal_to_original buf_words
      (fun token => (compute_token_entries internal_to_original buf_words)[token]?)
      (fun token => {token}) := by
  constructor
  · intro token entries hget
    rw [getElem?_compute_token_entries, Option.map_eq_some_iff] at hget
    obtain ⟨ids, -, heq⟩ := hget
    exact heq ▸ fits_token_entry buf_words ids
  · intro token entries hget
    rw [getElem?_compute_token_entries, Option.map_eq_some_iff] at hget
    obtain ⟨ids, hids, heq⟩ := hget
    rw [← heq, entriesBits_token_entry (hnarrow ids (List.mem_of_getElem? hids))]
    ext n
    simp [originalBits, hids]
  · intro token hget
    rw [getElem?_compute_token_entries, Option.map_eq_none_iff] at hget
    ext n
    simp [originalBits, hget]

/-- The entries of the tokens of a set, merged. -/
theorem merge_tokens (hnarrow : NarrowIndices internal_to_original buf_words)
    {groups : List (List SparseEntry)} {tokens : Set ℕ}
    (h : ∀ entries, entries ∈ groups ↔ ∃ token ∈ tokens,
      (compute_token_entries internal_to_original buf_words)[token]? = some entries) :
    Fits buf_words (merge_entries buf_words groups) ∧
      entriesBits (merge_entries buf_words groups) =
        originalBits internal_to_original buf_words tokens := by
  have htokens := holds_token_entries hnarrow
  have hfits : ∀ entries ∈ groups, Fits buf_words entries := by
    intro entries hmem
    obtain ⟨token, -, hget⟩ := (h entries).mp hmem
    exact htokens.fits hget
  refine ⟨fits_merge_entries hfits, ?_⟩
  rw [entriesBits_merge_entries hfits]
  ext n
  rw [mem_entriesBits_flatten]
  constructor
  · intro hn
    obtain ⟨entries, hmem, hbit⟩ := hn
    obtain ⟨token, htoken, hget⟩ := (h entries).mp hmem
    rw [htokens.bits hget] at hbit
    exact originalBits_mono (Set.singleton_subset_iff.mpr htoken) hbit
  · intro hn
    obtain ⟨hlt, token, htoken, ids, hids, hmem⟩ := hn
    have hget : (compute_token_entries internal_to_original buf_words)[token]? = _ :=
      getElem?_compute_token_entries token
    rw [hids, Option.map_some] at hget
    refine ⟨_, (h _).mpr ⟨token, htoken, hget⟩, ?_⟩
    rw [htokens.bits hget]
    exact ⟨hlt, token, rfl, ids, hids, hmem⟩

theorem mem_slice {l : List (List SparseEntry)} {start stop : ℕ} (entries : List SparseEntry) :
    entries ∈ (l.take stop).drop start ↔ ∃ i, start ≤ i ∧ i < stop ∧ l[i]? = some entries := by
  rw [List.mem_iff_getElem?]
  constructor
  · intro h
    obtain ⟨i, hi⟩ := h
    rw [List.getElem?_drop, List.getElem?_take] at hi
    split at hi
    · rename_i hlt
      exact ⟨start + i, by omega, hlt, hi⟩
    · contradiction
  · intro h
    obtain ⟨i, hstart, hstop, hi⟩ := h
    refine ⟨i - start, ?_⟩
    rw [List.getElem?_drop, List.getElem?_take, Nat.add_sub_cancel' hstart, if_pos hstop, hi]

theorem lt_div_ceil {n d i : ℕ} (hd : 0 < d) : i < div_ceil n d ↔ i * d < n := by
  unfold div_ceil
  rw [Nat.lt_div_iff_mul_lt hd]
  omega

/-- Beyond the last group there are no tokens. -/
theorem originalBits_beyond {tokens : Set ℕ}
    (h : ∀ token ∈ tokens, internal_to_original.length ≤ token) :
    originalBits internal_to_original buf_words tokens = ∅ := by
  have hempty : originalBits internal_to_original buf_words ∅ = ∅ := originalBits_empty
  rw [← hempty]
  apply originalBits_congr
  intro token hlt
  constructor
  · intro hmem
    have := h token hmem
    omega
  · intro hmem
    contradiction

theorem getElem?_map_range {β : Type} (f : ℕ → β) (n g : ℕ) :
    ((List.range n).map f)[g]? = if g < n then some (f g) else none := by
  rw [List.getElem?_map]
  by_cases hg : g < n
  · rw [List.getElem?_range hg, if_pos hg, Option.map_some]
  · rw [List.getElem?_eq_none (by simpa using hg), if_neg hg, Option.map_none]

theorem Holds.of_build {groups : ℕ → Option (List SparseEntry)} {cover : ℕ → Set ℕ}
    (build : ℕ → List SparseEntry) (n : ℕ)
    (hgroups : ∀ g, groups g = if g < n then some (build g) else none)
    (hbuild : ∀ g < n, Fits buf_words (build g) ∧
      entriesBits (build g) = originalBits internal_to_original buf_words (cover g))
    (hbeyond : ∀ g, n ≤ g → ∀ token ∈ cover g, internal_to_original.length ≤ token) :
    Holds internal_to_original buf_words groups cover := by
  constructor
  · intro g entries hget
    rw [hgroups] at hget
    split at hget
    · rename_i hg
      rw [← Option.some.inj hget]
      exact (hbuild g hg).1
    · contradiction
  · intro g entries hget
    rw [hgroups] at hget
    split at hget
    · rename_i hg
      rw [← Option.some.inj hget]
      exact (hbuild g hg).2
    · contradiction
  · intro g hget
    rw [hgroups] at hget
    split at hget
    · contradiction
    · rename_i hg
      exact originalBits_beyond (hbeyond g (not_lt.mp hg))

theorem holds_block_entries (hnarrow : NarrowIndices internal_to_original buf_words)
    {block_size : ℕ} (hsize : 0 < block_size) :
    Holds internal_to_original buf_words (fun g => (compute_block_entries
      (compute_token_entries internal_to_original buf_words) buf_words block_size)[g]?)
      (fun g => {token | token / block_size = g}) := by
  apply Holds.of_build _ _ (fun g => getElem?_map_range _ _ g)
  · intro g _
    apply merge_tokens hnarrow
    intro entries
    rw [mem_slice, length_compute_token_entries]
    constructor
    · intro h
      obtain ⟨i, hstart, hstop, hi⟩ := h
      refine ⟨i, ?_, hi⟩
      show i / block_size = g
      rw [Nat.div_eq_iff hsize]
      omega
    · intro h
      obtain ⟨i, hdiv, hi⟩ := h
      have hblock : i / block_size = g := hdiv
      rw [Nat.div_eq_iff hsize] at hblock
      have hlt := (List.getElem?_eq_some_iff.mp hi).1
      rw [length_compute_token_entries] at hlt
      exact ⟨i, by omega, by omega, hi⟩
  · intro g hg token htoken
    have hblock : token / block_size = g := htoken
    rw [← not_lt, lt_div_ceil hsize, length_compute_token_entries, not_lt] at hg
    have := Nat.div_mul_le_self token block_size
    rw [hblock] at this
    omega

/-- The tokens of a quad that a pattern selects. -/
def quadPattern (index : ℕ) : Set ℕ :=
  {token | token / 4 = index / 16 ∧ (index % 16).testBit (token % 4) = true}

theorem getElem?_build_group (token_entries : List (List SparseEntry)) (g pattern : ℕ) :
    (build_group token_entries buf_words g)[pattern]? =
      if pattern < 16 then some (if pattern = 0 then [] else
        merge_entries buf_words ((List.range 4).filterMap (fun bit =>
          if pattern.testBit bit = false then none
          else if min (g * 4 + 4) token_entries.length ≤ g * 4 + bit then none
          else token_entries[g * 4 + bit]?))) else none := by
  unfold build_group
  cases pattern with
  | zero => rfl
  | succ pattern =>
    rw [List.getElem?_cons_succ, List.getElem?_map]
    by_cases hlt : pattern + 1 < 16
    · rw [List.getElem?_range' (by omega), Option.map_some, if_pos hlt,
        if_neg (Nat.succ_ne_zero pattern)]
      simp [Nat.add_comm 1 pattern]
    · rw [List.getElem?_eq_none (by simp; omega), if_neg hlt, Option.map_none]

theorem getElem?_flatMap_range {β : Type} (f : ℕ → List β) {k : ℕ} (hk : 0 < k)
    (hf : ∀ g, (f g).length = k) (n index : ℕ) :
    ((List.range n).flatMap f)[index]? =
      if index / k < n then (f (index / k))[index % k]? else none := by
  have hlen : ∀ n, ((List.range n).flatMap f).length = n * k := by
    intro n
    simp [List.length_flatMap, hf]
  induction n with
  | zero => simp
  | succ n ih =>
    rw [List.range_succ, List.flatMap_append, List.flatMap_singleton]
    by_cases hlt : index < n * k
    · have hdiv : index / k < n := by rwa [Nat.div_lt_iff_lt_mul hk]
      rw [List.getElem?_append_left (by rw [hlen]; exact hlt), ih, if_pos hdiv, if_pos (by omega)]
    · have hge : n ≤ index / k := by rw [Nat.le_div_iff_mul_le hk]; omega
      rw [List.getElem?_append_right (by rw [hlen]; omega), hlen]
      by_cases heq : index / k = n
      · have hmod := Nat.div_add_mod index k
        rw [heq, Nat.mul_comm] at hmod
        rw [if_pos (by omega), heq]
        congr 1
        omega
      · rw [if_neg (by omega)]
        apply List.getElem?_eq_none
        rw [hf]
        have : (n + 1) * k ≤ index := by
          rw [← Nat.le_div_iff_mul_le hk]
          omega
        rw [Nat.succ_mul] at this
        omega

theorem holds_quad_pattern_entries (hnarrow : NarrowIndices internal_to_original buf_words) :
    Holds internal_to_original buf_words (fun index => (compute_quad_pattern_entries
      (compute_token_entries internal_to_original buf_words) buf_words)[index]?) quadPattern := by
  have hlen : ∀ g, (build_group (compute_token_entries internal_to_original buf_words)
      buf_words g).length = 16 := fun g => by simp [build_group]
  apply Holds.of_build (fun index => if index % 16 = 0 then [] else
      merge_entries buf_words ((List.range 4).filterMap (fun bit =>
        if (index % 16).testBit bit = false then none
        else if min (index / 16 * 4 + 4) internal_to_original.length ≤ index / 16 * 4 + bit then none
        else (compute_token_entries internal_to_original buf_words)[index / 16 * 4 + bit]?)))
    (div_ceil internal_to_original.length 4 * 16)
  · intro index
    unfold compute_quad_pattern_entries
    rw [getElem?_flatMap_range _ (by omega) hlen, getElem?_build_group,
      if_pos (Nat.mod_lt index (by omega)), length_compute_token_entries]
    by_cases hlt : index / 16 < div_ceil internal_to_original.length 4
    · have hbound : index < div_ceil internal_to_original.length 4 * 16 := by omega
      rw [if_pos hlt, if_pos hbound]
    · have hbound : ¬index < div_ceil internal_to_original.length 4 * 16 := by omega
      rw [if_neg hlt, if_neg hbound]
  · intro index _
    split
    · rename_i hzero
      refine ⟨fun entry hentry => absurd hentry List.not_mem_nil, ?_⟩
      have hnone : quadPattern index = ∅ := by
        ext token
        simp [quadPattern, hzero]
      rw [hnone, originalBits_empty, entriesBits_nil]
    · apply merge_tokens hnarrow
      intro entries
      rw [List.mem_filterMap]
      constructor
      · intro h
        obtain ⟨bit, hbit, hsome⟩ := h
        rw [List.mem_range] at hbit
        split at hsome
        · contradiction
        · rename_i hset
          split at hsome
          · contradiction
          · refine ⟨index / 16 * 4 + bit, ⟨by omega, ?_⟩, hsome⟩
            have hmod : (index / 16 * 4 + bit) % 4 = bit := by omega
            rw [hmod]
            simpa using hset
      · intro h
        obtain ⟨token, ⟨hdiv, hset⟩, hget⟩ := h
        have hlt := (List.getElem?_eq_some_iff.mp hget).1
        rw [length_compute_token_entries] at hlt
        have htoken : index / 16 * 4 + token % 4 = token := by omega
        refine ⟨token % 4, List.mem_range.mpr (Nat.mod_lt _ (by omega)), ?_⟩
        rw [if_neg (by simp [hset]), htoken, if_neg (by omega)]
        exact hget
  · intro index hindex token htoken
    have hquad : token / 4 = index / 16 := htoken.1
    have hge : div_ceil internal_to_original.length 4 ≤ index / 16 := by omega
    rw [← not_lt, lt_div_ceil (by omega)] at hge
    omega

/-! ## Numbers of entries -/

theorem sum_blocks_le (l : List (List SparseEntry)) (block_size n : ℕ) :
    ((List.range n).map (fun g =>
      ((l.take (g * block_size + block_size)).drop (g * block_size)).flatten.length)).sum ≤
        l.flatten.length := by
  have hupto : ∀ n, ((List.range n).map (fun g =>
      ((l.take (g * block_size + block_size)).drop (g * block_size)).flatten.length)).sum =
        (l.take (n * block_size)).flatten.length := by
    intro n
    induction n with
    | zero => simp
    | succ n ih =>
      have hsplit : l.take (n * block_size + block_size) =
          l.take (n * block_size) ++ (l.take (n * block_size + block_size)).drop (n * block_size) := by
        conv_lhs => rw [← List.take_append_drop (n * block_size) (l.take (n * block_size + block_size))]
        rw [List.take_take, Nat.min_eq_left (by omega)]
      rw [List.range_succ, List.map_append, List.sum_append, ih, List.map_singleton,
        List.sum_singleton, Nat.succ_mul]
      conv_rhs => rw [hsplit]
      rw [List.flatten_append, List.length_append]
  rw [hupto]
  have hall := congrArg (fun l => l.flatten.length) (List.take_append_drop (n * block_size) l)
  rw [List.flatten_append, List.length_append] at hall
  omega

variable (internal_to_original buf_words) in
theorem fits_compute_token_entries :
    ∀ entries ∈ compute_token_entries internal_to_original buf_words, Fits buf_words entries := by
  intro entries hmem
  obtain ⟨ids, -, heq⟩ := List.mem_map.mp hmem
  exact heq ▸ fits_token_entry buf_words ids

variable (internal_to_original buf_words) in
theorem length_block_entries_le (block_size : ℕ) :
    (compute_block_entries (compute_token_entries internal_to_original buf_words) buf_words
      block_size).flatten.length ≤
        (compute_token_entries internal_to_original buf_words).flatten.length := by
  refine le_trans ?_ (sum_blocks_le _ block_size
    (div_ceil (compute_token_entries internal_to_original buf_words).length block_size))
  unfold compute_block_entries
  rw [List.length_flatten, List.map_map]
  apply List.sum_le_sum
  intro g _
  dsimp only [Function.comp]
  rw [← List.take_eq_take_min]
  apply length_merge_entries_le
  intro entries hmem
  exact fits_compute_token_entries internal_to_original buf_words entries
    (List.mem_of_mem_take (List.mem_of_mem_drop hmem))

theorem filterMap_range_getElem? (l : List (List SparseEntry)) (start n : ℕ) :
    (List.range n).filterMap (fun bit => l[start + bit]?) = (l.drop start).take n := by
  induction n with
  | zero => rfl
  | succ n ih =>
    rw [List.range_succ, List.filterMap_append, ih, List.take_add_one, List.getElem?_drop,
      List.filterMap_cons]
    cases l[start + n]? <;> rfl

theorem filterMap_sublist {α β : Type} (f f' : α → Option β) (h : ∀ a, f a = none ∨ f a = f' a)
    (l : List α) : (l.filterMap f).Sublist (l.filterMap f') := by
  induction l with
  | nil => exact List.Sublist.slnil
  | cons a l ih =>
    rw [List.filterMap_cons, List.filterMap_cons]
    cases h a with
    | inl hnone =>
      rw [hnone]
      cases f' a with
      | none => exact ih
      | some b => exact ih.cons b
    | inr heq =>
      rw [heq]
      cases f' a with
      | none => exact ih
      | some b => exact ih.cons_cons b

theorem sublist_length_flatten {l l' : List (List SparseEntry)} (h : l.Sublist l') :
    l.flatten.length ≤ l'.flatten.length := by
  rw [List.length_flatten, List.length_flatten]
  exact (h.map List.length).sum_le_sum (fun n _ => Nat.zero_le n)

/-- Each of the fifteen patterns has at most the entries of the quad. -/
theorem length_build_group_le (g : ℕ) :
    (build_group (compute_token_entries internal_to_original buf_words) buf_words g).flatten.length ≤
      15 * (((compute_token_entries internal_to_original buf_words).take (g * 4 + 4)).drop
        (g * 4)).flatten.length := by
  have hslice : ((compute_token_entries internal_to_original buf_words).take (g * 4 + 4)).drop
      (g * 4) = ((compute_token_entries internal_to_original buf_words).drop (g * 4)).take 4 := by
    rw [List.drop_take, Nat.add_sub_cancel_left]
  unfold build_group
  rw [List.flatten_cons, List.nil_append, List.length_flatten, List.map_map, hslice]
  have hsum := List.sum_le_card_nsmul (List.map (List.length ∘ fun pattern : ℕ =>
    merge_entries buf_words ((List.range 4).filterMap (fun bit =>
      if pattern.testBit bit = false then none
      else if min (g * 4 + 4) (compute_token_entries internal_to_original buf_words).length ≤
        g * 4 + bit then none
      else (compute_token_entries internal_to_original buf_words)[g * 4 + bit]?)))
    (List.range' 1 15))
    (((compute_token_entries internal_to_original buf_words).drop (g * 4)).take 4).flatten.length
  rw [List.length_map, List.length_range', smul_eq_mul] at hsum
  apply hsum
  intro count hcount
  obtain ⟨pattern, -, heq⟩ := List.mem_map.mp hcount
  rw [← heq, ← filterMap_range_getElem?]
  have hsublist := filterMap_sublist (fun bit : ℕ => if pattern.testBit bit = false then none
      else if min (g * 4 + 4) (compute_token_entries internal_to_original buf_words).length ≤
        g * 4 + bit then none
      else (compute_token_entries internal_to_original buf_words)[g * 4 + bit]?)
    (fun bit => (compute_token_entries internal_to_original buf_words)[g * 4 + bit]?)
    (by
      intro bit
      split
      · exact .inl rfl
      · split
        · exact .inl rfl
        · exact .inr rfl) (List.range 4)
  refine le_trans (length_merge_entries_le ?_) (sublist_length_flatten hsublist)
  intro entries hmem
  obtain ⟨bit, -, hget⟩ := List.mem_filterMap.mp (hsublist.subset hmem)
  exact fits_compute_token_entries internal_to_original buf_words entries (List.mem_of_getElem? hget)

variable (internal_to_original buf_words) in
theorem length_quad_pattern_entries_le :
    (compute_quad_pattern_entries (compute_token_entries internal_to_original buf_words)
      buf_words).flatten.length ≤
        15 * (compute_token_entries internal_to_original buf_words).flatten.length := by
  have hblocks := Nat.mul_le_mul_left 15 (sum_blocks_le
    (compute_token_entries internal_to_original buf_words) 4
    (div_ceil (compute_token_entries internal_to_original buf_words).length 4))
  refine le_trans ?_ hblocks
  unfold compute_quad_pattern_entries
  rw [List.flatMap_def, List.flatten_flatten, List.length_flatten, List.map_map, List.map_map,
    ← List.sum_map_mul_left]
  apply List.sum_le_sum
  intro g _
  exact length_build_group_le g

end Groups

/-! ## What a mapping represents -/

/-- The entries and dense masks of groups hold the original ids they cover. -/
structure GroupTable (internal_to_original : List (List ℕ)) (buf_words : ℕ)
    (dense : List (Option Words)) (entries : EntryTable) (cover : ℕ → Set ℕ) : Prop where
  entries_hold : Holds internal_to_original buf_words entries.get cover
  dense_length : ∀ {g : ℕ} {mask : Words}, dense[g]? = some (some mask) → mask.length = buf_words
  dense_members : ∀ {g : ℕ} {mask : Words}, dense[g]? = some (some mask) →
    members mask = originalBits internal_to_original buf_words (cover g)

/-- The tokens of group `g` where groups have the given size. -/
def groupTokens (size g : ℕ) : Set ℕ := {token | token / size = g}

/-- The mapping stands for the lists of original ids. -/
structure Represents (mapping : FinalMaskMapping) (internal_to_original : List (List ℕ))
    (buf_words : ℕ) : Prop where
  buf_words_eq : mapping.buf_words = buf_words
  internal_len_eq : mapping.token_entries.len = internal_to_original.length
  tokens : Holds internal_to_original buf_words mapping.token_entries.get (fun token => {token})
  quad_patterns : GroupTable internal_to_original buf_words mapping.quad_pattern_dense
    mapping.quad_pattern_entries quadPattern
  quads : GroupTable internal_to_original buf_words mapping.quad_group_dense
    mapping.quad_group_entries (groupTokens 4)
  bytes : GroupTable internal_to_original buf_words mapping.byte_group_dense
    mapping.byte_group_entries (groupTokens 8)
  halfwords : GroupTable internal_to_original buf_words mapping.halfword_group_dense
    mapping.halfword_group_entries (groupTokens 16)
  word32s : GroupTable internal_to_original buf_words mapping.word32_group_dense
    mapping.word32_group_entries (groupTokens 32)
  words : GroupTable internal_to_original buf_words mapping.word_group_dense
    mapping.word_group_entries (groupTokens 64)
  prefix_length : ∀ {i : ℕ} {mask : Words}, mapping.word_group_dense_prefix[i]? = some mask →
    mask.length = buf_words
  prefix_members : ∀ {i : ℕ} {mask : Words}, mapping.word_group_dense_prefix[i]? = some mask →
    members mask = originalBits internal_to_original buf_words {token | token < i * 64}
  all_tokens_length : mapping.all_tokens_mask.length = buf_words
  all_tokens_members : members mapping.all_tokens_mask =
    originalBits internal_to_original buf_words Set.univ

theorem adds_or_sparse {out : Words} {entries : List SparseEntry} (h : Fits out.length entries) :
    Adds out (or_sparse out entries) (entriesBits entries) :=
  adds_foldl_modify _ _ entries out h

theorem clears_andnot_sparse {out : Words} {entries : List SparseEntry}
    (h : Fits out.length entries) : Clears out (andnot_sparse out entries) (entriesBits entries) :=
  clears_foldl_modify _ _ entries out h

section New

variable {internal_to_original : List (List ℕ)} {buf_words : ℕ}

theorem groupTable_new {groups : List (List SparseEntry)} {cover : ℕ → Set ℕ}
    (h : Holds internal_to_original buf_words (fun g => groups[g]?) cover)
    (hcount : groups.flatten.length < 2 ^ 32) (threshold : ℕ) :
    GroupTable internal_to_original buf_words
      (compute_heavy_group_dense groups buf_words threshold) (EntryTable.from_groups groups) cover := by
  have hdense : ∀ {g mask}, (compute_heavy_group_dense groups buf_words threshold)[g]? =
      some (some mask) → Adds (zeros buf_words) mask
        (originalBits internal_to_original buf_words (cover g)) := by
    intro g mask hget
    unfold compute_heavy_group_dense at hget
    rw [List.getElem?_map, Option.map_eq_some_iff] at hget
    obtain ⟨entries, hentries, hmask⟩ := hget
    split at hmask
    · contradiction
    · have hadds : Adds (zeros buf_words) (or_sparse (zeros buf_words) entries)
          (entriesBits entries) := by
        apply adds_or_sparse
        rw [length_zeros]
        exact h.fits hentries
      rwa [Option.some.inj hmask, h.bits hentries] at hadds
  have hget : (EntryTable.from_groups groups).get = fun g => groups[g]? :=
    funext (EntryTable.get_from_groups hcount)
  refine ⟨hget ▸ h, ?_, ?_⟩
  · intro g mask hmask
    rw [(hdense hmask).length_eq, length_zeros]
  · intro g mask hmask
    rw [(hdense hmask).members_eq, members_zeros, Set.empty_union]

/-- Prefix `i` of the dense masks holds the first `i` groups of tokens. -/
theorem adds_prefix {groups : List (List SparseEntry)}
    (h : Holds internal_to_original buf_words (fun g => groups[g]?) (groupTokens 64)) (i : ℕ) :
    Adds (zeros buf_words) ((groups.take i).foldl or_sparse (zeros buf_words))
      (originalBits internal_to_original buf_words {token | token < i * 64}) := by
  induction i with
  | zero => simp
  | succ i ih =>
    have hset : {token | token < (i + 1) * 64} = {token | token < i * 64} ∪ groupTokens 64 i := by
      ext token
      simp only [groupTokens, Set.mem_ofPred_eq, Set.mem_union]
      omega
    rw [List.take_add_one, List.foldl_append, hset, originalBits_union]
    apply ih.trans
    cases hget : groups[i]? with
    | none =>
      rw [h.missing hget]
      exact Adds.refl _
    | some entries =>
      have hlen := ih.length_eq
      rw [length_zeros] at hlen
      rw [← h.bits hget]
      apply adds_or_sparse
      rw [hlen]
      exact h.fits hget

/-- A new mapping stands for its lists, when they have no original id in common
and no word index is cut off. -/
theorem represents_new (hdisjoint : internal_to_original.Pairwise List.Disjoint)
    (hnarrow : NarrowIndices internal_to_original buf_words) :
    Represents (FinalMaskMapping.new internal_to_original buf_words) internal_to_original
      buf_words := by
  have hcount := length_token_entries_le_of_narrow hdisjoint hnarrow
  have hquads := length_quad_pattern_entries_le internal_to_original buf_words
  have htable : ∀ {size}, 0 < size → GroupTable internal_to_original buf_words
      (compute_heavy_group_dense (compute_block_entries
        (compute_token_entries internal_to_original buf_words) buf_words size) buf_words
        (dense_group_threshold buf_words))
      (EntryTable.from_groups (compute_block_entries
        (compute_token_entries internal_to_original buf_words) buf_words size))
      (groupTokens size) := by
    intro size hsize
    refine groupTable_new (holds_block_entries hnarrow hsize) ?_ _
    have := length_block_entries_le internal_to_original buf_words size
    omega
  have hwords := holds_block_entries hnarrow (show 0 < 64 by omega)
  have hlast : (FinalMaskMapping.new internal_to_original buf_words).all_tokens_mask =
      (compute_block_entries (compute_token_entries internal_to_original buf_words) buf_words
        64).foldl or_sparse (zeros buf_words) := by
    unfold FinalMaskMapping.new compute_dense_prefix
    dsimp only
    rw [List.getLast?_scanl]
    rfl
  have hupto : ∀ {i mask}, ( FinalMaskMapping.word_group_dense_prefix
      (FinalMaskMapping.new internal_to_original buf_words))[i]? = some mask →
      Adds (zeros buf_words) mask
        (originalBits internal_to_original buf_words {token | token < i * 64}) := by
    intro i mask hget
    unfold FinalMaskMapping.new compute_dense_prefix at hget
    dsimp only at hget
    rw [List.getElem?_scanl] at hget
    split at hget
    · rw [← Option.some.inj hget]
      exact adds_prefix hwords i
    · contradiction
  have hall := adds_prefix hwords (div_ceil internal_to_original.length 64)
  rw [List.take_of_length_le (by simp [compute_block_entries, length_compute_token_entries]),
    ← hlast] at hall
  constructor
  · rfl
  · exact (EntryTable.len_from_groups _).trans length_compute_token_entries
  · have hget : (EntryTable.from_groups (compute_token_entries internal_to_original buf_words)).get =
        fun g => (compute_token_entries internal_to_original buf_words)[g]? :=
      funext (EntryTable.get_from_groups (by omega))
    exact hget ▸ holds_token_entries hnarrow
  · exact groupTable_new (holds_quad_pattern_entries hnarrow) (by omega) _
  · exact htable (by omega)
  · exact htable (by omega)
  · exact htable (by omega)
  · exact htable (by omega)
  · exact htable (by omega)
  · intro i mask hget
    rw [(hupto hget).length_eq, length_zeros]
  · intro i mask hget
    rw [(hupto hget).members_eq, members_zeros, Set.empty_union]
  · rw [hall.length_eq, length_zeros]
  · rw [hall.members_eq, members_zeros, Set.empty_union]
    apply originalBits_congr
    intro token hlt
    have hge : ¬div_ceil internal_to_original.length 64 * 64 < internal_to_original.length := by
      rw [← lt_div_ceil (by omega)]
      exact lt_irrefl _
    simp only [Set.mem_ofPred_eq, Set.mem_univ, iff_true]
    omega

end New

end MaskMapping

end GlrMask
