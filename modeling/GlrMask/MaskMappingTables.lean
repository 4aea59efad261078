import GlrMask.MaskMapping

/-!
# What the tables of a mask mapping hold

Every entry list and every dense mask holds the original ids of a set of internal
tokens, as long as no word index is cut off by the 16 bits of an entry.
-/

namespace GlrMask

namespace MaskMapping

open WordBitmap BitScan

/-- The original ids of the tokens that lie within the mask. -/
def originalBits (internal_to_original : List (List ℕ)) (buf_words : ℕ) (tokens : Set ℕ) : Set ℕ :=
  {n | n / 32 < buf_words ∧ ∃ token ∈ tokens, ∃ ids, internal_to_original[token]? = some ids ∧ n ∈ ids}

/-- Every word within the mask that an original id needs has an index of 16 bits. -/
def NarrowIndices (internal_to_original : List (List ℕ)) (buf_words : ℕ) : Prop :=
  ∀ ids ∈ internal_to_original, ∀ original ∈ ids, original / 32 < buf_words → original / 32 < 2 ^ 16

section OriginalBits

variable {internal_to_original : List (List ℕ)} {buf_words : ℕ} {s t : Set ℕ}

@[simp] theorem originalBits_empty : originalBits internal_to_original buf_words ∅ = ∅ := by
  ext n
  simp [originalBits]

theorem originalBits_union : originalBits internal_to_original buf_words (s ∪ t) =
    originalBits internal_to_original buf_words s ∪ originalBits internal_to_original buf_words t := by
  ext n
  simp only [originalBits, Set.mem_union, Set.mem_ofPred_eq]
  constructor
  · intro h
    obtain ⟨hn, token, htoken, ids, hids⟩ := h
    cases htoken with
    | inl hs => exact .inl ⟨hn, token, hs, ids, hids⟩
    | inr ht => exact .inr ⟨hn, token, ht, ids, hids⟩
  · intro h
    cases h with
    | inl h =>
      obtain ⟨hn, token, hs, ids, hids⟩ := h
      exact ⟨hn, token, .inl hs, ids, hids⟩
    | inr h =>
      obtain ⟨hn, token, ht, ids, hids⟩ := h
      exact ⟨hn, token, .inr ht, ids, hids⟩

theorem originalBits_mono (h : s ⊆ t) :
    originalBits internal_to_original buf_words s ⊆ originalBits internal_to_original buf_words t := by
  intro n hn
  obtain ⟨hlt, token, htoken, hids⟩ := hn
  exact ⟨hlt, token, h htoken, hids⟩

/-- Only the tokens that exist count. -/
theorem originalBits_congr (h : ∀ token < internal_to_original.length, token ∈ s ↔ token ∈ t) :
    originalBits internal_to_original buf_words s = originalBits internal_to_original buf_words t := by
  ext n
  unfold originalBits
  constructor
  · intro hn
    obtain ⟨hlt, token, htoken, ids, hids, hmem⟩ := hn
    exact ⟨hlt, token, (h token (List.getElem?_eq_some_iff.mp hids).1).mp htoken, ids, hids, hmem⟩
  · intro hn
    obtain ⟨hlt, token, htoken, ids, hids, hmem⟩ := hn
    exact ⟨hlt, token, (h token (List.getElem?_eq_some_iff.mp hids).1).mpr htoken, ids, hids, hmem⟩

/-- Different tokens have no original id in common. -/
theorem token_unique (hdisjoint : internal_to_original.Pairwise List.Disjoint) {token token' n : ℕ}
    {ids ids' : List ℕ} (hids : internal_to_original[token]? = some ids)
    (hids' : internal_to_original[token']? = some ids') (hn : n ∈ ids) (hn' : n ∈ ids') :
    token = token' := by
  rw [List.pairwise_iff_getElem] at hdisjoint
  obtain ⟨hlt, hget⟩ := List.getElem?_eq_some_iff.mp hids
  obtain ⟨hlt', hget'⟩ := List.getElem?_eq_some_iff.mp hids'
  rcases lt_trichotomy token token' with h | h | h
  · exact absurd (hget' ▸ hn') (hdisjoint token token' hlt hlt' h (hget ▸ hn))
  · exact h
  · exact absurd (hget ▸ hn) (hdisjoint token' token hlt' hlt h (hget' ▸ hn'))

theorem originalBits_disjoint (hdisjoint : internal_to_original.Pairwise List.Disjoint)
    (h : Disjoint s t) : Disjoint (originalBits internal_to_original buf_words s)
      (originalBits internal_to_original buf_words t) := by
  rw [Set.disjoint_left] at h ⊢
  intro n hs ht
  obtain ⟨-, token, htoken, ids, hids, hmem⟩ := hs
  obtain ⟨-, token', htoken', ids', hids', hmem'⟩ := ht
  have heq := token_unique hdisjoint hids hids' hmem hmem'
  exact h htoken (heq ▸ htoken')

theorem originalBits_sdiff (hdisjoint : internal_to_original.Pairwise List.Disjoint) :
    originalBits internal_to_original buf_words s \ originalBits internal_to_original buf_words t =
      originalBits internal_to_original buf_words (s \ t) := by
  have hsplit : s = s \ t ∪ s ∩ t := (Set.sdiff_union_inter s t).symm
  have hapart : Disjoint (originalBits internal_to_original buf_words (s \ t))
      (originalBits internal_to_original buf_words t) :=
    originalBits_disjoint hdisjoint Set.disjoint_sdiff_left
  conv_lhs => rw [hsplit]
  rw [originalBits_union, Set.union_sdiff_distrib, hapart.sdiff_eq_left,
    Set.sdiff_eq_empty.mpr (originalBits_mono Set.inter_subset_right), Set.union_empty]

end OriginalBits

/-! ## Entries of one token -/

@[simp] theorem length_zeros (buf_words : ℕ) : (zeros buf_words).length = buf_words :=
  List.length_replicate

@[simp] theorem members_zeros (buf_words : ℕ) : members (zeros buf_words) = ∅ :=
  WordBitmap.members_zeros buf_words

def entriesBits (entries : List SparseEntry) : Set ℕ :=
  entryBits (fun entry => entry.word_idx.toNat) SparseEntry.mask entries

@[simp] theorem entriesBits_nil : entriesBits [] = ∅ := entryBits_nil _ _

@[simp] theorem entriesBits_cons (entry : SparseEntry) (entries : List SparseEntry) :
    entriesBits (entry :: entries) = maskBits entry.word_idx.toNat entry.mask ∪ entriesBits entries :=
  entryBits_cons _ _ entry entries

theorem entriesBits_append (entries entries' : List SparseEntry) :
    entriesBits (entries ++ entries') = entriesBits entries ∪ entriesBits entries' :=
  entryBits_append _ _ entries entries'

theorem mem_entriesBits_flatten {groups : List (List SparseEntry)} {n : ℕ} :
    n ∈ entriesBits groups.flatten ↔ ∃ entries ∈ groups, n ∈ entriesBits entries := by
  induction groups with
  | nil => simp
  | cons entries groups ih =>
    rw [List.flatten_cons, entriesBits_append, Set.mem_union, ih]
    simp

theorem maskBits_or (i : ℕ) (mask mask' : BitVec 32) :
    maskBits i (mask ||| mask') = maskBits i mask ∪ maskBits i mask' := by
  ext n
  simp only [maskBits, Set.mem_union, Set.mem_ofPred_eq, BitVec.getLsbD_or, Bool.or_eq_true]
  tauto

theorem entriesBits_add_mask (word_idx : BitVec 16) (mask : BitVec 32) (entries : List SparseEntry) :
    entriesBits (add_mask word_idx mask entries) =
      entriesBits entries ∪ maskBits word_idx.toNat mask := by
  induction entries with
  | nil => simp [add_mask]
  | cons entry entries ih =>
    unfold add_mask
    split
    · rename_i heq
      rw [entriesBits_cons, entriesBits_cons, maskBits_or, heq, Set.union_assoc, Set.union_assoc,
        Set.union_comm (entriesBits entries)]
    · rw [entriesBits_cons, entriesBits_cons, ih, Set.union_assoc]

/-- The mask of an original id is its bit. -/
theorem maskBits_one (original : ℕ) :
    maskBits (original / 32) (1#32 <<< (original % 32)) = {original} := by
  ext n
  simp only [maskBits, Set.mem_ofPred_eq, Set.mem_singleton_iff, BitVec.getLsbD_shiftLeft,
    BitVec.getLsbD_one]
  have hlt : n % 32 < 32 := Nat.mod_lt n (by omega)
  simp only [hlt, decide_true, Bool.true_and, Bool.and_eq_true, Bool.not_eq_true',
    decide_eq_false_iff_not, decide_eq_true_eq]
  omega

theorem toNat_word_idx {word_idx : ℕ} (h : word_idx < 2 ^ 16) :
    (BitVec.ofNat 16 word_idx).toNat = word_idx := by
  rw [BitVec.toNat_ofNat, Nat.mod_eq_of_lt h]

/-- The step of `token_entry`. -/
def addOriginal (buf_words : ℕ) (entries : List SparseEntry) (original : ℕ) : List SparseEntry :=
  if buf_words ≤ original / 32 then entries
  else add_mask (BitVec.ofNat 16 (original / 32)) (1#32 <<< (original % 32)) entries

theorem token_entry_eq (buf_words : ℕ) (original_ids : List ℕ) :
    token_entry buf_words original_ids = original_ids.foldl (addOriginal buf_words) [] := rfl

theorem entriesBits_foldl_addOriginal {buf_words : ℕ} (original_ids : List ℕ)
    (entries : List SparseEntry)
    (h : ∀ original ∈ original_ids, original / 32 < buf_words → original / 32 < 2 ^ 16) :
    entriesBits (original_ids.foldl (addOriginal buf_words) entries) =
      entriesBits entries ∪ {n | n / 32 < buf_words ∧ n ∈ original_ids} := by
  induction original_ids generalizing entries with
  | nil => simp
  | cons original rest ih =>
    rw [List.foldl_cons, ih _ (fun o ho => h o (List.mem_cons_of_mem _ ho))]
    unfold addOriginal
    split
    · rename_i hout
      ext n
      simp only [Set.mem_union, Set.mem_ofPred_eq, List.mem_cons]
      constructor
      · intro hn
        exact hn.imp_right (fun hn => ⟨hn.1, .inr hn.2⟩)
      · intro hn
        refine hn.imp_right (fun hn => ⟨hn.1, hn.2.resolve_left ?_⟩)
        intro heq
        rw [heq] at hn
        omega
    · rename_i hin
      have hnarrow := h original List.mem_cons_self (not_le.mp hin)
      rw [entriesBits_add_mask, toNat_word_idx hnarrow, maskBits_one]
      ext n
      simp only [Set.mem_union, Set.mem_singleton_iff, Set.mem_ofPred_eq, List.mem_cons]
      constructor
      · intro hn
        rcases hn with (hn | hn) | hn
        · exact .inl hn
        · exact .inr ⟨by rw [hn]; exact not_le.mp hin, .inl hn⟩
        · exact .inr ⟨hn.1, .inr hn.2⟩
      · intro hn
        rcases hn with hn | ⟨hlt, hn | hn⟩
        · exact .inl (.inl hn)
        · exact .inl (.inr hn)
        · exact .inr ⟨hlt, hn⟩

theorem entriesBits_token_entry {buf_words : ℕ} {original_ids : List ℕ}
    (h : ∀ original ∈ original_ids, original / 32 < buf_words → original / 32 < 2 ^ 16) :
    entriesBits (token_entry buf_words original_ids) =
      {n | n / 32 < buf_words ∧ n ∈ original_ids} := by
  rw [token_entry_eq, entriesBits_foldl_addOriginal _ _ h, entriesBits_nil, Set.empty_union]

/-- The entries lie within the mask. -/
def Fits (buf_words : ℕ) (entries : List SparseEntry) : Prop :=
  ∀ entry ∈ entries, entry.word_idx.toNat < buf_words

theorem Fits.add_mask {buf_words : ℕ} {word_idx : BitVec 16} {entries : List SparseEntry}
    (h : Fits buf_words entries) (hlt : word_idx.toNat < buf_words) (mask : BitVec 32) :
    Fits buf_words (add_mask word_idx mask entries) := by
  induction entries with
  | nil =>
    intro entry hentry
    rw [List.mem_singleton.mp hentry]
    exact hlt
  | cons entry entries ih =>
    have hrest := ih (fun e he => h e (List.mem_cons_of_mem _ he))
    have hfirst := h entry List.mem_cons_self
    unfold MaskMapping.add_mask
    split
    · intro e he
      rcases List.mem_cons.mp he with heq | he
      · rw [heq]
        exact hfirst
      · exact h e (List.mem_cons_of_mem _ he)
    · intro e he
      rcases List.mem_cons.mp he with heq | he
      · rw [heq]
        exact hfirst
      · exact hrest e he

theorem fits_token_entry (buf_words : ℕ) (original_ids : List ℕ) :
    Fits buf_words (token_entry buf_words original_ids) := by
  rw [token_entry_eq]
  have hstep : ∀ entries, Fits buf_words entries →
      Fits buf_words (original_ids.foldl (addOriginal buf_words) entries) := by
    induction original_ids with
    | nil =>
      intro entries h
      exact h
    | cons original rest ih =>
      intro entries h
      apply ih
      unfold addOriginal
      split
      · exact h
      · apply h.add_mask
        rw [BitVec.toNat_ofNat]
        exact lt_of_le_of_lt (Nat.mod_le _ _) (by omega)
  apply hstep
  intro entry hentry
  contradiction

/-! ## Entries of several tokens -/

theorem mem_dedup {a : ℕ} {l : List ℕ} : a ∈ dedup l ↔ a ∈ l := by
  induction l with
  | nil => rfl
  | cons b l ih =>
    cases l with
    | nil => rfl
    | cons c l =>
      unfold dedup
      split
      · rename_i heq
        rw [ih, heq]
        simp
      · rw [List.mem_cons, ih, List.mem_cons (a := a) (b := b)]

theorem length_dedup_le (l : List ℕ) : (dedup l).length ≤ l.length := by
  induction l with
  | nil => rfl
  | cons b l ih =>
    cases l with
    | nil => rfl
    | cons c l =>
      unfold dedup
      split
      · exact ih.trans (Nat.le_succ _)
      · exact Nat.succ_le_succ ih

/-- What the dense words and the list of touched words are after some entries. -/
structure Touched (buf_words : ℕ) (entries : List SparseEntry) (state : Words × List ℕ) : Prop where
  adds : Adds (zeros buf_words) state.1 (entriesBits entries)
  listed : ∀ word_idx, state.1.getD word_idx 0#32 ≠ 0#32 → word_idx ∈ state.2
  within : ∀ word_idx ∈ state.2, word_idx < buf_words ∧ word_idx < 2 ^ 16
  count : state.2.length ≤ entries.length

theorem Touched.step {buf_words : ℕ} {entries : List SparseEntry} {state : Words × List ℕ}
    (h : Touched buf_words entries state) {entry : SparseEntry}
    (hentry : entry.word_idx.toNat < buf_words) :
    Touched buf_words (entries ++ [entry]) (touch state entry) := by
  have hlen : state.1.length = buf_words := by
    rw [h.adds.length_eq, length_zeros]
  have hin : entry.word_idx.toNat < state.1.length := hlen ▸ hentry
  constructor
  · rw [entriesBits_append, entriesBits_cons, entriesBits_nil, Set.union_empty]
    exact h.adds.trans ⟨List.length_modify .., members_modify_or _ hin⟩
  · intro word_idx hne
    unfold touch at hne ⊢
    dsimp only at hne ⊢
    rw [getD_modify _ _ _ hin] at hne
    by_cases heq : entry.word_idx.toNat = word_idx
    · subst heq
      split
      · exact List.mem_append_right _ (List.mem_singleton.mpr rfl)
      · rename_i hnonzero
        exact h.listed _ hnonzero
    · rw [if_neg heq] at hne
      have hold := h.listed word_idx hne
      split
      · exact List.mem_append_left _ hold
      · exact hold
  · intro word_idx hmem
    unfold touch at hmem
    dsimp only at hmem
    split at hmem
    · rcases List.mem_append.mp hmem with hold | hnew
      · exact h.within word_idx hold
      · rw [List.mem_singleton.mp hnew]
        exact ⟨hentry, entry.word_idx.isLt⟩
    · exact h.within word_idx hmem
  · have hcount := h.count
    unfold touch
    dsimp only
    rw [List.length_append, List.length_singleton]
    split
    · rw [List.length_append, List.length_singleton]
      omega
    · omega

theorem touched_foldl {buf_words : ℕ} (entries : List SparseEntry) (h : Fits buf_words entries) :
    Touched buf_words entries (entries.foldl touch (zeros buf_words, [])) := by
  induction entries using List.reverseRecOn with
  | nil =>
    refine ⟨by simp, ?_, by simp, le_refl _⟩
    intro word_idx hne
    refine absurd ?_ hne
    simp [zeros, List.getD_eq_getElem?_getD, List.getElem?_replicate]
    split <;> rfl
  | append_singleton entries entry ih =>
    rw [List.foldl_concat]
    exact (ih (fun e he => h e (List.mem_append_left _ he))).step
      (h entry (List.mem_append_right _ (List.mem_singleton.mpr rfl)))

section MergeEntries

variable {buf_words : ℕ} {groups : List (List SparseEntry)}

theorem fits_flatten (h : ∀ entries ∈ groups, Fits buf_words entries) :
    Fits buf_words groups.flatten := by
  intro entry hentry
  obtain ⟨entries, hentries, hmem⟩ := List.mem_flatten.mp hentry
  exact h entries hentries entry hmem

theorem merge_entries_eq (buf_words : ℕ) (groups : List (List SparseEntry)) :
    merge_entries buf_words groups =
      let state := groups.flatten.foldl touch (zeros buf_words, [])
      (dedup (state.2.insertionSort (· ≤ ·))).map
        (fun word_idx => ⟨BitVec.ofNat 16 word_idx, state.1.getD word_idx 0#32⟩) := by
  rw [List.foldl_flatten]
  rfl

theorem entriesBits_merge_entries (h : ∀ entries ∈ groups, Fits buf_words entries) :
    entriesBits (merge_entries buf_words groups) = entriesBits groups.flatten := by
  have htouched := touched_foldl groups.flatten (fits_flatten h)
  have hmembers := htouched.adds.members_eq
  rw [members_zeros, Set.empty_union] at hmembers
  rw [merge_entries_eq, ← hmembers]
  generalize groups.flatten.foldl touch (zeros buf_words, []) = state at htouched
  ext n
  simp only [entriesBits, entryBits, maskBits, Set.mem_ofPred_eq, List.mem_map, mem_dedup,
    List.mem_insertionSort, mem_members, bitAt]
  constructor
  · intro hn
    obtain ⟨entry, ⟨word_idx, hmem, heq⟩, hdiv, hbit⟩ := hn
    subst heq
    dsimp only at hdiv hbit
    rw [toNat_word_idx (htouched.within word_idx hmem).2] at hdiv
    rwa [hdiv]
  · intro hbit
    have hne : state.1.getD (n / 32) 0#32 ≠ 0#32 := by
      intro hzero
      rw [hzero, BitVec.getLsbD_zero] at hbit
      contradiction
    have hmem := htouched.listed _ hne
    exact ⟨_, ⟨n / 32, hmem, rfl⟩, (toNat_word_idx (htouched.within _ hmem).2).symm, hbit⟩

theorem fits_merge_entries (h : ∀ entries ∈ groups, Fits buf_words entries) :
    Fits buf_words (merge_entries buf_words groups) := by
  have htouched := touched_foldl groups.flatten (fits_flatten h)
  rw [merge_entries_eq]
  intro entry hentry
  obtain ⟨word_idx, hmem, heq⟩ := List.mem_map.mp hentry
  rw [mem_dedup, List.mem_insertionSort] at hmem
  subst heq
  dsimp only
  rw [toNat_word_idx (htouched.within word_idx hmem).2]
  exact (htouched.within word_idx hmem).1

theorem length_merge_entries_le (h : ∀ entries ∈ groups, Fits buf_words entries) :
    (merge_entries buf_words groups).length ≤ groups.flatten.length := by
  rw [merge_entries_eq, List.length_map]
  apply (length_dedup_le _).trans
  rw [List.length_insertionSort]
  exact (touched_foldl groups.flatten (fits_flatten h)).count

end MergeEntries

/-! ## Ranges of a table -/

namespace EntryTable

theorem from_groups_concat (groups : List (List SparseEntry)) (group : List SparseEntry) :
    from_groups (groups ++ [group]) = (from_groups groups).push group :=
  List.foldl_concat ..

theorem entries_from_groups (groups : List (List SparseEntry)) :
    (from_groups groups).entries = groups.flatten := by
  induction groups using List.reverseRecOn with
  | nil => rfl
  | append_singleton groups group ih =>
    rw [from_groups_concat, List.flatten_append]
    unfold push
    simp [ih]

theorem len_from_groups (groups : List (List SparseEntry)) :
    (from_groups groups).len = groups.length := by
  unfold len
  induction groups using List.reverseRecOn with
  | nil => rfl
  | append_singleton groups group ih =>
    rw [from_groups_concat]
    unfold push
    simp [ih]

theorem ranges_from_groups (groups : List (List SparseEntry)) (index : ℕ) :
    (from_groups groups).ranges[index]? = groups[index]?.map (fun group =>
      ⟨BitVec.ofNat 32 (groups.take index).flatten.length, BitVec.ofNat 32 group.length⟩) := by
  have hlen := len_from_groups
  unfold len at hlen
  induction groups using List.reverseRecOn with
  | nil => rfl
  | append_singleton groups group ih =>
    rw [from_groups_concat]
    unfold push
    dsimp only
    rw [entries_from_groups, List.length_append, Nat.add_sub_cancel_left]
    rcases lt_trichotomy index groups.length with hlt | heq | hgt
    · rw [List.getElem?_append_left (by rw [hlen]; exact hlt), ih,
        List.getElem?_append_left hlt, List.take_append_of_le_length hlt.le]
    · subst heq
      rw [← hlen groups, List.getElem?_concat_length, hlen, List.getElem?_concat_length,
        List.take_append_of_le_length (le_refl _), List.take_length]
      rfl
    · rw [List.getElem?_eq_none (by simp [hlen]; omega), List.getElem?_eq_none (by simp; omega)]
      rfl

/-- The ranges give the groups back while the entries can be counted in 32 bits. -/
theorem get_from_groups {groups : List (List SparseEntry)} (h : groups.flatten.length < 2 ^ 32)
    (index : ℕ) : (from_groups groups).get index = groups[index]? := by
  unfold get
  rw [ranges_from_groups, entries_from_groups]
  cases hgroup : groups[index]? with
  | none => rfl
  | some group =>
    obtain ⟨hlt, hget⟩ := List.getElem?_eq_some_iff.mp hgroup
    have hsplit : groups.flatten =
        (groups.take index).flatten ++ (group ++ (groups.drop (index + 1)).flatten) := by
      rw [← List.flatten_cons, ← List.flatten_append, ← hget, List.cons_getElem_drop_succ,
        List.take_append_drop]
    have hlen := congrArg List.length hsplit
    rw [List.length_append, List.length_append] at hlen
    simp only [Option.map_some, Option.some.injEq]
    rw [BitVec.toNat_ofNat, BitVec.toNat_ofNat, Nat.mod_eq_of_lt (by omega),
      Nat.mod_eq_of_lt (by omega), hsplit, List.drop_left, List.take_left]

end EntryTable

/-! ## Numbers of entries -/

theorem word_idxs_add_mask (word_idx : BitVec 16) (mask : BitVec 32) (entries : List SparseEntry) :
    (add_mask word_idx mask entries).map SparseEntry.word_idx =
      if word_idx ∈ entries.map SparseEntry.word_idx then entries.map SparseEntry.word_idx
      else entries.map SparseEntry.word_idx ++ [word_idx] := by
  induction entries with
  | nil => rfl
  | cons entry entries ih =>
    unfold add_mask
    split
    · rename_i heq
      simp [heq]
    · rename_i hne
      rw [List.map_cons, ih, List.map_cons]
      by_cases hmem : word_idx ∈ entries.map SparseEntry.word_idx
      · rw [if_pos hmem, if_pos (List.mem_cons_of_mem _ hmem)]
      · have hnot : word_idx ∉ entry.word_idx :: entries.map SparseEntry.word_idx := by
          intro h
          rcases List.mem_cons.mp h with heq | h
          · exact hne heq.symm
          · exact hmem h
        rw [if_neg hmem, if_neg hnot, List.cons_append]

/-- A token has at most one entry for each of its original ids within the mask. -/
theorem length_token_entry_le (buf_words : ℕ) (original_ids : List ℕ) :
    (token_entry buf_words original_ids).length ≤
      (original_ids.toFinset.filter (fun n => n / 32 < buf_words)).card := by
  have hrun : ∀ ids : List ℕ, ((token_entry buf_words ids).map SparseEntry.word_idx).Nodup ∧
      ∀ word_idx ∈ (token_entry buf_words ids).map SparseEntry.word_idx,
        ∃ n ∈ ids.toFinset.filter (fun n => n / 32 < buf_words),
          BitVec.ofNat 16 (n / 32) = word_idx := by
    intro ids
    induction ids using List.reverseRecOn with
    | nil =>
      refine ⟨List.nodup_nil, ?_⟩
      intro word_idx hmem
      contradiction
    | append_singleton ids original ih =>
      have hold : ∀ word_idx ∈ (token_entry buf_words ids).map SparseEntry.word_idx,
          ∃ n ∈ (ids ++ [original]).toFinset.filter (fun n => n / 32 < buf_words),
            BitVec.ofNat 16 (n / 32) = word_idx := by
        intro word_idx hmem
        obtain ⟨n, hn, heq⟩ := ih.2 word_idx hmem
        refine ⟨n, ?_, heq⟩
        rw [Finset.mem_filter, List.mem_toFinset] at hn ⊢
        exact ⟨List.mem_append_left _ hn.1, hn.2⟩
      rw [token_entry_eq, List.foldl_concat, ← token_entry_eq]
      unfold addOriginal
      split
      · exact ⟨ih.1, hold⟩
      · rename_i hin
        rw [word_idxs_add_mask]
        split
        · exact ⟨ih.1, hold⟩
        · rename_i hnew
          refine ⟨List.concat_eq_append ▸ ih.1.concat hnew, ?_⟩
          intro word_idx hmem
          rcases List.mem_append.mp hmem with hmem | hmem
          · exact hold word_idx hmem
          · refine ⟨original, ?_, (List.mem_singleton.mp hmem).symm⟩
            rw [Finset.mem_filter, List.mem_toFinset]
            exact ⟨List.mem_append_right _ (List.mem_singleton.mpr rfl), not_le.mp hin⟩
  obtain ⟨hnodup, himage⟩ := hrun original_ids
  rw [← List.length_map (f := SparseEntry.word_idx), ← List.toFinset_card_of_nodup hnodup]
  have hsubset : ((token_entry buf_words original_ids).map SparseEntry.word_idx).toFinset ⊆
      (original_ids.toFinset.filter (fun n => n / 32 < buf_words)).image
        (fun n => BitVec.ofNat 16 (n / 32)) := by
    intro word_idx hmem
    obtain ⟨n, hn, heq⟩ := himage word_idx (List.mem_toFinset.mp hmem)
    exact Finset.mem_image.mpr ⟨n, hn, heq⟩
  exact (Finset.card_le_card hsubset).trans Finset.card_image_le

section Counts

variable {internal_to_original : List (List ℕ)} {buf_words : ℕ}

theorem length_token_entries_le (hdisjoint : internal_to_original.Pairwise List.Disjoint) :
    (compute_token_entries internal_to_original buf_words).flatten.length ≤
      (internal_to_original.flatten.toFinset.filter (fun n => n / 32 < buf_words)).card := by
  unfold compute_token_entries
  induction internal_to_original with
  | nil => simp
  | cons ids rest ih =>
    rw [List.pairwise_cons] at hdisjoint
    have hapart : Disjoint (ids.toFinset.filter (fun n => n / 32 < buf_words))
        (rest.flatten.toFinset.filter (fun n => n / 32 < buf_words)) := by
      rw [Finset.disjoint_left]
      intro n hn hn'
      rw [Finset.mem_filter, List.mem_toFinset] at hn hn'
      obtain ⟨ids', hids', hmem⟩ := List.mem_flatten.mp hn'.1
      exact hdisjoint.1 ids' hids' hn.1 hmem
    rw [List.map_cons, List.flatten_cons, List.length_append, List.flatten_cons, List.toFinset_append,
      Finset.filter_union, Finset.card_union_of_disjoint hapart]
    exact Nat.add_le_add (length_token_entry_le buf_words ids) (ih hdisjoint.2)

/-- Narrow indices leave room for `2 ^ 21` bits, so there are no more entries. -/
theorem length_token_entries_le_of_narrow (hdisjoint : internal_to_original.Pairwise List.Disjoint)
    (hnarrow : NarrowIndices internal_to_original buf_words) :
    (compute_token_entries internal_to_original buf_words).flatten.length ≤ 2 ^ 21 := by
  apply (length_token_entries_le hdisjoint).trans
  have hsubset : internal_to_original.flatten.toFinset.filter (fun n => n / 32 < buf_words) ⊆
      Finset.range (2 ^ 21) := by
    intro n hn
    rw [Finset.mem_filter, List.mem_toFinset] at hn
    obtain ⟨ids, hids, hmem⟩ := List.mem_flatten.mp hn.1
    have hlt := hnarrow ids hids n hmem hn.2
    rw [Finset.mem_range]
    omega
  exact (Finset.card_le_card hsubset).trans (Finset.card_range _).le

end Counts

end MaskMapping

end GlrMask
