import GlrMask.MaskMappingWrites

/-!
# Writing a selection

The loops over the dense words of a selection, and those over internal ids, add
the original ids of the selected tokens or clear those of the missing ones.
-/

namespace GlrMask

namespace MaskMapping

open WordBitmap BitScan

/-! ## Words of a selection -/

theorem getLsbD_valid_mask (n_internal base i : ℕ) :
    (valid_mask n_internal base).getLsbD i = decide (i < 64 ∧ i < n_internal - base) := by
  unfold valid_mask
  dsimp only
  split
  · rename_i hall
    rw [BitVec.getLsbD_allOnes]
    congr 1
    rw [eq_iff_iff]
    omega
  · rename_i hpart
    have hlt : n_internal - base < 64 := by omega
    have hpow : 2 ^ (n_internal - base) < 2 ^ 64 := Nat.pow_lt_pow_right (by omega) hlt
    have hpos : 1 ≤ 2 ^ (n_internal - base) := Nat.one_le_two_pow
    have hshift : (1#64 <<< min (n_internal - base) 64).toNat = 2 ^ (n_internal - base) := by
      rw [Nat.min_eq_left hlt.le, BitVec.toNat_shiftLeft, BitVec.toNat_ofNat, Nat.shiftLeft_eq]
      norm_num
      exact hpow
    have hsub : ((1#64 <<< min (n_internal - base) 64) - 1#64).toNat =
        2 ^ (n_internal - base) - 1 := by
      rw [BitVec.toNat_sub_of_le (BitVec.le_def.mpr (by rw [hshift]; exact hpos)), hshift]
      rfl
    rw [← BitVec.testBit_toNat, hsub, Nat.testBit_two_pow_sub_one]
    congr 1
    rw [eq_iff_iff]
    omega

theorem valid_mask_full {n_internal base : ℕ} (h : 64 ≤ n_internal - base) :
    valid_mask n_internal base = BitVec.allOnes 64 := by
  unfold valid_mask
  exact if_pos (Nat.min_eq_right h)

/-- The tokens of word `wi`. -/
theorem mem_members_word {dense : List (BitVec 64)} {wi : ℕ} {word : BitVec 64}
    (hword : dense[wi]? = some word) (token : ℕ) (h : token / 64 = wi) :
    token ∈ members dense ↔ word.getLsbD (token - wi * 64) = true := by
  have hmod : token % 64 = token - wi * 64 := by omega
  rw [mem_members, bitAt, h, List.getD_eq_getElem?_getD, hword, hmod, Option.getD_some]

theorem div_lt_length {dense : List (BitVec 64)} {token : ℕ} (h : token ∈ members dense) :
    token / 64 < dense.length := div_lt_of_mem h

/-- The first word of the rest, and the rest behind it. -/
theorem getElem?_of_drop {dense rest : List (BitVec 64)} {wi : ℕ} {word : BitVec 64}
    (h : dense.drop wi = word :: rest) : dense[wi]? = some word ∧ dense.drop (wi + 1) = rest := by
  constructor
  · have hget : (dense.drop wi)[0]? = dense[wi + 0]? := List.getElem?_drop
    rw [h] at hget
    exact hget.symm
  · rw [← List.tail_drop, h, List.tail_cons]

theorem run_end_spec (n_internal : ℕ) (value : BitVec 64) (dense : List (BitVec 64)) (wi : ℕ) :
    wi ≤ run_end n_internal value wi (dense.drop wi) ∧
      ∀ i, wi ≤ i → i < run_end n_internal value wi (dense.drop wi) →
        dense[i]? = some value ∧ 64 ≤ n_internal - i * 64 := by
  generalize hrest : dense.drop wi = rest
  induction rest generalizing wi with
  | nil =>
    refine ⟨le_refl _, ?_⟩
    intro i hle hlt
    unfold run_end at hlt
    omega
  | cons word rest ih =>
    obtain ⟨hword, hnext⟩ := getElem?_of_drop hrest
    unfold run_end
    dsimp only
    split
    · refine ⟨le_refl _, ?_⟩
      intro i hle hlt
      omega
    · split
      · refine ⟨le_refl _, ?_⟩
        intro i hle hlt
        omega
      · rename_i hfull
        rw [not_or, not_lt, not_not] at hfull
        obtain ⟨hle, hall⟩ := ih (wi + 1) hnext
        refine ⟨by omega, ?_⟩
        intro i hi hlt
        rcases Nat.eq_or_lt_of_le hi with heq | hgt
        · rw [← heq, hword, hfull.2]
          exact ⟨rfl, hfull.1⟩
        · exact hall i hgt hlt

/-- The first run of complete full words. -/
structure FirstRun (n_internal : ℕ) (dense : List (BitVec 64)) (run : ℕ × ℕ) : Prop where
  lt : run.1 < run.2
  full : ∀ i, run.1 ≤ i → i < run.2 →
    dense[i]? = some (BitVec.allOnes 64) ∧ 64 ≤ n_internal - i * 64
  first : ∀ i, i < run.1 → dense[i]? = some (BitVec.allOnes 64) → n_internal - i * 64 < 64

theorem firstRun_of_eq_some {n_internal : ℕ} {dense : List (BitVec 64)} {run : ℕ × ℕ} (wi : ℕ)
    (h : first_full_dense_run n_internal wi (dense.drop wi) = some run)
    (hbefore : ∀ i, i < wi → dense[i]? = some (BitVec.allOnes 64) → n_internal - i * 64 < 64) :
    FirstRun n_internal dense run := by
  generalize hrest : dense.drop wi = rest at h
  induction rest generalizing wi with
  | nil => contradiction
  | cons word rest ih =>
    obtain ⟨hword, hnext⟩ := getElem?_of_drop hrest
    unfold first_full_dense_run at h
    dsimp only at h
    split at h
    · contradiction
    · split at h
      · rename_i hfull
        rw [← Option.some.inj h, ← hnext]
        obtain ⟨hle, hall⟩ := run_end_spec n_internal (BitVec.allOnes 64) dense (wi + 1)
        refine ⟨hle, ?_, hbefore⟩
        intro i hi hlt
        rcases Nat.eq_or_lt_of_le hi with heq | hgt
        · have hat : i = wi := heq.symm
          rw [hat, hword, hfull.2]
          exact ⟨rfl, hfull.1⟩
        · exact hall i hgt hlt
      · rename_i hnot
        refine ih (wi + 1) ?_ hnext h
        intro i hi heq
        rcases Nat.eq_or_lt_of_le (Nat.le_of_lt_succ hi) with hat | hlt
        · rw [hat, hword] at heq
          rw [hat]
          by_contra hge
          exact hnot ⟨not_lt.mp hge, Option.some.inj heq⟩
        · exact hbefore i hlt heq

/-- The tokens of the words of a selection that it leaves out. -/
def missingTokens (dense : List (BitVec 64)) : Set ℕ :=
  {token | token ∉ members dense ∧ token < dense.length * 64}

section Sets

variable {internal_to_original : List (List ℕ)} {buf_words : ℕ} {dense : List (BitVec 64)}

/-- The bits of one word are its part of the selection. -/
theorem originalBits_word {wi : ℕ} {word : BitVec 64} (hword : dense[wi]? = some word) :
    originalBits internal_to_original buf_words (tokensAt (wi * 64)
      (ones (word &&& valid_mask internal_to_original.length (wi * 64)))) =
    originalBits internal_to_original buf_words {token | token / 64 = wi ∧ token ∈ members dense} := by
  apply originalBits_congr
  intro token hlt
  simp only [tokensAt, Set.mem_ofPred_eq, mem_ones, BitVec.getLsbD_and, getLsbD_valid_mask,
    Bool.and_eq_true, decide_eq_true_eq]
  constructor
  · intro htoken
    have hdiv : token / 64 = wi := by omega
    exact ⟨hdiv, (mem_members_word hword token hdiv).mpr htoken.2.1⟩
  · intro htoken
    exact ⟨by omega, (mem_members_word hword token htoken.1).mp htoken.2, by omega, by omega⟩

theorem originalBits_missing_word {wi : ℕ} {word : BitVec 64} (hword : dense[wi]? = some word) :
    originalBits internal_to_original buf_words (tokensAt (wi * 64)
      (ones (~~~word &&& valid_mask internal_to_original.length (wi * 64)))) =
    originalBits internal_to_original buf_words {token | token / 64 = wi ∧ token ∉ members dense} := by
  apply originalBits_congr
  intro token hlt
  simp only [tokensAt, Set.mem_ofPred_eq, mem_ones, BitVec.getLsbD_and, BitVec.getLsbD_not,
    getLsbD_valid_mask, Bool.and_eq_true, decide_eq_true_eq, Bool.not_eq_true']
  constructor
  · intro htoken
    have hdiv : token / 64 = wi := by omega
    refine ⟨hdiv, ?_⟩
    rw [mem_members_word hword token hdiv, htoken.2.1.2]
    exact Bool.false_ne_true
  · intro htoken
    have hbit := htoken.2
    rw [mem_members_word hword token htoken.1, Bool.not_eq_true] at hbit
    exact ⟨by omega, ⟨by omega, hbit⟩, by omega, by omega⟩

theorem originalBits_split {tokens : Set ℕ} (wi stop : ℕ) (h : wi ≤ stop) :
    originalBits internal_to_original buf_words {token | token ∈ tokens ∧ wi * 64 ≤ token} =
      originalBits internal_to_original buf_words
        {token | token ∈ tokens ∧ wi * 64 ≤ token ∧ token < stop * 64} ∪
      originalBits internal_to_original buf_words {token | token ∈ tokens ∧ stop * 64 ≤ token} := by
  rw [← originalBits_union]
  congr 1
  ext token
  simp only [Set.mem_ofPred_eq, Set.mem_union]
  constructor
  · intro htoken
    by_cases hlt : token < stop * 64
    · exact .inl ⟨htoken.1, htoken.2, hlt⟩
    · exact .inr ⟨htoken.1, not_lt.mp hlt⟩
  · intro htoken
    rcases htoken with htoken | htoken
    · exact ⟨htoken.1, htoken.2.1⟩
    · exact ⟨htoken.1, by omega⟩

end Sets

namespace Represents

variable {mapping : FinalMaskMapping} {internal_to_original : List (List ℕ)} {buf_words : ℕ}
  {out : Words} {dense : List (BitVec 64)}

/-- What holds at word `wi` of the loop that adds the selected tokens. -/
structure AtWord (mapping : FinalMaskMapping) (internal_to_original : List (List ℕ))
    (buf_words : ℕ) (dense : List (BitVec 64)) (buf_zeroed : Bool) (seed : Option (ℕ × ℕ)) (wi : ℕ)
    (wrote : Bool) (out : Words) : Prop where
  length_eq : out.length = buf_words
  unwritten : buf_zeroed = true → wrote = false → members out = ∅
  written : buf_zeroed = true → members out ⊆ originalBits internal_to_original buf_words
    {token | token < wi * 64 ∨ ∃ run ∈ seed, run.1 * 64 ≤ token ∧ token < run.2 * 64}
  seeded : ∀ run ∈ seed, FirstRun internal_to_original.length dense run ∧
    (wi ≤ run.1 ∨ run.2 ≤ wi) ∧ originalBits internal_to_original buf_words
      {token | run.1 * 64 ≤ token ∧ token < run.2 * 64} ⊆ members out

theorem AtWord.next {buf_zeroed wrote wrote' : Bool} {seed : Option (ℕ × ℕ)} {wi stop : ℕ}
    {out' : Words}
    (h : AtWord mapping internal_to_original buf_words dense buf_zeroed seed wi wrote out)
    (hstop : wi < stop) (hseed : ∀ run ∈ seed, stop ≤ run.1 ∨ run.2 ≤ stop)
    (tokens : Set ℕ) (htokens : ∀ token ∈ tokens, token < stop * 64)
    (hadds : Adds out out' (originalBits internal_to_original buf_words tokens))
    (hwrote : wrote' = false → out' = out ∧ wrote = false) :
    AtWord mapping internal_to_original buf_words dense buf_zeroed seed stop wrote' out' := by
  constructor
  · exact hadds.length_eq.trans h.length_eq
  · intro hzeroed hnot
    obtain ⟨hsame, hold⟩ := hwrote hnot
    rw [hsame]
    exact h.unwritten hzeroed hold
  · intro hzeroed
    rw [hadds.members_eq]
    apply Set.union_subset
    · apply (h.written hzeroed).trans (originalBits_mono ?_)
      intro token htoken
      refine htoken.imp_left ?_
      intro hlt
      omega
    · apply originalBits_mono
      intro token htoken
      exact .inl (htokens token htoken)
  · intro run hrun
    obtain ⟨hfirst, -, hin⟩ := h.seeded run hrun
    refine ⟨hfirst, hseed run hrun, ?_⟩
    rw [hadds.members_eq]
    exact hin.trans Set.subset_union_left

theorem originalBits_past {tokens : Set ℕ} {wi : ℕ}
    (h : dense.length ≤ wi ∨ internal_to_original.length ≤ wi * 64)
    (hdense : ∀ token ∈ tokens, token / 64 < dense.length) :
    originalBits internal_to_original buf_words {token | token ∈ tokens ∧ wi * 64 ≤ token} = ∅ := by
  apply originalBits_beyond
  intro token htoken
  have hlt := hdense token htoken.1
  have hge := htoken.2
  omega

theorem adds_or_selected_loop_fast (h : Represents mapping internal_to_original buf_words)
    (hdisjoint : internal_to_original.Pairwise List.Disjoint) {buf_zeroed : Bool}
    {seed : Option (ℕ × ℕ)} (fuel wi : ℕ) (wrote : Bool) (out : Words)
    (hat : AtWord mapping internal_to_original buf_words dense buf_zeroed seed wi wrote out)
    (hfuel : dense.length - wi ≤ fuel) :
    Adds out (mapping.or_selected_loop_fast dense buf_zeroed seed fuel wi wrote out)
      (originalBits internal_to_original buf_words
        {token | token ∈ members dense ∧ wi * 64 ≤ token}) := by
  have hdense : ∀ token ∈ members dense, token / 64 < dense.length := fun _ => div_lt_length
  induction fuel generalizing wi wrote out with
  | zero =>
    rw [originalBits_past (.inl (by omega)) hdense]
    exact Adds.refl out
  | succ fuel ih =>
    -- one word or one run is added, and the rest of the loop adds the rest
    have hstep : ∀ {stop : ℕ} {wrote' : Bool} {out' : Words}, wi < stop →
        (∀ run ∈ seed, stop ≤ run.1 ∨ run.2 ≤ stop) →
        Adds out out' (originalBits internal_to_original buf_words
          {token | token ∈ members dense ∧ wi * 64 ≤ token ∧ token < stop * 64}) →
        (wrote' = false → out' = out ∧ wrote = false) →
        Adds out (mapping.or_selected_loop_fast dense buf_zeroed seed fuel stop wrote' out')
          (originalBits internal_to_original buf_words
            {token | token ∈ members dense ∧ wi * 64 ≤ token}) := by
      intro stop wrote' out' hstop hseed hadds hwrote
      have hnext := hat.next hstop hseed _ (fun token htoken => htoken.2.2) hadds hwrote
      rw [originalBits_split wi stop hstop.le]
      exact hadds.trans (ih stop wrote' out' hnext (by omega))
    unfold FinalMaskMapping.or_selected_loop_fast
    split
    · rename_i hnone
      rw [originalBits_past (.inl (List.getElem?_eq_none_iff.mp hnone)) hdense]
      exact Adds.refl out
    · rename_i word hword
      rw [h.internal_len_eq]
      dsimp only
      split
      · rename_i hpast
        rw [originalBits_past (.inr hpast) hdense]
        exact Adds.refl out
      · rename_i hin
        split
        · rename_i run hrun
          obtain ⟨hseed, hstart⟩ := Option.filter_eq_some_iff.mp hrun
          have hwi : wi = run.1 := by simpa using hstart
          have hmem : run ∈ seed := hseed
          obtain ⟨hfirst, -, hold⟩ := hat.seeded run hmem
          have hlt := hfirst.lt
          have hafter : AtWord mapping internal_to_original buf_words dense buf_zeroed seed run.2
              wrote out := by
            apply hat.next (by omega) ?_ ∅ (fun token htoken => htoken.elim)
              (by rw [originalBits_empty]; exact Adds.refl out) (fun hnot => ⟨rfl, hnot⟩)
            intro run' hrun'
            rw [Option.mem_unique hrun' hmem]
            exact .inr (le_refl _)
          rw [originalBits_split wi run.2 (by omega)]
          apply (ih run.2 wrote out hafter (by omega)).of_subset
          refine Set.Subset.trans (originalBits_mono ?_) hold
          intro token htoken
          exact ⟨hwi ▸ htoken.2.1, htoken.2.2⟩
        · rename_i hnone
          have hnot : ∀ run ∈ seed, wi ≠ run.1 := by
            intro run hrun heq
            have hseed : seed = some run := hrun
            rw [hseed, heq] at hnone
            simp at hnone
          have hsplit : ∀ run ∈ seed, wi + 1 ≤ run.1 ∨ run.2 ≤ wi + 1 := by
            intro run hrun
            obtain ⟨-, hside, -⟩ := hat.seeded run hrun
            have hne := hnot run hrun
            omega
          have hset : {token | token ∈ members dense ∧ wi * 64 ≤ token ∧ token < (wi + 1) * 64} =
              {token | token / 64 = wi ∧ token ∈ members dense} := by
            ext token
            simp only [Set.mem_ofPred_eq]
            constructor
            · intro htoken
              exact ⟨by omega, htoken.1⟩
            · intro htoken
              exact ⟨htoken.2, by omega, by omega⟩
          split
          · rename_i hzero
            apply hstep (by omega) hsplit ?_ (fun hwrote => ⟨rfl, hwrote⟩)
            rw [hset, ← originalBits_word hword, hzero, ones_zero, tokensAt_empty, originalBits_empty]
            exact Adds.refl out
          · split
            · rename_i hfull
              obtain ⟨hle, hall⟩ := run_end_spec internal_to_original.length (BitVec.allOnes 64)
                dense (wi + 1)
              have hvalid := valid_mask_full hfull.2
              have hword' : word = BitVec.allOnes 64 := by
                have hbits := hfull.1
                rwa [hvalid, BitVec.and_allOnes] at hbits
              have hword_full : dense[wi]? = some (BitVec.allOnes 64) := hword' ▸ hword
              have hpassed : ∀ run ∈ seed, run.2 ≤ wi := by
                intro run hrun
                obtain ⟨hfirst, hside, -⟩ := hat.seeded run hrun
                by_contra hlt
                have := hfirst.first wi (by have := hnot run hrun; omega) hword_full
                omega
              have hrun : {token | token ∈ members dense ∧ wi * 64 ≤ token ∧ token <
                  run_end internal_to_original.length (BitVec.allOnes 64) (wi + 1)
                    (dense.drop (wi + 1)) * 64} =
                  {token | wi * 64 ≤ token ∧ token <
                    run_end internal_to_original.length (BitVec.allOnes 64) (wi + 1)
                      (dense.drop (wi + 1)) * 64} := by
                ext token
                simp only [Set.mem_ofPred_eq, and_iff_right_iff_imp]
                intro htoken
                have hget : dense[token / 64]? = some (BitVec.allOnes 64) := by
                  rcases Nat.eq_or_lt_of_le (show wi ≤ token / 64 by omega) with heq | hlt
                  · exact heq ▸ hword_full
                  · exact (hall (token / 64) hlt (by omega)).1
                rw [mem_members_word hget token rfl, BitVec.getLsbD_allOnes]
                exact decide_eq_true (by omega)
              obtain ⟨hadds, -⟩ := h.adds_or_full_group_run hdisjoint hat.length_eq wi
                (run_end internal_to_original.length (BitVec.allOnes 64) (wi + 1)
                  (dense.drop (wi + 1))) (buf_zeroed && !wrote) (by
                    intro hcopy
                    rw [Bool.and_eq_true, Bool.not_eq_true'] at hcopy
                    exact hat.unwritten hcopy.1 hcopy.2)
              apply hstep (by omega) ?_ (hrun ▸ hadds) (fun hwrote => Bool.noConfusion hwrote)
              intro run hmem
              exact .inr ((hpassed run hmem).trans (by omega))
            · have hadds := h.adds_or_bits_fast hdisjoint hat.length_eq (Nat.dvd_mul_left 64 wi)
                (word &&& valid_mask internal_to_original.length (wi * 64)) buf_zeroed (by
                  intro hzeroed
                  refine Disjoint.mono_left (hat.written hzeroed)
                    (originalBits_disjoint hdisjoint ?_)
                  rw [Set.disjoint_left]
                  intro token htoken hgroup
                  have hdiv : token / 64 = wi * 64 / 64 := hgroup
                  rcases htoken with hlt | ⟨run, hrun, htoken⟩
                  · omega
                  · obtain ⟨-, hside, -⟩ := hat.seeded run hrun
                    have hne := hnot run hrun
                    omega)
              apply hstep (by omega) hsplit ?_ (fun hwrote => Bool.noConfusion hwrote)
              rw [hset, ← originalBits_word hword]
              exact hadds

theorem adds_or_selected_dense_fast (h : Represents mapping internal_to_original buf_words)
    (hdisjoint : internal_to_original.Pairwise List.Disjoint) (hlen : out.length = buf_words)
    (dense : List (BitVec 64)) {buf_zeroed : Bool}
    (hzeroed : buf_zeroed = true → members out = ∅) :
    Adds out (mapping.or_selected_dense_fast dense out buf_zeroed)
      (originalBits internal_to_original buf_words (members dense)) := by
  have hall : {token | token ∈ members dense ∧ 0 * 64 ≤ token} = members dense := by
    ext token
    simp
  unfold FinalMaskMapping.or_selected_dense_fast
  dsimp only
  split
  · rename_i run hseed
    split at hseed
    · rename_i hbuf
      rw [h.internal_len_eq] at hseed
      have hfirst : FirstRun internal_to_original.length dense run :=
        firstRun_of_eq_some 0 hseed (fun i hi => absurd hi (Nat.not_lt_zero i))
      obtain ⟨hadds, -⟩ := h.adds_or_full_group_run hdisjoint hlen run.1 run.2 true (fun _ => hzeroed hbuf)
      have hmembers := hadds.members_eq
      rw [hzeroed hbuf, Set.empty_union] at hmembers
      have hat : AtWord mapping internal_to_original buf_words dense buf_zeroed (some run) 0 true
          (mapping.or_full_group_run run.1 run.2 out true).1 := by
        constructor
        · exact hadds.length_eq.trans hlen
        · intro _ hwrote
          exact Bool.noConfusion hwrote
        · intro _
          rw [hmembers]
          apply originalBits_mono
          intro token htoken
          exact .inr ⟨run, rfl, htoken⟩
        · intro run' hrun'
          rw [← Option.some.inj hrun']
          exact ⟨hfirst, .inl (Nat.zero_le _), hmembers.symm.subset⟩
      have hrest := h.adds_or_selected_loop_fast hdisjoint dense.length 0 true _ hat (by omega)
      rw [hall] at hrest
      have hin : originalBits internal_to_original buf_words
          {token | run.1 * 64 ≤ token ∧ token < run.2 * 64} ⊆
          originalBits internal_to_original buf_words (members dense) := by
        apply originalBits_mono
        intro token htoken
        obtain ⟨hget, -⟩ := hfirst.full (token / 64) (by have := htoken.1; omega)
          (by have := htoken.2; omega)
        rw [mem_members_word hget token rfl, BitVec.getLsbD_allOnes]
        exact decide_eq_true (by omega)
      have hboth := hadds.trans hrest
      rw [Set.union_eq_right.mpr hin] at hboth
      rw [hbuf] at hboth ⊢
      rw [h.internal_len_eq, if_pos rfl, hseed]
      exact hboth
    · contradiction
  · rename_i hseed
    rw [hseed]
    have hat : AtWord mapping internal_to_original buf_words dense buf_zeroed none 0 false out := by
      constructor
      · exact hlen
      · intro hbuf _
        exact hzeroed hbuf
      · intro hbuf
        rw [hzeroed hbuf]
        exact Set.empty_subset _
      · intro run hrun
        contradiction
    have hrest := h.adds_or_selected_loop_fast hdisjoint dense.length 0 false out hat (by omega)
    rwa [hall] at hrest

/-! ## Clearing what is missing -/

theorem missing_div_lt : ∀ token ∈ missingTokens dense, token / 64 < dense.length := by
  intro token htoken
  have := htoken.2
  omega

theorem clears_andnot_missing_loop_fast (h : Represents mapping internal_to_original buf_words)
    (hdisjoint : internal_to_original.Pairwise List.Disjoint) (dense : List (BitVec 64))
    (fuel wi : ℕ) (out : Words)
    (hlen : out.length = buf_words) (hfuel : dense.length - wi ≤ fuel) :
    Clears out (mapping.andnot_missing_loop_fast dense fuel wi out)
      (originalBits internal_to_original buf_words
        {token | token ∈ missingTokens dense ∧ wi * 64 ≤ token}) := by
  induction fuel generalizing wi out with
  | zero =>
    rw [originalBits_past (.inl (by omega)) missing_div_lt]
    exact Clears.refl out
  | succ fuel ih =>
    have hstep : ∀ {stop : ℕ} {out' : Words}, wi < stop →
        Clears out out' (originalBits internal_to_original buf_words
          {token | token ∈ missingTokens dense ∧ wi * 64 ≤ token ∧ token < stop * 64}) →
        Clears out (mapping.andnot_missing_loop_fast dense fuel stop out')
          (originalBits internal_to_original buf_words
            {token | token ∈ missingTokens dense ∧ wi * 64 ≤ token}) := by
      intro stop out' hstop hclears
      rw [originalBits_split wi stop hstop.le]
      exact hclears.trans (ih stop out' (hclears.length_eq.trans hlen) (by omega))
    unfold FinalMaskMapping.andnot_missing_loop_fast
    split
    · rename_i hnone
      rw [originalBits_past (.inl (List.getElem?_eq_none_iff.mp hnone)) missing_div_lt]
      exact Clears.refl out
    · rename_i word hword
      rw [h.internal_len_eq]
      dsimp only
      split
      · rename_i hpast
        rw [originalBits_past (.inr hpast) missing_div_lt]
        exact Clears.refl out
      · have hset : {token | token ∈ missingTokens dense ∧ wi * 64 ≤ token ∧
            token < (wi + 1) * 64} = {token | token / 64 = wi ∧ token ∉ members dense} := by
          have hwi := (List.getElem?_eq_some_iff.mp hword).1
          ext token
          simp only [missingTokens, Set.mem_ofPred_eq]
          constructor
          · intro htoken
            exact ⟨by omega, htoken.1.1⟩
          · intro htoken
            exact ⟨⟨htoken.2, by omega⟩, by omega, by omega⟩
        split
        · rename_i hfull
          obtain ⟨hle, hall⟩ := run_end_spec internal_to_original.length 0#64 dense (wi + 1)
          have hvalid := valid_mask_full hfull.1
          have hzero : word = 0#64 := by
            have hbits := hfull.2
            rw [hvalid, BitVec.and_allOnes] at hbits
            rw [← BitVec.not_not (b := word), hbits, BitVec.not_allOnes]
          have hrun : {token | token ∈ missingTokens dense ∧ wi * 64 ≤ token ∧ token <
              run_end internal_to_original.length 0#64 (wi + 1) (dense.drop (wi + 1)) * 64} =
              {token | wi * 64 ≤ token ∧ token <
                run_end internal_to_original.length 0#64 (wi + 1) (dense.drop (wi + 1)) * 64} := by
            ext token
            simp only [Set.mem_ofPred_eq, and_iff_right_iff_imp]
            intro htoken
            have hget : dense[token / 64]? = some 0#64 := by
              rcases Nat.eq_or_lt_of_le (show wi ≤ token / 64 by omega) with heq | hlt
              · rw [← heq, hword, hzero]
              · exact (hall (token / 64) hlt (by omega)).1
            have hlt := (List.getElem?_eq_some_iff.mp hget).1
            refine ⟨?_, by omega⟩
            rw [mem_members_word hget token rfl, BitVec.getLsbD_zero]
            exact Bool.false_ne_true
          apply hstep (by omega)
          rw [hrun]
          exact h.clears_andnot_word_group_run hdisjoint hlen (by omega)
        · split
          · apply hstep (by omega)
            rw [hset, ← originalBits_missing_word hword]
            exact h.clears_andnot_bits_fast hdisjoint hlen (Nat.dvd_mul_left 64 wi) _
          · rename_i hzero
            rw [not_not] at hzero
            apply hstep (by omega)
            rw [hset, ← originalBits_missing_word hword, hzero, ones_zero, tokensAt_empty,
              originalBits_empty]
            exact Clears.refl out

/-- Starting from the mask of all tokens, what is left are the selected tokens
and those of the absent words. -/
theorem adds_complement (h : Represents mapping internal_to_original buf_words)
    (hdisjoint : internal_to_original.Pairwise List.Disjoint) (hlen : out.length = buf_words)
    (hempty : members out = ∅) (dense : List (BitVec 64)) :
    Adds out (mapping.andnot_missing_dense_fast dense (copy_dense out mapping.all_tokens_mask))
      (originalBits internal_to_original buf_words
        (members dense ∪ {token | dense.length * 64 ≤ token})) := by
  have hcopy := adds_copy_dense (h.all_tokens_length.trans hlen.symm) hempty
  rw [h.all_tokens_members] at hcopy
  have hclears := h.clears_andnot_missing_loop_fast hdisjoint dense dense.length 0 _
    (hcopy.length_eq.trans hlen) (by omega)
  have hboth := hcopy.clear hclears (by rw [hempty]; exact Set.empty_disjoint _)
  rw [originalBits_sdiff hdisjoint] at hboth
  have hset : Set.univ \ {token | token ∈ missingTokens dense ∧ 0 * 64 ≤ token} =
      members dense ∪ {token | dense.length * 64 ≤ token} := by
    ext token
    simp only [missingTokens, Set.mem_sdiff, Set.mem_univ, Set.mem_ofPred_eq, Set.mem_union,
      Nat.zero_mul, Nat.zero_le, and_true, true_and]
    rw [not_and_or, not_not, not_lt]
  rwa [hset] at hboth

end Represents

/-! ## Counting -/

/-- The tokens behind the words of a selection have no original id within the mask. -/
def CoversTokens (internal_to_original : List (List ℕ)) (buf_words n_words : ℕ) : Prop :=
  ∀ token ids, internal_to_original[token]? = some ids → n_words * 64 ≤ token →
    ∀ original ∈ ids, buf_words ≤ original / 32

theorem coversTokens_iff {internal_to_original : List (List ℕ)} {buf_words n_words : ℕ} :
    CoversTokens internal_to_original buf_words n_words ↔
      originalBits internal_to_original buf_words {token | n_words * 64 ≤ token} = ∅ := by
  rw [Set.eq_empty_iff_forall_notMem]
  constructor
  · intro h n hn
    obtain ⟨hlt, token, htoken, ids, hids, hmem⟩ := hn
    have hge := h token ids hids htoken n hmem
    omega
  · intro h token ids hids htoken original hmem
    by_contra hlt
    exact h original ⟨not_le.mp hlt, token, htoken, ids, hids, hmem⟩

/-- The count of the words from `wi` on is that of their selected tokens. -/
theorem count_dense_set_bits_eq (mapping : FinalMaskMapping) (dense : List (BitVec 64)) (wi : ℕ) :
    mapping.count_dense_set_bits wi (dense.drop wi) =
      ((Finset.range mapping.token_entries.len).filter
        (fun token => wi * 64 ≤ token ∧ bitAt dense token = true)).card := by
  generalize hrest : dense.drop wi = rest
  induction rest generalizing wi with
  | nil =>
    have hle : dense.length ≤ wi := List.drop_eq_nil_iff.mp hrest
    symm
    unfold FinalMaskMapping.count_dense_set_bits
    rw [Finset.card_eq_zero, Finset.filter_eq_empty_iff]
    intro token _ htoken
    have := div_lt_length htoken.2
    omega
  | cons word rest ih =>
    obtain ⟨hword, hnext⟩ := getElem?_of_drop hrest
    unfold FinalMaskMapping.count_dense_set_bits
    dsimp only
    split
    · symm
      rw [Finset.card_eq_zero, Finset.filter_eq_empty_iff]
      intro token hmem htoken
      have := Finset.mem_range.mp hmem
      omega
    · rw [ih (wi + 1) hnext, toNat_cpop_eq_card]
      have hsplit : (Finset.range mapping.token_entries.len).filter
          (fun token => wi * 64 ≤ token ∧ bitAt dense token = true) =
          ((Finset.range 64).filter (fun i => (word &&& valid_mask mapping.token_entries.len
            (wi * 64)).getLsbD i = true)).image (fun i => wi * 64 + i) ∪
          (Finset.range mapping.token_entries.len).filter
            (fun token => (wi + 1) * 64 ≤ token ∧ bitAt dense token = true) := by
        ext token
        simp only [Finset.mem_filter, Finset.mem_range, Finset.mem_union, Finset.mem_image,
          BitVec.getLsbD_and, getLsbD_valid_mask, Bool.and_eq_true, decide_eq_true_eq]
        constructor
        · intro htoken
          by_cases hlt : token < (wi + 1) * 64
          · have hbit := (mem_members_word hword token (by omega)).mp htoken.2.2
            exact .inl ⟨token - wi * 64, ⟨by omega, hbit, by omega, by omega⟩, by omega⟩
          · exact .inr ⟨htoken.1, not_lt.mp hlt, htoken.2.2⟩
        · intro htoken
          rcases htoken with ⟨i, hi, heq⟩ | htoken
          · have hbit := (mem_members_word hword token (by omega)).mpr
              (by rw [← heq, Nat.add_sub_cancel_left]; exact hi.2.1)
            exact ⟨by omega, by omega, hbit⟩
          · exact ⟨htoken.1, by omega, htoken.2.2⟩
      rw [hsplit, Finset.card_union_of_disjoint, Finset.card_image_of_injective]
      · intro i j hij
        dsimp only at hij
        omega
      · rw [Finset.disjoint_left]
        intro token himage hlater
        obtain ⟨i, hi, heq⟩ := Finset.mem_image.mp himage
        have hlt := Finset.mem_range.mp (Finset.mem_filter.mp hi).1
        have hge := (Finset.mem_filter.mp hlater).2.1
        omega

theorem count_dense_set_bits_zero (mapping : FinalMaskMapping) (dense : List (BitVec 64)) :
    mapping.count_dense_set_bits 0 dense =
      ((Finset.range mapping.token_entries.len).filter (fun token => bitAt dense token = true)).card := by
  have hcount := count_dense_set_bits_eq mapping dense 0
  rw [List.drop_zero] at hcount
  rw [hcount]
  simp

namespace Represents

variable {mapping : FinalMaskMapping} {internal_to_original : List (List ℕ)} {buf_words : ℕ}
  {out : Words}

/-- All tokens are selected where their number is. -/
theorem originalBits_of_all (h : Represents mapping internal_to_original buf_words)
    {dense : List (BitVec 64)}
    (hcount : mapping.token_entries.len ≤ mapping.count_dense_set_bits 0 dense) :
    originalBits internal_to_original buf_words Set.univ =
      originalBits internal_to_original buf_words (members dense) := by
  rw [count_dense_set_bits_zero] at hcount
  have hall := Finset.eq_of_subset_of_card_le (Finset.filter_subset
    (fun token => bitAt dense token = true) (Finset.range mapping.token_entries.len))
    (by rw [Finset.card_range]; exact hcount)
  apply originalBits_congr
  intro token hlt
  rw [← h.internal_len_eq, ← Finset.mem_range, ← hall, Finset.mem_filter] at hlt
  exact ⟨fun _ => hlt.2, fun _ => Set.mem_univ _⟩

theorem originalBits_of_none (h : Represents mapping internal_to_original buf_words)
    {dense : List (BitVec 64)} (hcount : mapping.count_dense_set_bits 0 dense = 0) :
    originalBits internal_to_original buf_words (members dense) = ∅ := by
  rw [count_dense_set_bits_zero, Finset.card_eq_zero, Finset.filter_eq_empty_iff] at hcount
  apply originalBits_beyond
  intro token htoken
  by_contra hlt
  rw [not_le, ← h.internal_len_eq, ← Finset.mem_range] at hlt
  exact hcount hlt htoken

theorem adds_or_dense_to_buf_fast (h : Represents mapping internal_to_original buf_words)
    (hdisjoint : internal_to_original.Pairwise List.Disjoint) (hlen : out.length = buf_words)
    (dense : List (BitVec 64)) (buf_zeroed : Bool) (hzeroed : buf_zeroed = true → members out = ∅)
    (hcovers : buf_zeroed = true → CoversTokens internal_to_original buf_words dense.length) :
    Adds out (mapping.or_dense_to_buf_fast dense out buf_zeroed)
      (originalBits internal_to_original buf_words (members dense)) := by
  have hmask := h.all_tokens_length.trans hlen.symm
  unfold FinalMaskMapping.or_dense_to_buf_fast
  dsimp only
  split
  · rename_i hnothing
    have hnone : originalBits internal_to_original buf_words (members dense) = ∅ := by
      rcases hnothing with hzero | hnil
      · apply originalBits_beyond
        intro token _
        rw [← h.internal_len_eq, hzero]
        exact Nat.zero_le token
      · rw [hnil]
        have hempty : members ([] : List (BitVec 64)) = ∅ := by
          ext token
          simp [bitAt]
        rw [hempty, originalBits_empty]
    rw [hnone]
    exact Adds.refl out
  · split
    · rename_i hall
      rw [← h.originalBits_of_all hall.1, ← h.all_tokens_members]
      split
      · rename_i hbuf
        exact adds_copy_dense hmask (hzeroed hbuf)
      · exact adds_or_dense hmask
    · split
      · rename_i hnone
        rw [h.originalBits_of_none hnone]
        exact Adds.refl out
      · split
        · rename_i hfew
          rw [Bool.and_eq_true] at hfew
          split
          · exact h.adds_or_selected_dense_fast hdisjoint hlen dense hzeroed
          · have hadds := h.adds_complement hdisjoint hlen (hzeroed hfew.1) dense
            rw [originalBits_union, coversTokens_iff.mp (hcovers hfew.1), Set.union_empty] at hadds
            exact hadds
        · exact h.adds_or_selected_dense_fast hdisjoint hlen dense hzeroed

end Represents

end MaskMapping

end GlrMask
