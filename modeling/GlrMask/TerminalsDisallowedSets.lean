import GlrMask.TerminalsDisallowedRows

/-!
# Exclusions as sets of pairs

The constructors keep a value regular as long as no map with an empty terminal set is
handed over in the shared form; on regular values every operation is the operation on
the sets of pairs, and equality and hashing see the set only.
-/

namespace GlrMask

namespace TerminalsDisallowed

variable {v w : TerminalsDisallowed}

/-! ## Queries -/

theorem contains_iff (set : TerminalSetRef) (terminal : ℕ) :
    set.contains terminal = true ↔ terminal ∈ set.iter := by
  cases set with
  | one value =>
      rw [TerminalSetRef.contains, TerminalSetRef.iter, beq_iff_eq, List.mem_singleton, eq_comm]
  | few values => simp [TerminalSetRef.contains, TerminalSetRef.iter]
  | many values => simp [TerminalSetRef.contains, TerminalSetRef.iter]

theorem get_few {pairs : InlinePairs} (h : pairs.Sorted) (state : ℕ) :
    (few pairs).get state =
      if pairs.filter (fun p => p.1 = state) = [] then none
      else some (.few (pairs.filter fun p => p.1 = state)) := by
  rw [get, ← InlinePairs.run_of_state h state]
  cases pairs.dropWhile fun p => p.1 ≠ state with
  | nil => rfl
  | cons first rest => rfl

/-- One state's terminals are those of the set, in increasing order. -/
theorem Regular.get_row (h : v.Regular) (state : ℕ) :
    (v.get state).map TerminalSetRef.iter = rowOf v.pairs state := by
  cases v with
  | empty => exact (h.rows.listing.none_of_forall_ne fun _ he => absurd he List.not_mem_nil).symm
  | one existing terminal =>
      have hrow := h.rows.listing
      have hget : (one existing terminal).rows = [(existing, [terminal])] := rfl
      rw [hget] at hrow
      rw [get]
      split_ifs with hstate
      · subst hstate
        exact ((hrow.mem_iff _ _).mp (List.mem_singleton_self _)).symm
      · refine (hrow.none_of_forall_ne ?_).symm
        simpa using hstate
  | few pairs =>
      rw [get_few h.1, TerminalsDisallowed.pairs, (filter_rowFor h.1 state).rowOf_eq]
      split_ifs with hempty hmap hmap
      · rfl
      · exact absurd (by rw [hempty]; rfl) hmap
      · exact absurd (List.map_eq_nil_iff.mp hmap) hempty
      · rfl
  | many values =>
      have hrow := h.rows.listing
      rw [get]
      cases hget : values.get state with
      | some terminals =>
          symm
          apply (hrow.mem_iff state _).mp
          rw [TerminalsDisallowed.rows, iter, List.map_map]
          exact List.mem_map.mpr ⟨_, SortedMap.get_eq_some_iff.mp hget, rfl⟩
      | none =>
          refine (hrow.none_of_forall_ne ?_).symm
          intro row hmem heq
          rw [TerminalsDisallowed.rows, iter, List.map_map] at hmem
          obtain ⟨e, he, rfl⟩ := List.mem_map.mp hmem
          have heq : e.1 = state := heq
          rw [← heq, SortedMap.get_eq_some_iff.mpr he] at hget
          cases hget

theorem mem_pairs_iff_row (h : v.Regular) {state terminal : ℕ} :
    (state, terminal) ∈ v.pairs ↔ ∃ terminals, (state, terminals) ∈ v.rows ∧ terminal ∈ terminals := by
  constructor
  · intro hmem
    cases hrow : rowOf v.pairs state with
    | none => exact absurd hmem (rowOf_eq_none hrow terminal)
    | some terminals =>
        exact ⟨terminals, (h.rows.listing.mem_iff _ _).mpr hrow,
          ((rowOf_eq_some hrow).2.mem_iff terminal).mpr hmem⟩
  · intro hrow
    obtain ⟨terminals, hmem, hterminal⟩ := hrow
    have hsome := (h.rows.listing.mem_iff _ _).mp hmem
    exact ((rowOf_eq_some hsome).2.mem_iff terminal).mp hterminal

theorem mem_pairs_iff_get (h : v.Regular) {state terminal : ℕ} :
    (state, terminal) ∈ v.pairs ↔ ∃ set, v.get state = some set ∧ set.contains terminal = true := by
  rw [mem_pairs_iff_row h]
  constructor
  · intro hrow
    obtain ⟨terminals, hmem, hterminal⟩ := hrow
    have hsome := (h.rows.listing.mem_iff _ _).mp hmem
    rw [← h.get_row] at hsome
    obtain ⟨set, hget, rfl⟩ := Option.map_eq_some_iff.mp hsome
    exact ⟨set, hget, (contains_iff set terminal).mpr hterminal⟩
  · intro hset
    obtain ⟨set, hget, hcontains⟩ := hset
    refine ⟨set.iter, ?_, (contains_iff set terminal).mp hcontains⟩
    rw [h.rows.listing.mem_iff, ← h.get_row, hget, Option.map_some]

theorem is_subset_of_iff (hv : v.Regular) (hw : w.Regular) :
    v.is_subset_of w = true ↔ v.pairs ⊆ w.pairs := by
  by_cases hempty : v.is_empty = true
  · cases v with
    | empty => simp [is_subset_of, is_empty, pairs]
    | _ => cases hempty
  · rw [is_subset_of, if_neg hempty, List.all_eq_true]
    constructor
    · intro hall p hp
      obtain ⟨terminals, hmem, hterminal⟩ := (mem_pairs_iff_row hv).mp hp
      obtain ⟨e, he, heq⟩ := List.mem_map.mp hmem
      obtain ⟨hstate, hiter⟩ := Prod.ext_iff.mp heq
      simp only at hstate hiter
      have hanswer := hall e he
      rw [hstate, hiter] at hanswer
      split at hanswer
      · cases hanswer
      · rename_i set hget
        exact (mem_pairs_iff_get hw).mpr
          ⟨set, hget, List.all_eq_true.mp hanswer p.2 hterminal⟩
    · intro hsub e he
      have hrow : (e.1, e.2.iter) ∈ v.rows := List.mem_map.mpr ⟨e, he, rfl⟩
      obtain ⟨hne, hrowFor⟩ := rowOf_eq_some ((hv.rows.listing.mem_iff _ _).mp hrow)
      have hall : ∀ terminal ∈ e.2.iter, ∃ set, w.get e.1 = some set ∧
          set.contains terminal = true := by
        intro terminal hterminal
        exact (mem_pairs_iff_get hw).mp (hsub ((hrowFor.mem_iff terminal).mp hterminal))
      obtain ⟨first, hfirst⟩ := List.exists_mem_of_ne_nil _ hne
      obtain ⟨set, hget, -⟩ := hall first hfirst
      rw [hget]
      simp only
      rw [List.all_eq_true]
      intro terminal hterminal
      obtain ⟨other, hother, hcontains⟩ := hall terminal hterminal
      rw [hget] at hother
      cases hother
      exact hcontains

theorem eq_iff (hv : v.Regular) (hw : w.Regular) : v.eq w = true ↔ v.pairs = w.pairs := by
  have hboth : (v.is_subset_of w && w.is_subset_of v) = true ↔ v.pairs = w.pairs := by
    rw [Bool.and_eq_true, is_subset_of_iff hv hw, is_subset_of_iff hw hv,
      Finset.Subset.antisymm_iff]
  unfold eq
  split
  · split_ifs with heq
    · subst heq
      simp
    · exact hboth
  · exact hboth

theorem rows_eq (hv : v.Regular) (hw : w.Regular) (h : v.pairs = w.pairs) : v.rows = w.rows := by
  have hrows := hv.rows
  rw [h] at hrows
  exact hrows.unique hw.rows

theorem len_eq_rows (v : TerminalsDisallowed) : v.len = v.rows.length := by
  cases v with
  | empty => rfl
  | one state terminal => rfl
  | few pairs =>
      rw [len, rows, List.length_map, iter]
      induction hlength : pairs.length using Nat.strong_induction_on generalizing pairs with
      | _ n ih =>
          cases pairs with
          | nil =>
              rw [InlinePairs.groups]
              rfl
          | cons pair pairs =>
              have hshort : (pairs.dropWhile fun p => p.1 = pair.1).length < n := by
                have hle := List.length_dropWhile_le (fun p : ℕ × ℕ => decide (p.1 = pair.1)) pairs
                rw [List.length_cons] at hlength
                omega
              rw [InlinePairs.groups, List.length_cons, ih _ hshort _ rfl]
              rfl
  | many values => rw [len, rows, iter, List.map_map, List.length_map]

theorem hash_writes_eq_rows (v : TerminalsDisallowed) :
    v.hash_writes =
      (v.rows.flatMap fun row => row.1 :: (row.2 ++ [row.2.length])) ++ [v.rows.length] := by
  rw [hash_writes, len_eq_rows, rows, List.flatMap_map]

/-! ## Inline values -/

theorem from_inline_pairs_spec {l : InlinePairs} (hlength : l.length ≤ INLINE_PAIR_CAPACITY) :
    (from_inline_pairs l).Regular ∧ (from_inline_pairs l).pairs = l.toFinset := by
  have hset : l.sort_dedup.toFinset = l.toFinset := by
    ext p
    rw [List.mem_toFinset, List.mem_toFinset, InlinePairs.mem_sort_dedup]
  have hshort := (InlinePairs.sort_dedup_length l).trans hlength
  have hsorted := InlinePairs.sort_dedup_sorted l
  rw [← hset]
  unfold from_inline_pairs
  split
  · rename_i hnil
    rw [hnil]
    exact ⟨trivial, rfl⟩
  · rename_i state terminal hone
    rw [hone]
    exact ⟨trivial, rfl⟩
  · rename_i hnil hone
    refine ⟨⟨hsorted, ?_, hshort⟩, rfl⟩
    cases hpairs : l.sort_dedup with
    | nil => exact absurd hpairs hnil
    | cons first rest =>
        cases rest with
        | nil => exact absurd hpairs (hone first.1 first.2)
        | cons second rest =>
            rw [List.length_cons, List.length_cons]
            omega

theorem mapPairs_length (map : TerminalMap) : (mapPairs map).length = pair_count map := by
  rw [mapPairs, pair_count, List.length_flatMap, SortedMap.values, List.map_map]
  congr 1
  apply List.map_congr_left
  intro e _
  rw [List.length_map, Finset.length_sort]
  rfl

theorem from_map_spec {map : TerminalMap}
    (h : pair_count map ≤ INLINE_PAIR_CAPACITY ∨ ∀ e ∈ map.entries, e.2.Nonempty) :
    (from_map map).Regular ∧ (from_map map).pairs = (mapPairs map).toFinset := by
  unfold from_map
  split_ifs with hcount
  · exact from_inline_pairs_spec ((mapPairs_length map).trans_le hcount)
  · exact ⟨⟨not_le.mp hcount, h.resolve_left hcount⟩, rfl⟩

/-- The stored pairs of an inline value; a value without them has more than four pairs. -/
theorem inline_pairs_spec (h : v.Regular) :
    (∀ l, v.inline_pairs = some l →
      l.Sorted ∧ l.length ≤ INLINE_PAIR_CAPACITY ∧ l.toFinset = v.pairs) ∧
      (v.inline_pairs = none → v.is_inline = false) := by
  cases v with
  | empty =>
      refine ⟨?_, by simp [inline_pairs]⟩
      intro l hl
      cases hl
      exact ⟨List.Pairwise.nil, Nat.zero_le _, rfl⟩
  | one state terminal =>
      refine ⟨?_, by simp [inline_pairs]⟩
      intro l hl
      cases hl
      exact ⟨List.pairwise_singleton _ _, by simp [INLINE_PAIR_CAPACITY], rfl⟩
  | few pairs =>
      refine ⟨?_, by simp [inline_pairs]⟩
      intro l hl
      cases hl
      exact ⟨h.1, h.2.2, rfl⟩
  | many values => exact ⟨by simp [inline_pairs], fun _ => rfl⟩

/-- An inline attempt returns the exact value, or the exact set has more than four pairs. -/
def Attempts (S : Finset (ℕ × ℕ)) (result : Option TerminalsDisallowed) : Prop :=
  (∀ u, result = some u → u.Regular ∧ u.pairs = S) ∧
    (result = none → INLINE_PAIR_CAPACITY < S.card)

theorem card_insert_of_absent {l : InlinePairs} {pair : ℕ × ℕ} (hsorted : l.Sorted)
    (habsent : pair ∉ l) : (insert pair l.toFinset).card = l.length + 1 := by
  rw [Finset.card_insert_of_notMem (by rwa [List.mem_toFinset]),
    List.toFinset_card_of_nodup hsorted.nodup]

theorem pushPair_some {l r : InlinePairs} {pair : ℕ × ℕ} (hsorted : l.Sorted)
    (hlength : l.length ≤ INLINE_PAIR_CAPACITY) (h : pushPair l pair = some r) :
    r.Sorted ∧ r.length ≤ INLINE_PAIR_CAPACITY ∧ r.toFinset = insert pair l.toFinset := by
  unfold pushPair at h
  split at h
  · rename_i hsearch
    cases h
    refine ⟨hsorted, hlength, (Finset.insert_eq_of_mem ?_).symm⟩
    exact List.mem_toFinset.mpr (InlinePairs.binary_search_ok hsearch)
  · rename_i index hsearch
    split_ifs at h with hsize
    cases h
    obtain ⟨-, hinsert, hperm⟩ := InlinePairs.binary_search_error hsorted hsearch
    refine ⟨hinsert, ?_, ?_⟩
    · rw [hperm.length_eq, List.length_cons]
      exact hsize
    · rw [List.toFinset_eq_of_perm _ _ hperm, List.toFinset_cons]

theorem pushPair_none {l : InlinePairs} {pair : ℕ × ℕ} (hsorted : l.Sorted)
    (h : pushPair l pair = none) : INLINE_PAIR_CAPACITY < (insert pair l.toFinset).card := by
  unfold pushPair at h
  split at h
  · cases h
  · rename_i index hsearch
    split_ifs at h with hsize
    obtain ⟨habsent, -, -⟩ := InlinePairs.binary_search_error hsorted hsearch
    rw [card_insert_of_absent hsorted habsent]
    omega

theorem foldlM_pushPair {l : InlinePairs} (others : List (ℕ × ℕ)) (hsorted : l.Sorted)
    (hlength : l.length ≤ INLINE_PAIR_CAPACITY) :
    (∀ r, others.foldlM pushPair l = some r →
      r.Sorted ∧ r.length ≤ INLINE_PAIR_CAPACITY ∧ r.toFinset = l.toFinset ∪ others.toFinset) ∧
      (others.foldlM pushPair l = none →
        INLINE_PAIR_CAPACITY < (l.toFinset ∪ others.toFinset).card) := by
  induction others generalizing l with
  | nil =>
      refine ⟨?_, by simp⟩
      intro r hr
      cases hr
      exact ⟨hsorted, hlength, by simp⟩
  | cons pair others ih =>
      rw [List.foldlM_cons]
      have hunion : l.toFinset ∪ (pair :: others).toFinset =
          insert pair l.toFinset ∪ others.toFinset := by
        rw [List.toFinset_cons, Finset.union_insert, Finset.insert_union]
      rw [hunion]
      cases hpush : pushPair l pair with
      | none =>
          refine ⟨by simp, fun _ => ?_⟩
          exact (pushPair_none hsorted hpush).trans_le
            (Finset.card_le_card Finset.subset_union_left)
      | some next =>
          obtain ⟨hnext, hsize, hset⟩ := pushPair_some hsorted hlength hpush
          rw [← hset]
          exact ih hnext hsize

theorem attempts_of_pushes {l : InlinePairs} {others : List (ℕ × ℕ)} (hsorted : l.Sorted)
    (hlength : l.length ≤ INLINE_PAIR_CAPACITY) {S : Finset (ℕ × ℕ)}
    (hset : l.toFinset ∪ others.toFinset = S) :
    Attempts S ((others.foldlM pushPair l).map from_inline_pairs) := by
  obtain ⟨hsome, hnone⟩ := foldlM_pushPair others hsorted hlength
  rw [hset] at hnone
  constructor
  · intro u hu
    obtain ⟨r, hr, rfl⟩ := Option.map_eq_some_iff.mp hu
    obtain ⟨-, hsize, hpairs⟩ := hsome r hr
    have hspec := from_inline_pairs_spec hsize
    exact ⟨hspec.1, hspec.2.trans (hpairs.trans hset)⟩
  · intro hmap
    exact hnone (Option.map_eq_none_iff.mp hmap)

theorem try_with_insert_inline_spec (h : v.Regular) (state terminal : ℕ) :
    v.is_inline = false ∨
      Attempts (insert (state, terminal) v.pairs) (v.try_with_insert_inline state terminal) := by
  obtain ⟨hsome, hnone⟩ := inline_pairs_spec h
  unfold try_with_insert_inline
  cases hinline : v.inline_pairs with
  | none => exact Or.inl (hnone hinline)
  | some l =>
      obtain ⟨hsorted, hlength, hset⟩ := hsome l hinline
      apply Or.inr
      rw [← hset]
      simp only
      cases hsearch : l.binary_search (state, terminal) with
      | ok index =>
          refine ⟨?_, by simp⟩
          intro u hu
          cases hu
          have hmem := List.mem_toFinset.mpr (InlinePairs.binary_search_ok hsearch)
          rw [Finset.insert_eq_of_mem hmem, hset]
          exact ⟨h, rfl⟩
      | error index =>
          have hpush : ∀ r, pushPair l (state, terminal) = r →
              r = if l.length < INLINE_PAIR_CAPACITY then
                some (l.insertIdx index (state, terminal)) else none := by
            intro r hr
            rw [← hr, pushPair, hsearch]
          simp only
          split_ifs with hsize
          · refine ⟨?_, by simp⟩
            intro u hu
            cases hu
            have hsome := hpush _ rfl
            rw [if_pos hsize] at hsome
            obtain ⟨-, hshort, hpairs⟩ := pushPair_some hsorted hlength hsome
            have hspec := from_inline_pairs_spec hshort
            exact ⟨hspec.1, hspec.2.trans hpairs⟩
          · refine ⟨by simp, fun _ => ?_⟩
            have hfull := hpush _ rfl
            rw [if_neg hsize] at hfull
            exact pushPair_none hsorted hfull

theorem try_merge_inline_spec (hv : v.Regular) (hw : w.Regular) :
    v.is_inline = false ∨ w.is_inline = false ∨
      Attempts (v.pairs ∪ w.pairs) (v.try_merge_inline w) := by
  obtain ⟨hsome, hnone⟩ := inline_pairs_spec hv
  obtain ⟨hsome', hnone'⟩ := inline_pairs_spec hw
  unfold try_merge_inline
  cases hinline : v.inline_pairs with
  | none => exact Or.inl (hnone hinline)
  | some l =>
      cases hinline' : w.inline_pairs with
      | none => exact Or.inr (Or.inl (hnone' hinline'))
      | some others =>
          obtain ⟨hsorted, hlength, hset⟩ := hsome l hinline
          obtain ⟨-, -, hset'⟩ := hsome' others hinline'
          apply Or.inr
          apply Or.inr
          exact attempts_of_pushes hsorted hlength (by rw [hset, hset'])

/-- The pairs of one state moved to each of the end states. -/
def remapped (S : Finset (ℕ × ℕ)) (source_state : ℕ) (end_states : List ℕ) : Finset (ℕ × ℕ) :=
  end_states.toFinset ×ˢ (S.filter fun p => p.1 = source_state).image Prod.snd

theorem try_remap_single_state_inline_spec (h : v.Regular) (source_state : ℕ)
    (end_states : List ℕ) :
    v.is_inline = false ∨ Attempts (remapped v.pairs source_state end_states)
      (v.try_remap_single_state_inline source_state end_states) := by
  obtain ⟨hsome, hnone⟩ := inline_pairs_spec h
  unfold try_remap_single_state_inline
  cases hinline : v.inline_pairs with
  | none => exact Or.inl (hnone hinline)
  | some l =>
      obtain ⟨-, -, hset⟩ := hsome l hinline
      apply Or.inr
      simp only
      have hterminals : ∀ t, t ∈ l.filterMap
          (fun p => if p.1 = source_state then some p.2 else none) ↔ (source_state, t) ∈ v.pairs := by
        intro t
        rw [← hset, List.mem_toFinset, List.mem_filterMap]
        constructor
        · intro hmem
          obtain ⟨p, hp, hif⟩ := hmem
          split_ifs at hif with hstate
          cases hif
          rw [← hstate]
          exact hp
        · intro hmem
          exact ⟨_, hmem, if_pos rfl⟩
      generalize hlist : l.filterMap
        (fun p => if p.1 = source_state then some p.2 else none) = terminals at hterminals
      have hmem : ∀ p : ℕ × ℕ, p ∈ remapped v.pairs source_state end_states ↔
          p.1 ∈ end_states ∧ p.2 ∈ terminals := by
        intro p
        rw [remapped, Finset.mem_product, List.mem_toFinset, Finset.mem_image, hterminals]
        constructor
        · intro hp
          obtain ⟨hstate, q, hq, hterminal⟩ := hp
          obtain ⟨hq, hsource⟩ := Finset.mem_filter.mp hq
          rw [← hsource, ← hterminal]
          exact ⟨hstate, hq⟩
        · intro hp
          exact ⟨hp.1, _, Finset.mem_filter.mpr ⟨hp.2, rfl⟩, rfl⟩
      split_ifs with hempty
      · have hnothing : remapped v.pairs source_state end_states = ∅ := by
          rw [Finset.eq_empty_iff_forall_notMem]
          intro p hp
          rw [hmem] at hp
          simp only [Bool.or_eq_true, List.isEmpty_iff] at hempty
          cases hempty with
          | inl hnil =>
              rw [hnil] at hp
              exact List.not_mem_nil hp.2
          | inr hnil =>
              rw [hnil] at hp
              exact List.not_mem_nil hp.1
        rw [hnothing]
        refine ⟨?_, by simp⟩
        intro u hu
        cases hu
        exact ⟨trivial, rfl⟩
      · apply attempts_of_pushes List.Pairwise.nil (Nat.zero_le _)
        ext p
        rw [hmem]
        simp only [List.toFinset_nil, Finset.empty_union, List.mem_toFinset, List.mem_flatMap,
          List.mem_map]
        constructor
        · intro hp
          obtain ⟨state, hstate, terminal, hterminal, rfl⟩ := hp
          exact ⟨hstate, hterminal⟩
        · intro hp
          exact ⟨p.1, hp.1, p.2, hp.2, rfl⟩

/-! ## Maps -/

/-- A map that holds exactly a set of pairs, with no state without terminals. -/
structure Holds (map : TerminalMap) (S : Finset (ℕ × ℕ)) : Prop where
  pairs : (mapPairs map).toFinset = S
  nonempty : ∀ e ∈ map.entries, e.2.Nonempty

theorem holds_empty : Holds SortedMap.empty ∅ := ⟨rfl, by simp⟩

theorem mem_mapPairs_extendEntry {map : TerminalMap} {state : ℕ} {terminals : List ℕ}
    {p : ℕ × ℕ} :
    p ∈ mapPairs (extendEntry map state terminals) ↔
      p ∈ mapPairs map ∨ p.1 = state ∧ p.2 ∈ terminals := by
  rw [mem_mapPairs, mem_mapPairs, extendEntry, SortedMap.get_insert]
  split_ifs with hstate
  · rw [hstate]
    cases map.get p.1 with
    | none => simp
    | some old => simp
  · simp [Ne.symm hstate]

theorem Holds.extend {map : TerminalMap} {S : Finset (ℕ × ℕ)} (h : Holds map S) (state : ℕ)
    {terminals : List ℕ} (hne : terminals ≠ []) :
    Holds (extendEntry map state terminals)
      (S ∪ terminals.toFinset.image fun terminal => (state, terminal)) where
  pairs := by
    ext p
    rw [List.mem_toFinset, mem_mapPairs_extendEntry, Finset.mem_union, ← h.pairs,
      List.mem_toFinset, Finset.mem_image]
    apply or_congr_right
    constructor
    · intro hp
      exact ⟨p.2, List.mem_toFinset.mpr hp.2, Prod.ext hp.1.symm rfl⟩
    · intro hp
      obtain ⟨terminal, hterminal, rfl⟩ := hp
      exact ⟨rfl, List.mem_toFinset.mp hterminal⟩
  nonempty := by
    intro e he
    cases SortedMap.mem_insertEntry he with
    | inl heq =>
        rw [heq]
        obtain ⟨terminal, hterminal⟩ := List.exists_mem_of_ne_nil _ hne
        exact ⟨terminal, Finset.mem_union_right _ (List.mem_toFinset.mpr hterminal)⟩
    | inr hold => exact h.nonempty e hold

theorem Holds.from_map {map : TerminalMap} {S : Finset (ℕ × ℕ)} (h : Holds map S) :
    (from_map map).Regular ∧ (from_map map).pairs = S := by
  have hspec := from_map_spec (Or.inr h.nonempty)
  exact ⟨hspec.1, hspec.2.trans h.pairs⟩

theorem to_map_holds (h : v.Regular) : Holds v.to_map v.pairs := by
  cases v with
  | empty => exact holds_empty
  | one state terminal =>
      have hone := holds_empty.extend state (List.cons_ne_nil terminal [])
      simpa [extendEntry, to_map, pairs] using hone
  | few pairs =>
      have hfold : ∀ (l : InlinePairs) (map : TerminalMap) (S : Finset (ℕ × ℕ)), Holds map S →
          Holds (l.foldl (fun map p => extendEntry map p.1 [p.2]) map) (S ∪ l.toFinset) := by
        intro l
        induction l with
        | nil =>
            intro map S hmap
            simpa using hmap
        | cons p l ih =>
            intro map S hmap
            have hnext := ih _ _ (hmap.extend p.1 (List.cons_ne_nil p.2 []))
            rw [List.toFinset_cons, Finset.union_insert, ← Finset.insert_union]
            simpa [Finset.union_singleton] using hnext
      have hpairs := hfold pairs _ _ holds_empty
      rwa [Finset.empty_union] at hpairs
  | many values => exact ⟨rfl, h.2⟩

/-! ## Insertion and merging -/

theorem with_insert_spec (h : v.Regular) (state terminal : ℕ) :
    (v.with_insert state terminal).Regular ∧
      (v.with_insert state terminal).pairs = insert (state, terminal) v.pairs := by
  unfold with_insert
  split
  · rename_i updated hinline
    cases try_with_insert_inline_spec h state terminal with
    | inl hmany =>
        cases v with
        | many values => cases hinline
        | _ => cases hmany
    | inr hattempts => exact hattempts.1 updated hinline
  · have hextended := (to_map_holds h).extend state (List.cons_ne_nil terminal [])
    simpa [Finset.union_singleton] using hextended.from_map

theorem extend_rows_holds {rows : List (ℕ × TerminalSetRef)} {map : TerminalMap}
    {S : Finset (ℕ × ℕ)} (h : Holds map S) (hne : ∀ e ∈ rows, e.2.iter ≠ []) :
    ∃ T, Holds (rows.foldl (fun map e => extendEntry map e.1 e.2.iter) map) (S ∪ T) ∧
      ∀ p, p ∈ T ↔ ∃ e ∈ rows, p.1 = e.1 ∧ p.2 ∈ e.2.iter := by
  induction rows generalizing map S with
  | nil => exact ⟨∅, by simpa using h, by simp⟩
  | cons e rows ih =>
      have hnext := h.extend e.1 (hne e List.mem_cons_self)
      obtain ⟨T, hholds, hT⟩ := ih hnext fun f hf => hne f (List.mem_cons_of_mem _ hf)
      rw [Finset.union_assoc] at hholds
      refine ⟨_, hholds, ?_⟩
      intro p
      rw [Finset.mem_union, hT, Finset.mem_image]
      simp only [List.mem_cons, exists_eq_or_imp, List.mem_toFinset]
      apply or_congr_left
      constructor
      · intro hp
        obtain ⟨terminal, hterminal, rfl⟩ := hp
        exact ⟨rfl, hterminal⟩
      · intro hp
        exact ⟨p.2, hp.2, Prod.ext hp.1.symm rfl⟩

theorem merge_spec (hv : v.Regular) (hw : w.Regular) :
    (v.merge w).Regular ∧ (v.merge w).pairs = v.pairs ∪ w.pairs := by
  unfold merge
  split_ifs with hsub hsub'
  · rw [is_subset_of_iff hv hw] at hsub
    exact ⟨hw, (Finset.union_eq_right.mpr hsub).symm⟩
  · rw [is_subset_of_iff hw hv] at hsub'
    exact ⟨hv, (Finset.union_eq_left.mpr hsub').symm⟩
  · split
    · rename_i merged hinline
      have hspec := try_merge_inline_spec hv hw
      have hnot : ∀ {u : TerminalsDisallowed}, u.is_inline = false → u.inline_pairs = none := by
        intro u hu
        cases u with
        | many values => rfl
        | _ => cases hu
      rcases hspec with hmany | hmany | hattempts
      · rw [try_merge_inline, hnot hmany] at hinline
        cases hinline
      · rw [try_merge_inline, hnot hmany] at hinline
        cases hleft : v.inline_pairs with
        | none =>
            rw [hleft] at hinline
            cases hinline
        | some l =>
            rw [hleft] at hinline
            cases hinline
      · exact hattempts.1 merged hinline
    · have hne : ∀ e ∈ w.iter, e.2.iter ≠ [] := by
        intro e he
        have hrow : (e.1, e.2.iter) ∈ w.rows := List.mem_map.mpr ⟨e, he, rfl⟩
        exact (rowOf_eq_some ((hw.rows.listing.mem_iff _ _).mp hrow)).1
      obtain ⟨T, hholds, hT⟩ := extend_rows_holds (to_map_holds hv) hne
      have hset : T = w.pairs := by
        ext p
        rw [hT, show p = (p.1, p.2) from rfl, mem_pairs_iff_row hw]
        constructor
        · intro hp
          obtain ⟨e, he, hstate, hterminal⟩ := hp
          refine ⟨e.2.iter, List.mem_map.mpr ⟨e, he, ?_⟩, hterminal⟩
          rw [hstate]
        · intro hp
          obtain ⟨terminals, hmem, hterminal⟩ := hp
          obtain ⟨e, he, heq⟩ := List.mem_map.mp hmem
          obtain ⟨hstate, hiter⟩ := Prod.ext_iff.mp heq
          simp only at hiter
          rw [← hiter] at hterminal
          exact ⟨e, he, hstate.symm, hterminal⟩
      rw [← hset]
      exact hholds.from_map

end TerminalsDisallowed

end GlrMask
