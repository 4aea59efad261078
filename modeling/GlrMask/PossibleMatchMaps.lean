import GlrMask.PossibleMatches

/-!
# What the maps of possible matches hold

A map is read as the set of ids of every terminal. Adding and merging are unions, the
ranges of a node's ids are its ids, and a self-loop byte leads back to its state.
-/

namespace GlrMask

/-- The ids of a terminal. -/
def idsOf (map : PossibleMatchMap) (terminal : ℕ) : Finset ℕ := (map.get terminal).getD ∅

@[simp] theorem idsOf_empty (terminal : ℕ) : idsOf SortedMap.empty terminal = ∅ := rfl

theorem idsOf_merge_token_ids (map : PossibleMatchMap) (terminal t : ℕ) (ids : Finset ℕ) :
    idsOf (merge_token_ids map terminal ids) t =
      if terminal = t then idsOf map t ∪ ids else idsOf map t := by
  unfold idsOf merge_token_ids
  rw [SortedMap.get_insert]
  split_ifs with heq
  · rw [heq, Option.getD_some]
  · rfl

theorem mem_idsOf_foldl {entries : List (ℕ × Finset ℕ)} {map : PossibleMatchMap} {t id : ℕ} :
    id ∈ idsOf (entries.foldl (fun into e => merge_token_ids into e.1 e.2) map) t ↔
      id ∈ idsOf map t ∨ ∃ e ∈ entries, e.1 = t ∧ id ∈ e.2 := by
  induction entries generalizing map with
  | nil => simp
  | cons e entries ih =>
      rw [List.foldl_cons, ih, idsOf_merge_token_ids, List.exists_mem_cons_iff, ← or_assoc]
      apply or_congr_left
      split_ifs with heq
      · rw [Finset.mem_union]
        simp [heq]
      · simp [heq]

theorem mem_merge_possible_match_maps {map other : PossibleMatchMap} {t id : ℕ} :
    id ∈ idsOf (merge_possible_match_maps map other) t ↔
      id ∈ idsOf map t ∨ id ∈ idsOf other t := by
  unfold merge_possible_match_maps
  rw [mem_idsOf_foldl]
  apply or_congr_right
  constructor
  · intro h
    obtain ⟨e, he, rfl, hid⟩ := h
    have hget : other.get e.1 = some e.2 := SortedMap.get_eq_some_iff.mpr he
    rw [idsOf, hget]
    exact hid
  · intro h
    unfold idsOf at h
    cases hget : other.get t with
    | none =>
        rw [hget] at h
        exact absurd h (Finset.notMem_empty id)
    | some ids =>
        rw [hget] at h
        exact ⟨(t, ids), SortedMap.get_eq_some_iff.mp hget, rfl, h⟩

namespace PossibleMatchesComputer

theorem mem_addMatched {tokenizer : Tokenizer} {states : List ℕ} {ids : Finset ℕ}
    {result : PossibleMatchMap} {t id : ℕ} :
    id ∈ idsOf (addMatched tokenizer states ids result) t ↔
      id ∈ idsOf result t ∨
        id ∈ ids ∧ ∃ state ∈ states, t ∈ tokenizer.matched_terminals state := by
  have hinner : ∀ (terminals : List ℕ) (result : PossibleMatchMap),
      id ∈ idsOf (terminals.foldl (fun result terminal => merge_token_ids result terminal ids)
        result) t ↔ id ∈ idsOf result t ∨ id ∈ ids ∧ t ∈ terminals := by
    intro terminals
    induction terminals with
    | nil => simp
    | cons terminal terminals ih =>
        intro result
        rw [List.foldl_cons, ih, idsOf_merge_token_ids, List.mem_cons]
        split_ifs with heq
        · rw [Finset.mem_union]
          simp only [heq]
          tauto
        · have hne : t ≠ terminal := Ne.symm heq
          simp only [hne, false_or]
  unfold addMatched
  induction states generalizing result with
  | nil => simp
  | cons state states ih =>
      rw [List.foldl_cons]
      refine ih.trans ?_
      rw [hinner, Finset.mem_sort, List.exists_mem_cons_iff]
      tauto

end PossibleMatchesComputer

/-! ## The ids of a node -/

theorem idRanges_spec {ids : List ℕ} (h : ids.Pairwise (· < ·)) :
    (∀ x, x ∈ ids ↔ ∃ r ∈ idRanges ids, r.1 ≤ x ∧ x ≤ r.2) ∧
      ∀ r ∈ idRanges ids, r.1 ∈ ids ∧ r.2 ∈ ids ∧ r.1 ≤ r.2 := by
  have hself : ∀ x id : ℕ, x = id ↔ id ≤ x ∧ x ≤ id := by
    intro x id
    omega
  induction ids with
  | nil => simp [idRanges]
  | cons id ids ih =>
      obtain ⟨hmem, hends⟩ := ih h.tail
      have hlater : ∀ r ∈ idRanges ids, r.1 ∈ id :: ids ∧ r.2 ∈ id :: ids ∧ r.1 ≤ r.2 := by
        intro r hr
        obtain ⟨hlo, hhi, hle⟩ := hends r hr
        exact ⟨List.mem_cons_of_mem _ hlo, List.mem_cons_of_mem _ hhi, hle⟩
      have hsingle : ∀ r : ℕ × ℕ, r = (id, id) → r.1 ∈ id :: ids ∧ r.2 ∈ id :: ids ∧ r.1 ≤ r.2 := by
        intro r hr
        rw [hr]
        exact ⟨List.mem_cons_self, List.mem_cons_self, le_rfl⟩
      unfold idRanges
      split
      · rename_i hnone
        rw [hnone] at hmem
        constructor
        · intro x
          rw [List.mem_cons, hmem, List.exists_mem_cons_iff, ← hself]
        · intro r hr
          exact hsingle r (List.mem_singleton.mp hr)
      · rename_i range ranges hsome
        rw [hsome] at hmem hlater
        obtain ⟨hlo, hhi, hle⟩ := hlater range List.mem_cons_self
        split_ifs with hnext
        · constructor
          · intro x
            rw [List.mem_cons, hmem, List.exists_mem_cons_iff, List.exists_mem_cons_iff, ← or_assoc]
            apply or_congr_left
            simp only
            omega
          · intro r hr
            rcases List.mem_cons.mp hr with rfl | hr
            · exact ⟨List.mem_cons_self, hhi, by simp only; omega⟩
            · exact hlater r (List.mem_cons_of_mem _ hr)
        · constructor
          · intro x
            rw [List.mem_cons, hmem, List.exists_mem_cons_iff _ (id, id), hself x id]
          · intro r hr
            rcases List.mem_cons.mp hr with hr | hr
            · exact hsingle r hr
            · exact hlater r hr

/-- Ids of 32 bits are not changed by the cast. -/
theorem reachable_u32_eq {node : VocabPrefixTreeNode}
    (h : ∀ id ∈ node.reachable_token_ids, id < 2 ^ 32) :
    reachable_u32 node = node.reachable_token_ids := by
  obtain ⟨hmem, hends⟩ := idRanges_spec (node.reachable_token_ids.sortedLT_sort.pairwise)
  have hfold : ∀ (ranges : List (ℕ × ℕ)) (out : Finset ℕ) (x : ℕ),
      x ∈ ranges.foldl (fun out range =>
        out ∪ Finset.Icc (range.1 % 2 ^ 32) (range.2 % 2 ^ 32)) out ↔
        x ∈ out ∨ ∃ r ∈ ranges, r.1 % 2 ^ 32 ≤ x ∧ x ≤ r.2 % 2 ^ 32 := by
    intro ranges
    induction ranges with
    | nil => simp
    | cons range ranges ih =>
        intro out x
        rw [List.foldl_cons, ih, Finset.mem_union, Finset.mem_Icc, List.exists_mem_cons_iff,
          or_assoc]
  ext x
  rw [reachable_u32, hfold, or_iff_right (Finset.notMem_empty x), ← Finset.mem_sort (· ≤ ·), hmem]
  apply exists_congr
  intro r
  apply and_congr_right
  intro hr
  obtain ⟨hlo, hhi, -⟩ := hends r hr
  rw [Nat.mod_eq_of_lt (h _ ((Finset.mem_sort _).mp hlo)),
    Nat.mod_eq_of_lt (h _ ((Finset.mem_sort _).mp hhi))]

/-! ## Self-loops -/

namespace Tokenizer

theorem mem_transitions_from {T : Tokenizer} {state target : ℕ} {byte : Byte} :
    (byte, target) ∈ T.transitions_from state ↔ T.step state byte = some target := by
  unfold transitions_from
  rw [List.mem_filterMap]
  constructor
  · intro h
    obtain ⟨b, -, hb⟩ := h
    obtain ⟨t, ht, heq⟩ := Option.map_eq_some_iff.mp hb
    cases heq
    exact ht
  · intro h
    exact ⟨byte, List.mem_finRange byte, by rw [h]; rfl⟩

theorem mem_self_loop_bytes {T : Tokenizer} {state : ℕ} {byte : Byte} :
    byte ∈ T.self_loop_bytes state ↔ T.step state byte = some state := by
  have hfold : ∀ (edges : List (Byte × ℕ)) (bytes : U8Set),
      byte ∈ edges.foldl (fun bytes edge => if edge.2 = state then insert edge.1 bytes else bytes)
        bytes ↔ byte ∈ bytes ∨ (byte, state) ∈ edges := by
    intro edges
    induction edges with
    | nil => simp
    | cons edge edges ih =>
        intro bytes
        obtain ⟨b, t⟩ := edge
        rw [List.foldl_cons, ih, List.mem_cons, Prod.mk.injEq]
        split_ifs with heq
        · rw [Finset.mem_insert]
          simp only
          tauto
        · have hne : state ≠ t := Ne.symm heq
          simp only [hne, and_false, false_or]
  rw [self_loop_bytes, hfold, or_iff_right (Finset.notMem_empty byte), mem_transitions_from]

/-- Bytes that loop at a state without epsilon transitions do not leave it. -/
theorem eq_of_reads_loops {T : Tokenizer} {state last : ℕ} {w : List Byte}
    (hnone : T.epsilon_targets state = []) (hloops : ∀ b ∈ w, b ∈ T.self_loop_bytes state)
    (h : T.Reads state w last) : last = state := by
  induction w generalizing last with
  | nil => exact eq_of_reads_nil hnone h
  | cons b w ih =>
      obtain ⟨m, hm, hlast⟩ := TokenizerRows.reads_append_iff.mp (show T.Reads state ([b] ++ w) last from h)
      obtain ⟨m', t, hm', ht, hnext⟩ := TokenizerRows.reads_singleton_iff.mp hm
      rw [eq_of_reads_nil hnone hm', mem_self_loop_bytes.mp (hloops b List.mem_cons_self)] at ht
      cases ht
      rw [eq_of_reads_nil hnone hnext] at hlast
      exact ih (fun c hc => hloops c (List.mem_cons_of_mem _ hc)) hlast

end Tokenizer

end GlrMask
