import GlrMask.TerminalsDisallowedSets

/-!
# Values built through the constructors

A value that constructors and operations have produced behaves as the set of pairs that
the same history denotes, when every map handed to `from_map` either has at most four
pairs or has no state with an empty terminal set. The shared form keeps such a state,
and it is visible in comparisons, in hashes and in lookups.
-/

namespace GlrMask

namespace TerminalsDisallowed

/-- The maps whose pairs are all that a value made of them shows. -/
def Canonical (map : TerminalMap) : Prop :=
  pair_count map ≤ INLINE_PAIR_CAPACITY ∨ ∀ e ∈ map.entries, e.2.Nonempty

/-- A value that a history has produced, with the set that the history denotes. -/
inductive Built : TerminalsDisallowed → Finset (ℕ × ℕ) → Prop
  | new : Built new ∅
  | from_map {map : TerminalMap} (hmap : Canonical map) :
      Built (from_map map) (mapPairs map).toFinset
  | with_insert {v : TerminalsDisallowed} {S : Finset (ℕ × ℕ)} (h : Built v S)
      (state terminal : ℕ) : Built (v.with_insert state terminal) (insert (state, terminal) S)
  | merge {v w : TerminalsDisallowed} {S T : Finset (ℕ × ℕ)} (hv : Built v S) (hw : Built w T) :
      Built (v.merge w) (S ∪ T)
  | try_with_insert_inline {v u : TerminalsDisallowed} {S : Finset (ℕ × ℕ)} (h : Built v S)
      {state terminal : ℕ} (hu : v.try_with_insert_inline state terminal = some u) :
      Built u (insert (state, terminal) S)
  | try_merge_inline {v w u : TerminalsDisallowed} {S T : Finset (ℕ × ℕ)} (hv : Built v S)
      (hw : Built w T) (hu : v.try_merge_inline w = some u) : Built u (S ∪ T)
  | try_remap_single_state_inline {v u : TerminalsDisallowed} {S : Finset (ℕ × ℕ)}
      (h : Built v S) {source_state : ℕ} {end_states : List ℕ}
      (hu : v.try_remap_single_state_inline source_state end_states = some u) :
      Built u (remapped S source_state end_states)

/-- A failed attempt with an operand that is not inline returns nothing. -/
theorem inline_pairs_of_not_inline {v : TerminalsDisallowed} (h : v.is_inline = false) :
    v.inline_pairs = none := by
  cases v with
  | many values => rfl
  | _ => cases h

theorem Built.regular {v : TerminalsDisallowed} {S : Finset (ℕ × ℕ)} (h : Built v S) :
    v.Regular ∧ v.pairs = S := by
  induction h with
  | new => exact ⟨trivial, rfl⟩
  | from_map hmap => exact from_map_spec hmap
  | with_insert _ state terminal ih =>
      have hspec := with_insert_spec ih.1 state terminal
      exact ⟨hspec.1, by rw [hspec.2, ih.2]⟩
  | merge _ _ ihv ihw =>
      have hspec := merge_spec ihv.1 ihw.1
      exact ⟨hspec.1, by rw [hspec.2, ihv.2, ihw.2]⟩
  | try_with_insert_inline _ hu ih =>
      cases try_with_insert_inline_spec ih.1 _ _ with
      | inl hmany =>
          rw [TerminalsDisallowed.try_with_insert_inline, inline_pairs_of_not_inline hmany] at hu
          cases hu
      | inr hattempts =>
          have hspec := hattempts.1 _ hu
          exact ⟨hspec.1, by rw [hspec.2, ih.2]⟩
  | @try_merge_inline v w u S T _ _ hu ihv ihw =>
      rcases try_merge_inline_spec ihv.1 ihw.1 with hmany | hmany | hattempts
      · rw [TerminalsDisallowed.try_merge_inline, inline_pairs_of_not_inline hmany] at hu
        cases hu
      · rw [TerminalsDisallowed.try_merge_inline, inline_pairs_of_not_inline hmany] at hu
        cases hleft : v.inline_pairs with
        | none =>
            rw [hleft] at hu
            cases hu
        | some l =>
            rw [hleft] at hu
            cases hu
      · have hspec := hattempts.1 _ hu
        exact ⟨hspec.1, by rw [hspec.2, ihv.2, ihw.2]⟩
  | try_remap_single_state_inline _ hu ih =>
      cases try_remap_single_state_inline_spec ih.1 _ _ with
      | inl hmany =>
          rw [TerminalsDisallowed.try_remap_single_state_inline,
            inline_pairs_of_not_inline hmany] at hu
          cases hu
      | inr hattempts =>
          have hspec := hattempts.1 _ hu
          exact ⟨hspec.1, by rw [hspec.2, ih.2]⟩

/-- The value that inserting pairs one after the other builds. -/
def inserted (l : InlinePairs) : TerminalsDisallowed :=
  l.foldl (fun v p => v.with_insert p.1 p.2) new

theorem inserted_built (l : InlinePairs) : Built (inserted l) l.toFinset := by
  induction l using List.reverseRecOn with
  | nil => exact .new
  | append_singleton l p ih =>
      have hnext := ih.with_insert p.1 p.2
      rw [inserted, List.foldl_append, List.toFinset_append, Finset.union_comm]
      exact hnext

/-- A state without terminals is not found in a value that has only the pairs. -/
theorem not_eq_of_empty_state {map : TerminalMap} {w : TerminalsDisallowed} {state : ℕ}
    (hempty : (state, ∅) ∈ map.entries) (hw : w.Regular)
    (hpairs : w.pairs = (mapPairs map).toFinset) : (many map).eq w = false := by
  have hget : w.get state = none := by
    have hrow : rowOf w.pairs state = none := by
      have hnone : RowFor w.pairs state [] := by
        refine ⟨.nil, ?_⟩
        intro terminal
        refine iff_of_false List.not_mem_nil ?_
        rw [hpairs, List.mem_toFinset, mem_mapPairs]
        intro hmem
        obtain ⟨terminals, hget, hterminal⟩ := hmem
        rw [SortedMap.get_eq_some_iff.mpr hempty] at hget
        cases hget
        exact Finset.notMem_empty _ hterminal
      rw [hnone.rowOf_eq, if_pos rfl]
    rw [← hw.get_row] at hrow
    exact Option.map_eq_none_iff.mp hrow
  have hsub : (many map).is_subset_of w = false := by
    rw [is_subset_of, if_neg (by simp [is_empty]), List.all_eq_false]
    refine ⟨(state, .many ∅), List.mem_map.mpr ⟨_, hempty, rfl⟩, ?_⟩
    rw [hget]
    simp
  cases w with
  | many values =>
      have hne : map ≠ values := by
        intro heq
        subst heq
        exact Finset.not_nonempty_empty (hw.2 _ hempty)
      rw [eq, if_neg hne, hsub, Bool.false_and]
  | _ => exact Bool.and_eq_false_imp.mpr fun htrue => absurd htrue (by rw [hsub]; simp)

theorem from_map_eq_inserted_iff (map : TerminalMap) :
    (from_map map).eq (inserted (mapPairs map)) = true ↔ Canonical map := by
  obtain ⟨hregular, hpairs⟩ := (inserted_built (mapPairs map)).regular
  constructor
  · intro heq
    by_contra hcanonical
    obtain ⟨hcount, hempty⟩ := not_or.mp hcanonical
    obtain ⟨e, he, hnone⟩ : ∃ e ∈ map.entries, ¬e.2.Nonempty := by
      simpa only [not_forall, exists_prop] using hempty
    have hstate : (e.1, ∅) ∈ map.entries := by
      rw [← Finset.not_nonempty_iff_eq_empty.mp hnone]
      exact he
    rw [from_map, if_neg hcount, not_eq_of_empty_state hstate hregular hpairs] at heq
    cases heq
  · intro hcanonical
    have hspec := from_map_spec hcanonical
    rw [eq_iff hspec.1 hregular, hspec.2, hpairs]

/-- Values built with canonical maps are sets of pairs in everything they answer; and a
value made of a map equals the one built of the map's pairs exactly when it is canonical. -/
theorem built_values_are_sets {v w : TerminalsDisallowed} {S T : Finset (ℕ × ℕ)}
    (hv : Built v S) (hw : Built w T) (map : TerminalMap) :
    ((v.pairs = S ∧ Rows S v.rows ∧
        (∀ state terminal, (state, terminal) ∈ S ↔
          ∃ set, v.get state = some set ∧ set.contains terminal = true) ∧
        ∀ state, (v.get state).map TerminalSetRef.iter = rowOf S state) ∧
      ((v.is_subset_of w = true ↔ S ⊆ T) ∧ (v.subsumes w = true ↔ T ⊆ S) ∧
        (v.eq w = true ↔ S = T) ∧ (S = T → v.hash_writes = w.hash_writes)) ∧
      ((∀ state terminal, (v.with_insert state terminal).pairs = insert (state, terminal) S) ∧
        (v.merge w).pairs = S ∪ T) ∧
      ((∀ state terminal, v.is_inline = false ∨
          Attempts (insert (state, terminal) S) (v.try_with_insert_inline state terminal)) ∧
        (v.is_inline = false ∨ w.is_inline = false ∨
          Attempts (S ∪ T) (v.try_merge_inline w)) ∧
        ∀ source_state end_states, v.is_inline = false ∨
          Attempts (remapped S source_state end_states)
            (v.try_remap_single_state_inline source_state end_states)) ∧
      (v.merge w).eq (w.merge v) = true ∧ (v.merge v).eq v = true ∧
        ∀ u U, Built u U → ((v.merge w).merge u).eq (v.merge (w.merge u)) = true) ∧
      ((from_map map).eq (inserted (mapPairs map)) = true ↔ Canonical map) := by
  refine ⟨?_, from_map_eq_inserted_iff map⟩
  obtain ⟨hvr, rfl⟩ := hv.regular
  obtain ⟨hwr, rfl⟩ := hw.regular
  have hsame : ∀ {a b : TerminalsDisallowed} {A B : Finset (ℕ × ℕ)}, Built a A → Built b B →
      A = B → a.eq b = true := by
    intro a b A B ha hb heq
    rw [eq_iff ha.regular.1 hb.regular.1, ha.regular.2, hb.regular.2, heq]
  refine ⟨⟨rfl, hvr.rows, fun _ _ => mem_pairs_iff_get hvr, hvr.get_row⟩,
    ⟨is_subset_of_iff hvr hwr, is_subset_of_iff hwr hvr, eq_iff hvr hwr, ?_⟩,
    ⟨fun state terminal => (with_insert_spec hvr state terminal).2, (merge_spec hvr hwr).2⟩,
    ⟨try_with_insert_inline_spec hvr, try_merge_inline_spec hvr hwr,
      try_remap_single_state_inline_spec hvr⟩, ?_, ?_, ?_⟩
  · intro heq
    rw [hash_writes_eq_rows, hash_writes_eq_rows, rows_eq hvr hwr heq]
  · exact hsame (hv.merge hw) (hw.merge hv) (Finset.union_comm _ _)
  · exact hsame (hv.merge hv) hv (Finset.union_self _)
  · intro u U hu
    exact hsame ((hv.merge hw).merge hu) (hv.merge (hw.merge hu)) (Finset.union_assoc _ _ _)

theorem built_values_are_sets_pair :
    ((new.with_insert 3 1).with_insert 2 5).eq ((new.with_insert 2 5).with_insert 3 1) = true :=
  ((built_values_are_sets ((Built.new.with_insert 3 1).with_insert 2 5)
    ((Built.new.with_insert 2 5).with_insert 3 1) SortedMap.empty).1.2.1.2.2.1).mpr (by decide)

/-- Five terminals of state 0, and a state 7 without terminals. -/
def mapWithEmptyState : TerminalMap :=
  (SortedMap.empty.insert 0 {0, 1, 2, 3, 4}).insert 7 ∅

/-- The value made of the map differs from the value of the same five pairs. -/
theorem from_map_with_empty_state :
    (from_map mapWithEmptyState).pairs = (inserted (mapPairs mapWithEmptyState)).pairs ∧
      (from_map mapWithEmptyState).eq (inserted (mapPairs mapWithEmptyState)) = false := by
  have hcount : pair_count mapWithEmptyState = 5 := rfl
  have hmap : from_map mapWithEmptyState = many mapWithEmptyState := by
    rw [from_map, hcount]
    rfl
  obtain ⟨hregular, hpairs⟩ := (inserted_built (mapPairs mapWithEmptyState)).regular
  rw [hmap, hpairs]
  refine ⟨rfl, ?_⟩
  exact not_eq_of_empty_state (List.mem_cons_of_mem _ List.mem_cons_self) hregular
    hpairs

end TerminalsDisallowed

end GlrMask
