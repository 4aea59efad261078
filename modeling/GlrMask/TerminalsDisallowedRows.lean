import GlrMask.ListedMap
import GlrMask.TerminalsDisallowed

/-!
# Exclusions as sorted rows

Every representation of a value is sorted, so what a value yields when it is iterated or
asked for one state is a function of the set of its pairs: for each state that occurs,
in increasing order, its terminals in increasing order.
-/

namespace GlrMask

namespace InlinePairs

variable {l pairs : InlinePairs} {pair : ℕ × ℕ}

theorem Sorted.nodup (h : pairs.Sorted) : pairs.Nodup := by
  refine List.Pairwise.imp (R := fun a b => toLex a < toLex b) ?_ h
  intro a b hab heq
  rw [heq] at hab
  exact lt_irrefl _ hab

theorem Sorted.ext (h : pairs.Sorted) (h' : Sorted l) (hmem : ∀ p, p ∈ pairs ↔ p ∈ l) :
    pairs = l := by
  have hperm : pairs.Perm l := (List.perm_ext_iff_of_nodup h.nodup h'.nodup).mpr hmem
  refine hperm.eq_of_pairwise ?_ h h'
  intro a b _ _ hab hba
  exact absurd hba (lt_asymm hab)

theorem Sorted.states (h : pairs.Sorted) : pairs.Pairwise fun a b => a.1 ≤ b.1 := by
  refine List.Pairwise.imp (R := fun a b => toLex a < toLex b) ?_ h
  intro a b hab
  cases Prod.Lex.toLex_lt_toLex.mp hab with
  | inl hlt => exact hlt.le
  | inr heq => exact heq.1.le

theorem sort_dedup_sorted (pairs : InlinePairs) : pairs.sort_dedup.Sorted := by
  have hsorted := (List.pairwise_insertionSort (fun a b : ℕ × ℕ => toLex a ≤ toLex b) pairs).sublist
    (List.dedup_sublist _)
  have hnodup := List.nodup_dedup (pairs.insertionSort fun a b => toLex a ≤ toLex b)
  apply (hsorted.and hnodup).imp
  intro a b hab
  exact lt_of_le_of_ne hab.1 fun heq => hab.2 (toLex.injective heq)

theorem mem_sort_dedup {pairs : InlinePairs} {pair : ℕ × ℕ} :
    pair ∈ pairs.sort_dedup ↔ pair ∈ pairs := by
  rw [sort_dedup, List.mem_dedup, List.mem_insertionSort]

theorem sort_dedup_length (pairs : InlinePairs) : pairs.sort_dedup.length ≤ pairs.length := by
  have hle := (List.dedup_sublist (pairs.insertionSort fun a b => toLex a ≤ toLex b)).length_le
  rwa [List.length_insertionSort] at hle

theorem binary_search_ok {index : ℕ} (h : pairs.binary_search pair = .ok index) :
    pair ∈ pairs := by
  unfold binary_search at h
  simp only at h
  split_ifs at h with hget
  exact List.mem_of_getElem? hget

/-- A pair that is not found belongs between the smaller and the larger ones. -/
theorem binary_search_error (hsorted : pairs.Sorted) {index : ℕ}
    (h : pairs.binary_search pair = .error index) :
    pair ∉ pairs ∧ Sorted (pairs.insertIdx index pair) ∧
      (pairs.insertIdx index pair).Perm (pair :: pairs) := by
  obtain ⟨before, after, heq, hbefore, hafter, hlength⟩ :=
    split_at_key toLex (toLex pair) hsorted
  unfold binary_search at h
  simp only [hlength] at h
  split_ifs at h with hget
  cases h
  subst heq
  have hlater : ∀ p ∈ after, toLex pair < toLex p := by
    rw [List.getElem?_append_right le_rfl, Nat.sub_self] at hget
    cases after with
    | nil => simp
    | cons first after =>
        have hne : first ≠ pair := by simpa using hget
        have hfirst : toLex pair < toLex first :=
          lt_of_le_of_ne (hafter first List.mem_cons_self) fun heq => hne (toLex.injective heq).symm
        intro p hp
        cases List.mem_cons.mp hp with
        | inl heq =>
            rw [heq]
            exact hfirst
        | inr hmem =>
            have hrest := (List.pairwise_append.mp hsorted).2.1
            exact hfirst.trans ((List.pairwise_cons.mp hrest).1 p hmem)
  rw [insertIdx_middle]
  refine ⟨?_, pairwise_middle hsorted hbefore hlater, List.perm_middle⟩
  intro hmem
  cases List.mem_append.mp hmem with
  | inl hmem => exact lt_irrefl _ (hbefore pair hmem)
  | inr hmem => exact lt_irrefl _ (hlater pair hmem)

/-! ## Groups of one state -/

theorem takeWhile_state {pair : ℕ × ℕ} (h : Sorted (pair :: pairs)) :
    (pairs.takeWhile fun p => p.1 = pair.1) = pairs.filter fun p => p.1 = pair.1 := by
  induction pairs with
  | nil => rfl
  | cons first pairs ih =>
      obtain ⟨hhead, htail⟩ := List.pairwise_cons.mp h
      have hsub : Sorted (pair :: pairs) := h.sublist ((List.sublist_cons_self _ _).cons_cons _)
      by_cases hstate : first.1 = pair.1
      · rw [List.takeWhile_cons_of_pos (by simpa using hstate),
          List.filter_cons_of_pos (by simpa using hstate), ih hsub]
      · have hnone : pairs.filter (fun p => p.1 = pair.1) = [] := by
          rw [List.filter_eq_nil_iff]
          intro p hp
          have hfirst := (Sorted.states h)
          have hle := (List.pairwise_cons.mp hfirst).1 first List.mem_cons_self
          have hnext := (List.pairwise_cons.mp (List.pairwise_cons.mp hfirst).2).1 p hp
          simp only [decide_eq_true_eq]
          omega
        rw [List.takeWhile_cons_of_neg (by simpa using hstate),
          List.filter_cons_of_neg (by simpa using hstate), hnone]

theorem dropWhile_state {pair : ℕ × ℕ} (h : Sorted (pair :: pairs)) :
    (pairs.dropWhile fun p => p.1 = pair.1) = pairs.filter fun p => p.1 ≠ pair.1 := by
  induction pairs with
  | nil => rfl
  | cons first pairs ih =>
      have hsub : Sorted (pair :: pairs) := h.sublist ((List.sublist_cons_self _ _).cons_cons _)
      by_cases hstate : first.1 = pair.1
      · rw [List.dropWhile_cons_of_pos (by simpa using hstate),
          List.filter_cons_of_neg (by simpa using hstate), ih hsub]
      · rw [List.dropWhile_cons_of_neg (by simpa using hstate), eq_comm, List.filter_eq_self]
        intro p hp
        have hfirst := Sorted.states h
        have hle := (List.pairwise_cons.mp hfirst).1 first List.mem_cons_self
        simp only [decide_eq_true_eq]
        cases List.mem_cons.mp hp with
        | inl heq =>
            rw [heq]
            exact hstate
        | inr hmem =>
            have hnext := (List.pairwise_cons.mp (List.pairwise_cons.mp hfirst).2).1 p hmem
            omega

/-- What the search for the first pair of a state and the run after it find. -/
theorem run_of_state (h : pairs.Sorted) (state : ℕ) :
    (match pairs.dropWhile fun p => p.1 ≠ state with
      | [] => []
      | first :: rest => first :: rest.takeWhile fun p => p.1 = state) =
      pairs.filter fun p => p.1 = state := by
  induction pairs with
  | nil => rfl
  | cons pair pairs ih =>
      by_cases hstate : pair.1 = state
      · rw [List.dropWhile_cons_of_neg (by simpa using hstate),
          List.filter_cons_of_pos (by simpa using hstate)]
        subst hstate
        simp only
        rw [takeWhile_state h]
      · rw [List.dropWhile_cons_of_pos (by simpa using hstate),
          List.filter_cons_of_neg (by simpa using hstate)]
        exact ih h.of_cons

end InlinePairs

/-! ## Rows of a set of pairs -/

def terminalsOf (S : Finset (ℕ × ℕ)) (state : ℕ) : List ℕ :=
  ((S.filter fun p => p.1 = state).image Prod.snd).sort (· ≤ ·)

/-- The terminals of a state in increasing order, if it has any. -/
def rowOf (S : Finset (ℕ × ℕ)) (state : ℕ) : Option (List ℕ) :=
  if terminalsOf S state = [] then none else some (terminalsOf S state)

/-- The rows of all states that occur, in increasing order. -/
structure Rows (S : Finset (ℕ × ℕ)) (rows : List (ℕ × List ℕ)) : Prop where
  sorted : rows.Pairwise fun a b => a.1 < b.1
  listing : Listing (rowOf S) rows

/-- A list of terminals that is sorted and has exactly the terminals of a state. -/
structure RowFor (S : Finset (ℕ × ℕ)) (state : ℕ) (terminals : List ℕ) : Prop where
  sorted : terminals.Pairwise (· < ·)
  mem_iff : ∀ terminal, terminal ∈ terminals ↔ (state, terminal) ∈ S

section sets

variable {S : Finset (ℕ × ℕ)} {state : ℕ} {terminals : List ℕ} {rows rows' : List (ℕ × List ℕ)}

theorem mem_terminalsOf {terminal : ℕ} : terminal ∈ terminalsOf S state ↔ (state, terminal) ∈ S := by
  rw [terminalsOf, Finset.mem_sort, Finset.mem_image]
  constructor
  · intro h
    obtain ⟨p, hp, rfl⟩ := h
    obtain ⟨hmem, rfl⟩ := Finset.mem_filter.mp hp
    exact hmem
  · intro h
    exact ⟨(state, terminal), Finset.mem_filter.mpr ⟨h, rfl⟩, rfl⟩

theorem RowFor.eq_terminalsOf (h : RowFor S state terminals) : terminals = terminalsOf S state := by
  have hperm : terminals.Perm (terminalsOf S state) := by
    apply (List.perm_ext_iff_of_nodup (h.sorted.imp fun hlt => hlt.ne) (Finset.sort_nodup _ _)).mpr
    intro terminal
    exact (h.mem_iff terminal).trans mem_terminalsOf.symm
  refine hperm.eq_of_pairwise ?_ (h.sorted.imp fun hlt => hlt.le) (Finset.pairwise_sort _ _)
  intro a b _ _ hab hba
  exact le_antisymm hab hba

theorem RowFor.rowOf_eq (h : RowFor S state terminals) :
    rowOf S state = if terminals = [] then none else some terminals := by
  rw [rowOf, ← h.eq_terminalsOf]

theorem rowOf_eq_some (h : rowOf S state = some terminals) :
    terminals ≠ [] ∧ RowFor S state terminals := by
  unfold rowOf at h
  split_ifs at h with hempty
  cases h
  refine ⟨hempty, ?_, fun terminal => mem_terminalsOf⟩
  exact ((Finset.pairwise_sort _ _).and (Finset.sort_nodup _ _)).imp fun h => lt_of_le_of_ne h.1 h.2

theorem rowOf_eq_none (h : rowOf S state = none) (terminal : ℕ) : (state, terminal) ∉ S := by
  unfold rowOf at h
  split_ifs at h with hempty
  rw [← mem_terminalsOf, hempty]
  exact List.not_mem_nil

theorem Rows.of_rows (hsorted : rows.Pairwise fun a b => a.1 < b.1)
    (hrows : ∀ row ∈ rows, row.2 ≠ [] ∧ RowFor S row.1 row.2)
    (hall : ∀ p ∈ S, p.1 ∈ rows.map Prod.fst) : Rows S rows where
  sorted := hsorted
  listing := by
    refine ⟨List.pairwise_map.mpr (hsorted.imp fun hlt => hlt.ne), ?_⟩
    intro state terminals
    constructor
    · intro hmem
      obtain ⟨hne, hrow⟩ := hrows _ hmem
      rw [hrow.rowOf_eq, if_neg hne]
    · intro hsome
      obtain ⟨hne, hrow⟩ := rowOf_eq_some hsome
      obtain ⟨terminal, hterminal⟩ := List.exists_mem_of_ne_nil _ hne
      obtain ⟨row, hmem, hstate⟩ := List.mem_map.mp (hall _ ((hrow.mem_iff terminal).mp hterminal))
      have hsame := (hrows row hmem).2
      have hstate : row.1 = state := hstate
      rw [hstate] at hsame
      rw [hrow.eq_terminalsOf, ← hsame.eq_terminalsOf, ← hstate]
      exact hmem

theorem Rows.unique (h : Rows S rows) (h' : Rows S rows') : rows = rows' := by
  refine (h.listing.perm h'.listing).eq_of_pairwise ?_ h.sorted h'.sorted
  intro a b _ _ hab hba
  exact absurd hba (lt_asymm hab)

end sets

namespace TerminalsDisallowed

/-- The iteration of a value, with the terminals of each state written out. -/
def rows (v : TerminalsDisallowed) : List (ℕ × List ℕ) := v.iter.map fun e => (e.1, e.2.iter)

/-- A value as the constructors build it: short values are sorted, and a long one has no
state without terminals. -/
def Regular : TerminalsDisallowed → Prop
  | empty => True
  | one .. => True
  | few pairs => pairs.Sorted ∧ 2 ≤ pairs.length ∧ pairs.length ≤ INLINE_PAIR_CAPACITY
  | many values => INLINE_PAIR_CAPACITY < pair_count values ∧ ∀ e ∈ values.entries, e.2.Nonempty

theorem rows_few_cons (pair : ℕ × ℕ) (pairs : InlinePairs) :
    (few (pair :: pairs)).rows =
      (pair.1, (pair :: pairs.takeWhile fun p => p.1 = pair.1).map Prod.snd) ::
        (few (pairs.dropWhile fun p => p.1 = pair.1)).rows := by
  rw [rows, iter, InlinePairs.groups]
  rfl

theorem filter_rowFor {pairs : InlinePairs} (h : pairs.Sorted) (state : ℕ) :
    RowFor pairs.toFinset state ((pairs.filter fun p => p.1 = state).map Prod.snd) := by
  constructor
  · rw [List.pairwise_map]
    have hsub : (pairs.filter fun p => p.1 = state).Pairwise
        fun a b => toLex a < toLex b := h.sublist List.filter_sublist
    apply hsub.imp_of_mem
    intro a b ha hb hab
    have hstate : a.1 = b.1 := by
      have hleft := of_decide_eq_true (List.mem_filter.mp ha).2
      have hright := of_decide_eq_true (List.mem_filter.mp hb).2
      exact hleft.trans hright.symm
    cases Prod.Lex.toLex_lt_toLex.mp hab with
    | inl hlt => exact absurd hstate hlt.ne
    | inr hlt => exact hlt.2
  · intro terminal
    rw [List.mem_map, List.mem_toFinset]
    constructor
    · intro hmem
      obtain ⟨p, hp, rfl⟩ := hmem
      obtain ⟨hp, hstate⟩ := List.mem_filter.mp hp
      rw [← of_decide_eq_true hstate]
      exact hp
    · intro hmem
      exact ⟨_, List.mem_filter.mpr ⟨hmem, by simp⟩, rfl⟩

theorem run_rowFor {pair : ℕ × ℕ} {pairs : InlinePairs} (h : InlinePairs.Sorted (pair :: pairs)) :
    RowFor (pair :: pairs).toFinset pair.1
      ((pair :: pairs.takeWhile fun p => p.1 = pair.1).map Prod.snd) := by
  have hrun : (pair :: pairs.takeWhile fun p => p.1 = pair.1) =
      (pair :: pairs).filter fun p => p.1 = pair.1 := by
    rw [InlinePairs.takeWhile_state h, List.filter_cons_of_pos (by simp)]
  rw [hrun]
  exact filter_rowFor h pair.1

theorem few_rows {pairs : InlinePairs} (h : pairs.Sorted) :
    Rows pairs.toFinset (few pairs).rows := by
  induction hlength : pairs.length using Nat.strong_induction_on generalizing pairs with
  | _ n ih =>
      cases pairs with
      | nil =>
          rw [rows, iter, InlinePairs.groups]
          exact Rows.of_rows .nil (by simp) (by simp)
      | cons pair pairs =>
          -- the run of the first state, and the same for what follows it
          have hshort : (pairs.dropWhile fun p => p.1 = pair.1).length < n := by
            have hle := List.length_dropWhile_le (fun p : ℕ × ℕ => decide (p.1 = pair.1)) pairs
            rw [List.length_cons] at hlength
            omega
          have hrest := ih _ hshort (h.of_cons.sublist (List.dropWhile_sublist _)) rfl
          have hdrop := InlinePairs.dropWhile_state h
          have hkeys : ∀ row ∈ (few (pairs.dropWhile fun p => p.1 = pair.1)).rows,
              row.2 ≠ [] ∧ RowFor (pairs.dropWhile fun p => p.1 = pair.1).toFinset row.1 row.2 := by
            intro row hrow
            exact rowOf_eq_some ((hrest.listing.mem_iff row.1 row.2).mp hrow)
          have hlater : ∀ row ∈ (few (pairs.dropWhile fun p => p.1 = pair.1)).rows,
              pair.1 < row.1 := by
            intro row hrow
            obtain ⟨hne, hrowFor⟩ := hkeys row hrow
            obtain ⟨terminal, hterminal⟩ := List.exists_mem_of_ne_nil _ hne
            have hmem := List.mem_toFinset.mp ((hrowFor.mem_iff terminal).mp hterminal)
            rw [hdrop] at hmem
            obtain ⟨hmem, hstate⟩ := List.mem_filter.mp hmem
            have hle := (List.pairwise_cons.mp (InlinePairs.Sorted.states h)).1 _ hmem
            exact lt_of_le_of_ne hle (Ne.symm (of_decide_eq_true hstate))
          rw [rows_few_cons]
          apply Rows.of_rows
          · exact List.pairwise_cons.mpr ⟨hlater, hrest.sorted⟩
          · intro row hrow
            cases List.mem_cons.mp hrow with
            | inl heq =>
                rw [heq]
                exact ⟨by simp, run_rowFor h⟩
            | inr hmem =>
                obtain ⟨hne, hrowFor⟩ := hkeys row hmem
                refine ⟨hne, hrowFor.sorted, ?_⟩
                intro terminal
                rw [hrowFor.mem_iff, List.mem_toFinset, List.mem_toFinset, hdrop]
                have hstate := (hlater row hmem).ne'
                simp [hstate, Prod.ext_iff]
          · intro p hp
            rw [List.map_cons, List.mem_cons]
            by_cases hstate : p.1 = pair.1
            · exact Or.inl hstate
            · apply Or.inr
              rw [hrest.listing.keys_iff, Option.isSome_iff_ne_none]
              intro hnone
              apply rowOf_eq_none hnone p.2
              rw [List.mem_toFinset, hdrop, List.mem_filter]
              have hmem := (List.mem_cons.mp (List.mem_toFinset.mp hp)).resolve_left
                fun heq => hstate (congrArg Prod.fst heq)
              exact ⟨hmem, by simpa using hstate⟩

theorem mem_mapPairs {map : TerminalMap} {p : ℕ × ℕ} :
    p ∈ mapPairs map ↔ ∃ terminals, map.get p.1 = some terminals ∧ p.2 ∈ terminals := by
  rw [mapPairs, List.mem_flatMap]
  constructor
  · intro h
    obtain ⟨e, he, hp⟩ := h
    obtain ⟨terminal, hterminal, rfl⟩ := List.mem_map.mp hp
    exact ⟨e.2, SortedMap.get_eq_some_iff.mpr he, (Finset.mem_sort _).mp hterminal⟩
  · intro h
    obtain ⟨terminals, hget, hp⟩ := h
    exact ⟨(p.1, terminals), SortedMap.get_eq_some_iff.mp hget,
      List.mem_map.mpr ⟨p.2, (Finset.mem_sort _).mpr hp, rfl⟩⟩

theorem sort_sorted (terminals : Finset ℕ) : (terminals.sort (· ≤ ·)).Pairwise (· < ·) :=
  ((Finset.pairwise_sort _ _).and (Finset.sort_nodup _ _)).imp fun h => lt_of_le_of_ne h.1 h.2

theorem many_rows {values : TerminalMap} (h : ∀ e ∈ values.entries, e.2.Nonempty) :
    Rows (mapPairs values).toFinset (many values).rows := by
  have hrows : (many values).rows = values.entries.map fun e => (e.1, e.2.sort (· ≤ ·)) := by
    rw [rows, iter, List.map_map]
    rfl
  rw [hrows]
  apply Rows.of_rows
  · exact List.pairwise_map.mpr values.sorted
  · intro row hrow
    obtain ⟨e, he, rfl⟩ := List.mem_map.mp hrow
    have hget := SortedMap.get_eq_some_iff.mpr he
    constructor
    · intro hempty
      have hempty : e.2.sort (· ≤ ·) = [] := hempty
      obtain ⟨terminal, hterminal⟩ := h e he
      have hmem : terminal ∈ e.2.sort (· ≤ ·) := (Finset.mem_sort _).mpr hterminal
      rw [hempty] at hmem
      cases hmem
    · refine ⟨sort_sorted e.2, ?_⟩
      intro terminal
      rw [Finset.mem_sort, List.mem_toFinset, mem_mapPairs]
      simp only
      rw [hget]
      simp
  · intro p hp
    obtain ⟨terminals, hget, -⟩ := mem_mapPairs.mp (List.mem_toFinset.mp hp)
    rw [List.map_map]
    exact List.mem_map.mpr ⟨_, SortedMap.get_eq_some_iff.mp hget, rfl⟩

/-- A value is iterated as its set of pairs alone prescribes. -/
theorem Regular.rows {v : TerminalsDisallowed} (h : v.Regular) : Rows v.pairs v.rows := by
  cases v with
  | empty => exact Rows.of_rows .nil (by simp [TerminalsDisallowed.rows, iter]) (by simp [pairs])
  | one state terminal =>
      apply Rows.of_rows
      · exact List.pairwise_singleton _ _
      · intro row hrow
        obtain rfl := List.mem_singleton.mp hrow
        refine ⟨by simp [TerminalSetRef.iter], List.pairwise_singleton _ _, ?_⟩
        intro t
        simp [TerminalSetRef.iter, pairs]
      · intro p hp
        obtain rfl := Finset.mem_singleton.mp hp
        simp [TerminalsDisallowed.rows, iter]
  | few pairs => exact few_rows h.1
  | many values => exact many_rows h.2

end TerminalsDisallowed

end GlrMask
