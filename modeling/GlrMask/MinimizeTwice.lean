import GlrMask.MinimizeAcyclic

/-!
# Minimising a minimised automaton

When all states are live and no two are equivalent, every state has a class of its
own, and the classes are numbered in post-order. The post-order of a minimised
automaton is its own numbering, because the search in the quotient opens a class
exactly when the search in the automaton opens its first state.
-/

namespace GlrMask

open Interning DepthFirst

namespace MinimizeAcyclic

variable {dfa : DFA} {topo reps : List ℕ} {s : Classes} {rank : ℕ → ℕ}

/-! ## Renumbering -/

/-- Without equivalent or dead states, every listed state has a class of its own. -/
theorem Classified.reps_eq (h : Classified dfa topo reps s) (htopo : Listed dfa topo)
    (hrank : Ranked dfa.targets dfa.states.length rank) (hirreducible : Irreducible dfa) :
    reps = topo := by
  have hsub : topo ⊆ reps := by
    intro t ht
    have hlt := htopo.postOrder.lt t ht
    have hlive := (h.live_iff htopo.postOrder hrank ht).mp (hirreducible.live t hlt)
    obtain ⟨k, hk⟩ := Nat.exists_eq_succ_of_ne_zero hlive
    obtain ⟨r, hr, hmem, hsig⟩ := h.representative ht hk
    have hclass := (h.class_eq_iff hmem ht).mpr hsig
    have he := hirreducible.distinct r (htopo.postOrder.lt r hmem) t hlt fun word => by
      rw [← h.accepts htopo.postOrder hrank hlive,
        ← h.accepts htopo.postOrder hrank (hclass.symm ▸ hlive), hclass]
    rw [← he]
    exact List.mem_of_getElem? hr
  exact h.sublist.eq_of_length_le (List.subperm_of_subset htopo.postOrder.nodup hsub).length_le

/-- Then the classes number the states in post-order. -/
theorem Classified.class_of_listed (h : Classified dfa topo topo s) {t : ℕ} (ht : t ∈ topo) :
    class_of s.class_of_state t = topo.idxOf t + 1 :=
  (h.class_of_representative (List.getElem?_idxOf ht)).2

theorem foldl_set_getElem? {l : List (ℕ × ℕ)} (hl : (l.map Prod.fst).Nodup) (m : List (Option ℕ))
    (t : ℕ) : (l.foldl (fun state_map e => state_map.set e.1 (some e.2)) m)[t]? =
      (m[t]?).map fun old => (l.lookup t).or old := by
  induction l generalizing m with
  | nil =>
      rw [List.foldl_nil]
      cases m[t]? with
      | none => rfl
      | some old => rfl
  | cons e l ih =>
      rw [List.map_cons, List.nodup_cons] at hl
      rw [List.foldl_cons, ih hl.2, List.lookup_cons]
      by_cases he : t = e.1
      · have hnone : l.lookup t = none := by
          rw [List.lookup_eq_none_iff]
          intro e' he'
          rw [bne_iff_ne]
          intro hkey
          exact hl.1 (he ▸ hkey ▸ List.mem_map_of_mem he')
        rw [hnone, he, beq_self_eq_true, List.getElem?_set]
        cases hget : m[e.1]? with
        | none =>
            rw [List.getElem?_eq_none_iff] at hget
            rw [if_pos rfl, if_neg (not_lt.mpr hget)]
            rfl
        | some old =>
            rw [if_pos rfl, if_pos (List.getElem?_eq_some_iff.mp hget).1]
            rfl
      · rw [List.getElem?_set_ne (Ne.symm he), beq_false_of_ne he]

/-- The new numbers by old state. -/
def stateMap (dfa : DFA) (topo : List ℕ) : List (Option ℕ) :=
  topo.zipIdx.foldl (fun state_map e => state_map.set e.1 (some e.2))
    (List.replicate dfa.states.length none)

theorem Listed.stateMap_getD (h : Listed dfa topo) (t : ℕ) :
    (stateMap dfa topo).getD t none = if t ∈ topo then some (topo.idxOf t) else none := by
  have hnodup : ((topo.zipIdx).map Prod.fst).Nodup := by
    rw [List.zipIdx_map_fst]
    exact h.postOrder.nodup
  rw [List.getD_eq_getElem?_getD, stateMap, foldl_set_getElem? hnodup, List.getElem?_replicate]
  split_ifs with hlt hmem hmem
  · have hzip : (t, topo.idxOf t) ∈ topo.zipIdx :=
      List.mem_zipIdx_iff_getElem?.mpr (List.getElem?_idxOf hmem)
    rw [lookup_of_mem hnodup hzip]
    rfl
  · have hlookup : topo.zipIdx.lookup t = none := by
      cases hl : topo.zipIdx.lookup t with
      | none => rfl
      | some i =>
          have hget := List.mem_zipIdx_iff_getElem?.mp (mem_of_lookup hl)
          exact absurd (List.mem_of_getElem? hget) hmem
    rw [hlookup]
    rfl
  · exact absurd (h.postOrder.lt t hmem) hlt
  · rfl

/-- The renumbered row is the row that the classes give. -/
theorem Classified.reindexed_state_eq (h : Classified dfa topo topo s) (htopo : Listed dfa topo)
    (start_state : Option ℕ) (t : ℕ) :
    reindexed_state dfa ⟨topo, stateMap dfa topo, start_state⟩ t =
      minimized_state dfa s.class_of_state t := by
  have htransitions : (reindexed_state dfa ⟨topo, stateMap dfa topo, start_state⟩ t).transitions =
      (minimized_state dfa s.class_of_state t).transitions := by
    apply SortedMap.ext_get
    intro label
    rw [get_minimized_state, reindexed_state, SortedMap.get_filterMapValues, ← DFA.next_eq]
    cases hnext : dfa.next t label with
    | none => rfl
    | some u =>
        rw [Option.bind_some, Option.bind_some, htopo.stateMap_getD]
        by_cases hu : u ∈ topo
        · have hclass := h.class_of_listed hu
          rw [if_pos hu, live_class_eq_some.mpr ⟨hclass, Nat.succ_ne_zero _⟩, Option.map_some,
            Nat.add_sub_cancel]
        · rw [if_neg hu, live_class_eq_none.mpr (h.outside u hu), Option.map_none]
  exact congrArg₂ DFAState.mk rfl htransitions

/-- Renumbering gives what minimising gives when every state has a class of its own. -/
theorem Classified.reindex_yields (h : Classified dfa topo topo s) (htopo : Listed dfa topo)
    (horder : Yields (reverse_topological_order dfa) topo) :
    Yields (reindex_minimized_acyclic_dfa dfa) (minimizedOf dfa s topo) := by
  have hstates : dfa.states ≠ [] := by
    intro he
    have hlt := htopo.postOrder.lt _ htopo.start
    rw [he] at hlt
    exact absurd hlt (Nat.not_lt_zero _)
  have hne : topo ≠ [] := List.ne_nil_of_mem htopo.start
  have hstart : (stateMap dfa topo).getD dfa.start_state none =
      some (class_of s.class_of_state dfa.start_state - 1) := by
    rw [htopo.stateMap_getD, if_pos htopo.start, h.class_of_listed htopo.start, Nat.add_sub_cancel]
  obtain ⟨enough, henough⟩ := horder
  refine ⟨enough, ?_⟩
  intro fuel hfuel
  unfold reindex_minimized_acyclic_dfa reindex_minimized_acyclic_order
  rw [if_neg hstates, henough fuel hfuel, Option.map_some, Option.bind_some]
  dsimp only
  change (if topo = [] then some dfa else ((stateMap dfa topo).getD dfa.start_state none).map _) = _
  rw [if_neg hne, hstart, Option.map_some, minimizedOf]
  congr 2
  apply List.map_congr_left
  intro t _
  exact h.reindexed_state_eq htopo _ t

/-! ## The order of a minimised automaton -/

/-- The search in the minimised automaton visits the live targets. -/
theorem Classified.targets_minimized (h : Classified dfa topo reps s) (htopo : Listed dfa topo)
    {t : ℕ} (ht : t ∈ topo) (hlive : class_of s.class_of_state t ≠ 0) :
    ((minimizedOf dfa s reps).targets (class_of s.class_of_state t - 1)).filter
        (· < (minimizedOf dfa s reps).states.length) =
      ((dfa.targets t).filter (· < dfa.states.length)).filterMap (newTarget s.class_of_state) := by
  have hrow : (minimizedOf dfa s reps).targets (class_of s.class_of_state t - 1) =
      (dfa.targets t).filterMap (newTarget s.class_of_state) := by
    rw [DFA.targets, DFA.transitions, h.row ht hlive]
    dsimp only
    rw [minimized_state_transitions, SortedMap.values_filterMapValues, DFA.targets]
  have hbound : ∀ i ∈ (dfa.targets t).filterMap (newTarget s.class_of_state),
      i < (minimizedOf dfa s reps).states.length := by
    intro i hi
    obtain ⟨u, -, hu⟩ := List.mem_filterMap.mp hi
    obtain ⟨k, hk, rfl⟩ := Option.map_eq_some_iff.mp hu
    obtain ⟨rfl, hne⟩ := live_class_eq_some.mp hk
    exact h.lt_minimized hne
  rw [hrow, List.filter_eq_self.mpr fun i hi => decide_eq_true (hbound i hi), List.filterMap_filter]
  apply List.filterMap_congr
  intro u _
  by_cases hu : u < dfa.states.length
  · rw [if_pos (decide_eq_true hu)]
  · have hnone : newTarget s.class_of_state u = none := by
      rw [newTarget, live_class_eq_none.mpr
        (h.outside u fun hmem => hu (htopo.postOrder.lt u hmem)), Option.map_none]
    rw [hnone, ite_self]

theorem Listed.mem_of_descends (htopo : Listed dfa topo) {t u : ℕ} (ht : t ∈ topo)
    (hu : Relation.ReflTransGen (Enters dfa.targets dfa.states.length) t u) : u ∈ topo := by
  induction hu with
  | refl => exact ht
  | tail _ hstep ih => exact htopo.postOrder.mem ih hstep

/-- Classes do not grow along paths. -/
theorem Classified.class_le_of_descends (h : Classified dfa topo reps s) (htopo : Listed dfa topo)
    {t u : ℕ} (ht : t ∈ topo)
    (hu : Relation.ReflTransGen (Enters dfa.targets dfa.states.length) t u) :
    class_of s.class_of_state u ≤ class_of s.class_of_state t := by
  induction hu with
  | refl => exact le_rfl
  | @tail v w hpath hstep ih =>
      obtain ⟨label, hnext⟩ := DFA.mem_targets.mp hstep.1
      by_cases hw : class_of s.class_of_state w = 0
      · omega
      · exact (h.target_lt (htopo.mem_of_descends ht hpath) hnext hw).le.trans ih

/-- What a state reaches has its classes among what another state of its class reaches. -/
theorem Classified.class_of_descends (h : Classified dfa topo reps s) (htopo : Listed dfa topo)
    {order : List ℕ} (hpost : PostOrder dfa.targets dfa.states.length order)
    (hsub : order ⊆ topo) {t t' u : ℕ} (ht : t ∈ topo) (ht' : t' ∈ order)
    (hclass : class_of s.class_of_state t' = class_of s.class_of_state t)
    (hu : Relation.ReflTransGen (Enters dfa.targets dfa.states.length) t u)
    (hlive : class_of s.class_of_state u ≠ 0) :
    ∃ u' ∈ order, class_of s.class_of_state u' = class_of s.class_of_state u := by
  induction hu with
  | refl => exact ⟨t', ht', hclass⟩
  | @tail v w hpath hstep ih =>
      have hv := htopo.mem_of_descends ht hpath
      obtain ⟨label, hnext⟩ := DFA.mem_targets.mp hstep.1
      have hlt := h.target_lt hv hnext hlive
      obtain ⟨v', hv', he⟩ := ih (by omega)
      have hsig := (h.class_eq_iff (hsub hv') hv).mp he
      obtain ⟨w', hnext', hw'⟩ := live_target_of_signature hsig.symm hnext hlive
      have hmem := h.mem_of_class (hw' ▸ hlive)
      exact ⟨w', hpost.mem hv' (enters_of_next hnext' (htopo.postOrder.lt w' hmem)), hw'⟩

/-- The classes up to `k`, and no larger ones, occur in the order. -/
structure Covers (s : Classes) (order : List ℕ) (k : ℕ) : Prop where
  le : ∀ t ∈ order, class_of s.class_of_state t ≤ k
  occurs : ∀ j, 1 ≤ j → j ≤ k → ∃ t ∈ order, class_of s.class_of_state t = j

theorem Covers.append {order new : List ℕ} {k : ℕ} (h : Covers s order k)
    (hnew : ∀ t ∈ new, class_of s.class_of_state t ≤ k) : Covers s (order ++ new) k where
  le t ht := (List.mem_append.mp ht).elim (h.le t) (hnew t)
  occurs j hj hle := by
    obtain ⟨t, ht, he⟩ := h.occurs j hj hle
    exact ⟨t, List.mem_append_left _ ht, he⟩

theorem Covers.concat {order : List ℕ} {k t : ℕ} (h : Covers s order k)
    (ht : class_of s.class_of_state t = k + 1) : Covers s (order ++ [t]) (k + 1) where
  le u hu := by
    obtain hu | hu := List.mem_append.mp hu
    · exact (h.le u hu).trans (Nat.le_succ k)
    · rw [List.mem_singleton.mp hu, ht]
  occurs j hj hle := by
    obtain hle | rfl := Nat.le_succ_iff.mp hle
    · obtain ⟨u, hu, he⟩ := h.occurs j hj hle
      exact ⟨u, List.mem_append_left _ hu, he⟩
    · exact ⟨t, List.mem_append_right _ (List.mem_singleton_self t), ht⟩

/-- The search in the minimised automaton lists the classes that the search in the automaton
meets, in their own order. -/
theorem Classified.walk_minimized (h : Classified dfa topo reps s) (htopo : Listed dfa topo)
    (hrank : Ranked dfa.targets dfa.states.length rank) {fuel fuel' k t : ℕ} {order rest : List ℕ}
    (ht : t ∈ topo) (hlive : class_of s.class_of_state t ≠ 0) (hfuel : rank t < fuel)
    (hfuel' : class_of s.class_of_state t - 1 < fuel')
    (hpost : PostOrder dfa.targets dfa.states.length order)
    (hsplit : topo = walk dfa.targets dfa.states.length fuel order t ++ rest)
    (hcovers : Covers s order k) :
    ∃ k', Covers s (walk dfa.targets dfa.states.length fuel order t) k' ∧
      walk (minimizedOf dfa s reps).targets (minimizedOf dfa s reps).states.length fuel'
        (List.range k) (class_of s.class_of_state t - 1) = List.range k' := by
  induction fuel generalizing fuel' k t order rest with
  | zero => omega
  | succ fuel ih =>
  obtain ⟨fuel', rfl⟩ : ∃ m, fuel' = m + 1 := ⟨fuel' - 1, by omega⟩
  have hlt := htopo.postOrder.lt t ht
  obtain ⟨new, hwalk, hvisits⟩ := walk_spec hrank hlt hfuel hpost
  have hsub : order ⊆ topo := by
    rw [hsplit, hwalk, List.append_assoc]
    exact List.subset_append_left _ _
  by_cases hseen : class_of s.class_of_state t ≤ k
  · -- the class is listed, with all that it reaches
    refine ⟨k, ?_, ?_⟩
    · rw [hwalk]
      apply hcovers.append
      intro u hu
      by_cases hdead : class_of s.class_of_state u = 0
      · omega
      · obtain ⟨t', ht', he⟩ := hcovers.occurs _ (Nat.one_le_iff_ne_zero.mpr hlive) hseen
        obtain ⟨u', hu', he'⟩ :=
          h.class_of_descends htopo hpost hsub ht ht' he (hvisits.descends u hu) hdead
        rw [← he']
        exact hcovers.le u' hu'
    · rw [walk, if_pos]
      rw [List.mem_range]
      omega
  · have hnew : t ∉ order := by
      intro hc
      exact hseen (hcovers.le t hc)
    rw [walk, if_neg hnew] at hsplit ⊢
    have hstep : ∀ order, PostOrder dfa.targets dfa.states.length order → ∀ u,
        Enters dfa.targets dfa.states.length t u →
        ∃ new, walk dfa.targets dfa.states.length fuel order u = order ++ new ∧
          Visits dfa.targets dfa.states.length order u new := by
      intro order hpost u henters
      have hlower := Ranked.enters hrank hlt henters
      exact walk_spec hrank henters.2 (by omega) hpost
    have hfold : ∀ (targets order rest : List ℕ) (k : ℕ),
        (∀ u ∈ targets, Enters dfa.targets dfa.states.length t u) →
        PostOrder dfa.targets dfa.states.length order →
        topo = targets.foldl (walk dfa.targets dfa.states.length fuel) order ++ rest →
        Covers s order k →
        ∃ k', Covers s (targets.foldl (walk dfa.targets dfa.states.length fuel) order) k' ∧
          (targets.filterMap (newTarget s.class_of_state)).foldl
            (walk (minimizedOf dfa s reps).targets (minimizedOf dfa s reps).states.length fuel')
            (List.range k) = List.range k' := by
      intro targets
      induction targets with
      | nil => exact fun order rest k _ _ _ hcovers => ⟨k, hcovers, rfl⟩
      | cons u targets ihTargets =>
          intro order rest k hall hpost hsplit hcovers
          have henters := hall u List.mem_cons_self
          obtain ⟨label, hnext⟩ := DFA.mem_targets.mp henters.1
          have hu := htopo.postOrder.mem ht henters
          have hlower := Ranked.enters hrank hlt henters
          obtain ⟨newU, hwalkU, hvisitsU⟩ := hstep order hpost u henters
          obtain ⟨newRest, hfoldRest, -⟩ := foldl_spec (fun order hpost v hv =>
            hstep order hpost v (hall v (List.mem_cons_of_mem _ hv))) hvisitsU.postOrder
          rw [List.foldl_cons, hwalkU] at hsplit ⊢
          have hrestU : topo = walk dfa.targets dfa.states.length fuel order u ++
              (newRest ++ rest) := by
            rw [hsplit, hfoldRest, hwalkU, List.append_assoc (order ++ newU)]
          have hnext' := fun v hv => hall v (List.mem_cons_of_mem _ hv)
          rw [List.filterMap_cons]
          by_cases hdead : class_of s.class_of_state u = 0
          · have hnone : newTarget s.class_of_state u = none := by
              rw [newTarget, live_class_eq_none.mpr hdead, Option.map_none]
            rw [hnone]
            apply ihTargets _ rest k hnext' hvisitsU.postOrder hsplit
            apply hcovers.append
            intro v hv
            have hle := h.class_le_of_descends htopo hu (hvisitsU.descends v hv)
            omega
          · have hsome : newTarget s.class_of_state u = some (class_of s.class_of_state u - 1) := by
              rw [newTarget, live_class_eq_some.mpr ⟨rfl, hdead⟩, Option.map_some]
            have hsmaller := h.target_lt ht hnext hdead
            have hsmaller' : class_of s.class_of_state u - 1 < fuel' := by omega
            obtain ⟨k₁, hcovers₁, hwalk₁⟩ := ih hu hdead (by omega) hsmaller' hpost hrestU hcovers
            rw [hwalkU] at hcovers₁
            rw [hsome]
            dsimp only
            rw [List.foldl_cons, hwalk₁]
            exact ihTargets _ rest k₁ hnext' hvisitsU.postOrder hsplit hcovers₁
    have htargets : ∀ u ∈ (dfa.targets t).filter (· < dfa.states.length),
        Enters dfa.targets dfa.states.length t u := fun u hu => mem_targets.mp hu
    rw [List.append_assoc] at hsplit
    obtain ⟨k', hcovers', hfold'⟩ := hfold _ order _ k htargets hpost hsplit hcovers
    -- all smaller classes occurred, and the class of the state did not
    have hk : class_of s.class_of_state t = k' + 1 := by
      obtain ⟨newAll, hfoldAll, -, -, hdescends⟩ :=
        foldl_spec (fun order hpost u hu => hstep order hpost u (htargets u hu)) hpost
      have hle : class_of s.class_of_state t ≤ k' + 1 := by
        by_contra hgt
        obtain ⟨u, hu, he⟩ := h.growth _ t rest hsplit (k' + 1) (Nat.le_add_left 1 k') (by omega)
        have := hcovers'.le u hu
        omega
      have hlower : k' < class_of s.class_of_state t := by
        by_contra hge
        obtain ⟨u, hu, he⟩ := hcovers'.occurs _ (Nat.one_le_iff_ne_zero.mpr hlive) (not_lt.mp hge)
        rw [hfoldAll] at hu
        obtain hu | hu := List.mem_append.mp hu
        · exact hseen (he ▸ hcovers.le u hu)
        · obtain ⟨v, hv, hdesc⟩ := hdescends u hu
          obtain ⟨label, hnext⟩ := DFA.mem_targets.mp (htargets v hv).1
          have hle := h.class_le_of_descends htopo (htopo.postOrder.mem ht (htargets v hv)) hdesc
          have hlt := h.target_lt ht hnext (by omega)
          omega
      omega
    refine ⟨k' + 1, hcovers'.concat hk, ?_⟩
    rw [walk, if_neg, h.targets_minimized htopo ht hlive, hfold', hk, Nat.add_sub_cancel,
      List.range_succ]
    rw [List.mem_range]
    omega

/-- The minimised automaton is in post-order. -/
theorem Classified.walk_minimized_start (h : Classified dfa topo reps s) (htopo : Listed dfa topo)
    (hrank : Ranked dfa.targets dfa.states.length rank)
    (hwalk : topo = walk dfa.targets dfa.states.length (rank dfa.start_state + 1) []
      dfa.start_state)
    (hlive : class_of s.class_of_state dfa.start_state ≠ 0) {fuel : ℕ}
    (hfuel : (minimizedOf dfa s reps).start_state < fuel) :
    walk (minimizedOf dfa s reps).targets (minimizedOf dfa s reps).states.length fuel []
      (minimizedOf dfa s reps).start_state = List.range reps.length := by
  have hcovers : Covers s [] 0 := by
    constructor
    · intro t ht
      cases ht
    · intro j hj hle
      omega
  obtain ⟨k, hk, hrange⟩ := h.walk_minimized htopo hrank htopo.start hlive (Nat.lt_succ_self _) hfuel
    postOrder_nil (hwalk.trans (List.append_nil _).symm) hcovers
  rw [← hwalk] at hk
  refine hrange.trans ?_
  congr 1
  apply le_antisymm
  · by_contra hgt
    obtain ⟨t, -, ht⟩ := hk.occurs k (by omega) le_rfl
    have hlt := h.class_lt t
    omega
  · by_contra hgt
    obtain ⟨i, hi⟩ : ∃ i, reps.length = i + 1 := ⟨reps.length - 1, by omega⟩
    obtain ⟨hmem, hclass⟩ := h.class_of_representative
      (List.getElem?_eq_getElem (show i < reps.length by omega))
    have hle := hk.le _ hmem
    omega

/-! ## Minimising again -/

/-- What the live targets of a minimised automaton are. -/
theorem Classified.minimized_next (h : Classified dfa topo reps s) {i j : ℕ} {label : Label}
    (hnext : (minimizedOf dfa s reps).next i label = some j) :
    j < i ∧ i < (minimizedOf dfa s reps).states.length := by
  have hi := DFA.lt_of_next hnext
  refine ⟨?_, hi⟩
  rw [minimizedOf, List.length_map] at hi
  obtain ⟨hmem, hclass⟩ := h.class_of_representative (List.getElem?_eq_getElem hi)
  have hlive : class_of s.class_of_state reps[i] ≠ 0 := by omega
  have hrow := h.next hmem hlive label
  rw [hclass, Nat.add_sub_cancel, hnext, eq_comm, Option.map_eq_some_iff] at hrow
  obtain ⟨k, hk, rfl⟩ := hrow
  obtain ⟨u, hu, hclassU⟩ := Option.bind_eq_some_iff.mp hk
  obtain ⟨rfl, hne⟩ := live_class_eq_some.mp hclassU
  have hlt := h.target_lt hmem hu hne
  omega

theorem Classified.minimized_ranked (h : Classified dfa topo reps s) :
    Ranked (minimizedOf dfa s reps).targets (minimizedOf dfa s reps).states.length id := by
  intro i _ j hj _
  obtain ⟨label, hnext⟩ := DFA.mem_targets.mp hj
  exact (h.minimized_next hnext).1

/-- Where the classes follow the numbers of the states, minimising changes nothing. -/
theorem Classified.minimizedOf_eq (h : Classified dfa (List.range dfa.states.length)
      (List.range dfa.states.length) s) (hstart : dfa.start_state < dfa.states.length)
    (htargets : ∀ t label u, dfa.next t label = some u → u < dfa.states.length) :
    minimizedOf dfa s (List.range dfa.states.length) = dfa := by
  have hclass : ∀ t < dfa.states.length, class_of s.class_of_state t = t + 1 := by
    intro t ht
    have hget : (List.range dfa.states.length)[t]? = some t := List.getElem?_range ht
    exact (h.class_of_representative hget).2
  have hrow : ∀ t row, dfa.states[t]? = some row → minimized_state dfa s.class_of_state t = row := by
    intro t row hrow
    have htransitions : (minimized_state dfa s.class_of_state t).transitions = row.transitions := by
      apply SortedMap.ext_get
      intro label
      have hnext : dfa.next t label = row.transitions.get label := by
        rw [DFA.next, hrow, Option.bind_some]
      rw [get_minimized_state, ← hnext]
      cases hu : dfa.next t label with
      | none => rfl
      | some u =>
          rw [Option.bind_some, live_class_eq_some.mpr ⟨hclass u (htargets t label u hu),
            Nat.succ_ne_zero u⟩, Option.map_some, Nat.add_sub_cancel]
    exact congrArg₂ DFAState.mk (DFA.is_accepting_eq hrow) htransitions
  have hstates : (List.range dfa.states.length).map (minimized_state dfa s.class_of_state) =
      dfa.states := by
    apply List.ext_getElem?
    intro t
    rw [List.getElem?_map]
    by_cases ht : t < dfa.states.length
    · rw [List.getElem?_range ht, Option.map_some, List.getElem?_eq_getElem ht]
      exact congrArg some (hrow t _ (List.getElem?_eq_getElem ht))
    · rw [List.getElem?_eq_none (by rwa [List.length_range, ← not_lt]),
        List.getElem?_eq_none (not_lt.mp ht), Option.map_none]
  rw [minimizedOf, hstates, hclass _ hstart, Nat.add_sub_cancel]

/-- Minimising an irreducible automaton renumbers it. -/
theorem irreducible_yields (hacyclic : dfa.compute_is_acyclic = true)
    (hstart : dfa.start_state < dfa.states.length) (hirreducible : Irreducible dfa) :
    ∃ rank topo s, Ranked dfa.targets dfa.states.length rank ∧ Listed dfa topo ∧
      topo = walk dfa.targets dfa.states.length (rank dfa.start_state + 1) [] dfa.start_state ∧
      Classified dfa topo topo s ∧ Yields (minimize_acyclic dfa) (minimizedOf dfa s topo) ∧
      Yields (reindex_minimized_acyclic_dfa dfa) (minimizedOf dfa s topo) := by
  obtain ⟨rank, topo, reps, hrank, htopo, hwalk, horder, h⟩ := listed_classified hacyclic hstart
  obtain rfl := h.reps_eq htopo hrank hirreducible
  have hy := minimize_acyclic_yields hacyclic hstart horder h
  rw [if_neg ((h.live_iff htopo.postOrder hrank htopo.start).mp
    (hirreducible.live _ hstart))] at hy
  exact ⟨rank, reps, _, hrank, htopo, hwalk, h, hy, h.reindex_yields htopo horder⟩

/-- Minimising a minimised automaton changes nothing. -/
theorem Classified.minimize_again (h : Classified dfa topo reps s) (htopo : Listed dfa topo)
    (hrank : Ranked dfa.targets dfa.states.length rank)
    (hwalk : topo = walk dfa.targets dfa.states.length (rank dfa.start_state + 1) []
      dfa.start_state)
    (hlive : class_of s.class_of_state dfa.start_state ≠ 0) :
    Yields (minimize_acyclic (minimizedOf dfa s reps)) (minimizedOf dfa s reps) := by
  have hstart : (minimizedOf dfa s reps).start_state < (minimizedOf dfa s reps).states.length :=
    h.lt_minimized hlive
  have hlength : reps.length = (minimizedOf dfa s reps).states.length := (List.length_map _).symm
  have horder : ∀ fuel, (minimizedOf dfa s reps).start_state < fuel →
      walk (minimizedOf dfa s reps).targets (minimizedOf dfa s reps).states.length fuel []
        (minimizedOf dfa s reps).start_state =
          List.range (minimizedOf dfa s reps).states.length := by
    intro fuel hfuel
    have hrange := h.walk_minimized_start htopo hrank hwalk hlive hfuel
    rwa [hlength] at hrange
  have hacyclic : (minimizedOf dfa s reps).compute_is_acyclic = true :=
    (allReleased_iff _ _).mpr ⟨id, h.minimized_ranked⟩
  have htargets : ∀ t label u, (minimizedOf dfa s reps).next t label = some u →
      u < (minimizedOf dfa s reps).states.length := by
    intro t label u hnext
    obtain ⟨hlt, hbound⟩ := h.minimized_next hnext
    omega
  obtain ⟨rank', topo', s', hrank', -, hwalk', h', hy, -⟩ :=
    irreducible_yields hacyclic hstart (h.irreducible htopo hrank)
  -- more fuel than both ranks
  have htopo' : topo' = List.range (minimizedOf dfa s reps).states.length := by
    rw [hwalk', walk_congr hrank' hstart (Nat.lt_succ_self _)
      (Nat.lt_succ_of_le (Nat.le_add_right _ (minimizedOf dfa s reps).start_state))]
    exact horder _ (Nat.lt_succ_of_le (Nat.le_add_left _ _))
  subst htopo'
  rw [h'.minimizedOf_eq hstart htargets] at hy
  exact hy

theorem new_minimize_acyclic : Yields (minimize_acyclic DFA.new) DFA.new := by
  have hacyclic : DFA.new.compute_is_acyclic = true := by
    rw [DFA.compute_is_acyclic, allReleased_iff]
    refine ⟨id, ?_⟩
    intro i hi t ht _
    obtain rfl : i = 0 := Nat.lt_one_iff.mp hi
    cases ht
  have hstart : DFA.new.start_state < DFA.new.states.length := Nat.zero_lt_one
  obtain ⟨rank, topo, reps, hrank, htopo, -, horder, h⟩ := listed_classified hacyclic hstart
  have hy := minimize_acyclic_yields hacyclic hstart horder h
  split_ifs at hy with hdead
  · exact hy
  · obtain ⟨word, hword⟩ := (h.live_iff htopo.postOrder hrank htopo.start).mpr hdead
    exact absurd ((DFA.new_accepts_word word).symm.trans hword) Bool.false_ne_true

/-- Minimising an acyclic automaton keeps the words and leaves the fewest states; an automaton
without equivalent or dead states is only renumbered, and a minimised one stays as it is. -/
theorem minimize_acyclic_correct (dfa : DFA) (hacyclic : dfa.compute_is_acyclic = true)
    (hstart : dfa.start_state < dfa.states.length) :
    ∃ result, Yields (minimize_acyclic dfa) result ∧
      (∀ word, result.accepts_word word = dfa.accepts_word word) ∧ DFA.Fewest dfa result ∧
      (Irreducible dfa → Yields (reindex_minimized_acyclic_dfa dfa) result) ∧
      Yields (minimize_acyclic result) result := by
  obtain ⟨rank, topo, reps, hrank, htopo, hwalk, horder, h⟩ := listed_classified hacyclic hstart
  have hy := minimize_acyclic_yields hacyclic hstart horder h
  have hlive_iff := h.live_iff htopo.postOrder hrank htopo.start
  split_ifs at hy with hdead
  · have hempty : ∀ word, dfa.accepts_word word = false := fun word =>
      Bool.eq_false_of_not_eq_true fun hword => hlive_iff.mp ⟨word, hword⟩ hdead
    refine ⟨DFA.new, hy, ?_, DFA.fewest_of_le_one le_rfl, ?_, new_minimize_acyclic⟩
    · intro word
      rw [DFA.new_accepts_word, hempty]
    · intro hirreducible
      exact absurd hdead (hlive_iff.mp (hirreducible.live _ hstart))
  · have hlang : ∀ word, (minimizedOf dfa (topo.foldl (classify dfa) (initial_classes dfa))
        reps).accepts_word word = dfa.accepts_word word :=
      fun word => h.accepts htopo.postOrder hrank hdead word
    refine ⟨_, hy, hlang, (h.irreducible htopo hrank).fewest hlang, ?_,
      h.minimize_again htopo hrank hwalk hdead⟩
    intro hirreducible
    obtain rfl := h.reps_eq htopo hrank hirreducible
    exact h.reindex_yields htopo horder

/-- A start state with one edge to an accepting state. -/
def oneEdge : DFA := ⟨[⟨false, SortedMap.empty.insert 7 1⟩, ⟨true, SortedMap.empty⟩], 0⟩

theorem oneEdge_irreducible : Irreducible oneEdge where
  reachable t ht := by
    obtain rfl | rfl : t = 0 ∨ t = 1 := Nat.le_one_iff_eq_zero_or_eq_one.mp (Nat.le_of_lt_succ ht)
    · exact ⟨ht, [], rfl⟩
    · exact ⟨ht, [7], rfl⟩
  live t ht := by
    obtain rfl | rfl : t = 0 ∨ t = 1 := Nat.le_one_iff_eq_zero_or_eq_one.mp (Nat.le_of_lt_succ ht)
    · exact ⟨[7], rfl⟩
    · exact ⟨[], rfl⟩
  distinct t ht u hu hsame := by
    have hnil := hsame []
    obtain rfl | rfl : t = 0 ∨ t = 1 := Nat.le_one_iff_eq_zero_or_eq_one.mp (Nat.le_of_lt_succ ht)
    · obtain rfl | rfl : u = 0 ∨ u = 1 := Nat.le_one_iff_eq_zero_or_eq_one.mp (Nat.le_of_lt_succ hu)
      · rfl
      · cases hnil
    · obtain rfl | rfl : u = 0 ∨ u = 1 := Nat.le_one_iff_eq_zero_or_eq_one.mp (Nat.le_of_lt_succ hu)
      · cases hnil
      · rfl

theorem minimize_acyclic_oneEdge : ∃ result, Yields (minimize_acyclic oneEdge) result ∧
    (∀ word, result.accepts_word word = oneEdge.accepts_word word) ∧ DFA.Fewest oneEdge result ∧
    Yields (reindex_minimized_acyclic_dfa oneEdge) result ∧
    Yields (minimize_acyclic result) result := by
  have hacyclic : oneEdge.compute_is_acyclic = true := by
    rw [DFA.compute_is_acyclic, allReleased_iff]
    refine ⟨fun t => 1 - t, ?_⟩
    intro t ht u hu _
    obtain rfl | rfl : t = 0 ∨ t = 1 := Nat.le_one_iff_eq_zero_or_eq_one.mp (Nat.le_of_lt_succ ht)
    · obtain rfl := List.mem_singleton.mp hu
      exact Nat.zero_lt_one
    · cases hu
  obtain ⟨result, hy, hlang, hfewest, hreindex, hagain⟩ :=
    minimize_acyclic_correct oneEdge hacyclic Nat.zero_lt_two
  exact ⟨result, hy, hlang, hfewest, hreindex oneEdge_irreducible, hagain⟩

end MinimizeAcyclic

end GlrMask
