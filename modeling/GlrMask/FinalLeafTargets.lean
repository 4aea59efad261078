import GlrMask.TrimUnreachable

/-!
# Sharing the final leaves of a parser automaton

The final weight of a state without transitions is pushed into the edges that enter
it, and these edges are led to one shared state that accepts everything. An edge
that keeps nothing is deleted, which uncovers the default edge of its row.
-/

namespace GlrMask

namespace DWA

/-! ## The function -/

/-- The final weight of a state without transitions, unless it is empty. -/
def leafFinal (state : DWAState) : Option Weight :=
  if state.transitions.entries.isEmpty then
    state.final_weight.filter fun weight => !weight.is_empty
  else none

def leafFinals (dwa : DWA) : List (Option Weight) := dwa.states.map leafFinal

/-- The final weight of the leaf that an edge enters. -/
def leafOf (leaf_finals : List (Option Weight)) (e : ℕ × Weight) : Option Weight :=
  (leaf_finals[e.1]?).join

variable {dwa : DWA} {p : Point}

theorem leafFinal_eq_some {state : DWAState} {weight : Weight} (h : leafFinal state = some weight) :
    state.transitions.entries = [] ∧ state.final_weight = some weight := by
  unfold leafFinal at h
  split_ifs at h with hleaf
  obtain ⟨hfinal, -⟩ := Option.filter_eq_some_iff.mp h
  exact ⟨List.isEmpty_iff.mp hleaf, hfinal⟩

theorem leafOf_eq_some {e : ℕ × Weight} {weight : Weight}
    (h : leafOf dwa.leafFinals e = some weight) :
    (∀ label, dwa.edge e.1 label = none) ∧ dwa.final e.1 = some weight ∧
      e.1 < dwa.states.length := by
  have hget := Option.join_eq_some_iff.mp h
  rw [leafFinals, List.getElem?_map] at hget
  obtain ⟨state, hstate, hleaf⟩ := Option.map_eq_some_iff.mp hget
  obtain ⟨hentries, hfinal⟩ := leafFinal_eq_some hleaf
  refine ⟨?_, by simp [final, hstate, hfinal], (List.getElem?_eq_some_iff.mp hstate).1⟩
  intro label
  simp [edge, hstate, SortedMap.get, hentries, SortedMap.lookupEntry]

/-- An edge along which nothing is accepted: its weight and the final weight of the leaf
behind it have no point in common, or its weight has no point. -/
def Rejecting (dwa : DWA) (e : ℕ × Weight) : Prop :=
  ∀ p ∈ e.2, ∃ final_weight, leafOf dwa.leafFinals e = some final_weight ∧ p ∉ final_weight

/-- A run that enters a leaf enters the sink if the leaf accepts, and ends if not. -/
def Collapsed (dwa : DWA) (p : Point) (x y : Option ℕ) : Prop :=
  (x = y ∧ ∀ s ∈ x, s < dwa.states.length) ∨
    ∃ e final_weight, x = some e.1 ∧ leafOf dwa.leafFinals e = some final_weight ∧
      (p ∈ final_weight ∧ y = some dwa.states.length ∨ p ∉ final_weight ∧ y = none)

variable [Runtime]

def pushFinal (leaf_finals : List (Option Weight)) (sink : ℕ) (e : ℕ × Weight) :
    Option (ℕ × Weight) :=
  match leafOf leaf_finals e with
  | none => some e
  | some final_weight =>
      let pushed := e.2.intersection final_weight
      if pushed.is_empty then none else some (sink, pushed)

def pushFinals (leaf_finals : List (Option Weight)) (sink : ℕ) (state : DWAState) : DWAState :=
  { state with transitions := state.transitions.filterMapValues (pushFinal leaf_finals sink) }

def changedCount (leaf_finals : List (Option Weight)) (state : DWAState) : ℕ :=
  state.transitions.values.countP fun e => (leafOf leaf_finals e).isSome

def collapse_final_leaf_targets (dwa : DWA) : Option DWA :=
  if dwa.states.isEmpty then some dwa
  else if dwa.leafFinals.all Option.isNone then some dwa
  else
    let sink := dwa.states.length
    let states := dwa.states.map (pushFinals dwa.leafFinals sink) ++
      [{ transitions := SortedMap.empty, final_weight := some Weight.all }]
    if (dwa.states.map (changedCount dwa.leafFinals)).sum = 0 then
      some { states := states.dropLast, start_state := dwa.start_state }
    else trim_unreachable_dwa { states := states, start_state := dwa.start_state }

/-! ## The automaton before trimming -/

/-- The rows with the final weights pushed into their edges, and the sink behind them. -/
def pushed (dwa : DWA) : DWA where
  states := dwa.states.map (pushFinals dwa.leafFinals dwa.states.length) ++
    [{ transitions := SortedMap.empty, final_weight := some Weight.all }]
  start_state := dwa.start_state

theorem pushed_getElem? (s : ℕ) : dwa.pushed.states[s]? =
    if s = dwa.states.length then some ⟨SortedMap.empty, some Weight.all⟩
    else (dwa.states[s]?).map (pushFinals dwa.leafFinals dwa.states.length) := by
  unfold pushed
  rcases lt_trichotomy s dwa.states.length with hlt | heq | hgt
  · rw [if_neg (Nat.ne_of_lt hlt), List.getElem?_append_left (by rw [List.length_map]; exact hlt),
      List.getElem?_map]
  · rw [if_pos heq, heq, List.getElem?_append_right (by rw [List.length_map]), List.length_map,
      Nat.sub_self]
    rfl
  · have hnone : dwa.states[s]? = none := List.getElem?_eq_none (Nat.le_of_lt hgt)
    rw [if_neg (Nat.ne_of_gt hgt), hnone]
    apply List.getElem?_eq_none
    rw [List.length_append, List.length_map, List.length_singleton]
    exact hgt

theorem length_pushed : dwa.pushed.states.length = dwa.states.length + 1 := by
  rw [pushed, List.length_append, List.length_map, List.length_singleton]

theorem edge_pushed (s : ℕ) (label : Label) : dwa.pushed.edge s label =
    (dwa.edge s label).bind (pushFinal dwa.leafFinals dwa.states.length) := by
  simp only [edge, pushed_getElem?]
  split_ifs with hsink
  · rw [hsink, List.getElem?_eq_none (Nat.le_refl _)]
    rfl
  · cases dwa.states[s]? with
    | none => rfl
    | some row => exact SortedMap.get_filterMapValues _ _ _

theorem final_pushed {s : ℕ} (h : s ≠ dwa.states.length) : dwa.pushed.final s = dwa.final s := by
  simp only [final, pushed_getElem?, if_neg h]
  cases dwa.states[s]? with
  | none => rfl
  | some row => rfl

theorem final_pushed_sink : dwa.pushed.final dwa.states.length = some Weight.all := by
  simp only [final, pushed_getElem?, if_pos]
  rfl

omit [Runtime] in
/-- The sink of the collapsed rows is out of the range of the old ones. -/
theorem not_edge_sink (label : Label) : dwa.edge dwa.states.length label = none := by
  simp [edge]

/-- The edges that pushing and trimming delete. -/
def deleted (dwa : DWA) (e : ℕ × Weight) : Bool :=
  match leafOf dwa.leafFinals e with
  | none => e.2.is_empty
  | some final_weight => (e.2.intersection final_weight).is_empty

theorem deleted_of_no_leaf {e : ℕ × Weight} (h : leafOf dwa.leafFinals e = none) :
    deleted dwa e = e.2.is_empty := by simp only [deleted, h]

theorem deleted_of_leaf {e : ℕ × Weight} {final_weight : Weight}
    (h : leafOf dwa.leafFinals e = some final_weight) :
    deleted dwa e = (e.2.intersection final_weight).is_empty := by simp only [deleted, h]

theorem pushFinal_of_no_leaf {e : ℕ × Weight} (h : leafOf dwa.leafFinals e = none) {sink : ℕ} :
    pushFinal dwa.leafFinals sink e = some e := by simp only [pushFinal, h]

theorem pushFinal_of_leaf {e : ℕ × Weight} {final_weight : Weight}
    (h : leafOf dwa.leafFinals e = some final_weight) {sink : ℕ} :
    pushFinal dwa.leafFinals sink e =
      if (e.2.intersection final_weight).is_empty then none
      else some (sink, e.2.intersection final_weight) := by simp only [pushFinal, h]

theorem deleted_iff {e : ℕ × Weight} : deleted dwa e = true ↔ dwa.Rejecting e := by
  unfold deleted Rejecting
  cases leafOf dwa.leafFinals e with
  | none => simp [Weight.is_empty_iff, Weight.eq_empty_iff]
  | some final_weight => simp [Weight.is_empty_iff, Weight.eq_empty_iff]

theorem pushed_inRange (hrange : ∀ state label target weight,
    dwa.edge state label = some (target, weight) → target < dwa.states.length) :
    ∀ state label target weight, dwa.pushed.edge state label = some (target, weight) →
      target < dwa.pushed.states.length := by
  intro state label target weight h
  rw [edge_pushed] at h
  obtain ⟨e, he, hpush⟩ := Option.bind_eq_some_iff.mp h
  rw [length_pushed]
  cases hleaf : leafOf dwa.leafFinals e with
  | none =>
      rw [pushFinal_of_no_leaf hleaf] at hpush
      obtain rfl := Option.some.inj hpush
      exact Nat.lt_succ_of_lt (hrange state label target weight he)
  | some final_weight =>
      rw [pushFinal_of_leaf hleaf] at hpush
      split_ifs at hpush
      obtain ⟨rfl, -⟩ := Prod.mk.inj (Option.some.inj hpush)
      exact Nat.lt_succ_self _

theorem pushed_edgesMatch (hrange : ∀ state label target weight,
    dwa.edge state label = some (target, weight) → target < dwa.states.length)
    (s : ℕ) (label : Label) : EdgesMatch p (Collapsed dwa p)
      ((dwa.withoutEdges (deleted dwa)).edge s label)
      ((dwa.pushed.withoutEdges fun e => e.2.is_empty).edge s label) := by
  rw [edge_withoutEdges, edge_withoutEdges, edge_pushed]
  cases he : dwa.edge s label with
  | none => trivial
  | some e =>
      have hlt : e.1 < dwa.states.length := hrange s label e.1 e.2 he
      rw [Option.bind_some, Option.bind_some]
      cases hleaf : leafOf dwa.leafFinals e with
      | none =>
          rw [deleted_of_no_leaf hleaf, pushFinal_of_no_leaf hleaf, Option.bind_some]
          cases hweight : e.2.is_empty with
          | true => trivial
          | false =>
              left
              refine ⟨rfl, ?_⟩
              intro t ht
              unfold follow at ht
              split_ifs at ht with hp
              · obtain rfl := Option.some.inj ht
                exact hlt
              · cases ht
      | some final_weight =>
          rw [deleted_of_leaf hleaf, pushFinal_of_leaf hleaf]
          cases hweight : (e.2.intersection final_weight).is_empty with
          | true => trivial
          | false =>
              simp only [Bool.false_eq_true, if_false, Option.bind_some, hweight, EdgesMatch,
                follow]
              by_cases hp : p ∈ e.2
              · rw [if_pos hp]
                right
                refine ⟨e, final_weight, rfl, hleaf, ?_⟩
                by_cases hf : p ∈ final_weight
                · exact Or.inl ⟨hf, if_pos (Weight.mem_intersection.mpr ⟨hp, hf⟩)⟩
                · exact Or.inr ⟨hf, if_neg fun h => hf (Weight.mem_intersection.mp h).2⟩
              · rw [if_neg hp, if_neg fun h => hp (Weight.mem_intersection.mp h).1]
                exact Or.inl ⟨rfl, by simp⟩

theorem pushed_simulates (hrange : ∀ state label target weight,
    dwa.edge state label = some (target, weight) → target < dwa.states.length) (p : Point) :
    Simulates p (dwa.withoutEdges (deleted dwa)) (dwa.pushed.withoutEdges fun e => e.2.is_empty)
      (Collapsed dwa p) where
  accepts x y hxy := by
    rw [acceptsHere_withoutEdges, acceptsHere_withoutEdges]
    rcases hxy with ⟨rfl, hlt⟩ | ⟨e, final_weight, rfl, hleaf, hy⟩
    · cases x with
      | none => exact iff_of_false not_acceptsHere_none not_acceptsHere_none
      | some s => rw [acceptsHere_some, acceptsHere_some, final_pushed (Nat.ne_of_lt (hlt s rfl))]
    · have hfinal := (leafOf_eq_some hleaf).2.1
      rw [acceptsHere_some, hfinal]
      rcases hy with ⟨hp, rfl⟩ | ⟨hp, rfl⟩
      · rw [acceptsHere_some, final_pushed_sink]
        simp [hp]
      · simp [hp]
  steps x y parser hxy := by
    have hnone : Collapsed dwa p none none := Or.inl ⟨rfl, by simp⟩
    rcases hxy with ⟨rfl, hlt⟩ | ⟨e, final_weight, rfl, hleaf, hy⟩
    · cases x with
      | none => exact hnone
      | some s => exact related_stepAt hnone (pushed_edgesMatch hrange s) parser
    · have hedge := (leafOf_eq_some hleaf).1
      rcases hy with ⟨hp, rfl⟩ | ⟨hp, rfl⟩
      · apply related_stepAt hnone
        intro label
        rw [edge_withoutEdges, edge_withoutEdges, edge_pushed, hedge, not_edge_sink]
        trivial
      · have hleft : (dwa.withoutEdges (deleted dwa)).stepAt p (some e.1) parser = none := by
          rw [stepAt_some, parserEdge, edge_withoutEdges, edge_withoutEdges, hedge, hedge]
          rfl
        rw [hleft]
        exact hnone

/-! ## What deleting edges uncovers -/

omit [Runtime] in
theorem maskFrom_append {side : Option ℕ} {stack rest : List ℕ} :
    dwa.MaskFrom p side (stack ++ rest) ↔
      dwa.MaskFrom p side stack ∨ dwa.MaskFrom p (stack.foldl (dwa.stepAt p) side) rest := by
  induction stack generalizing side with
  | nil => exact (or_iff_right_of_imp fun h => maskFrom_of_acceptsHere h rest).symm
  | cons parser stack ih =>
      rw [List.cons_append, MaskFrom, ih, MaskFrom, or_assoc, List.foldl_cons]

omit [Runtime] in
/-- No stack is accepted behind an edge that rejects. -/
theorem not_maskFrom_of_rejecting {e : ℕ × Weight} (h : dwa.Rejecting e) (stack : List ℕ) :
    ¬ dwa.MaskFrom p (follow p e) stack := by
  unfold follow
  split_ifs with hp
  · obtain ⟨final_weight, hleaf, hnot⟩ := h p hp
    obtain ⟨hedge, hfinal, -⟩ := leafOf_eq_some hleaf
    have hhere : ¬ dwa.AcceptsHere p (some e.1) := by
      rw [acceptsHere_some, hfinal]
      simp [hnot]
    cases stack with
    | nil => exact hhere
    | cons parser stack =>
        have hstep : dwa.stepAt p (some e.1) parser = none := by
          rw [stepAt_some, parserEdge, hedge, hedge]
          rfl
        intro hmask
        rcases hmask with hmask | hmask
        · exact hhere hmask
        · rw [hstep] at hmask
          exact not_maskFrom_none stack hmask
  · exact not_maskFrom_none stack

/-- Where a run of the automaton is accepted it uses no deleted edge. -/
theorem maskFrom_withoutEdges {side : Option ℕ} {stack : List ℕ} (h : dwa.MaskFrom p side stack) :
    (dwa.withoutEdges (deleted dwa)).MaskFrom p side stack := by
  induction stack generalizing side with
  | nil => exact acceptsHere_withoutEdges.mpr h
  | cons parser stack ih =>
      rcases h with h | h
      · exact Or.inl (acceptsHere_withoutEdges.mpr h)
      · right
        cases side with
        | none => exact ih h
        | some state =>
            rw [stepAt_some] at h ⊢
            cases he : dwa.parserEdge state parser with
            | none =>
                rw [he] at h
                exact absurd h (not_maskFrom_none stack)
            | some e =>
                rw [he, Option.bind_some] at h
                have hkept : deleted dwa e = false := by
                  rw [Bool.eq_false_iff, ne_eq, deleted_iff]
                  intro hrejecting
                  exact not_maskFrom_of_rejecting hrejecting stack h
                rw [parserEdge_withoutEdges he hkept]
                exact ih h

omit [Runtime] in
theorem foldl_stepAt_none (stack : List ℕ) : stack.foldl (dwa.stepAt p) none = none := by
  induction stack with
  | nil => rfl
  | cons parser stack ih => exact ih

omit [Runtime] in
/-- A run ends in the state behind an edge that rejects. -/
theorem foldl_stepAt_rejecting {e : ℕ × Weight} (h : dwa.Rejecting e) {stack : List ℕ} {state : ℕ}
    (hrun : stack.foldl (dwa.stepAt p) (follow p e) = some state) (label : Label) :
    dwa.edge state label = none := by
  unfold follow at hrun
  split_ifs at hrun with hp
  · obtain ⟨final_weight, hleaf, -⟩ := h p hp
    have hedge := (leafOf_eq_some hleaf).1
    cases stack with
    | nil =>
        obtain rfl := Option.some.inj hrun
        exact hedge label
    | cons parser stack =>
        have hstep : dwa.stepAt p (some e.1) parser = none := by
          rw [stepAt_some, parserEdge, hedge, hedge]
          rfl
        rw [List.foldl_cons, hstep, foldl_stepAt_none] at hrun
        cases hrun
  · rw [foldl_stepAt_none] at hrun
    cases hrun

/-- A run to a state with an edge uses no deleted edge. -/
theorem foldl_stepAt_withoutEdges {stack : List ℕ} {side : Option ℕ} {state : ℕ} {label : Label}
    {e : ℕ × Weight} (hrun : stack.foldl (dwa.stepAt p) side = some state)
    (he : dwa.edge state label = some e) :
    stack.foldl ((dwa.withoutEdges (deleted dwa)).stepAt p) side = some state := by
  induction stack generalizing side with
  | nil => exact hrun
  | cons parser stack ih =>
      rw [List.foldl_cons] at hrun ⊢
      cases side with
      | none => exact ih hrun
      | some s =>
          rw [stepAt_some] at hrun ⊢
          cases hs : dwa.parserEdge s parser with
          | none =>
              rw [hs, Option.bind_none, foldl_stepAt_none] at hrun
              cases hrun
          | some taken =>
              rw [hs, Option.bind_some] at hrun
              have hkept : deleted dwa taken = false := by
                rw [Bool.eq_false_iff, ne_eq, deleted_iff]
                intro hrejecting
                rw [foldl_stepAt_rejecting hrejecting hrun] at he
                cases he
              rw [parserEdge_withoutEdges hs hkept]
              exact ih hrun

/-- Behind no reached default edge that a rejecting edge hides is a point accepted which
was not accepted on the way. -/
def NothingUncovered (dwa : DWA) : Prop :=
  ∀ p stack state parser hidden target weight rest,
    stack.foldl (dwa.stepAt p) (some dwa.start_state) = some state → p ∉ dwa.Mask stack →
    dwa.edge state (parser : ℕ) = some hidden → dwa.Rejecting hidden →
    dwa.edge state DEFAULT_LABEL = some (target, weight) → p ∈ weight →
      ¬ dwa.MaskFrom p (some target) rest

/-- No edge enters a leaf with a final weight. -/
def EntersNoLeaf (dwa : DWA) : Prop :=
  ∀ state label e, dwa.edge state label = some e → leafOf dwa.leafFinals e = none

omit [Runtime] in
theorem parserEdge_default {state : ℕ} :
    dwa.parserEdge state DEFAULT_LABEL.toNat = dwa.edge state DEFAULT_LABEL := by
  have hlabel : ((DEFAULT_LABEL.toNat : ℕ) : Label) = DEFAULT_LABEL := by decide
  rw [parserEdge, hlabel, Option.or_self]

omit [Runtime] in
/-- One more step of a run that was not accepted on the way. -/
theorem run_snoc {stack : List ℕ} {state parser : ℕ} {e : ℕ × Weight}
    (hrun : stack.foldl (dwa.stepAt p) (some dwa.start_state) = some state)
    (hmask : p ∉ dwa.Mask stack) (he : dwa.parserEdge state parser = some e) (hp : p ∈ e.2)
    (hhere : ¬ dwa.AcceptsHere p (some e.1)) :
    (stack ++ [parser]).foldl (dwa.stepAt p) (some dwa.start_state) = some e.1 ∧
      p ∉ dwa.Mask (stack ++ [parser]) := by
  have hstep : dwa.stepAt p (some state) parser = some e.1 := by
    rw [stepAt_some, he, Option.bind_some, follow, if_pos hp]
  constructor
  · rw [List.foldl_append, hrun]
    exact hstep
  · rw [mem_mask] at hmask ⊢
    have hend : ¬ dwa.AcceptsHere p (some state) := by
      intro haccepts
      apply hmask
      rw [← List.append_nil stack, maskFrom_append, hrun]
      exact Or.inr haccepts
    rw [maskFrom_append, hrun]
    intro h
    rcases h with h | h | h
    · exact hmask h
    · exact hend h
    · rw [hstep] at h
      exact hhere h

/-- What is accepted after the deletion was accepted before, unless something is uncovered. -/
theorem maskFrom_of_nothingUncovered (h : dwa.NothingUncovered) {stack rest : List ℕ} {state : ℕ}
    (hrun : stack.foldl (dwa.stepAt p) (some dwa.start_state) = some state)
    (hmask : p ∉ dwa.Mask stack)
    (hrest : (dwa.withoutEdges (deleted dwa)).MaskFrom p (some state) rest) :
    dwa.MaskFrom p (some state) rest := by
  induction rest generalizing stack state with
  | nil => exact acceptsHere_withoutEdges.mp hrest
  | cons parser rest ih =>
      rcases hrest with hrest | hrest
      · exact Or.inl (acceptsHere_withoutEdges.mp hrest)
      · rw [stepAt_some] at hrest
        cases he : (dwa.withoutEdges (deleted dwa)).parserEdge state parser with
        | none =>
            rw [he] at hrest
            exact absurd hrest (not_maskFrom_none rest)
        | some e =>
            rw [he, Option.bind_some] at hrest
            have hp : p ∈ e.2 := by
              by_contra hp
              rw [follow, if_neg hp] at hrest
              exact not_maskFrom_none rest hrest
            rw [follow, if_pos hp] at hrest
            rcases parserEdge_withoutEdges_cases he with hsame | huncovered
            · right
              rw [stepAt_some, hsame, Option.bind_some, follow, if_pos hp]
              by_cases hhere : dwa.AcceptsHere p (some e.1)
              · exact maskFrom_of_acceptsHere hhere rest
              · obtain ⟨hrun', hmask'⟩ := run_snoc hrun hmask hsame hp hhere
                exact ih hrun' hmask' hrest
            · obtain ⟨hidden, hedge, hdeleted, hdefault⟩ := huncovered
              -- the same state is reached by a label that reads the default edge
              have hnever := fun rest => h p stack state parser hidden e.1 e.2 rest hrun hmask hedge
                (deleted_iff.mp hdeleted) hdefault hp
              obtain ⟨hrun', hmask'⟩ := run_snoc hrun hmask
                (parserEdge_default.trans hdefault) hp (hnever [])
              exact absurd (ih hrun' hmask' hrest) (hnever rest)

/-- Deleting the edges keeps the masks exactly if nothing is uncovered. -/
theorem mask_withoutEdges_iff :
    (∀ stack, (dwa.withoutEdges (deleted dwa)).Mask stack = dwa.Mask stack) ↔
      dwa.NothingUncovered := by
  have hstart : (dwa.withoutEdges (deleted dwa)).start_state = dwa.start_state := rfl
  constructor
  · intro h p stack state parser hidden target weight rest hrun hmask hedge hrejecting hdefault hp
      hrest
    have hparser : dwa.parserEdge state parser = some hidden := by rw [parserEdge, hedge]; rfl
    have hafter : (dwa.withoutEdges (deleted dwa)).parserEdge state parser = some (target, weight) := by
      have hkept : deleted dwa (target, weight) = false := by
        rw [Bool.eq_false_iff, ne_eq, deleted_iff]
        intro hrejecting'
        apply not_maskFrom_of_rejecting hrejecting' rest
        rw [follow, if_pos hp]
        exact hrest
      rw [parserEdge, edge_withoutEdges_eq_some.mpr ⟨hdefault, hkept⟩, edge_withoutEdges, hedge,
        Option.bind_some, if_pos (deleted_iff.mpr hrejecting)]
      rfl
    have hmem : p ∈ (dwa.withoutEdges (deleted dwa)).Mask (stack ++ parser :: rest) := by
      rw [mem_mask, hstart, maskFrom_append, foldl_stepAt_withoutEdges hrun hedge]
      right
      right
      rw [stepAt_some, hafter, Option.bind_some, follow, if_pos hp]
      exact maskFrom_withoutEdges hrest
    rw [h, mem_mask, maskFrom_append, hrun] at hmem
    rw [mem_mask] at hmask
    rcases hmem with hmem | hmem | hmem
    · exact hmask hmem
    · apply hmask
      rw [← List.append_nil stack, maskFrom_append, hrun]
      exact Or.inr hmem
    · rw [stepAt_some, hparser, Option.bind_some] at hmem
      exact not_maskFrom_of_rejecting hrejecting rest hmem
  · intro h stack
    ext p
    rw [mem_mask, mem_mask, hstart]
    constructor
    · intro hmask
      by_cases hnil : p ∈ dwa.Mask []
      · exact maskFrom_of_acceptsHere (mem_mask.mp hnil) stack
      · exact @maskFrom_of_nothingUncovered dwa p _ h [] stack dwa.start_state rfl hnil hmask
    · exact maskFrom_withoutEdges

/-! ## The theorem -/

omit [Runtime] in
theorem changedCount_eq_zero_iff :
    (dwa.states.map (changedCount dwa.leafFinals)).sum = 0 ↔ dwa.EntersNoLeaf := by
  rw [List.sum_eq_zero_iff, List.forall_mem_map]
  constructor
  · intro h state label e he
    obtain ⟨row, hrow, hget⟩ := Option.bind_eq_some_iff.mp he
    have hcount := List.countP_eq_zero.mp (h row (List.mem_of_getElem? hrow)) e
      (List.mem_map_of_mem (SortedMap.get_eq_some_iff.mp hget))
    exact Option.not_isSome_iff_eq_none.mp hcount
  · intro h row hrow
    apply List.countP_eq_zero.mpr
    intro e he
    obtain ⟨⟨label, e'⟩, hmem, rfl⟩ := List.mem_map.mp he
    obtain ⟨state, hstate⟩ := List.mem_iff_getElem?.mp hrow
    have hedge : dwa.edge state label = some e' := by
      rw [edge, hstate]
      exact SortedMap.get_eq_some_iff.mpr hmem
    rw [h state label e' hedge]
    exact Bool.false_ne_true

/-- Where no edge enters a leaf the rows are left as they are. -/
theorem pushed_dropLast (h : dwa.EntersNoLeaf) : dwa.pushed.states.dropLast = dwa.states := by
  rw [pushed, List.dropLast_concat]
  apply List.ext_getElem?
  intro state
  rw [List.getElem?_map]
  cases hstate : dwa.states[state]? with
  | none => rfl
  | some row =>
      have htransitions : row.transitions.filterMapValues
          (pushFinal dwa.leafFinals dwa.states.length) = row.transitions := by
        apply SortedMap.ext_get
        intro label
        rw [SortedMap.get_filterMapValues]
        cases hget : row.transitions.get label with
        | none => rfl
        | some e =>
            have hedge : dwa.edge state label = some e := by
              rw [edge, hstate]
              exact hget
            exact pushFinal_of_no_leaf (h state label e hedge)
      rw [Option.map_some, pushFinals, htransitions]

omit [Runtime] in
theorem entersNoLeaf_of_all_none (h : dwa.leafFinals.all Option.isNone = true) :
    dwa.EntersNoLeaf := by
  intro state label e _
  rw [leafOf]
  cases hget : dwa.leafFinals[e.1]? with
  | none => rfl
  | some weight =>
      exact Option.isNone_iff_eq_none.mp (List.all_eq_true.mp h weight (List.mem_of_getElem? hget))

/-- Where an edge enters a leaf with a final weight, collapsing deletes the rejecting edges
and changes nothing else that a mask shows. -/
theorem collapse_final_leaf_targets_mask (dwa : DWA)
    (hstart : dwa.states = [] ∨ dwa.start_state < dwa.states.length)
    (hrange : ∀ state label target weight, dwa.edge state label = some (target, weight) →
      target < dwa.states.length) (henters : ¬ dwa.EntersNoLeaf) :
    ∃ result, collapse_final_leaf_targets dwa = some result ∧
      ∀ stack, result.Mask stack = (dwa.withoutEdges (deleted dwa)).Mask stack := by
  have hnonempty : ¬ dwa.states.isEmpty = true := by
    intro hempty
    apply henters
    intro state label e he
    rw [edge, List.isEmpty_iff.mp hempty] at he
    cases he
  have hlt := hstart.resolve_left fun h => hnonempty (List.isEmpty_iff.mpr h)
  have hall : ¬ dwa.leafFinals.all Option.isNone = true := by
    intro h
    exact henters (entersNoLeaf_of_all_none h)
  have hstart' : dwa.pushed.start_state < dwa.pushed.states.length := by
    rw [length_pushed]
    exact Nat.lt_succ_of_lt hlt
  obtain ⟨result, hresult, hmask⟩ := trim_unreachable_dwa_spec hstart' (pushed_inRange hrange)
  refine ⟨result, ?_, ?_⟩
  · unfold collapse_final_leaf_targets
    rw [if_neg hnonempty, if_neg hall]
    dsimp only
    rw [if_neg fun h => henters (changedCount_eq_zero_iff.mp h)]
    exact hresult
  · intro stack
    ext p
    rw [mem_mask, mem_mask, hmask]
    symm
    apply (pushed_simulates hrange p).maskFrom_iff
    left
    refine ⟨rfl, ?_⟩
    intro s hs
    obtain rfl := Option.some.inj hs
    exact hlt

/-- The collapsed automaton has the same masks exactly if no edge enters a leaf with a final
weight, or deleting the rejecting edges uncovers nothing. -/
theorem collapse_final_leaf_targets_keeps_mask_iff (dwa : DWA)
    (hstart : dwa.states = [] ∨ dwa.start_state < dwa.states.length)
    (hrange : ∀ state label target weight, dwa.edge state label = some (target, weight) →
      target < dwa.states.length) :
    ∃ result, collapse_final_leaf_targets dwa = some result ∧
      ((∀ stack, result.Mask stack = dwa.Mask stack) ↔
        dwa.EntersNoLeaf ∨ dwa.NothingUncovered) := by
  by_cases hnone : dwa.EntersNoLeaf
  · refine ⟨dwa, ?_, iff_of_true (fun _ => rfl) (Or.inl hnone)⟩
    unfold collapse_final_leaf_targets
    split_ifs with hempty hall hcount
    · rfl
    · rfl
    · exact congrArg (fun states => some (DWA.mk states dwa.start_state)) (pushed_dropLast hnone)
    · exact absurd (changedCount_eq_zero_iff.mpr hnone) hcount
  · obtain ⟨result, hresult, hmask⟩ := collapse_final_leaf_targets_mask dwa hstart hrange hnone
    refine ⟨result, hresult, ?_⟩
    rw [or_iff_right hnone, ← mask_withoutEdges_iff]
    apply forall_congr'
    intro stack
    rw [hmask]

/-! ## A hidden default edge -/

def tokenWeight (token : ℕ) : Weight :=
  Weight.from_uniform 0 0 (RangeSet.ofRanges u32Max [⟨token, token, ()⟩]) (by decide)

/-- The edge for 5 carries what its leaf rejects and hides the default edge. -/
def uncoveredDwa : DWA :=
  ⟨[⟨.ofList [(5, 1, tokenWeight 0), (DEFAULT_LABEL, 2, tokenWeight 0)], none⟩,
    ⟨.empty, some (tokenWeight 1)⟩, ⟨.empty, some (tokenWeight 0)⟩], 0⟩

omit [Runtime] in
theorem mem_tokenWeight {token : ℕ} (h : token ≤ u32Max) {p : Point} :
    p ∈ tokenWeight token ↔ p = some (0, token) := by
  have hmem : ∀ k, k ∈ RangeSet.ofRanges u32Max [⟨token, token, ()⟩] ↔ k = token := by
    intro k
    rw [RangeSet.mem_ofRanges]
    · simp [Run.Covers, le_antisymm_iff, and_comm]
    · intro r hr
      rw [List.mem_singleton.mp hr]
      exact ⟨le_rfl, h⟩
  have hne := RangeSet.ne_empty_iff.mpr ⟨token, (hmem token).mpr rfl⟩
  cases p with
  | none =>
      have hfinite := (@Weight.map_from_uniform 0 0 _ (by decide) hne).2
      exact iff_of_false (Weight.none_not_mem_of_finite _ rfl hfinite) (by simp)
  | some point =>
      obtain ⟨k, x⟩ := point
      rw [tokenWeight, Weight.mem_from_uniform _ hne le_rfl, hmem]
      simp

omit [Runtime] in
theorem uncoveredDwa_inRange : ∀ state label target weight,
    uncoveredDwa.edge state label = some (target, weight) → target < uncoveredDwa.states.length := by
  have htargets : ∀ state < 3, ∀ t ∈ uncoveredDwa.targets state, t < 3 := by decide +kernel
  intro state label target weight h
  obtain ⟨hlt, hmem⟩ := edge_mem_targets h
  exact htargets state hlt target hmem

omit [Runtime] in
theorem uncoveredDwa_edge : uncoveredDwa.edge 0 5 = some (1, tokenWeight 0) ∧
    uncoveredDwa.edge 0 DEFAULT_LABEL = some (2, tokenWeight 0) := ⟨rfl, rfl⟩

omit [Runtime] in
theorem uncoveredDwa_leaf : leafOf uncoveredDwa.leafFinals (1, tokenWeight 0) = some (tokenWeight 1) ∧
    leafOf uncoveredDwa.leafFinals (2, tokenWeight 0) = some (tokenWeight 0) := ⟨rfl, rfl⟩

omit [Runtime] in
theorem uncoveredDwa_rejecting : uncoveredDwa.Rejecting (1, tokenWeight 0) := by
  intro p hp
  refine ⟨tokenWeight 1, uncoveredDwa_leaf.1, ?_⟩
  rw [mem_tokenWeight (by decide)] at hp ⊢
  rw [hp]
  simp

omit [Runtime] in
theorem collapse_final_leaf_targets_keeps_mask_iff_uncovered :
    ∃ result, @collapse_final_leaf_targets Runtime.default uncoveredDwa = some result ∧
      ((∀ stack, result.Mask stack = uncoveredDwa.Mask stack) ↔
        uncoveredDwa.EntersNoLeaf ∨ uncoveredDwa.NothingUncovered) :=
  @collapse_final_leaf_targets_keeps_mask_iff Runtime.default uncoveredDwa
    (Or.inr (by decide)) uncoveredDwa_inRange

omit [Runtime] in
theorem collapse_final_leaf_targets_uncovers :
    ∃ result, @collapse_final_leaf_targets Runtime.default uncoveredDwa = some result ∧
      some (0, 0) ∈ result.Mask [5] ∧ some (0, 0) ∉ uncoveredDwa.Mask [5] := by
  have henters : ¬ uncoveredDwa.EntersNoLeaf := by
    intro h
    have hleaf := uncoveredDwa_leaf.1
    rw [h 0 5 _ uncoveredDwa_edge.1] at hleaf
    cases hleaf
  obtain ⟨result, hresult, hmask⟩ := @collapse_final_leaf_targets_mask Runtime.default uncoveredDwa
    (Or.inr (by decide)) uncoveredDwa_inRange henters
  have hhere : some (0, 0) ∈ tokenWeight 0 := (mem_tokenWeight (by decide)).mpr rfl
  have hdeleted : @deleted Runtime.default uncoveredDwa (1, tokenWeight 0) = true :=
    (@deleted_iff _ Runtime.default _).mpr uncoveredDwa_rejecting
  have hkept : @deleted Runtime.default uncoveredDwa (2, tokenWeight 0) = false := by
    rw [Bool.eq_false_iff, ne_eq, @deleted_iff _ Runtime.default]
    intro hrejecting
    obtain ⟨final_weight, hleaf, hnot⟩ := hrejecting _ hhere
    obtain rfl := Option.some.inj (uncoveredDwa_leaf.2.symm.trans hleaf)
    exact hnot hhere
  refine ⟨result, hresult, ?_, ?_⟩
  · have hparser : (uncoveredDwa.withoutEdges (@deleted Runtime.default uncoveredDwa)).parserEdge 0 5 =
        some (2, tokenWeight 0) := by
      rw [parserEdge, edge_withoutEdges_eq_some.mpr ⟨uncoveredDwa_edge.2, hkept⟩]
      rw [Nat.cast_ofNat, edge_withoutEdges, uncoveredDwa_edge.1, Option.bind_some, if_pos hdeleted]
      rfl
    rw [hmask, mem_mask]
    right
    change DWA.AcceptsHere _ _ (DWA.stepAt _ _ (some 0) 5)
    rw [stepAt_some, hparser, Option.bind_some, follow, if_pos hhere, acceptsHere_withoutEdges,
      acceptsHere_some]
    exact ⟨tokenWeight 0, rfl, hhere⟩
  · rw [mem_mask]
    intro h
    rcases h with h | h
    · exact absurd (acceptsHere_some.mp h) (by simp [DWA.final, uncoveredDwa])
    · apply not_maskFrom_of_rejecting uncoveredDwa_rejecting []
      have hparser : uncoveredDwa.parserEdge 0 5 = some (1, tokenWeight 0) := by
        rw [parserEdge, Nat.cast_ofNat, uncoveredDwa_edge.1]
        rfl
      change uncoveredDwa.MaskFrom _ (uncoveredDwa.stepAt _ (some 0) 5) [] at h
      rw [stepAt_some, hparser] at h
      exact h

end DWA

end GlrMask
