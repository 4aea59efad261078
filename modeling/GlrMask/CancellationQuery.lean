import GlrMask.Cancellation

/-!
# Exact answers

Every answer of the solver is the set of points that some literal path allows.
The states explored by a query have decreasing rank, so a query ends: each step
starts on a new state or uses up an edge or a frame.
-/

namespace GlrMask

open ResultRows Solver

/-- Nonzero edges lead to states of smaller rank. -/
structure Graded (states : SignedGraph) (start : FastBoundaryWeightInterner) (rank : ℕ → ℕ) :
    Prop where
  sound : start.Sound
  sorted : ∀ state, (states.row state).transitions.Pairwise fun a b => a.1 < b.1
  edge : ∀ {state label target weight}, states.Edge state label target weight →
    start.Valid weight ∧ (weight ≠ 0 → target < states.states.length → rank target < rank state)
  epsilon : ∀ {state target weight}, states.Epsilon state target weight →
    start.Valid weight ∧ (weight ≠ 0 → target < states.states.length → rank target < rank state)
  fits : states.LabelsFit

/-- The states that can come after a state. -/
def Forward (states : SignedGraph) (rank : ℕ → ℕ) (state target : ℕ) : Prop :=
  target < states.states.length ∧ rank target < rank state

variable {Rows : Type} [ResultRows Rows] {states : SignedGraph}
  {start : FastBoundaryWeightInterner} {rank : ℕ → ℕ} {solver : Solver Rows} {state : ℕ}
  {label : Label}

theorem means_start {interner : FastBoundaryWeightInterner} {weight : ℕ}
    (hvalid : start.Valid weight) (hkeeps : start.Extends interner) :
    interner.Means weight (start.den weight) :=
  FastBoundaryWeightInterner.Means.later ⟨hvalid, fun _ => rfl⟩ hkeeps

theorem reads_iff_selected {top : Label} (htop : is_negative_label top = false) :
    states.Reads label top ↔ label ∈ states.selected top := by
  have hdefault : is_negative_label DEFAULT_LABEL = false := by decide
  simp only [SignedGraph.Reads, SignedGraph.selected, List.cons_append, List.mem_cons,
    List.mem_append, List.mem_filter]
  constructor
  · rintro (⟨-, rfl | rfl⟩ | hclass)
    · exact Or.inl rfl
    · by_cases h : top = DEFAULT_LABEL
      · exact Or.inl h.symm
      · simp [h]
    · exact Or.inr (Or.inr hclass)
  · rintro (rfl | h | hclass)
    · exact Or.inl ⟨htop, Or.inl rfl⟩
    · split_ifs at h
      · cases h
      · rw [List.mem_singleton] at h
        subst h
        exact Or.inl ⟨hdefault, Or.inr rfl⟩
    · exact Or.inr hclass

/-! ## Frames -/

section

variable {allowed : ℕ → Prop} {points : ℕ → Set (ℕ × ℕ)}
  (acc : FastBoundaryDerivedRow × Solver Rows)

theorem merge_branches_spec {branches : List (ℕ × ℕ)} (hsound : acc.2.interner.Sound)
    (hkeeps : start.Extends acc.2.interner)
    (hlists : Lists acc.2.interner allowed acc.1.into_entries points)
    (hvalid : ∀ e ∈ branches, start.Valid e.2)
    (hallowed : ∀ e ∈ branches, e.2 ≠ 0 → e.1 < states.states.length → allowed e.1) :
    Ensures (branches.foldlM (merge_branch states) acc) fun after =>
      acc.2.Advances after.2 ∧ Lists after.2.interner allowed after.1.into_entries
        (fun target => points target ∪ {p | ∃ w, (target, w) ∈ branches ∧ p ∈ start.den w}) := by
  refine Ensures.foldlM (P := fun done (after : FastBoundaryDerivedRow × Solver Rows) =>
    acc.2.Advances after.2 ∧ Lists after.2.interner allowed after.1.into_entries
      (fun target => points target ∪ {p | ∃ w, (target, w) ∈ done ∧ p ∈ start.den w})) [] ?_ ?_
  · exact ⟨Advances.refl hsound, hlists.congr fun _ target => by simp⟩
  · rintro done e after hmem ⟨hadv, hafter⟩
    unfold merge_branch
    split_ifs with hrange
    · exact Ensures.none _
    · have hmeans := means_start (hvalid e hmem) (hkeeps.trans hadv.keeps)
      have hmerge := merge_spec hadv.sound hafter hmeans
        fun hzero => hallowed e hmem hzero (not_le.mp hrange)
      refine Ensures.some ⟨hadv.trans ⟨hmerge.sound, hmerge.keeps, rfl, rfl, rfl, rfl, rfl, rfl⟩,
        hmerge.lists.congr fun _ target => ?_⟩
      ext p
      simp only [Set.mem_union, Set.mem_ofPred_eq, List.mem_append, List.mem_singleton]
      constructor
      · rintro ((hp | ⟨w, hw, hp⟩) | ⟨rfl, hp⟩)
        · exact Or.inl hp
        · exact Or.inr ⟨w, Or.inl hw, hp⟩
        · exact Or.inr ⟨e.2, Or.inr rfl, hp⟩
      · rintro (hp | ⟨w, hw | rfl, hp⟩)
        · exact Or.inl (Or.inl hp)
        · exact Or.inl (Or.inr ⟨w, hw, hp⟩)
        · exact Or.inr ⟨rfl, hp⟩

theorem merge_label_spec (hg : Graded states start rank) (key : Label)
    (hsound : acc.2.interner.Sound) (hkeeps : start.Extends acc.2.interner)
    (hlists : Lists acc.2.interner (Forward states rank state) acc.1.into_entries points) :
    Ensures (merge_label states (states.row state) acc key) fun after =>
      acc.2.Advances after.2 ∧
        Lists after.2.interner (Forward states rank state) after.1.into_entries
          (fun target => points target ∪
            {p | ∃ w, states.Edge state key target w ∧ p ∈ start.den w}) := by
  unfold merge_label
  cases hfind : (states.row state).find_label key with
  | none =>
      refine Ensures.some ⟨Advances.refl hsound, hlists.congr fun _ target => ?_⟩
      have hempty : {p | ∃ w, states.Edge state key target w ∧ p ∈ start.den w} = ∅ := by
        apply Set.eq_empty_of_forall_notMem
        rintro p ⟨w, ⟨branches, hrow, -⟩, -⟩
        rw [FastBoundaryNwaState.find_label,
          SortedMap.lookupEntry_of_mem (hg.sorted state) hrow] at hfind
        cases hfind
      rw [hempty, Set.union_empty]
  | some branches =>
      have hedge : ∀ target w, (target, w) ∈ branches ↔ states.Edge state key target w := by
        intro target w
        constructor
        · intro hmem
          exact ⟨branches, SortedMap.lookupEntry_eq_some hfind, hmem⟩
        · rintro ⟨other, hrow, hmem⟩
          rw [FastBoundaryNwaState.find_label,
            SortedMap.lookupEntry_of_mem (hg.sorted state) hrow] at hfind
          rwa [← Option.some.inj hfind]
      refine Ensures.bind (account_spec hsound branches.length) fun solver hacc => ?_
      refine (merge_branches_spec (acc.1, solver) hacc.1.sound (hkeeps.trans hacc.1.keeps)
        (hlists.later hacc.1.keeps)
        (fun e he => (hg.edge ((hedge e.1 e.2).mp he)).1)
        fun e he hzero hrange => ⟨hrange, (hg.edge ((hedge e.1 e.2).mp he)).2 hzero hrange⟩).mono ?_
      rintro after ⟨hadv, hafter⟩
      exact ⟨hacc.1.trans hadv, by simpa only [hedge] using hafter⟩

end

theorem frame_spec (state : ℕ) (hg : Graded states start rank) (hlabel : is_negative_label label = false)
    (hsound : solver.interner.Sound) (hkeeps : start.Extends solver.interner) :
    Ensures (solver.frame states state label) fun framed =>
      solver.Advances framed.2 ∧ framed.1.state = state ∧ framed.1.edge = 0 ∧
        Lists framed.2.interner (Forward states rank state) framed.1.result.into_entries
          (readPoints states start state label) := by
  refine Ensures.bind (account_spec hsound _) fun s₁ h₁ => ?_
  refine Ensures.bind (account_spec h₁.1.sound _) fun s₂ h₂ => ?_
  have h₁₂ := h₁.1.trans h₂.1
  have hfold : Ensures ((states.selected label).foldlM (merge_label states (states.row state))
      (.empty, s₂)) fun after => s₂.Advances after.2 ∧
        Lists after.2.interner (Forward states rank state) after.1.into_entries
          (fun target => {p | ∃ key ∈ states.selected label, ∃ w,
            states.Edge state key target w ∧ p ∈ start.den w}) := by
    refine Ensures.foldlM (P := fun done (after : FastBoundaryDerivedRow × Solver Rows) =>
      s₂.Advances after.2 ∧ Lists after.2.interner (Forward states rank state) after.1.into_entries
        (fun target => {p | ∃ key ∈ done, ∃ w, states.Edge state key target w ∧
          p ∈ start.den w})) [] ?_ ?_
    · exact ⟨Advances.refl h₂.1.sound, Lists.nil _ fun target => by simp⟩
    · rintro done key after - ⟨hadv, hlists⟩
      refine (merge_label_spec after hg key hadv.sound ((hkeeps.trans h₁₂.keeps).trans hadv.keeps)
        hlists).mono ?_
      rintro last ⟨hlast, hmore⟩
      refine ⟨hadv.trans hlast, hmore.congr fun _ target => ?_⟩
      ext p
      simp only [Set.mem_union, Set.mem_ofPred_eq, List.mem_append, List.mem_singleton]
      constructor
      · rintro (⟨k, hk, hp⟩ | hp)
        · exact ⟨k, Or.inl hk, hp⟩
        · exact ⟨key, Or.inr rfl, hp⟩
      · rintro ⟨k, hk | rfl, hp⟩
        · exact Or.inl ⟨k, hk, hp⟩
        · exact Or.inr hp
  refine Ensures.bind hfold fun acc hacc => ?_
  refine Ensures.bind (P := fun _ => True) (fun _ _ => trivial) fun inflight _ => ?_
  refine Ensures.bind (P := fun _ => True) (fun _ _ => trivial) fun total _ => ?_
  split_ifs
  · exact Ensures.none _
  · refine Ensures.some ⟨h₁₂.trans (hacc.1.trans ⟨hacc.1.sound,
      FastBoundaryWeightInterner.Extends.refl _, rfl, rfl, rfl, rfl, rfl, rfl⟩), rfl, rfl, ?_⟩
    refine hacc.2.congr fun _ target => ?_
    ext p
    constructor
    · rintro ⟨key, hkey, w, hedge, hp⟩
      exact ⟨key, w, hedge, (reads_iff_selected hlabel).mpr hkey, hp⟩
    · rintro ⟨key, w, hedge, hreads, hp⟩
      exact ⟨key, (reads_iff_selected hlabel).mp hreads, w, hedge, hp⟩

/-! ## Queries -/

theorem lookup_insert {K V : Type} [DecidableEq K] [BEq K] [LawfulBEq K] (l : List (K × V)) (key : K) (value : V)
    (other : K) : ((key, value) :: l.filter fun entry => entry.1 ≠ key).lookup other =
      if other = key then some value else l.lookup other := by
  by_cases h : other = key
  · rw [if_pos h, List.lookup_cons, h, beq_self_eq_true]
  · have hbeq : (other == key) = false := by simpa using h
    rw [if_neg h, List.lookup_cons, hbeq]
    induction l with
    | nil => rfl
    | cons e l ih =>
        by_cases he : e.1 = key
        · have hne : (other == e.1) = false := by simpa [he] using h
          rw [List.filter_cons_of_neg (by simpa using he), List.lookup_cons, hne]
          exact ih
        · rw [List.filter_cons_of_pos (by simpa using he), List.lookup_cons, List.lookup_cons]
          cases other == e.1
          · exact ih
          · rfl

variable {processed : ℕ}

/-- What a query leaves as it is. -/
structure Preserves (before after : Solver Rows) : Prop where
  keeps : before.interner.Extends after.interner
  effective : after.effective = before.effective
  may_read : after.may_read = before.may_read
  filter : after.filter = before.filter

theorem Preserves.trans_advances {a b c : Solver Rows} (hab : Preserves a b)
    (hbc : b.Advances c) : Preserves a c :=
  ⟨hab.keeps.trans hbc.keeps, hbc.effective.trans hab.effective, hbc.may_read.trans hab.may_read,
    hbc.filter.trans hab.filter⟩

/-- A frame has merged the reads of its state and the edges it is past. -/
def FrameMeans (states : SignedGraph) (start : FastBoundaryWeightInterner) (rank : ℕ → ℕ)
    (processed : ℕ) (label : Label) (solver : Solver Rows) (frame : Frame) : Prop :=
  frame.state < states.states.length ∧ rank frame.state < processed ∧
    Lists solver.interner (Forward states rank frame.state) frame.result.into_entries
      (partialPoints states start frame.state label ((solver.row frame.state).take frame.edge))

theorem FrameMeans.later {frame : Frame}
    (h : FrameMeans states start rank processed label solver frame) {after : Solver Rows}
    (hadv : solver.Advances after) : FrameMeans states start rank processed label after frame := by
  obtain ⟨hstate, hrank, hlists⟩ := h
  refine ⟨hstate, hrank, ?_⟩
  rw [hadv.row]
  exact hlists.later hadv.keeps

/-! ### The measure -/

open Classical in
/-- The states without an answer that no frame works on. -/
noncomputable def unexplored (states : SignedGraph) (label : Label) (solver : Solver Rows) :
    Finset ℕ :=
  (Finset.range states.states.length).filter fun q =>
    solver.known.lookup (q, label) = none ∧ ∀ frame ∈ solver.stack, frame.state ≠ q

/-- The edges and frames still to finish. -/
def unfinished (solver : Solver Rows) : ℕ :=
  (solver.stack.map fun frame => (solver.row frame.state).length - frame.edge + 1).sum

def QueryLT (states : SignedGraph) (label : Label) : Solver Rows → Solver Rows → Prop :=
  InvImage (Prod.Lex (· < ·) (· < ·)) fun solver =>
    ((unexplored states label solver).card, unfinished solver)

theorem wellFounded_queryLT (states : SignedGraph) (label : Label) :
    WellFounded (@QueryLT Rows _ states label) :=
  InvImage.wf _ (WellFounded.prod_lex wellFounded_lt wellFounded_lt)

theorem queryLT_of_subset {after : Solver Rows}
    (hsub : unexplored states label after ⊆ unexplored states label solver)
    (hlt : unfinished after < unfinished solver) : QueryLT states label after solver := by
  rcases (Finset.card_le_card hsub).lt_or_eq with hcard | hcard
  · exact Prod.Lex.left _ _ hcard
  · change Prod.Lex _ _ (_, _) (_, _)
    rw [hcard]
    exact Prod.Lex.right _ hlt

theorem QueryLT.of_advances {before after next : Solver Rows} (hadv : before.Advances after)
    (h : QueryLT states label next after) : QueryLT states label next before := by
  have hcard : unexplored states label after = unexplored states label before := by
    unfold unexplored
    rw [hadv.known, hadv.stack]
  have hsum : unfinished after = unfinished before := by
    unfold unfinished
    simp only [hadv.stack, hadv.row]
  change Prod.Lex _ _ (_, _) (_, _) at h
  rwa [hcard, hsum] at h

/-! ### The invariant -/

variable [LawfulResultRows Rows]

open LawfulResultRows

/-- The answers and the effective edges of the first states are exact. -/
structure Summarises (states : SignedGraph) (start : FastBoundaryWeightInterner) (rank : ℕ → ℕ)
    (processed : ℕ) (solver : Solver Rows) : Prop where
  sound : solver.interner.Sound
  keeps : start.Extends solver.interner
  effective : ∀ q, q < states.states.length → rank q < processed →
    Lists solver.interner (Forward states rank q) (solver.row q) (effectivePoints states start q)
  empty : Stored solver.results EMPTY []
  known : ∀ q label id, solver.known.lookup (q, label) = some id →
    ∃ entries, Stored solver.results id entries ∧
      Lists solver.interner (Forward states rank q) entries (popPoints states start q label)
  rejects : ∀ q, q < states.states.length → rank q < processed →
    solver.interner.failed = false → ∀ label target,
      (popPoints states start q label target).Nonempty → solver.rejects q label = false

theorem Summarises.later (h : Summarises states start rank processed solver)
    {after : Solver Rows} (hadv : solver.Advances after) :
    Summarises states start rank processed after := by
  apply Summarises.mk hadv.sound (h.keeps.trans hadv.keeps)
  · intro q hq hrank
    rw [hadv.row]
    exact (h.effective q hq hrank).later hadv.keeps
  · rw [hadv.results]
    exact h.empty
  · intro q label id hid
    rw [hadv.known] at hid
    obtain ⟨entries, hstored, hlists⟩ := h.known q label id hid
    rw [hadv.results]
    exact ⟨entries, hstored, hlists.later hadv.keeps⟩
  · intro q hq hrank hf label target hne
    rw [hadv.rejects]
    exact h.rejects q hq hrank (hadv.keeps.failed hf) label target hne

/-- The stack and the counters do not matter. -/
theorem Summarises.with_stack (h : Summarises states start rank processed solver)
    (stack : List Frame) (inflight_pairs : ℕ) (stats : SummaryStats) :
    Summarises states start rank processed
      { solver with stack := stack, inflight_pairs := inflight_pairs, stats := stats } :=
  ⟨h.sound, h.keeps, h.effective, h.empty, h.known, h.rejects⟩

/-- The solver in the middle of a query. -/
structure Explores (states : SignedGraph) (start : FastBoundaryWeightInterner) (rank : ℕ → ℕ)
    (processed : ℕ) (origin : Solver Rows) (label : Label) (solver : Solver Rows) : Prop where
  base : Summarises states start rank processed solver
  preserves : Preserves origin solver
  frames : ∀ frame ∈ solver.stack, FrameMeans states start rank processed label solver frame
  ordered : solver.stack.Pairwise fun a b => rank a.state < rank b.state
  unknown : ∀ frame ∈ solver.stack, solver.known.lookup (frame.state, label) = none

theorem Explores.later {origin : Solver Rows}
    (h : Explores states start rank processed origin label solver) {after : Solver Rows}
    (hadv : solver.Advances after) : Explores states start rank processed origin label after := by
  apply Explores.mk (h.base.later hadv) (h.preserves.trans_advances hadv)
  · rw [hadv.stack]
    exact fun frame hmem => (h.frames frame hmem).later hadv
  · rw [hadv.stack]
    exact h.ordered
  · rw [hadv.stack, hadv.known]
    exact h.unknown

/-! ### Steps -/

variable {origin : Solver Rows} {top : Frame} {below : List Frame}

/-- The top frame moves past an edge. -/
theorem Explores.next_edge (h : Explores states start rank processed origin label solver)
    (hstack : solver.stack = top :: below)
    (hedge : top.edge < (solver.row top.state).length) (result : FastBoundaryDerivedRow)
    (hlists : Lists solver.interner (Forward states rank top.state) result.into_entries
      (partialPoints states start top.state label ((solver.row top.state).take (top.edge + 1))))
    (inflight_pairs : ℕ) (stats : SummaryStats) :
    Explores states start rank processed origin label { solver with
        stack := { top with edge := top.edge + 1, result := result } :: below
        inflight_pairs := inflight_pairs, stats := stats } ∧
      QueryLT states label { solver with
        stack := { top with edge := top.edge + 1, result := result } :: below
        inflight_pairs := inflight_pairs, stats := stats } solver := by
  have hframes := h.frames
  have hordered := h.ordered
  have hunknown := h.unknown
  rw [hstack] at hframes hordered hunknown
  constructor
  · apply Explores.mk
    · exact h.base.with_stack _ _ _
    · exact ⟨h.preserves.keeps, h.preserves.effective, h.preserves.may_read, h.preserves.filter⟩
    · intro frame hmem
      rcases List.mem_cons.mp hmem with rfl | hmem
      · obtain ⟨hstate, hrank, -⟩ := hframes top List.mem_cons_self
        exact ⟨hstate, hrank, hlists⟩
      · exact hframes frame (List.mem_cons_of_mem _ hmem)
    · obtain ⟨htop, hbelow⟩ := List.pairwise_cons.mp hordered
      exact List.pairwise_cons.mpr ⟨htop, hbelow⟩
    · intro frame hmem
      rcases List.mem_cons.mp hmem with rfl | hmem
      · exact hunknown top List.mem_cons_self
      · exact hunknown frame (List.mem_cons_of_mem _ hmem)
  · apply queryLT_of_subset
    · intro q hq
      unfold unexplored at hq ⊢
      rw [Finset.mem_filter] at hq ⊢
      rw [hstack]
      exact ⟨hq.1, hq.2.1, List.forall_mem_cons.mpr (List.forall_mem_cons.mp hq.2.2)⟩
    · unfold unfinished
      rw [hstack, List.map_cons, List.map_cons, List.sum_cons, List.sum_cons]
      apply Nat.add_lt_add_right
      change (solver.row top.state).length - (top.edge + 1) + 1 <
        (solver.row top.state).length - top.edge + 1
      omega

theorem reuse_spec (h : Explores states start rank processed origin label solver)
    (hstack : solver.stack = top :: below) {target weight : ℕ} {id : Handle Rows}
    (hedge : (solver.row top.state)[top.edge]? = some (target, weight))
    (hid : solver.known.lookup (target, label) = some id) :
    Ensures (solver.reuse states top below weight id) fun after =>
      Explores states start rank processed origin label after ∧
        QueryLT states label after solver := by
  unfold reuse
  refine Ensures.bind (account_spec h.base.sound _) fun s hs => ?_
  have h' := h.later hs.1
  rw [← hs.1.stack] at hstack
  rw [← hs.1.row] at hedge
  rw [← hs.1.known] at hid
  obtain ⟨hstate, hrank, hresult⟩ := h'.frames top (hstack ▸ List.mem_cons_self)
  obtain ⟨entries, hstored, hsuffix⟩ := h'.base.known target label id hid
  have heffective := h'.base.effective top.state hstate hrank
  have hmem := List.mem_of_getElem? hedge
  have hbelow := heffective.allowed _ hmem
  have hmerged := add_suffixes_spec h'.base.sound hresult (heffective.means _ hmem)
    (hsuffix.weaken fun t ht => ⟨ht.1, ht.2.trans hbelow.2⟩)
  rw [pairs_eq hstored]
  refine Ensures.bind (P := fun _ => True) (fun _ _ => trivial) fun inflight _ => ?_
  refine Ensures.bind (P := fun _ => True) (fun _ _ => trivial) fun total _ => ?_
  split_ifs
  · exact Ensures.none _
  have hadv : s.Advances { s with
      interner := (add_suffixes weight entries (top.result, s.interner)).2 } :=
    ⟨hmerged.sound, hmerged.keeps, rfl, rfl, rfl, rfl, rfl, rfl⟩
  have hnext := (h'.later hadv).next_edge hstack (List.getElem?_eq_some_iff.mp hedge).1
    (add_suffixes weight entries (top.result, s.interner)).1 ?_ inflight
    { s.stats with cache_hits := s.stats.cache_hits + 1 }
  · exact Ensures.some ⟨hnext.1, (hnext.2.of_advances hadv).of_advances hs.1⟩
  · refine hmerged.lists.congr fun _ t => ?_
    rw [List.take_add_one, hadv.row, hedge]
    exact (partialPoints_append (target, weight) t).symm

theorem descend_spec (hg : Graded states start rank) (hlabel : is_negative_label label = false)
    (h : Explores states start rank processed origin label solver)
    (hstack : solver.stack = top :: below) {target : ℕ}
    (htarget : Forward states rank top.state target)
    (hnone : solver.known.lookup (target, label) = none) :
    Ensures (solver.descend states target label) fun after =>
      Explores states start rank processed origin label after ∧
        QueryLT states label after solver := by
  unfold descend
  split_ifs
  · exact Ensures.none _
  refine Ensures.bind (frame_spec target hg hlabel h.base.sound h.base.keeps) ?_
  rintro ⟨frame, s⟩ ⟨hadv, rfl, hzero, hreads⟩
  have h' := h.later hadv
  have hstack' : s.stack = top :: below := hadv.stack.trans hstack
  have hrank := (h'.frames top (hstack' ▸ List.mem_cons_self)).2.1
  have hordered := h'.ordered
  rw [hstack'] at hordered
  -- The new state comes after every state on the stack.
  have hlt : ∀ f ∈ s.stack, rank frame.state < rank f.state := by
    rw [hstack']
    intro f hf
    rcases List.mem_cons.mp hf with rfl | hf
    · exact htarget.2
    · exact htarget.2.trans (List.rel_of_pairwise_cons hordered hf)
  have hnone' : s.known.lookup (frame.state, label) = none := by rwa [hadv.known]
  refine Ensures.some ⟨?_, ?_⟩
  · apply Explores.mk
    · exact h'.base.with_stack _ _ _
    · exact ⟨h'.preserves.keeps, h'.preserves.effective, h'.preserves.may_read,
        h'.preserves.filter⟩
    · apply List.forall_mem_cons.mpr ⟨?_, h'.frames⟩
      refine ⟨htarget.1, htarget.2.trans hrank, hreads.congr fun _ t => ?_⟩
      rw [hzero, List.take_zero]
      simp [partialPoints]
    · exact List.pairwise_cons.mpr ⟨hlt, h'.ordered⟩
    · exact List.forall_mem_cons.mpr ⟨hnone', h'.unknown⟩
  · apply QueryLT.of_advances hadv
    apply Prod.Lex.left
    apply Finset.card_lt_card
    apply (Finset.ssubset_iff_of_subset ?_).mpr
    · refine ⟨frame.state, ?_, ?_⟩
      · rw [unexplored, Finset.mem_filter, Finset.mem_range]
        exact ⟨htarget.1, hnone', fun f hf he => (hlt f hf).ne (by rw [he])⟩
      · rw [unexplored, Finset.mem_filter]
        exact fun hmem => hmem.2.2 frame List.mem_cons_self rfl
    · intro q hq
      unfold unexplored at hq ⊢
      rw [Finset.mem_filter] at hq ⊢
      exact ⟨hq.1, hq.2.1, (List.forall_mem_cons.mp hq.2.2).2⟩

theorem finish_spec (h : Explores states start rank processed origin label solver)
    (hstack : solver.stack = top :: below)
    (hedge : (solver.row top.state).length ≤ top.edge) :
    Ensures (solver.finish top below label) fun after =>
      Explores states start rank processed origin label after ∧
        QueryLT states label after solver := by
  unfold finish
  refine Ensures.bind (P := fun _ => True) (fun _ _ => trivial) fun result_pairs _ => ?_
  split_ifs
  · exact Ensures.none _
  refine Ensures.bind (P := fun pushed => push solver.results top.result = some pushed)
    (fun _ hpushed => hpushed) ?_
  rintro ⟨id, results⟩ hpushed
  have hframes := h.frames
  have hordered := h.ordered
  have hunknown := h.unknown
  rw [hstack] at hframes hordered hunknown
  obtain ⟨hstate, hrank, hresult⟩ := hframes top List.mem_cons_self
  have hanswer : Lists solver.interner (Forward states rank top.state) top.result.into_entries
      (popPoints states start top.state label) := by
    refine hresult.congr fun hf t => ?_
    rw [List.take_of_length_le hedge]
    exact partialPoints_eq ((h.base.effective top.state hstate hrank).complete hf) label t
  refine Ensures.some ⟨?_, ?_⟩
  · apply Explores.mk
    · apply Summarises.mk
      · exact h.base.sound
      · exact h.base.keeps
      · exact h.base.effective
      · exact push_keeps hpushed h.base.empty
      · intro q key found hfound
        replace hfound := (lookup_insert solver.known (top.state, label) id (q, key)).symm.trans hfound
        split_ifs at hfound with hkey
        · obtain ⟨rfl, rfl⟩ := Prod.mk.inj hkey
          obtain rfl := Option.some.inj hfound
          exact ⟨_, push_stored hpushed, hanswer⟩
        · obtain ⟨entries, hstored, hlists⟩ := h.base.known q key found hfound
          exact ⟨entries, push_keeps hpushed hstored, hlists⟩
      · exact h.base.rejects
    · exact ⟨h.preserves.keeps, h.preserves.effective, h.preserves.may_read, h.preserves.filter⟩
    · exact fun frame hmem => hframes frame (List.mem_cons_of_mem _ hmem)
    · exact hordered.tail
    · intro frame hmem
      have hne : (frame.state, label) ≠ (top.state, label) := fun he =>
        (List.rel_of_pairwise_cons hordered hmem).ne (by rw [(Prod.mk.inj he).1])
      refine (lookup_insert solver.known (top.state, label) id _).trans ?_
      rw [if_neg hne]
      exact hunknown frame (List.mem_cons_of_mem _ hmem)
  · apply queryLT_of_subset
    · intro q hq
      unfold unexplored at hq ⊢
      rw [Finset.mem_filter] at hq ⊢
      obtain ⟨hrange, hlookup, hne⟩ := hq
      replace hlookup := (lookup_insert solver.known (top.state, label) id _).symm.trans hlookup
      split_ifs at hlookup with hkey
      rw [hstack]
      refine ⟨hrange, hlookup, List.forall_mem_cons.mpr ⟨fun he => hkey (by rw [he]), hne⟩⟩
    · unfold unfinished
      rw [hstack, List.map_cons, List.sum_cons]
      change (below.map fun frame => (solver.row frame.state).length - frame.edge + 1).sum < _
      omega

/-- Every step of a query keeps the invariant and descends. -/
theorem query_step_spec (hg : Graded states start rank) (hlabel : is_negative_label label = false)
    (h : Explores states start rank processed origin label solver)
    (hstack : solver.stack = top :: below) :
    Ensures (solver.query_step states label top below) fun after =>
      Explores states start rank processed origin label after ∧
        QueryLT states label after solver := by
  unfold query_step
  cases hedge : (solver.row top.state)[top.edge]? with
  | none => exact finish_spec h hstack (List.getElem?_eq_none_iff.mp hedge)
  | some e =>
      obtain ⟨target, weight⟩ := e
      refine Ensures.bind (account_filter_spec h.base.sound) fun s hadv => ?_
      have h' := h.later hadv
      have hstack' : s.stack = top :: below := hadv.stack.trans hstack
      rw [← hadv.row] at hedge
      obtain ⟨hstate, hrank, hresult⟩ := h'.frames top (hstack' ▸ List.mem_cons_self)
      have htarget := (h'.base.effective top.state hstate hrank).allowed _
        (List.mem_of_getElem? hedge)
      split_ifs with hreject
      · have hnext := h'.next_edge hstack' (List.getElem?_eq_some_iff.mp hedge).1 top.result ?_
          s.inflight_pairs { s.stats with rejected_edges := s.stats.rejected_edges + 1 }
        · exact Ensures.some ⟨hnext.1, hnext.2.of_advances hadv⟩
        · refine hresult.congr fun hf t => ?_
          have hempty : popPoints states start target label t = ∅ := by
            apply Set.not_nonempty_iff_eq_empty.mp
            intro hne
            rw [h'.base.rejects target htarget.1 (htarget.2.trans hrank) hf label t hne] at hreject
            cases hreject
          rw [List.take_add_one, hedge]
          refine Eq.trans ?_ (partialPoints_append (target, weight) t).symm
          rw [hempty, Set.inter_empty, Set.union_empty]
      · cases hid : s.known.lookup (target, label) with
        | none =>
            refine (descend_spec hg hlabel h' hstack' htarget hid).mono ?_
            exact fun after hafter => ⟨hafter.1, hafter.2.of_advances hadv⟩
        | some id =>
            refine (reuse_spec h' hstack' hedge hid).mono ?_
            exact fun after hafter => ⟨hafter.1, hafter.2.of_advances hadv⟩

/-- A query ends with the exact answer or gives up. -/
theorem query_spec (hg : Graded states start rank) (hlabel : is_negative_label label = false)
    (h : Summarises states start rank processed solver) (hempty : solver.stack = [])
    (hstate : state < states.states.length) (hrank : rank state < processed) :
    Attempts (fun fuel => query fuel states solver state label) fun answer =>
      Summarises states start rank processed answer.2 ∧ Preserves solver answer.2 ∧
        answer.2.stack = [] ∧ ∃ entries, Stored answer.2.results answer.1 entries ∧
          Lists answer.2.interner (Forward states rank state) entries
            (popPoints states start state label) := by
  unfold query
  refine Attempts.bind (Attempts.of_ensures (account_filter_spec h.sound)) fun s hadv => ?_
  have h' := h.later hadv
  have hpreserves : Preserves solver s := ⟨hadv.keeps, hadv.effective, hadv.may_read, hadv.filter⟩
  have hempty' : s.stack = [] := hadv.stack.trans hempty
  split_ifs with hreject
  · refine Attempts.of_ensures (Ensures.some ⟨h'.with_stack _ _ _, ⟨hpreserves.keeps,
      hpreserves.effective, hpreserves.may_read, hpreserves.filter⟩, hempty', [], h'.empty, ?_⟩)
    apply Lists.mk
    · simp
    · simp
    · simp
    · intro hf t hne
      rw [h'.rejects state hstate hrank hf label t hne] at hreject
      cases hreject
  cases hid : s.known.lookup (state, label) with
  | some id =>
      obtain ⟨entries, hstored, hlists⟩ := h'.known state label id hid
      exact Attempts.of_ensures (Ensures.some ⟨h'.with_stack _ _ _, ⟨hpreserves.keeps,
        hpreserves.effective, hpreserves.may_read, hpreserves.filter⟩, hempty', entries, hstored,
        hlists⟩)
  | none =>
      refine Attempts.bind (Attempts.of_ensures
        (frame_spec state hg hlabel h'.sound h'.keeps)) ?_
      rintro ⟨frame, framed⟩ ⟨hframed, rfl, hzero, hreads⟩
      have hloop : Attempts (fun fuel => query_loop states label fuel
          { framed with stack := frame :: framed.stack }) fun after =>
            Explores states start rank processed solver label after ∧ after.stack = [] := by
        refine Attempts.loop (wellFounded_queryLT states label)
          (I := Explores states start rank processed solver label) (fun s hs => ?_) ?_
        · cases hstack : s.stack with
          | nil => exact Ensures.some ⟨hs, rfl⟩
          | cons top below => exact (query_step_spec hg hlabel hs hstack).map
        · rw [hframed.stack, hempty']
          apply Explores.mk
          · exact (h'.later hframed).with_stack _ _ _
          · have hkeep := hpreserves.trans_advances hframed
            exact ⟨hkeep.keeps, hkeep.effective, hkeep.may_read, hkeep.filter⟩
          · intro f hf
            obtain rfl := List.mem_singleton.mp hf
            refine ⟨hstate, hrank, hreads.congr fun _ t => ?_⟩
            rw [hzero, List.take_zero]
            simp [partialPoints]
          · exact List.pairwise_singleton _ _
          · intro f hf
            obtain rfl := List.mem_singleton.mp hf
            change framed.known.lookup (f.state, label) = none
            rwa [hframed.known]
      refine Attempts.bind hloop fun after hafter => ?_
      refine Attempts.of_ensures (Ensures.map ?_)
      intro id hid
      obtain ⟨entries, hstored, hlists⟩ := hafter.1.base.known _ _ id hid
      exact ⟨hafter.1.base, hafter.1.preserves, hafter.2, entries, hstored, hlists⟩

end GlrMask
