import GlrMask.CancellationQuery

/-!
# Cancellation summaries

The rows are computed in reverse topological order: the pushes of a state are
cancelled by queries on later states, and its epsilons and cancellations become
the effective edges that the queries of earlier states explore.
-/

namespace GlrMask

open ResultRows Solver

inductive ResultPolicy
  | vector
  | packed

structure Summary (Rows : Type) [ResultRows Rows] where
  solver : Solver Rows
  derived : List FastBoundaryDerivedRow
  retained_edges : ℕ

namespace Summary

section

variable {Rows : Type} [ResultRows Rows]

def cancel_branch (states : SignedGraph) (label : Label) (fuel : ℕ)
    (acc : FastBoundaryDerivedRow × Solver Rows) (branch : ℕ × ℕ) :
    Option (Option (FastBoundaryDerivedRow × Solver Rows)) :=
  if states.states.length ≤ branch.1 then some none
  else if branch.2 = 0 then some (some acc)
  else
    attempt (query fuel states acc.2 branch.1 (negative_to_positive_label label)) fun answer =>
      attempt (some (answer.2.account states (row_len answer.2.results answer.1))) fun solver =>
        let merged := add_suffixes branch.2 (pairs solver.results answer.1) (acc.1, solver.interner)
        some (some (merged.1, { solver with interner := merged.2 }))

def cancel_label (states : SignedGraph) (fuel : ℕ) (acc : FastBoundaryDerivedRow × Solver Rows)
    (row : Label × List (ℕ × ℕ)) : Option (Option (FastBoundaryDerivedRow × Solver Rows)) :=
  if is_negative_label row.1 then attemptFold (cancel_branch states row.1 fuel) row.2 acc
  else some (some acc)

/-- The synopsis of the labels of a row, which covers everything after a label that can read more
than one symbol. -/
def label_synopsis (states : SignedGraph) : List Label → BitVec 128 → BitVec 128
  | [], may => may
  | label :: labels, may =>
      if label = DEFAULT_LABEL ∨ label ∈ states.class_read_labels then BitVec.allOnes 128
      else label_synopsis states labels
        (if is_negative_label label then may else may ||| read_signature label)

def synopsis (states : SignedGraph) (solver : Solver Rows) (source : FastBoundaryNwaState)
    (row : List (ℕ × ℕ)) : BitVec 128 :=
  row.foldl (fun may e => may ||| (solver.may_read[e.1]?).getD 0)
    (label_synopsis states (source.transitions.map Prod.fst) 0)

def record_reads (states : SignedGraph) (solver : Solver Rows) (q : ℕ) (row : List (ℕ × ℕ)) :
    Option (Solver Rows) :=
  let source := states.row q
  if solver.filter then do
    let solver ← solver.account states (source.transitions.length + row.length + 1)
    some { solver with may_read := solver.may_read.set q (synopsis states solver source row) }
  else some solver

/-- The effective edges of a state: its epsilons and its cancellations. -/
def effective_row [Runtime] (states : SignedGraph) (solver : Solver Rows) (q : ℕ)
    (derived : FastBoundaryDerivedRow) : Option (FastBoundaryDerivedRow × Solver Rows) := do
  let epsilon ← (states.row q).epsilons.foldlM (merge_branch states) (.empty, solver)
  let merged := (Runtime.reorder derived.into_entries).foldl
    (fun acc e => acc.1.merge e.1 e.2 acc.2) (epsilon.1, epsilon.2.interner)
  some (merged.1, { epsilon.2 with interner := merged.2 })

def finish_state [Runtime] (states : SignedGraph) (summary : Summary Rows) (q : ℕ)
    (cancelled : FastBoundaryDerivedRow × Solver Rows) : Option (Summary Rows) := do
  let epsilon ← effective_row states cancelled.2 q cancelled.1
  let row := epsilon.1.into_entries
  let retained_edges ← checked_add summary.retained_edges row.length
  if MAX_RESULT_PAIRS < retained_edges then none
  else do
    let solver ← record_reads states epsilon.2 q row
    some ⟨{ solver with effective := solver.effective.set q row },
      summary.derived.set q cancelled.1, retained_edges⟩

def process_state [Runtime] (states : SignedGraph) (fuel : ℕ) (summary : Summary Rows) (q : ℕ) :
    Option (Option (Summary Rows)) :=
  attempt (attemptFold (cancel_label states fuel) (states.row q).transitions
      ((summary.derived[q]?).getD .empty, summary.solver)) fun cancelled =>
    some (finish_state states summary q cancelled)

end

/-- Every row lists its labels in strictly increasing order. -/
def rows_sorted (states : SignedGraph) : Bool :=
  states.states.all fun row => decide (row.transitions.IsChain fun a b => a.1 < b.1)

def initial (Rows : Type) [ResultRows Rows] (states : SignedGraph)
    (interner : FastBoundaryWeightInterner) (filter : Bool) : Summary Rows :=
  let n := states.states.length
  ⟨⟨interner, List.replicate n [], [], new, [], 0, default,
      if filter then List.replicate n (BitVec.allOnes 128) else [], filter⟩,
    List.replicate n .empty, 0⟩

def compute_with_rows (Rows : Type) [ResultRows Rows] [Runtime] (fuel : ℕ) (states : SignedGraph)
    (interner : FastBoundaryWeightInterner) (topo : List ℕ) (filter : Bool) :
    Option (Option (List FastBoundaryDerivedRow × SummaryStats × FastBoundaryWeightInterner)) :=
  if rows_sorted states = false ∨ topo.length ≠ states.states.length then some none
  else
    attempt (attemptFold (process_state states fuel) topo.reverse
        (initial Rows states interner filter)) fun summary =>
      some ((summary.solver.account states 0).map fun solver =>
        (summary.derived, solver.stats, solver.interner))

end Summary

def compute_on_graph_policy [Runtime] (fuel : ℕ) (states : SignedGraph)
    (interner : FastBoundaryWeightInterner) (topo : List ℕ) (filter : Bool)
    (policy : ResultPolicy) :
    Option (Option (List FastBoundaryDerivedRow × SummaryStats × FastBoundaryWeightInterner)) :=
  match policy with
  | .vector => Summary.compute_with_rows VectorRows fuel states interner topo filter
  | .packed => Summary.compute_with_rows PackedRows fuel states interner topo filter

/-! ## Cancelling the pushes of a state -/

variable {Rows : Type} [ResultRows Rows] {states : SignedGraph}
  {start : FastBoundaryWeightInterner} {rank : ℕ → ℕ} {q processed : ℕ} {label : Label}

theorem not_negative_of_push (hlow : -2 ^ 31 ≤ label) (h : is_negative_label label = true) :
    is_negative_label (negative_to_positive_label label) = false := by
  have hneg : label < 0 := by
    simp only [is_negative_label, Bool.and_eq_true, decide_eq_true_eq] at h
    exact h.1
  have hpos : 0 ≤ negative_to_positive_label label := by
    have hmod : (label + 2 ^ 31) % ((2 ^ 32 : ℕ) : ℤ) = label + 2 ^ 31 :=
      Int.emod_eq_of_lt (by linarith) (by norm_num; linarith)
    rw [negative_to_positive_label, Int.bmod_def, hmod, if_pos (by norm_num; linarith)]
    linarith
  simp [is_negative_label, not_lt.mpr hpos]

variable [LawfulResultRows Rows]

/-- What cancelling some of the pushes of a state has achieved. -/
structure Cancelling (states : SignedGraph) (start : FastBoundaryWeightInterner) (rank : ℕ → ℕ)
    (processed q : ℕ) (origin : Solver Rows) (points : ℕ → Set (ℕ × ℕ))
    (acc : FastBoundaryDerivedRow × Solver Rows) : Prop where
  base : Summarises states start rank processed acc.2
  preserves : Preserves origin acc.2
  stack : acc.2.stack = []
  lists : Lists acc.2.interner (Forward states rank q) acc.1.into_entries points

theorem Cancelling.congr {origin : Solver Rows} {points points' : ℕ → Set (ℕ × ℕ)}
    {acc : FastBoundaryDerivedRow × Solver Rows}
    (h : Cancelling states start rank processed q origin points acc)
    (he : ∀ target, points target = points' target) :
    Cancelling states start rank processed q origin points' acc :=
  ⟨h.base, h.preserves, h.stack, h.lists.congr fun _ => he⟩

/-- The points of one push edge. -/
def branchPoints (states : SignedGraph) (start : FastBoundaryWeightInterner) (label : Label)
    (branch : ℕ × ℕ) (target : ℕ) : Set (ℕ × ℕ) :=
  start.den branch.2 ∩
    popPoints states start branch.1 (negative_to_positive_label label) target

theorem cancel_branch_spec (hg : Graded states start rank) {origin : Solver Rows}
    {points : ℕ → Set (ℕ × ℕ)} {acc : FastBoundaryDerivedRow × Solver Rows} {branch : ℕ × ℕ}
    (hprocessed : rank q = processed) (hedge : states.Edge q label branch.1 branch.2)
    (hlow : -2 ^ 31 ≤ label) (hneg : is_negative_label label = true)
    (h : Cancelling states start rank processed q origin points acc) :
    Attempts (fun fuel => Summary.cancel_branch states label fuel acc branch)
      (Cancelling states start rank processed q origin
        (fun target => points target ∪ branchPoints states start label branch target)) := by
  unfold Summary.cancel_branch
  split_ifs with hrange hzero
  · exact Attempts.of_ensures (Ensures.none _)
  · refine Attempts.of_ensures (Ensures.some (h.congr fun target => ?_))
    rw [branchPoints, hzero, hg.sound.den_zero, Set.empty_inter, Set.union_empty]
  · obtain ⟨hvalid, hforward⟩ := hg.edge hedge
    have hrank := hforward hzero (not_le.mp hrange)
    refine Attempts.bind (query_spec hg (not_negative_of_push hlow hneg) h.base h.stack
      (not_le.mp hrange) (hprocessed ▸ hrank)) ?_
    rintro ⟨id, solver⟩ ⟨hbase, hpreserves, hstack, entries, hstored, hsuffix⟩
    refine Attempts.bind (Attempts.of_ensures (account_spec hbase.sound _)) ?_
    rintro after ⟨hadv, -⟩
    have hbase' := hbase.later hadv
    have hkeeps := hpreserves.keeps.trans hadv.keeps
    have hstored' : LawfulResultRows.Stored after.results id entries := by rwa [hadv.results]
    rw [LawfulResultRows.pairs_eq hstored']
    have hmerged := add_suffixes_spec hadv.sound (h.lists.later hkeeps)
      (means_start hvalid hbase'.keeps)
      ((hsuffix.later hadv.keeps).weaken fun t ht => ⟨ht.1, ht.2.trans hrank⟩)
    have hlast : after.Advances { after with
        interner := (add_suffixes branch.2 entries (acc.1, after.interner)).2 } :=
      ⟨hmerged.sound, hmerged.keeps, rfl, rfl, rfl, rfl, rfl, rfl⟩
    refine Attempts.of_ensures (Ensures.some ⟨hbase'.later hlast, ?_, ?_, hmerged.lists⟩)
    · refine ⟨(h.preserves.keeps.trans hkeeps).trans hmerged.keeps, ?_, ?_, ?_⟩
      · exact hadv.effective.trans (hpreserves.effective.trans h.preserves.effective)
      · exact hadv.may_read.trans (hpreserves.may_read.trans h.preserves.may_read)
      · exact hadv.filter.trans (hpreserves.filter.trans h.preserves.filter)
    · exact hadv.stack.trans hstack

/-- The points of the push edges of some rows. -/
def pushEdgePoints (states : SignedGraph) (start : FastBoundaryWeightInterner)
    (rows : List (Label × List (ℕ × ℕ))) (target : ℕ) : Set (ℕ × ℕ) :=
  {p | ∃ row ∈ rows, is_negative_label row.1 = true ∧ ∃ branch ∈ row.2,
    p ∈ branchPoints states start row.1 branch target}

theorem pushEdgePoints_transitions (q target : ℕ) :
    pushEdgePoints states start (states.row q).transitions target = cancelPoints states start q target := by
  ext p
  constructor
  · rintro ⟨row, hrow, hneg, branch, hbranch, hp, hpop⟩
    exact ⟨row.1, branch.1, branch.2, ⟨row.2, hrow, hbranch⟩, hneg, hp, hpop⟩
  · rintro ⟨label, middle, weight, ⟨branches, hrow, hbranch⟩, hneg, hp, hpop⟩
    exact ⟨(label, branches), hrow, hneg, (middle, weight), hbranch, hp, hpop⟩

theorem cancel_label_spec (hg : Graded states start rank) {origin : Solver Rows}
    {points : ℕ → Set (ℕ × ℕ)} {acc : FastBoundaryDerivedRow × Solver Rows}
    {row : Label × List (ℕ × ℕ)} (hprocessed : rank q = processed)
    (hrow : row ∈ (states.row q).transitions)
    (h : Cancelling states start rank processed q origin points acc) :
    Attempts (fun fuel => Summary.cancel_label states fuel acc row)
      (Cancelling states start rank processed q origin
        (fun target => points target ∪ pushEdgePoints states start [row] target)) := by
  unfold Summary.cancel_label
  split_ifs with hneg
  · have hfold : Attempts (fun fuel => attemptFold (Summary.cancel_branch states row.1 fuel) row.2 acc)
        (Cancelling states start rank processed q origin (fun target => points target ∪
          {p | ∃ branch ∈ row.2, p ∈ branchPoints states start row.1 branch target})) := by
      apply Attempts.fold (P := fun done => Cancelling states start rank processed q origin
        (fun target => points target ∪
          {p | ∃ branch ∈ done, p ∈ branchPoints states start row.1 branch target}))
      · exact h.congr fun target => by simp
      · intro done branch rest after hdone hafter
        have hmem : branch ∈ row.2 := by
          rw [← hdone]
          exact List.mem_append_right _ List.mem_cons_self
        apply (cancel_branch_spec hg hprocessed ⟨row.2, hrow, hmem⟩ (hg.fits q row hrow).1 hneg
          hafter).mono
        intro last hlast
        apply hlast.congr
        intro target
        ext p
        simp only [Set.mem_union, Set.mem_ofPred_eq, List.mem_append, List.mem_singleton]
        constructor
        · rintro ((hp | ⟨b, hb, hp⟩) | hp)
          · exact Or.inl hp
          · exact Or.inr ⟨b, Or.inl hb, hp⟩
          · exact Or.inr ⟨branch, Or.inr rfl, hp⟩
        · rintro (hp | ⟨b, hb | rfl, hp⟩)
          · exact Or.inl (Or.inl hp)
          · exact Or.inl (Or.inr ⟨b, hb, hp⟩)
          · exact Or.inr hp
    apply hfold.mono
    intro after hafter
    apply hafter.congr
    intro target
    congr 1
    ext p
    simp [pushEdgePoints, hneg]
  · refine Attempts.of_ensures (Ensures.some (h.congr fun target => ?_))
    have hempty : pushEdgePoints states start [row] target = ∅ := by
      apply Set.eq_empty_of_forall_notMem
      rintro p ⟨r, hr, hr', -⟩
      rw [List.mem_singleton.mp hr] at hr'
      exact hneg hr'
    rw [hempty, Set.union_empty]

theorem cancel_labels_spec (hg : Graded states start rank) {solver : Solver Rows}
    {row : FastBoundaryDerivedRow} (hprocessed : rank q = processed)
    (h : Summarises states start rank processed solver) (hstack : solver.stack = [])
    (hrow : row = .empty) :
    Attempts (fun fuel => attemptFold (Summary.cancel_label states fuel)
        (states.row q).transitions (row, solver))
      (Cancelling states start rank processed q solver (cancelPoints states start q)) := by
  have hfold : Attempts (fun fuel => attemptFold (Summary.cancel_label states fuel)
      (states.row q).transitions (row, solver))
      (Cancelling states start rank processed q solver
        (pushEdgePoints states start (states.row q).transitions)) := by
    apply Attempts.fold (P := fun done => Cancelling states start rank processed q solver
      (pushEdgePoints states start done))
    · subst hrow
      refine ⟨h, ⟨FastBoundaryWeightInterner.Extends.refl _, rfl, rfl, rfl⟩, hstack, ?_⟩
      exact Lists.nil _ fun target => by simp [pushEdgePoints]
    · intro done r rest after hdone hafter
      have hmem : r ∈ (states.row q).transitions := by
        rw [← hdone]
        exact List.mem_append_right _ List.mem_cons_self
      apply (cancel_label_spec hg hprocessed hmem hafter).mono
      intro last hlast
      apply hlast.congr
      intro target
      ext p
      simp only [pushEdgePoints, Set.mem_union, Set.mem_ofPred_eq, List.mem_append,
        List.mem_singleton, or_and_right, exists_or]
  apply hfold.mono
  intro acc hacc
  exact hacc.congr (pushEdgePoints_transitions q)

/-! ## The synopsis of possible reads -/

section Synopsis

theorem covers_iff {may wanted : BitVec 128} : may &&& wanted = wanted ↔
    ∀ i, wanted.getLsbD i = true → may.getLsbD i = true := by
  constructor
  · intro h i hi
    rw [← h, BitVec.getLsbD_and, Bool.and_eq_true] at hi
    exact hi.1
  · intro h
    apply BitVec.eq_of_getLsbD_eq
    intro i _
    rw [BitVec.getLsbD_and]
    cases hi : wanted.getLsbD i with
    | false => rw [Bool.and_false]
    | true => rw [h i hi, Bool.and_self]

theorem covers_or {may more wanted : BitVec 128}
    (h : may &&& wanted = wanted ∨ more &&& wanted = wanted) :
    (may ||| more) &&& wanted = wanted := by
  rw [covers_iff, covers_iff] at h
  apply covers_iff.mpr
  intro i hi
  rw [BitVec.getLsbD_or, Bool.or_eq_true]
  exact h.imp (fun h => h i hi) (fun h => h i hi)

theorem label_synopsis_covers (states : SignedGraph) {labels : List Label}
    {may wanted : BitVec 128} (h : may &&& wanted = wanted ∨ ∃ label ∈ labels,
      label = DEFAULT_LABEL ∨ label ∈ states.class_read_labels ∨
        is_negative_label label = false ∧ read_signature label = wanted) :
    Summary.label_synopsis states labels may &&& wanted = wanted := by
  induction labels generalizing may with
  | nil => exact h.resolve_right (by simp)
  | cons label labels ih =>
      unfold Summary.label_synopsis
      split_ifs with hall hneg
      · exact BitVec.allOnes_and
      · apply ih
        rcases h with h | ⟨other, hmem, hother⟩
        · exact Or.inl h
        · rcases List.mem_cons.mp hmem with rfl | hmem
          · rw [← or_assoc] at hother
            rw [hneg] at hother
            exact absurd (hother.resolve_right (by simp)) hall
          · exact Or.inr ⟨other, hmem, hother⟩
      · apply ih
        rcases h with h | ⟨other, hmem, hother⟩
        · exact Or.inl (covers_or (Or.inl h))
        · rcases List.mem_cons.mp hmem with rfl | hmem
          · rw [← or_assoc] at hother
            obtain ⟨-, rfl⟩ := hother.resolve_left hall
            exact Or.inl (covers_or (Or.inr (BitVec.and_self)))
          · exact Or.inr ⟨other, hmem, hother⟩

theorem fold_covers {f : ℕ × ℕ → BitVec 128} {row : List (ℕ × ℕ)} {may wanted : BitVec 128}
    (h : may &&& wanted = wanted ∨ ∃ e ∈ row, f e &&& wanted = wanted) :
    row.foldl (fun may e => may ||| f e) may &&& wanted = wanted := by
  induction row generalizing may with
  | nil => exact h.resolve_right (by simp)
  | cons e row ih =>
      apply ih
      rcases h with h | ⟨other, hmem, hother⟩
      · exact Or.inl (covers_or (Or.inl h))
      · rcases List.mem_cons.mp hmem with rfl | hmem
        · exact Or.inl (covers_or (Or.inr hother))
        · exact Or.inr ⟨other, hmem, hother⟩

/-- A label that can be read at a state is covered by the state's synopsis. -/
theorem synopsis_covers {solver : Solver Rows}
    (h : Summarises states start rank processed solver) (hprocessed : rank q = processed)
    (hfilter : solver.filter = true) (hf : solver.interner.failed = false) {row : List (ℕ × ℕ)}
    (hrow : Lists solver.interner (Forward states rank q) row (effectivePoints states start q))
    {target : ℕ} (hne : (popPoints states start q label target).Nonempty) :
    Summary.synopsis states solver (states.row q) row &&& read_signature label =
      read_signature label := by
  obtain ⟨p, hp⟩ := hne
  apply fold_covers
  rcases SignedGraph.pops_iff.mp hp with ⟨key, weight, ⟨branches, hmem, -⟩, hreads, -⟩ |
    ⟨middle, heff, hpop⟩
  · refine Or.inl (label_synopsis_covers states (Or.inr ⟨key, ?_, ?_⟩))
    · exact List.mem_map_of_mem hmem
    · rcases hreads with ⟨hneg, rfl | hdefault⟩ | ⟨hclass, -⟩
      · exact Or.inr (Or.inr ⟨hneg, rfl⟩)
      · exact Or.inl hdefault
      · exact Or.inr (Or.inl hclass)
  · obtain ⟨weight, hmem⟩ := hrow.complete hf middle ⟨p, heff⟩
    obtain ⟨hmiddle, hlt⟩ := hrow.allowed _ hmem
    have hrejects := h.rejects middle hmiddle (hprocessed ▸ hlt) hf label target ⟨p, hpop⟩
    rw [Solver.rejects, hfilter, Bool.true_and, bne_eq_false_iff_eq] at hrejects
    exact Or.inr ⟨_, hmem, hrejects⟩

end Synopsis

/-! ## One state -/

theorem effective_row_spec [Runtime] (hg : Graded states start rank) {solver : Solver Rows}
    (h : Summarises states start rank processed solver) {derived : FastBoundaryDerivedRow}
    (hderived : Lists solver.interner (Forward states rank q) derived.into_entries
      (cancelPoints states start q)) :
    Ensures (Summary.effective_row states solver q derived) fun epsilon =>
      solver.Advances epsilon.2 ∧ Lists epsilon.2.interner (Forward states rank q)
        epsilon.1.into_entries (effectivePoints states start q) := by
  have hnil : Lists solver.interner (Forward states rank q)
      FastBoundaryDerivedRow.empty.into_entries (fun _ => ∅) := Lists.nil _ fun _ => rfl
  refine Ensures.bind (merge_branches_spec (.empty, solver) h.sound h.keeps hnil
    (fun e he => (hg.epsilon he).1)
    fun e he hzero hrange => ⟨hrange, (hg.epsilon he).2 hzero hrange⟩) ?_
  rintro epsilon ⟨hadv, hlists⟩
  have hmerged := merge_all_spec hadv.sound hlists (Runtime.reorder_perm _)
    (hderived.later hadv.keeps)
  refine Ensures.some ⟨hadv.trans ⟨hmerged.sound, hmerged.keeps, rfl, rfl, rfl, rfl, rfl, rfl⟩, ?_⟩
  refine hmerged.lists.congr fun _ target => ?_
  rw [Set.empty_union]
  rfl

omit [LawfulResultRows Rows] in
theorem record_reads_spec {solver : Solver Rows} (hsound : solver.interner.Sound)
    (row : List (ℕ × ℕ)) :
    Ensures (Summary.record_reads states solver q row) fun after => ∃ middle,
      solver.Advances middle ∧ (solver.filter = false ∧ after = middle ∨ solver.filter = true ∧
        after = { middle with
          may_read := middle.may_read.set q
            (Summary.synopsis states middle (states.row q) row) }) := by
  unfold Summary.record_reads
  dsimp only
  split_ifs with hfilter
  · refine Ensures.bind (account_spec hsound _) ?_
    rintro middle ⟨hadv, -⟩
    exact Ensures.some ⟨middle, hadv, Or.inr ⟨hfilter, rfl⟩⟩
  · exact Ensures.some ⟨solver, Advances.refl hsound,
      Or.inl ⟨Bool.not_eq_true _ ▸ hfilter, rfl⟩⟩

theorem getD_set {α : Type} (l : List α) (i j : ℕ) (a d : α) (hi : i < l.length) :
    ((l.set i a)[j]?).getD d = if i = j then a else (l[j]?).getD d := by
  rw [List.getElem?_set]
  split_ifs with h
  · rfl
  · rfl

/-- A state whose row and synopsis are recorded is processed. -/
theorem Summarises.record {solver after : Solver Rows}
    (h : Summarises states start rank processed solver) (hprocessed : rank q = processed)
    (hunique : ∀ r, r < states.states.length → rank r = rank q → r = q)
    {row : List (ℕ × ℕ)} (hq : q < solver.effective.length)
    (hlength : solver.filter = true → q < solver.may_read.length)
    (hrow : Lists solver.interner (Forward states rank q) row (effectivePoints states start q))
    (hafter : solver.filter = false ∧ after = solver ∨ solver.filter = true ∧
      after = { solver with
        may_read := solver.may_read.set q
          (Summary.synopsis states solver (states.row q) row) }) :
    Summarises states start rank (processed + 1)
      { after with effective := after.effective.set q row } := by
  have hfields : after.interner = solver.interner ∧ after.effective = solver.effective ∧
      after.known = solver.known ∧ after.results = solver.results := by
    rcases hafter with ⟨-, rfl⟩ | ⟨-, rfl⟩ <;> exact ⟨rfl, rfl, rfl, rfl⟩
  obtain ⟨hinterner, heffective, hknown, hresults⟩ := hfields
  have hcases : ∀ r, r < states.states.length → rank r < processed + 1 →
      r = q ∨ q ≠ r ∧ rank r < processed := by
    intro r hr hlt
    by_cases he : r = q
    · exact Or.inl he
    · refine Or.inr ⟨Ne.symm he, ?_⟩
      have hne : rank r ≠ rank q := fun heq => he (hunique r hr heq)
      omega
  apply Summarises.mk
  · exact hinterner ▸ h.sound
  · exact hinterner ▸ h.keeps
  · intro r hr hlt
    change Lists after.interner _ (((after.effective.set q row)[r]?).getD []) _
    rw [hinterner, heffective, getD_set _ _ _ _ _ hq]
    rcases hcases r hr hlt with rfl | ⟨hne, hlt⟩
    · rw [if_pos rfl]
      exact hrow
    · rw [if_neg hne]
      exact h.effective r hr hlt
  · change LawfulResultRows.Stored after.results _ _
    rw [hresults]
    exact h.empty
  · intro r label id hid
    change after.known.lookup (r, label) = some id at hid
    rw [hknown] at hid
    change ∃ entries, LawfulResultRows.Stored after.results id entries ∧ Lists after.interner _ _ _
    rw [hinterner, hresults]
    exact h.known r label id hid
  · intro r hr hlt hf label target hne
    change after.interner.failed = false at hf
    rw [hinterner] at hf
    rcases hafter with ⟨hfilter, rfl⟩ | ⟨hfilter, rfl⟩
    · simp [Solver.rejects, hfilter]
    · change (solver.filter && ((solver.may_read.set q
        (Summary.synopsis states solver (states.row q) row))[r]?).getD 0 &&&
          read_signature label != read_signature label) = false
      rw [hfilter, Bool.true_and, bne_eq_false_iff_eq, getD_set _ _ _ _ _ (hlength hfilter)]
      rcases hcases r hr hlt with rfl | ⟨hneq, hlt⟩
      · rw [if_pos rfl]
        exact synopsis_covers h hprocessed hfilter hf hrow hne
      · have hold := h.rejects r hr hlt hf label target hne
        rw [Solver.rejects, hfilter, Bool.true_and, bne_eq_false_iff_eq] at hold
        rw [if_neg hneq]
        exact hold

/-! ## The whole order -/

/-- What holds after the last states of the order are done. -/
structure SummaryProgress (states : SignedGraph) (start : FastBoundaryWeightInterner) (rank : ℕ → ℕ)
    (done : List ℕ) (summary : Summary Rows) : Prop where
  base : Summarises states start rank done.length summary.solver
  stack : summary.solver.stack = []
  effective_length : summary.solver.effective.length = states.states.length
  may_read_length : summary.solver.filter = true →
    summary.solver.may_read.length = states.states.length
  derived_length : summary.derived.length = states.states.length
  derived : ∀ q ∈ done, ∃ row, summary.derived[q]? = some row ∧
    Lists summary.solver.interner (Forward states rank q) row.into_entries (cancelPoints states start q)
  fresh : ∀ q, q ∉ done → (summary.derived[q]?).getD .empty = .empty

theorem process_state_spec [Runtime] (hg : Graded states start rank) {done : List ℕ}
    {summary : Summary Rows} (h : SummaryProgress states start rank done summary)
    (hq : q < states.states.length) (hnew : q ∉ done) (hrank : rank q = done.length)
    (hunique : ∀ r, r < states.states.length → rank r = rank q → r = q) :
    Attempts (fun fuel => Summary.process_state states fuel summary q)
      (SummaryProgress states start rank (done ++ [q])) := by
  unfold Summary.process_state
  refine Attempts.bind (cancel_labels_spec hg hrank h.base h.stack (h.fresh q hnew)) ?_
  rintro ⟨cancelled, solver⟩ hcancelled
  apply Attempts.of_ensures
  refine Ensures.bind (effective_row_spec hg hcancelled.base hcancelled.lists) ?_
  rintro ⟨epsilon, middle⟩ ⟨hadv, hrow⟩
  refine Ensures.bind (P := fun _ => True) (fun _ _ => trivial) fun retained _ => ?_
  dsimp only
  split_ifs
  · exact Ensures.none _
  refine Ensures.bind (record_reads_spec hadv.sound epsilon.into_entries) ?_
  rintro after ⟨last, hlast, hafter⟩
  have hall := hadv.trans hlast
  have heffective : last.effective.length = states.states.length := by
    rw [hall.effective, hcancelled.preserves.effective, h.effective_length]
  have hfilter : last.filter = summary.solver.filter :=
    hall.filter.trans hcancelled.preserves.filter
  have hmay : last.filter = true → last.may_read.length = states.states.length := by
    intro hf
    rw [hall.may_read, hcancelled.preserves.may_read]
    exact h.may_read_length (hfilter ▸ hf)
  have hkeeps := hcancelled.preserves.keeps.trans hall.keeps
  have hafter' : last.filter = false ∧ after = last ∨ last.filter = true ∧
      after = { last with
        may_read := last.may_read.set q
          (Summary.synopsis states last (states.row q) epsilon.into_entries) } := by
    rw [← hlast.filter] at hafter
    exact hafter
  have hbase := (hcancelled.base.later hall).record hrank hunique (heffective ▸ hq)
    (fun hf => (hmay hf).symm ▸ hq) (hrow.later hlast.keeps) hafter'
  obtain ⟨hinterner, hstack, heff, hfilter', hlength⟩ : after.interner = last.interner ∧
      after.stack = last.stack ∧ after.effective = last.effective ∧ after.filter = last.filter ∧
        after.may_read.length = last.may_read.length := by
    rcases hafter' with ⟨-, rfl⟩ | ⟨-, rfl⟩
    · exact ⟨rfl, rfl, rfl, rfl, rfl⟩
    · exact ⟨rfl, rfl, rfl, rfl, List.length_set⟩
  refine Ensures.some ?_
  apply SummaryProgress.mk
  · rw [List.length_append, List.length_singleton]
    exact hbase
  · change after.stack = []
    rw [hstack, hall.stack]
    exact hcancelled.stack
  · change (after.effective.set q _).length = _
    rw [List.length_set, heff, heffective]
  · intro hf
    change after.filter = true at hf
    change after.may_read.length = _
    rw [hlength, hmay (hfilter' ▸ hf)]
  · change (summary.derived.set q cancelled).length = _
    rw [List.length_set, h.derived_length]
  · intro r hr
    change ∃ row, (summary.derived.set q cancelled)[r]? = some row ∧ Lists after.interner _ _ _
    rw [hinterner, List.getElem?_set]
    by_cases he : q = r
    · subst he
      rw [if_pos rfl, if_pos (h.derived_length.symm ▸ hq)]
      exact ⟨cancelled, rfl, hcancelled.lists.later hall.keeps⟩
    · rw [if_neg he]
      rcases List.mem_append.mp hr with hr | hr
      · obtain ⟨row, hget, hlists⟩ := h.derived r hr
        exact ⟨row, hget, hlists.later hkeeps⟩
      · exact absurd (List.mem_singleton.mp hr).symm he
  · intro r hr
    rw [List.mem_append, not_or, List.mem_singleton] at hr
    change ((summary.derived.set q cancelled)[r]?).getD .empty = .empty
    rw [List.getElem?_set, if_neg (Ne.symm hr.2)]
    exact h.fresh r hr.1

omit [LawfulResultRows Rows] in
theorem getD_replicate {α : Type} (n i : ℕ) (a : α) : ((List.replicate n a)[i]?).getD a = a := by
  rw [List.getElem?_replicate]
  split_ifs <;> rfl

theorem initial_progress (hsound : start.Sound) (filter : Bool) :
    SummaryProgress states start rank [] (Summary.initial Rows states start filter) := by
  apply SummaryProgress.mk
  · apply Summarises.mk
    · exact hsound
    · exact FastBoundaryWeightInterner.Extends.refl _
    · intro q _ hlt
      cases hlt
    · exact LawfulResultRows.stored_empty
    · intro q label id hid
      cases hid
    · intro q _ hlt
      cases hlt
  · rfl
  · exact List.length_replicate
  · intro hf
    change filter = true at hf
    change (if filter = true then _ else _ : List (BitVec 128)).length = _
    rw [if_pos hf, List.length_replicate]
  · exact List.length_replicate
  · simp
  · exact fun q _ => getD_replicate _ _ _

/-- A topological order of the nonzero edges. -/
structure TopologicalOrder (states : SignedGraph) (topo : List ℕ) : Prop where
  perm : topo.Perm (List.range states.states.length)
  edge : ∀ {q label target weight}, states.Edge q label target weight → weight ≠ 0 →
    target < states.states.length → topo.idxOf q < topo.idxOf target
  epsilon : ∀ {q target weight}, states.Epsilon q target weight → weight ≠ 0 →
    target < states.states.length → topo.idxOf q < topo.idxOf target

/-- Every weight of the graph is interned. -/
structure WeightsValid (states : SignedGraph) (interner : FastBoundaryWeightInterner) : Prop where
  edge : ∀ {q label target weight}, states.Edge q label target weight → interner.Valid weight
  epsilon : ∀ {q target weight}, states.Epsilon q target weight → interner.Valid weight

def topoRank (states : SignedGraph) (topo : List ℕ) (q : ℕ) : ℕ :=
  states.states.length - 1 - topo.idxOf q

variable {topo : List ℕ}

omit [ResultRows Rows] [LawfulResultRows Rows] in
theorem TopologicalOrder.mem_iff (h : TopologicalOrder states topo) :
    q ∈ topo ↔ q < states.states.length := by
  rw [h.perm.mem_iff, List.mem_range]

omit [ResultRows Rows] [LawfulResultRows Rows] in
theorem TopologicalOrder.length (h : TopologicalOrder states topo) :
    topo.length = states.states.length := by
  rw [h.perm.length_eq, List.length_range]

omit [ResultRows Rows] [LawfulResultRows Rows] in
theorem TopologicalOrder.idxOf_lt (h : TopologicalOrder states topo)
    (hq : q < states.states.length) : topo.idxOf q < states.states.length := by
  rw [← h.length]
  exact List.idxOf_lt_length_iff.mpr (h.mem_iff.mpr hq)

omit [ResultRows Rows] [LawfulResultRows Rows] in
theorem graded_of_topological (hsound : start.Sound) (hvalid : WeightsValid states start)
    (hfits : states.LabelsFit) (hsorted : Summary.rows_sorted states = true)
    (h : TopologicalOrder states topo) : Graded states start (topoRank states topo) := by
  have hrank : ∀ {r t}, topo.idxOf r < topo.idxOf t → t < states.states.length →
      topoRank states topo t < topoRank states topo r := by
    intro r t hlt ht
    have hidx := h.idxOf_lt ht
    unfold topoRank
    omega
  apply Graded.mk hsound
  · intro r
    unfold SignedGraph.row
    cases hrow : states.states[r]? with
    | none => exact List.Pairwise.nil
    | some row =>
        have hchain := List.all_eq_true.mp hsorted row (List.mem_of_getElem? hrow)
        have htrans : IsTrans (Label × List (ℕ × ℕ)) fun a b => a.1 < b.1 :=
          ⟨fun _ _ _ hab hbc => lt_trans hab hbc⟩
        exact List.isChain_iff_pairwise.mp (of_decide_eq_true hchain)
  · intro r label target weight he
    exact ⟨hvalid.edge he, fun hzero ht => hrank (h.edge he hzero ht) ht⟩
  · intro r target weight he
    exact ⟨hvalid.epsilon he, fun hzero ht => hrank (h.epsilon he hzero ht) ht⟩
  · exact hfits

/-- The row of a state has the points of the literal paths that cancel a push, and no entries
for states without any. -/
def ExactRow (states : SignedGraph) (before after : FastBoundaryWeightInterner) (q : ℕ)
    (row : FastBoundaryDerivedRow) : Prop :=
  ∀ target, after.den (row.get target) = {p | ∃ weights, states.Cancellation q target weights ∧
      ∀ weight ∈ weights, p ∈ before.den weight} ∧
    ((∃ weight, (target, weight) ∈ row.into_entries) ↔
      ∃ p weights, states.Cancellation q target weights ∧
        ∀ weight ∈ weights, p ∈ before.den weight)

omit [ResultRows Rows] [LawfulResultRows Rows] in
theorem exactRow_of_lists {after : FastBoundaryWeightInterner} {allowed : ℕ → Prop}
    {row : FastBoundaryDerivedRow} (hsound : after.Sound) (hf : after.failed = false)
    (h : Lists after allowed row.into_entries (cancelPoints states start q)) :
    ExactRow states start after q row := by
  intro target
  have hpoints : cancelPoints states start q target = {p | ∃ weights,
      states.Cancellation q target weights ∧ ∀ weight ∈ weights, p ∈ start.den weight} := by
    ext p
    exact SignedGraph.cancels_iff
  have hentry : ∀ weight, (target, weight) ∈ row.into_entries →
      weight ≠ 0 ∧ after.den weight = cancelPoints states start q target := fun weight hmem =>
    ⟨h.nonzero hf _ hmem, (h.means _ hmem).den hf⟩
  constructor
  · rw [← hpoints, row.get_eq]
    cases hget : row.weight? target with
    | some weight =>
        exact (hentry weight (FastBoundaryDerivedRow.weight?_eq_some_iff.mp hget)).2
    | none =>
        rw [Option.getD_none, hsound.den_zero]
        symm
        apply Set.not_nonempty_iff_eq_empty.mp
        intro hne
        obtain ⟨weight, hmem⟩ := h.complete hf target hne
        rw [FastBoundaryDerivedRow.weight?_eq_some_iff.mpr hmem] at hget
        cases hget
  · constructor
    · rintro ⟨weight, hmem⟩
      obtain ⟨hzero, hden⟩ := hentry weight hmem
      have hne : (cancelPoints states start q target).Nonempty := by
        apply Set.nonempty_iff_ne_empty.mpr
        intro hempty
        exact hzero ((hsound.den_eq_empty_iff (h.means _ hmem).valid).mp (hden.trans hempty))
      obtain ⟨p, hp⟩ := hne
      rw [hpoints] at hp
      exact ⟨p, hp⟩
    · rintro ⟨p, hp⟩
      apply h.complete hf target
      rw [hpoints]
      exact ⟨p, hp⟩

theorem compute_with_rows_spec (Rows : Type) [ResultRows Rows] [LawfulResultRows Rows] [Runtime] (hsound : start.Sound)
    (hvalid : WeightsValid states start) (hfits : states.LabelsFit)
    (h : TopologicalOrder states topo) (filter : Bool) :
    Attempts (fun fuel => Summary.compute_with_rows Rows fuel states start topo filter)
      fun result => result.2.2.failed = false ∧ result.1.length = states.states.length ∧
        ∀ q row, result.1[q]? = some row → ExactRow states start result.2.2 q row := by
  unfold Summary.compute_with_rows
  split_ifs with hbad
  · exact Attempts.of_ensures (Ensures.none _)
  rw [not_or, Bool.not_eq_false] at hbad
  have hg := graded_of_topological hsound hvalid hfits hbad.1 h
  have hnodup : topo.Nodup := h.perm.nodup_iff.mpr List.nodup_range
  refine Attempts.bind (P := SummaryProgress states start (topoRank states topo) topo.reverse)
    (Attempts.fold (P := SummaryProgress states start (topoRank states topo))
      (initial_progress hsound filter) ?_) ?_
  · intro done q rest summary hdone hsummary
    have htopo : topo = rest.reverse ++ q :: done.reverse := by
      rw [← List.reverse_reverse topo, ← hdone]
      simp
    rw [htopo] at hnodup
    have hq : q < states.states.length := h.mem_iff.mp (htopo ▸ by simp)
    have hidx : topo.idxOf q = rest.length := by
      have hnot : q ∉ rest.reverse := fun hmem =>
        List.disjoint_of_nodup_append hnodup hmem List.mem_cons_self
      rw [htopo, List.idxOf_append_of_notMem hnot, List.idxOf_cons_self, List.length_reverse,
        Nat.add_zero]
    have hlength : states.states.length = rest.length + (done.length + 1) := by
      rw [← h.length, htopo]
      simp
    apply process_state_spec hg hsummary hq
    · have hnot := (List.nodup_cons.mp (List.nodup_append.mp hnodup).2.1).1
      simpa using hnot
    · rw [topoRank, hidx, hlength]
      omega
    · intro r hr heq
      unfold topoRank at heq
      have hlt := h.idxOf_lt hr
      have hlt' := h.idxOf_lt hq
      exact (List.idxOf_inj (h.mem_iff.mpr hr)).mp (by omega)
  · intro summary hsummary
    refine Attempts.of_ensures (Ensures.map ?_)
    refine Ensures.mono (account_spec hsummary.base.sound 0) ?_
    rintro after ⟨hadv, hf⟩
    refine ⟨hf, hsummary.derived_length, fun q row hget => ?_⟩
    have hq : q ∈ topo.reverse := by
      rw [List.mem_reverse, h.mem_iff, ← hsummary.derived_length]
      exact (List.getElem?_eq_some_iff.mp hget).1
    obtain ⟨row', hget', hlists⟩ := hsummary.derived q hq
    obtain rfl := Option.some.inj (hget.symm.trans hget')
    exact exactRow_of_lists hadv.sound hf (hlists.later hadv.keeps)

/-- With either storage and with or without the read filter, the summary of an acyclic graph ends,
and unless it gives up every row is exact. -/
theorem compute_on_graph_correct [Runtime] (states : SignedGraph)
    (interner : FastBoundaryWeightInterner) (topo : List ℕ) (filter : Bool) (policy : ResultPolicy)
    (hsound : interner.Sound) (hvalid : WeightsValid states interner) (hfits : states.LabelsFit)
    (htopo : TopologicalOrder states topo) :
    ∃ result, Yields (fun fuel => compute_on_graph_policy fuel states interner topo filter policy)
        result ∧
      ∀ derived stats after, result = some (derived, stats, after) →
        after.failed = false ∧ derived.length = states.states.length ∧
          ∀ q row, derived[q]? = some row → ExactRow states interner after q row := by
  cases policy with
  | vector =>
      obtain ⟨result, hyields, hresult⟩ :=
        compute_with_rows_spec VectorRows hsound hvalid hfits htopo filter
      exact ⟨result, hyields, fun _ _ _ he => hresult _ he⟩
  | packed =>
      obtain ⟨result, hyields, hresult⟩ :=
        compute_with_rows_spec PackedRows hsound hvalid hfits htopo filter
      exact ⟨result, hyields, fun _ _ _ he => hresult _ he⟩

/-- A state that pushes the symbol 5, one that reads it and one without edges. -/
def pushReadGraph : SignedGraph :=
  ⟨[⟨[], [(5 - 2 ^ 31, [(1, 1)])], 0⟩, ⟨[], [(5, [(2, 1)])], 0⟩, ⟨[], [], 1⟩], [], fun _ _ => false⟩

def pairInterner : FastBoundaryWeightInterner :=
  ⟨none, false, 0, [[0#64], [3#64]], [([3#64], 1), ([0#64], 0)], fun _ => [], 1, 2, 3#64⟩

theorem pushReadGraph_edge {q : ℕ} {label : Label} {target weight : ℕ}
    (h : pushReadGraph.Edge q label target weight) :
    (q = 0 ∧ target = 1 ∨ q = 1 ∧ target = 2) ∧ weight = 1 := by
  obtain ⟨branches, hrow, hmem⟩ := h
  match q with
  | 0 =>
      obtain ⟨rfl, rfl⟩ : label = 5 - 2 ^ 31 ∧ branches = [(1, 1)] := by
        simpa [SignedGraph.row, pushReadGraph] using hrow
      simp_all
  | 1 =>
      obtain ⟨rfl, rfl⟩ : label = 5 ∧ branches = [(2, 1)] := by
        simpa [SignedGraph.row, pushReadGraph] using hrow
      simp_all
  | 2 => simp [SignedGraph.row, pushReadGraph] at hrow
  | _ + 3 => simp [SignedGraph.row, pushReadGraph, default] at hrow

theorem pushReadGraph_epsilon {q target weight : ℕ} : ¬pushReadGraph.Epsilon q target weight := by
  intro h
  unfold SignedGraph.Epsilon at h
  match q with
  | 0 | 1 | 2 => simp [SignedGraph.row, pushReadGraph] at h
  | _ + 3 => simp [SignedGraph.row, pushReadGraph, default] at h

theorem compute_on_graph_correct_pushRead :
    ∃ result, Yields (fun fuel => @compute_on_graph_policy Runtime.default fuel pushReadGraph
        pairInterner [0, 1, 2] true .packed) result ∧
      ∀ derived stats after, result = some (derived, stats, after) →
        after.failed = false ∧ derived.length = 3 ∧
          ∀ q row, derived[q]? = some row → ExactRow pushReadGraph pairInterner after q row := by
  apply @compute_on_graph_correct Runtime.default pushReadGraph pairInterner
  · exact (@FastBoundaryWeightInterner.new_sound 1 2 pairInterner rfl).1
  · constructor
    · intro q label target weight h
      rw [(pushReadGraph_edge h).2]
      exact (show 1 < 2 by decide)
    · exact fun h => absurd h pushReadGraph_epsilon
  · intro q row hrow
    match q with
    | 0 | 1 =>
        simp only [SignedGraph.row, pushReadGraph] at hrow
        simp at hrow
        simp [hrow]
    | 2 => simp [SignedGraph.row, pushReadGraph] at hrow
    | _ + 3 => simp [SignedGraph.row, pushReadGraph, default] at hrow
  · constructor
    · exact List.Perm.refl _
    · intro q label target weight h _ _
      rcases (pushReadGraph_edge h).1 with ⟨rfl, rfl⟩ | ⟨rfl, rfl⟩ <;> decide
    · exact fun h => absurd h pushReadGraph_epsilon

example : ((@compute_on_graph_policy Runtime.default 4 pushReadGraph pairInterner [0, 1, 2] true
    .packed).join.map fun result => result.1.map fun row => row.into_entries) =
      some [[(2, 1)], [], []] := by decide +kernel

end GlrMask
