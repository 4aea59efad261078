import GlrMask.DerivedRows
import GlrMask.Fuel
import GlrMask.SignedGraph
import GlrMask.TokenSets

/-!
# The cancellation solver

The answer to a query is the relation from a state with one symbol on top to
the states after the symbol's matching read. A query explores the effective
edges depth first with explicit frames and remembers every finished answer.
-/

namespace GlrMask

open ResultRows

def MAX_QUERY_PAIRS : ℕ := 400000

def MAX_RESULT_PAIRS : ℕ := 4000000

def MAX_SUMMARY_WORK : ℕ := 20000000

structure SummaryStats where
  queries : ℕ
  result_pairs : ℕ
  work : ℕ
  cache_hits : ℕ
  max_stack : ℕ
  rejected_queries : ℕ
  rejected_edges : ℕ

instance : Inhabited SummaryStats := ⟨⟨0, 0, 0, 0, 0, 0, 0⟩⟩

structure Frame where
  state : ℕ
  edge : ℕ
  result : FastBoundaryDerivedRow

/-- The top frame is the head of the stack. -/
structure Solver (Rows : Type) [ResultRows Rows] where
  interner : FastBoundaryWeightInterner
  effective : List (List (ℕ × ℕ))
  known : List ((ℕ × Label) × Handle Rows)
  results : Rows
  stack : List Frame
  inflight_pairs : ℕ
  stats : SummaryStats
  may_read : List (BitVec 128)
  filter : Bool

def checked_add (a b : ℕ) : Option ℕ := if a + b ≤ usizeMax then some (a + b) else none

/-- Two bits of a 128-bit synopsis. -/
def read_signature (label : Label) : BitVec 128 :=
  let x := (BitVec.ofInt 32 label).zeroExtend 64 * 0x9e3779b97f4a7c15#64
  (1#128 <<< (x >>> 58).toNat) |||
    (1#128 <<< (64 + (((x ^^^ (x >>> 23)) * 0xd6e8feb86659fd93#64) >>> 58).toNat))

/-- The row of a label. The rows are sorted by label when one is searched. -/
def FastBoundaryNwaState.find_label (row : FastBoundaryNwaState) (label : Label) :
    Option (List (ℕ × ℕ)) := SortedMap.lookupEntry row.transitions label

/-- The labels that read a symbol. -/
def SignedGraph.selected (states : SignedGraph) (label : Label) : List Label :=
  label :: (if label = DEFAULT_LABEL then [] else [DEFAULT_LABEL]) ++
    states.class_read_labels.filter fun key => states.class_read_matches key label

/-- Merge the paths through one edge and a finished suffix. -/
def add_suffixes (weight : ℕ) (pairs : List (ℕ × ℕ))
    (acc : FastBoundaryDerivedRow × FastBoundaryWeightInterner) :
    FastBoundaryDerivedRow × FastBoundaryWeightInterner :=
  pairs.foldl (fun acc pair =>
    let add := acc.2.intersection weight pair.2
    acc.1.merge pair.1 add.1 add.2) acc

namespace Solver

variable {Rows : Type} [ResultRows Rows]

def account (states : SignedGraph) (solver : Solver Rows) (work : ℕ) : Option (Solver Rows) := do
  let total ← checked_add solver.stats.work work
  let allowed := solver.interner.allow_work work states.states.length 0
  if MAX_SUMMARY_WORK < total ∨ allowed.1 = false then none
  else some { solver with stats := { solver.stats with work := total }, interner := allowed.2 }

def row (solver : Solver Rows) (state : ℕ) : List (ℕ × ℕ) := (solver.effective[state]?).getD []

/-- Whether no read of the label is possible from a state. -/
def rejects (solver : Solver Rows) (state : ℕ) (label : Label) : Bool :=
  solver.filter &&
    (solver.may_read[state]?).getD 0 &&& read_signature label != read_signature label

def merge_branch (states : SignedGraph) (acc : FastBoundaryDerivedRow × Solver Rows)
    (branch : ℕ × ℕ) : Option (FastBoundaryDerivedRow × Solver Rows) :=
  if states.states.length ≤ branch.1 then none
  else
    let merged := acc.1.merge branch.1 branch.2 acc.2.interner
    some (merged.1, { acc.2 with interner := merged.2 })

def merge_label (states : SignedGraph) (row : FastBoundaryNwaState)
    (acc : FastBoundaryDerivedRow × Solver Rows) (key : Label) :
    Option (FastBoundaryDerivedRow × Solver Rows) :=
  match row.find_label key with
  | none => some acc
  | some branches => do
      let solver ← acc.2.account states branches.length
      branches.foldlM (merge_branch states) (acc.1, solver)

def frame (states : SignedGraph) (solver : Solver Rows) (state : ℕ) (label : Label) :
    Option (Frame × Solver Rows) := do
  let row := states.row state
  let solver ← solver.account states (2 * Nat.log2 (row.transitions.length + 1) + 1)
  let solver ← solver.account states states.class_read_labels.length
  let acc ← (states.selected label).foldlM (merge_label states row) (.empty, solver)
  let inflight_pairs ← checked_add acc.2.inflight_pairs acc.1.len
  let total ← checked_add inflight_pairs acc.2.stats.result_pairs
  if MAX_RESULT_PAIRS < total then none
  else some (⟨state, 0, acc.1⟩, { acc.2 with inflight_pairs := inflight_pairs })

/-- Take the next edge of the top frame, whose target has a known answer. -/
def reuse (states : SignedGraph) (solver : Solver Rows) (top : Frame) (below : List Frame)
    (weight : ℕ) (id : Handle Rows) : Option (Solver Rows) := do
  let solver ← solver.account states (1 + row_len solver.results id)
  let merged := add_suffixes weight (pairs solver.results id) (top.result, solver.interner)
  let inflight_pairs ← checked_add solver.inflight_pairs (merged.1.len - top.result.len)
  let total ← checked_add inflight_pairs solver.stats.result_pairs
  if MAX_RESULT_PAIRS < total then none
  else some { solver with
    interner := merged.2
    stack := { top with edge := top.edge + 1, result := merged.1 } :: below
    inflight_pairs := inflight_pairs
    stats := { solver.stats with cache_hits := solver.stats.cache_hits + 1 } }

/-- Start on a target without a known answer. -/
def descend (states : SignedGraph) (solver : Solver Rows) (target : ℕ) (label : Label) :
    Option (Solver Rows) :=
  if states.states.length ≤ solver.stack.length then none
  else do
    let framed ← solver.frame states target label
    let stack := framed.1 :: framed.2.stack
    some { framed.2 with
      stack := stack
      stats := { framed.2.stats with max_stack := max framed.2.stats.max_stack stack.length } }

/-- Remember the answer of a frame whose edges are done. -/
def finish (solver : Solver Rows) (top : Frame) (below : List Frame) (label : Label) :
    Option (Solver Rows) := do
  let row_len := top.result.len
  let result_pairs ← checked_add solver.stats.result_pairs row_len
  if MAX_RESULT_PAIRS < result_pairs ∨ MAX_QUERY_PAIRS ≤ solver.known.length then none
  else do
    let pushed ← push solver.results top.result
    some { solver with
      known := ((top.state, label), pushed.1) ::
        solver.known.filter fun entry => entry.1 ≠ (top.state, label)
      results := pushed.2
      stack := below
      inflight_pairs := solver.inflight_pairs - row_len
      stats := { solver.stats with
        result_pairs := result_pairs, queries := solver.stats.queries + 1 } }

def account_filter (states : SignedGraph) (solver : Solver Rows) : Option (Solver Rows) :=
  if solver.filter then solver.account states 1 else some solver

def query_step (states : SignedGraph) (label : Label) (solver : Solver Rows) (top : Frame)
    (below : List Frame) : Option (Solver Rows) :=
  match (solver.row top.state)[top.edge]? with
  | some (target, weight) => do
      let solver ← solver.account_filter states
      if solver.rejects target label then
        some { solver with
          stack := { top with edge := top.edge + 1 } :: below
          stats := { solver.stats with rejected_edges := solver.stats.rejected_edges + 1 } }
      else
        match solver.known.lookup (target, label) with
        | some id => solver.reuse states top below weight id
        | none => solver.descend states target label
  | none => solver.finish top below label

def query_loop (states : SignedGraph) (label : Label) : ℕ → Solver Rows → Option (Option (Solver Rows)) :=
  attemptLoop fun solver =>
    match solver.stack with
    | [] => some none
    | top :: below => (solver.query_step states label top below).map some

def query (fuel : ℕ) (states : SignedGraph) (solver : Solver Rows) (state : ℕ) (label : Label) :
    Option (Option (Handle Rows × Solver Rows)) :=
  attempt (some (solver.account_filter states)) fun solver =>
    if solver.rejects state label then
      some (some (EMPTY, { solver with
        stats := { solver.stats with rejected_queries := solver.stats.rejected_queries + 1 } }))
    else
      match solver.known.lookup (state, label) with
      | some id => some (some (id, { solver with
          stats := { solver.stats with cache_hits := solver.stats.cache_hits + 1 } }))
      | none =>
          attempt (some (solver.frame states state label)) fun framed =>
            attempt (query_loop states label fuel
                { framed.2 with stack := framed.1 :: framed.2.stack }) fun solver =>
              some ((solver.known.lookup (state, label)).map fun id => (id, solver))

/-! ## One step -/

/-- The later solver differs in its counters and in what its interner has added. -/
structure Advances (before after : Solver Rows) : Prop where
  sound : after.interner.Sound
  keeps : before.interner.Extends after.interner
  effective : after.effective = before.effective
  known : after.known = before.known
  results : after.results = before.results
  stack : after.stack = before.stack
  may_read : after.may_read = before.may_read
  filter : after.filter = before.filter

theorem Advances.refl {solver : Solver Rows} (h : solver.interner.Sound) :
    solver.Advances solver :=
  ⟨h, FastBoundaryWeightInterner.Extends.refl _, rfl, rfl, rfl, rfl, rfl, rfl⟩

theorem Advances.trans {a b c : Solver Rows} (hab : a.Advances b) (hbc : b.Advances c) :
    a.Advances c :=
  ⟨hbc.sound, hab.keeps.trans hbc.keeps, hbc.effective.trans hab.effective,
    hbc.known.trans hab.known, hbc.results.trans hab.results, hbc.stack.trans hab.stack,
    hbc.may_read.trans hab.may_read, hbc.filter.trans hab.filter⟩

theorem Advances.row {before after : Solver Rows} (h : before.Advances after) (state : ℕ) :
    after.row state = before.row state := by
  rw [Solver.row, Solver.row, h.effective]

theorem Advances.rejects {before after : Solver Rows} (h : before.Advances after) (state : ℕ)
    (label : Label) : after.rejects state label = before.rejects state label := by
  rw [Solver.rejects, Solver.rejects, h.filter, h.may_read]

variable {states : SignedGraph} {solver : Solver Rows}

theorem account_spec (h : solver.interner.Sound) (work : ℕ) :
    Ensures (solver.account states work) fun after =>
      solver.Advances after ∧ after.interner.failed = false := by
  refine Ensures.bind (P := fun _ => True) (fun _ _ => trivial) fun total _ => ?_
  obtain ⟨hsound, hkeeps, hok⟩ :=
    FastBoundaryWeightInterner.allow_work_spec h work states.states.length 0
  dsimp only
  split_ifs with hover
  · exact Ensures.none _
  · rw [not_or, Bool.not_eq_false] at hover
    exact Ensures.some ⟨⟨hsound, hkeeps, rfl, rfl, rfl, rfl, rfl, rfl⟩, hok hover.2⟩

theorem account_filter_spec (h : solver.interner.Sound) :
    Ensures (solver.account_filter states) fun after => solver.Advances after := by
  unfold account_filter
  split_ifs
  · exact (account_spec h 1).mono fun _ => And.left
  · exact Ensures.some (Advances.refl h)

end Solver

/-! ## Answers -/

section Answers

variable (states : SignedGraph) (start : FastBoundaryWeightInterner)

/-- The points whose weights let a symbol be read by the next edge. -/
def readPoints (state : ℕ) (top : Label) (target : ℕ) : Set (ℕ × ℕ) :=
  {p | ∃ label weight, states.Edge state label target weight ∧ states.Reads label top ∧
    p ∈ start.den weight}

/-- The points for which the symbol on top can be popped. -/
def popPoints (state : ℕ) (top : Label) (target : ℕ) : Set (ℕ × ℕ) :=
  {p | SignedGraph.Pops states (fun weight => p ∈ start.den weight) state top target}

/-- The points for which a push at the state can be cancelled. -/
def cancelPoints (state target : ℕ) : Set (ℕ × ℕ) :=
  {p | SignedGraph.Cancels states (fun weight => p ∈ start.den weight) state target}

def epsilonPoints (state target : ℕ) : Set (ℕ × ℕ) :=
  {p | ∃ weight, states.Epsilon state target weight ∧ p ∈ start.den weight}

def effectivePoints (state target : ℕ) : Set (ℕ × ℕ) :=
  epsilonPoints states start state target ∪ cancelPoints states start state target

/-- The answer of a state through some of its effective edges. -/
def partialPoints (state : ℕ) (top : Label) (edges : List (ℕ × ℕ)) (target : ℕ) : Set (ℕ × ℕ) :=
  readPoints states start state top target ∪ {p | ∃ e ∈ edges,
    p ∈ effectivePoints states start state e.1 ∧ p ∈ popPoints states start e.1 top target}

variable {states start}

/-- The memo recurrence. -/
theorem partialPoints_eq {state : ℕ} {edges : List (ℕ × ℕ)}
    (h : ∀ target, (effectivePoints states start state target).Nonempty →
      ∃ weight, (target, weight) ∈ edges) (top : Label) (target : ℕ) :
    partialPoints states start state top edges target = popPoints states start state top target := by
  ext p
  rw [popPoints, Set.mem_ofPred_eq, SignedGraph.pops_iff]
  constructor
  · rintro (⟨label, weight, hedge, hreads, hp⟩ | ⟨e, -, heff, hpop⟩)
    · exact Or.inl ⟨label, weight, hedge, hreads, hp⟩
    · exact Or.inr ⟨e.1, heff, hpop⟩
  · rintro (⟨label, weight, hedge, hreads, hp⟩ | ⟨middle, heff, hpop⟩)
    · exact Or.inl ⟨label, weight, hedge, hreads, hp⟩
    · obtain ⟨weight, hmem⟩ := h middle ⟨p, heff⟩
      exact Or.inr ⟨_, hmem, heff, hpop⟩

theorem partialPoints_append {state : ℕ} {top : Label} {edges : List (ℕ × ℕ)} (e : ℕ × ℕ)
    (target : ℕ) : partialPoints states start state top (edges ++ [e]) target =
      partialPoints states start state top edges target ∪
        (effectivePoints states start state e.1 ∩ popPoints states start e.1 top target) := by
  ext p
  simp only [partialPoints, List.mem_append, List.mem_singleton, Set.mem_union, Set.mem_ofPred_eq,
    Set.mem_inter_iff]
  constructor
  · rintro (hread | ⟨f, hf | rfl, h⟩)
    · exact Or.inl (Or.inl hread)
    · exact Or.inl (Or.inr ⟨f, hf, h⟩)
    · exact Or.inr h
  · rintro ((hread | ⟨f, hf, h⟩) | h)
    · exact Or.inl hread
    · exact Or.inr ⟨f, Or.inl hf, h⟩
    · exact Or.inr ⟨e, Or.inr rfl, h⟩

end Answers

/-! ## Merging many entries -/

section Merging

variable {interner : FastBoundaryWeightInterner} {allowed : ℕ → Prop}
  {points suffix : ℕ → Set (ℕ × ℕ)} {entries : List (ℕ × ℕ)} {row : FastBoundaryDerivedRow}

/-- Merging weights that are computed one after the other adds what they mean. -/
theorem merge_each_spec
    (weigh : FastBoundaryWeightInterner → ℕ × ℕ → ℕ × FastBoundaryWeightInterner)
    (suffix : ℕ → Set (ℕ × ℕ))
    (hweigh : ∀ e ∈ entries, ∀ i : FastBoundaryWeightInterner, i.Sound → interner.Extends i →
      FastBoundaryWeightInterner.Result i (weigh i e) (suffix e.1))
    (hallowed : ∀ e ∈ entries, allowed e.1) (h : interner.Sound)
    (hrow : Lists interner allowed row.into_entries points) :
    Merged interner allowed (entries.foldl (fun acc e =>
        let add := weigh acc.2 e
        acc.1.merge e.1 add.1 add.2) (row, interner))
      (fun target => points target ∪ {p | ∃ w, (target, w) ∈ entries ∧ p ∈ suffix target}) := by
  -- The induction is on the entries still to merge; `done` lists those already merged.
  suffices hgen : ∀ (todo done : List (ℕ × ℕ)) acc, done ++ todo = entries →
      Merged interner allowed acc
        (fun target => points target ∪ {p | ∃ w, (target, w) ∈ done ∧ p ∈ suffix target}) →
      Merged interner allowed (todo.foldl (fun acc e =>
          let add := weigh acc.2 e
          acc.1.merge e.1 add.1 add.2) acc)
        (fun target => points target ∪ {p | ∃ w, (target, w) ∈ entries ∧ p ∈ suffix target}) by
    apply hgen entries [] (row, interner) rfl
    refine ⟨h, FastBoundaryWeightInterner.Extends.refl _, hrow.congr fun _ target => ?_⟩
    simp
  intro todo
  induction todo with
  | nil =>
      intro done acc hdone hacc
      rw [List.append_nil] at hdone
      rwa [← hdone]
  | cons e todo ih =>
      intro done acc hdone hacc
      apply ih (done ++ [e])
      · rw [List.append_assoc, List.singleton_append, hdone]
      have hmem : e ∈ entries := by
        rw [← hdone]
        exact List.mem_append_right _ List.mem_cons_self
      have hadd := hweigh e hmem acc.2 hacc.sound hacc.keeps
      have hmerge := merge_spec hadd.sound (hacc.lists.later hadd.keeps) hadd.means_self
        (fun _ => hallowed e hmem)
      refine ⟨hmerge.sound, hacc.keeps.trans (hadd.keeps.trans hmerge.keeps),
        hmerge.lists.congr fun _ target => ?_⟩
      ext p
      simp only [Set.mem_union, Set.mem_ofPred_eq, List.mem_append, List.mem_singleton]
      constructor
      · rintro ((hp | ⟨w, hw, hp⟩) | ⟨rfl, hp⟩)
        · exact Or.inl hp
        · exact Or.inr ⟨w, Or.inl hw, hp⟩
        · exact Or.inr ⟨e.2, Or.inr rfl, hp⟩
      · rintro (hp | ⟨w, hw | rfl, hp⟩)
        · exact Or.inl (Or.inl hp)
        · exact Or.inl (Or.inr ⟨w, hw, hp⟩)
        · exact Or.inr ⟨rfl, hp⟩

/-- Every target that has points has an entry, so that merging loses none of them. -/
theorem Merged.union (entries : List (ℕ × ℕ))
    {result : FastBoundaryDerivedRow × FastBoundaryWeightInterner} {more : ℕ → Set (ℕ × ℕ)} (h : Merged interner allowed result
      (fun target => points target ∪ {p | ∃ w, (target, w) ∈ entries ∧ p ∈ more target}))
    (hcomplete : interner.failed = false → ∀ target, (more target).Nonempty →
      ∃ w, (target, w) ∈ entries) :
    Merged interner allowed result (fun target => points target ∪ more target) := by
  refine ⟨h.sound, h.keeps, h.lists.congr fun hf target => ?_⟩
  ext p
  constructor
  · rintro (hp | ⟨w, -, hp⟩)
    · exact Or.inl hp
    · exact Or.inr hp
  · rintro (hp | hp)
    · exact Or.inl hp
    · obtain ⟨w, hmem⟩ := hcomplete (h.keeps.failed hf) target ⟨p, hp⟩
      exact Or.inr ⟨w, hmem, hp⟩

/-- Merging the suffixes through an edge adds the points of the edge that have a suffix. -/
theorem add_suffixes_spec {weight : ℕ} {through : Set (ℕ × ℕ)} (h : interner.Sound)
    (hrow : Lists interner allowed row.into_entries points)
    (hweight : interner.Means weight through) (hsuffix : Lists interner allowed entries suffix) :
    Merged interner allowed (add_suffixes weight entries (row, interner))
      (fun target => points target ∪ (through ∩ suffix target)) := by
  apply Merged.union entries
  · apply merge_each_spec (fun i e => i.intersection weight e.2)
      (fun target => through ∩ suffix target) _ hsuffix.allowed h hrow
    intro e he i hi hkeeps
    exact FastBoundaryWeightInterner.intersection_means hi (hweight.later hkeeps)
      ((hsuffix.means e he).later hkeeps)
  · exact fun hf target hne => hsuffix.complete hf target hne.right

/-- Merging all entries of another row, in any order. -/
theorem merge_all_spec (h : interner.Sound)
    (hrow : Lists interner allowed row.into_entries points)
    {order : List (ℕ × ℕ)} (hperm : order.Perm entries)
    (hentries : Lists interner allowed entries suffix) :
    Merged interner allowed
      (order.foldl (fun acc e => acc.1.merge e.1 e.2 acc.2) (row, interner))
      (fun target => points target ∪ suffix target) := by
  apply Merged.union order
  · apply merge_each_spec (fun i e => (e.2, i)) suffix _ _ h hrow
    · intro e he i hi hkeeps
      have hmeans := (hentries.means e (hperm.mem_iff.mp he)).later hkeeps
      exact ⟨hi, FastBoundaryWeightInterner.Extends.refl i, hmeans.valid, hmeans.den⟩
    · exact fun e he => hentries.allowed e (hperm.mem_iff.mp he)
  · intro hf target hne
    obtain ⟨w, hmem⟩ := hentries.complete hf target hne
    exact ⟨w, hperm.mem_iff.mpr hmem⟩

end Merging

end GlrMask
