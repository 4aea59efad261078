import GlrMask.SignedGraph

/-!
# Push graphs of commit templates

The last phase of a commit template pushes the words of an acyclic automaton. The states
are put in topological order, and the words that a state accepts are counted up to a
bound, so that states without words can be left out.
-/

namespace GlrMask

/-- The parts of a commit template that say what is pushed. -/
structure CommitTemplateDfas where
  push : DFA
  pop_to_push : List (Option ℕ)
  read_to_push : List (Option ℕ)

namespace CommitTemplateDfas

/-- The states of the push graph at which a phase begins. -/
def phase_entries (template : CommitTemplateDfas) : List ℕ :=
  (template.pop_to_push ++ template.read_to_push).filterMap id

end CommitTemplateDfas

namespace PushGraph

/-- The value that a label pushes. -/
def pushed_value (label : Label) : ℕ := (negative_to_positive_label label).toNat

def edges (graph : DFA) (source : ℕ) : List (Label × ℕ) :=
  match graph.states[source]? with
  | some state => state.transitions.entries
  | none => []

def targets (graph : DFA) (source : ℕ) : List ℕ := (edges graph source).map Prod.snd

/-- The words that are pushed from a state, the first value first. -/
def Accepts (graph : DFA) : ℕ → List ℕ → Prop
  | state, [] => graph.is_accepting state = true
  | state, value :: word => ∃ e ∈ edges graph state, pushed_value e.1 = value ∧
      Accepts graph e.2 word

/-- No label reads, every target is a state, and there is no cycle. -/
structure WellFormed (graph : DFA) : Prop where
  negative : ∀ state < graph.states.length, ∀ e ∈ edges graph state, is_negative_label e.1 = true
  target : ∀ state < graph.states.length, ∀ e ∈ edges graph state, e.2 < graph.states.length
  acyclic : ∃ rank, Ranked (targets graph) graph.states.length rank

/-- The states in topological order, unless a label reads, a target is missing or there is a
cycle. -/
def push_order (graph : DFA) : Option (List ℕ) :=
  if graph.states.all fun state => state.transitions.entries.all fun e =>
      is_negative_label e.1 && decide (e.2 < graph.states.length) then
    let order := releaseOrder (targets graph) graph.states.length
    if order.length ≠ graph.states.length then none else some order
  else none

/-- The order of a validated template, which also checks the start state. -/
def topological_order (dfa : DFA) : Option (List ℕ) :=
  if dfa.states ≠ [] ∧ dfa.states.length ≤ dfa.start_state then none
  else if dfa.states = [] ∧ dfa.start_state ≠ 0 then none
  else if 2 ^ 32 - 1 ≤ dfa.states.length then none
  else if dfa.states.all fun state => state.transitions.entries.all fun e =>
      decide (e.1 < 0) && decide (e.2 < dfa.states.length) then
    let order := releaseOrder (targets dfa) dfa.states.length
    if order.length ≠ dfa.states.length then none else some order
  else none

/-- All states, each before the states that it has edges to. -/
structure Topological (graph : DFA) (order : List ℕ) : Prop where
  wellFormed : WellFormed graph
  mem : ∀ state, state ∈ order ↔ state < graph.states.length
  nodup : order.Nodup
  after : ∀ before state rest, order = before ++ state :: rest →
    ∀ target ∈ targets graph state, target ∈ rest

variable {graph : DFA} {order : List ℕ}

theorem edges_of_lt {state : ℕ} (h : state < graph.states.length) :
    edges graph state = (graph.states.get ⟨state, h⟩).transitions.entries := by
  unfold edges
  rw [List.getElem?_eq_getElem h]
  rfl

theorem lt_of_mem_edges {state : ℕ} {e : Label × ℕ} (h : e ∈ edges graph state) :
    state < graph.states.length := by
  by_contra hge
  unfold edges at h
  rw [List.getElem?_eq_none (not_lt.mp hge)] at h
  cases h

theorem lt_of_is_accepting {state : ℕ} (h : graph.is_accepting state = true) :
    state < graph.states.length := by
  by_contra hge
  rw [DFA.is_accepting, List.getElem?_eq_none (not_lt.mp hge)] at h
  cases h

theorem forall_edges_iff {P : Label × ℕ → Bool} :
    (graph.states.all fun state => state.transitions.entries.all P) = true ↔
      ∀ state < graph.states.length, ∀ e ∈ edges graph state, P e = true := by
  rw [List.all_eq_true]
  constructor
  · intro h state hstate e he
    rw [edges_of_lt hstate] at he
    exact List.all_eq_true.mp (h _ (List.get_mem _ _)) e he
  · intro h row hrow
    obtain ⟨state, hstate, rfl⟩ := List.getElem_of_mem hrow
    apply List.all_eq_true.mpr
    intro e he
    apply h state hstate
    rw [edges_of_lt hstate]
    exact he

/-- What the checks say when the release order lists all states. -/
theorem topological_of_release
    (hedges : ∀ state < graph.states.length, ∀ e ∈ edges graph state,
      is_negative_label e.1 = true ∧ e.2 < graph.states.length)
    (hlength : (releaseOrder (targets graph) graph.states.length).length = graph.states.length) :
    Topological graph (releaseOrder (targets graph) graph.states.length) := by
  have hall : allReleased (targets graph) graph.states.length = true := by
    rw [allReleased, decide_eq_true_iff]
    exact hlength
  refine ⟨⟨?_, ?_, ?_⟩, ?_, ?_, ?_⟩
  · exact fun state hstate e he => (hedges state hstate e he).1
  · exact fun state hstate e he => (hedges state hstate e he).2
  · exact (allReleased_iff _ _).mp hall
  · exact (releaseOrder_before _ _ hall).1
  · exact releaseOrder_nodup _ _
  · intro before state rest heq target htarget
    have hstate : state < graph.states.length := by
      apply ((releaseOrder_before _ _ hall).1 state).mp
      rw [heq]
      exact List.mem_append_right _ List.mem_cons_self
    obtain ⟨e, he, rfl⟩ := List.mem_map.mp htarget
    exact releaseOrder_after _ _ hall heq htarget (hedges state hstate e he).2

theorem push_order_topological (h : push_order graph = some order) : Topological graph order := by
  unfold push_order at h
  split_ifs at h with hedges
  dsimp only at h
  split_ifs at h with hlength
  obtain rfl := Option.some.inj h
  apply topological_of_release _ (not_not.mp hlength)
  intro state hstate e he
  have hcheck := forall_edges_iff.mp hedges state hstate e he
  rw [Bool.and_eq_true, decide_eq_true_eq] at hcheck
  exact hcheck

theorem topological_order_topological (h : topological_order graph = some order) :
    Topological graph order := by
  unfold topological_order at h
  split_ifs at h with _ _ _ hedges
  dsimp only at h
  split_ifs at h with hlength
  obtain rfl := Option.some.inj h
  apply topological_of_release _ (not_not.mp hlength)
  intro state hstate e he
  have hcheck := forall_edges_iff.mp hedges state hstate e he
  rw [Bool.and_eq_true, decide_eq_true_eq, decide_eq_true_eq] at hcheck
  refine ⟨?_, hcheck.2⟩
  have hdefault : e.1 ≠ DEFAULT_LABEL := by
    intro heq
    rw [heq] at hcheck
    exact absurd hcheck.1 (by decide)
  rw [is_negative_label, Bool.and_eq_true, decide_eq_true_eq, decide_eq_true_eq]
  exact ⟨hcheck.1, hdefault⟩

/-! ## Counting words -/

/-- Count the words of a state from the counts of its targets. -/
def count_state (graph : DFA) (cap : ℕ) (counts : List ℕ) (source : ℕ) : List ℕ :=
  (targets graph source).foldl
    (fun counts target =>
      counts.set source (min (counts.getD source 0 + counts.getD target 0) cap))
    (counts.set source (graph.is_accepting source).toNat)

/-- The numbers of words, counted up to `cap`. -/
def count_paths (graph : DFA) (cap : ℕ) (order : List ℕ) : List ℕ :=
  order.reverse.foldl (count_state graph cap) (List.replicate graph.states.length 0)

/-- The numbers of prefixes that are looked at from the states. -/
def walk_sizes (graph : DFA) (order : List ℕ) : List ℕ :=
  order.reverse.foldl
    (fun sizes source =>
      sizes.set source (1 + ((targets graph source).map fun target => sizes.getD target 0).sum))
    (List.replicate graph.states.length 0)

theorem Topological.not_mem_targets (h : Topological graph order) {state : ℕ} :
    state ∉ targets graph state := by
  intro hmem
  obtain ⟨e, he, -⟩ := List.mem_map.mp hmem
  obtain ⟨before, rest, heq⟩ := List.append_of_mem ((h.mem state).mpr (lt_of_mem_edges he))
  have hrest := h.after before state rest heq state hmem
  have hnodup := h.nodup
  rw [heq] at hnodup
  exact (List.nodup_cons.mp (List.nodup_append.mp hnodup).2.1).1 hrest

/-- What a step establishes for its state from the values of the targets holds of all states
in the end. -/
theorem Topological.foldl_reverse (h : Topological graph order)
    {step : List ℕ → ℕ → List ℕ} {R : ℕ → List ℕ → Prop}
    (hlength : ∀ values state, (step values state).length = values.length)
    (hother : ∀ values state x, x ≠ state → (step values state).getD x 0 = values.getD x 0)
    (hstep : ∀ values state, state < values.length → R state (step values state))
    (hcongr : ∀ state values values', (∀ x, x = state ∨ x ∈ targets graph state →
      values.getD x 0 = values'.getD x 0) → R state values → R state values')
    {state : ℕ} (hstate : state < graph.states.length) :
    R state (order.reverse.foldl step (List.replicate graph.states.length 0)) := by
  suffices hsuffix : ∀ rest before, order = before ++ rest →
      (rest.reverse.foldl step (List.replicate graph.states.length 0)).length =
          graph.states.length ∧
        ∀ x ∈ rest, R x (rest.reverse.foldl step (List.replicate graph.states.length 0)) by
    exact (hsuffix order [] rfl).2 state ((h.mem state).mpr hstate)
  intro rest
  induction rest with
  | nil => exact fun before _ => ⟨List.length_replicate, fun x hx => by cases hx⟩
  | cons first rest ih =>
      intro before heq
      obtain ⟨hlen, hrest⟩ := ih (before ++ [first]) (by rw [heq, List.append_assoc]; rfl)
      rw [List.reverse_cons, List.foldl_append, List.foldl_cons, List.foldl_nil]
      refine ⟨(hlength _ _).trans hlen, ?_⟩
      have hfirst : first < graph.states.length := by
        apply (h.mem first).mp
        rw [heq]
        exact List.mem_append_right _ List.mem_cons_self
      have hnodup := h.nodup
      rw [heq] at hnodup
      have hnot := (List.nodup_cons.mp (List.nodup_append.mp hnodup).2.1).1
      intro x hx
      obtain rfl | hx := List.mem_cons.mp hx
      · exact hstep _ _ (by rw [hlen]; exact hfirst)
      · apply hcongr x _ _ _ (hrest x hx)
        -- the state and its targets come after the one that changes
        intro y hy
        apply (hother _ _ _ _).symm
        obtain rfl | hy := hy
        · exact fun hfirst => hnot (hfirst ▸ hx)
        · obtain ⟨middle, later, rfl⟩ := List.append_of_mem hx
          have hafter := h.after (before ++ first :: middle) x later
            (by rw [heq, List.append_assoc]; rfl) y hy
          rintro rfl
          exact hnot (List.mem_append_right _ (List.mem_cons_of_mem _ hafter))

theorem count_state_spec {cap : ℕ} (hcap : 0 < cap) {source : ℕ} (ts counts : List ℕ)
    (hts : source ∉ ts) :
    let result := ts.foldl
      (fun counts target =>
        counts.set source (min (counts.getD source 0 + counts.getD target 0) cap)) counts
    result.length = counts.length ∧ (∀ x, x ≠ source → result.getD x 0 = counts.getD x 0) ∧
      (source < counts.length → result.getD source 0 = 0 →
        counts.getD source 0 = 0 ∧ ∀ t ∈ ts, counts.getD t 0 = 0) := by
  induction ts generalizing counts with
  | nil => exact ⟨rfl, fun _ _ => rfl, fun _ h => ⟨h, fun t ht => by cases ht⟩⟩
  | cons t ts ih =>
      rw [List.mem_cons, not_or] at hts
      obtain ⟨hlength, hother, hzero⟩ := ih
        (counts.set source (min (counts.getD source 0 + counts.getD t 0) cap)) hts.2
      have hset : ∀ x, x ≠ source → (counts.set source
          (min (counts.getD source 0 + counts.getD t 0) cap)).getD x 0 = counts.getD x 0 := by
        intro x hx
        rw [List.getD_eq_getElem?_getD, List.getElem?_set_ne (Ne.symm hx),
          ← List.getD_eq_getElem?_getD]
      refine ⟨hlength.trans List.length_set, fun x hx => (hother x hx).trans (hset x hx), ?_⟩
      intro hsource hresult
      obtain ⟨hnow, hrest⟩ := hzero (by rw [List.length_set]; exact hsource) hresult
      rw [List.getD_eq_getElem?_getD, List.getElem?_set_self hsource, Option.getD_some] at hnow
      have hsum : counts.getD source 0 = 0 ∧ counts.getD t 0 = 0 := by omega
      refine ⟨hsum.1, List.forall_mem_cons.mpr ⟨hsum.2, ?_⟩⟩
      intro t' ht'
      rw [← hset t' fun heq => hts.2 (heq ▸ ht')]
      exact hrest t' ht'

/-- A state with no words counted accepts none. -/
theorem Topological.not_accepts (h : Topological graph order) {cap : ℕ} (hcap : 0 < cap)
    {state : ℕ} (hzero : (count_paths graph cap order).getD state 0 = 0) (word : List ℕ) :
    ¬Accepts graph state word := by
  have hlocal : ∀ state < graph.states.length,
      (count_paths graph cap order).getD state 0 = 0 → graph.is_accepting state = false ∧
        ∀ t ∈ targets graph state, (count_paths graph cap order).getD t 0 = 0 := by
    intro state hstate
    have hspec : ∀ counts source, _ := fun (counts : List ℕ) (source : ℕ) =>
      count_state_spec hcap (targets graph source)
        (counts.set source (graph.is_accepting source).toNat) h.not_mem_targets
    have hset : ∀ (counts : List ℕ) source v x, x ≠ source →
        (counts.set source v).getD x 0 = counts.getD x 0 := by
      intro counts source v x hx
      rw [List.getD_eq_getElem?_getD, List.getElem?_set_ne (Ne.symm hx),
        ← List.getD_eq_getElem?_getD]
    apply h.foldl_reverse (R := fun state counts => counts.getD state 0 = 0 →
      graph.is_accepting state = false ∧ ∀ t ∈ targets graph state, counts.getD t 0 = 0)
      _ _ _ _ hstate
    · exact fun counts source => (hspec counts source).1.trans List.length_set
    · exact fun counts source x hx => ((hspec counts source).2.1 x hx).trans (hset _ _ _ x hx)
    · intro counts source hsource hresult
      obtain ⟨-, hother, hnil⟩ := hspec counts source
      obtain ⟨haccepting, htargets⟩ := hnil (by rw [List.length_set]; exact hsource) hresult
      rw [List.getD_eq_getElem?_getD, List.getElem?_set_self hsource, Option.getD_some,
        Bool.toNat_eq_zero] at haccepting
      refine ⟨haccepting, ?_⟩
      intro t ht
      have hne : t ≠ source := fun heq => h.not_mem_targets (heq ▸ ht)
      exact (hother t hne).trans (htargets t ht)
    · intro state values values' heq hR hvalue
      obtain ⟨haccepting, htargets⟩ := hR ((heq state (Or.inl rfl)).trans hvalue)
      exact ⟨haccepting, fun t ht => (heq t (Or.inr ht)).symm.trans (htargets t ht)⟩
  induction word generalizing state with
  | nil =>
      intro haccepts
      have hstate := lt_of_is_accepting haccepts
      have haccepting := (hlocal state hstate hzero).1
      rw [Accepts, haccepting] at haccepts
      cases haccepts
  | cons value word ih =>
      intro haccepts
      obtain ⟨e, he, -, hrest⟩ := haccepts
      have htarget := (hlocal state (lt_of_mem_edges he) hzero).2 e.2 (List.mem_map_of_mem he)
      exact ih htarget hrest

theorem Topological.walk_sizes_eq (h : Topological graph order) {state : ℕ}
    (hstate : state < graph.states.length) :
    (walk_sizes graph order).getD state 0 =
      1 + ((targets graph state).map fun t => (walk_sizes graph order).getD t 0).sum := by
  apply h.foldl_reverse (R := fun state sizes => sizes.getD state 0 =
    1 + ((targets graph state).map fun t => sizes.getD t 0).sum) _ _ _ _ hstate
  · exact fun sizes source => List.length_set
  · intro sizes source x hx
    rw [List.getD_eq_getElem?_getD, List.getElem?_set_ne (Ne.symm hx),
      ← List.getD_eq_getElem?_getD]
  · intro sizes source hsource
    rw [List.getD_eq_getElem?_getD, List.getElem?_set_self hsource, Option.getD_some]
    congr 2
    apply List.map_congr_left
    intro t ht
    have hne : t ≠ source := fun heq => h.not_mem_targets (heq ▸ ht)
    rw [List.getD_eq_getElem?_getD, List.getD_eq_getElem?_getD,
      List.getElem?_set_ne (Ne.symm hne)]
  · intro state values values' heq hR
    rw [← heq state (Or.inl rfl), hR]
    congr 2
    apply List.map_congr_left
    exact fun t ht => heq t (Or.inr ht)

end PushGraph

end GlrMask
