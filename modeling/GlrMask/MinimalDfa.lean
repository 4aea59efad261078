import GlrMask.UnweightedDfa

/-!
# Automata with the fewest states

An automaton whose states are all reached by a word, are live, and accept pairwise
different residual languages has the fewest states for its language. A dead state
apart from the start can be left out.
-/

namespace GlrMask

namespace DFA

/-- The transitions of a state. -/
def transitions (self : DFA) (state : ℕ) : SortedMap Label ℕ :=
  match self.states[state]? with
  | some row => row.transitions
  | none => .empty

def targets (self : DFA) (state : ℕ) : List ℕ := (self.transitions state).values

def Reachable (self : DFA) (state : ℕ) : Prop :=
  state < self.states.length ∧ ∃ word, self.plain.run self.start_state word = some state

/-- Some word is accepted from the state. -/
def Live (self : DFA) (state : ℕ) : Prop := ∃ word, self.plain.accepts state word = true

/-- The state has an edge with the label, and the edge leads to an existing state. -/
def HasEdge (self : DFA) (state : ℕ) (label : Label) : Prop :=
  ∃ target, self.next state label = some target ∧ target < self.states.length

/-- No automaton that has a state and accepts the same words has fewer states than `result`. -/
def Fewest (self result : DFA) : Prop :=
  ∀ N : DFA, N.states ≠ [] → (∀ word, N.accepts_word word = self.accepts_word word) →
    result.states.length ≤ N.states.length

variable {self : DFA}

theorem next_eq (state : ℕ) (label : Label) :
    self.next state label = (self.transitions state).get label := by
  unfold next transitions
  cases self.states[state]? with
  | none => rfl
  | some row => rfl

theorem mem_targets {state target : ℕ} :
    target ∈ self.targets state ↔ ∃ label, self.next state label = some target := by
  simp only [targets, SortedMap.values, List.mem_map, next_eq, SortedMap.get_eq_some_iff]
  constructor
  · intro hex
    obtain ⟨e, he, rfl⟩ := hex
    exact ⟨e.1, he⟩
  · intro hex
    obtain ⟨label, he⟩ := hex
    exact ⟨(label, target), he, rfl⟩

theorem lt_of_next {state target : ℕ} {label : Label} (h : self.next state label = some target) :
    state < self.states.length := by
  by_contra hge
  rw [next, List.getElem?_eq_none (not_lt.mp hge)] at h
  cases h

theorem is_accepting_eq {state : ℕ} {row : DFAState} (h : self.states[state]? = some row) :
    self.is_accepting state = row.is_accepting := by
  rw [is_accepting, h]

theorem Live.lt {state : ℕ} (h : self.Live state) : state < self.states.length := by
  obtain ⟨word, hword⟩ := h
  exact lt_of_plain_accepts hword

/-- An edge continues a word. -/
theorem plain_accepts_cons {state target : ℕ} {label : Label}
    (h : self.next state label = some target) (word : List Label) :
    self.plain.accepts state (label :: word) = self.plain.accepts target word := by
  rw [PartialSystem.accepts_cons]
  simp only [plain, h]

theorem plain_accepts_cons_none {state : ℕ} {label : Label} (h : self.next state label = none)
    (word : List Label) : self.plain.accepts state (label :: word) = false := by
  rw [PartialSystem.accepts_cons]
  simp only [plain, h]

theorem Reachable.next {state target : ℕ} {label : Label} (h : self.Reachable state)
    (hnext : self.next state label = some target) (hlt : target < self.states.length) :
    self.Reachable target := by
  obtain ⟨-, word, hword⟩ := h
  refine ⟨hlt, word ++ [label], ?_⟩
  rw [PartialSystem.run_append, hword, Option.bind_some]
  simp [PartialSystem.run, plain, hnext]

theorem Reachable.start (h : self.start_state < self.states.length) :
    self.Reachable self.start_state := ⟨h, [], rfl⟩

theorem Reachable.start_lt {state : ℕ} (h : self.Reachable state) :
    self.start_state < self.states.length := by
  obtain ⟨hlt, word, hword⟩ := h
  cases word with
  | nil => exact Option.some.inj hword ▸ hlt
  | cons label word =>
      rw [PartialSystem.run] at hword
      obtain ⟨target, hnext, -⟩ := Option.bind_eq_some_iff.mp hword
      exact lt_of_next hnext

/-- The steps to existing states. -/
def bounded (self : DFA) : PartialSystem ℕ Label where
  step state label := (self.next state label).filter (· < self.states.length)
  accepting := self.is_accepting

theorem bounded_step_eq_some {state target : ℕ} {label : Label} :
    self.bounded.step state label = some target ↔
      self.next state label = some target ∧ target < self.states.length := by
  simp only [bounded, Option.filter_eq_some_iff, decide_eq_true_eq]

theorem bounded_accepts (state : ℕ) (word : List Label) :
    self.bounded.accepts state word = self.plain.accepts state word := by
  induction word generalizing state with
  | nil => rfl
  | cons label word ih =>
      rw [PartialSystem.accepts_cons]
      cases hnext : self.next state label with
      | none =>
          simp only [bounded, hnext, Option.filter_none, plain_accepts_cons_none hnext]
      | some target =>
          rw [plain_accepts_cons hnext, ← ih]
          simp only [bounded, hnext, Option.filter_some, decide_eq_true_eq]
          split_ifs with hlt
          · rfl
          · -- there is no state that could accept
            symm
            by_contra hacc
            rw [Bool.not_eq_false] at hacc
            exact hlt (lt_of_plain_accepts ((ih target).symm.trans hacc))

theorem bounded_run {state target : ℕ} {word : List Label}
    (h : self.plain.run state word = some target) (hlt : target < self.states.length) :
    self.bounded.run state word = some target := by
  induction word generalizing state with
  | nil => exact h
  | cons label word ih =>
      rw [PartialSystem.run] at h ⊢
      obtain ⟨middle, hnext, hrest⟩ := Option.bind_eq_some_iff.mp h
      have hmiddle : middle < self.states.length := by
        cases word with
        | nil => exact Option.some.inj hrest ▸ hlt
        | cons label' word =>
            rw [PartialSystem.run] at hrest
            obtain ⟨target', hnext', -⟩ := Option.bind_eq_some_iff.mp hrest
            exact lt_of_next hnext'
      rw [bounded_step_eq_some.mpr ⟨hnext, hmiddle⟩, Option.bind_some]
      exact ih hrest

theorem Reachable.step {state target : ℕ} {label : Label} (h : self.Reachable state)
    (hstep : self.bounded.step state label = some target) : self.Reachable target := by
  obtain ⟨hnext, hlt⟩ := bounded_step_eq_some.mp hstep
  exact h.next hnext hlt

/-- Distinct live residual languages need as many states in every automaton. -/
theorem fewest_of_residuals {result : DFA}
    (hlang : ∀ word, result.accepts_word word = self.accepts_word word)
    (hreach : ∀ i < result.states.length, result.Reachable i)
    (hlive : ∀ i < result.states.length, result.Live i)
    (hdistinct : ∀ i < result.states.length, ∀ j < result.states.length,
      (∀ word, result.plain.accepts i word = result.plain.accepts j word) → i = j) :
    Fewest self result := by
  intro N hN hsame
  obtain hzero | hpos := Nat.eq_zero_or_pos result.states.length
  · rw [hzero]
    exact Nat.zero_le _
  have hlanguages : ∀ word, (∀ a ∈ word, True) →
      result.plain.accepts result.start_state word = N.plain.accepts N.start_state word :=
    fun word _ => (hlang word).trans (hsame word).symm
  have hstart : N.start_state < N.states.length := by
    obtain ⟨word, hword⟩ := hlive _ (hreach 0 hpos).start_lt
    rw [hlanguages word fun _ _ => trivial] at hword
    exact lt_of_plain_accepts hword
  have hcard := PartialSystem.card_le_of_residuals result.plain N.plain (fun _ => True)
    result.start_state N.start_state (Finset.range result.states.length)
    (Finset.range N.states.length) hlanguages (by
      intro i hi
      obtain ⟨-, word, hword⟩ := hreach i (Finset.mem_range.mp hi)
      exact ⟨word, fun _ _ => trivial, hword⟩) (by
      intro i hi j hj he
      exact hdistinct i (Finset.mem_range.mp hi) j (Finset.mem_range.mp hj)
        fun word => he word fun _ _ => trivial) (by
      intro i hi
      obtain ⟨word, hword⟩ := hlive i (Finset.mem_range.mp hi)
      exact Or.inr ⟨word, fun _ _ => trivial, hword⟩)
    (Finset.mem_range.mpr hstart) fun t word hword => Finset.mem_range.mpr (lt_of_plain_accepts hword)
  rwa [Finset.card_range, Finset.card_range] at hcard

/-- One state is always enough for the lower bound. -/
theorem fewest_of_le_one {result : DFA} (h : result.states.length ≤ 1) : Fewest self result := by
  intro N hN _
  exact h.trans (List.length_pos_iff.mpr hN)

/-! ## Leaving out a dead state -/

/-- The number of a state when the state `dead` is left out. -/
def renumber (dead state : ℕ) : ℕ := if state < dead then state else state - 1

/-- The automaton without a state and without the edges to it. -/
def without (self : DFA) (dead : ℕ) : DFA where
  states := (self.states.eraseIdx dead).map fun row =>
    ⟨row.is_accepting, row.transitions.filterMapValues fun target =>
      if target = dead then none else some (renumber dead target)⟩
  start_state := renumber dead self.start_state

theorem without_states {dead state : ℕ} (h : state ≠ dead) :
    (self.without dead).states[renumber dead state]? = (self.states[state]?).map fun row =>
      ⟨row.is_accepting, row.transitions.filterMapValues fun target =>
        if target = dead then none else some (renumber dead target)⟩ := by
  have hget : (self.states.eraseIdx dead)[renumber dead state]? = self.states[state]? := by
    rw [List.getElem?_eraseIdx, renumber]
    split_ifs
    · rfl
    · omega
    · rw [Nat.sub_add_cancel (by omega)]
  rw [without, List.getElem?_map, hget]

theorem without_accepts {dead state : ℕ} (hdead : ¬self.Live dead) (h : state ≠ dead)
    (word : List Label) :
    (self.without dead).plain.accepts (renumber dead state) word = self.plain.accepts state word := by
  induction word generalizing state with
  | nil =>
      simp only [PartialSystem.accepts_nil, plain, is_accepting, without_states h]
      cases self.states[state]? with
      | none => rfl
      | some row => rfl
  | cons label word ih =>
      have hnext : (self.without dead).next (renumber dead state) label =
          (self.next state label).bind fun target =>
            if target = dead then none else some (renumber dead target) := by
        unfold next
        rw [without_states h]
        cases self.states[state]? with
        | none => rfl
        | some row => exact SortedMap.get_filterMapValues _ _ _
      cases hstep : self.next state label with
      | none =>
          rw [hstep] at hnext
          rw [plain_accepts_cons_none hstep, plain_accepts_cons_none hnext]
      | some target =>
          rw [hstep, Option.bind_some] at hnext
          rw [plain_accepts_cons hstep]
          split_ifs at hnext with he
          · rw [plain_accepts_cons_none hnext, he]
            by_contra hacc
            exact hdead ⟨word, Bool.eq_true_of_not_eq_false (Ne.symm hacc)⟩
          · rw [plain_accepts_cons hnext, ih he]

/-- An automaton with a dead state besides a live start does not have the fewest states. -/
theorem not_fewest_of_dead {result : DFA} {dead : ℕ}
    (hlang : ∀ word, result.accepts_word word = self.accepts_word word)
    (hstart : result.Live result.start_state) (hlt : dead < result.states.length)
    (hdead : ¬result.Live dead) : ¬Fewest self result := by
  intro hfewest
  have hne : result.start_state ≠ dead := by
    intro he
    exact hdead (he ▸ hstart)
  have hlength : (result.without dead).states.length + 1 = result.states.length := by
    rw [without, List.length_map, List.length_eraseIdx_of_lt hlt]
    omega
  have hstates : (result.without dead).states ≠ [] := by
    intro he
    have := hstart.lt
    rw [he] at hlength
    simp only [List.length_nil] at hlength
    omega
  have hle := hfewest (result.without dead) hstates fun word =>
    (without_accepts hdead hne word).trans (hlang word)
  omega

end DFA

end GlrMask
