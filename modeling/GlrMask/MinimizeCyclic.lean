import GlrMask.AcyclicHeights
import GlrMask.MinimalDfa
import GlrMask.PartitionRefinement

/-!
# Minimization of automata that may have cycles

The reachable states and an implicit dead sink are split into classes until the
classes of the targets tell no states of one class apart. The sink has a class of
its own from the beginning and never shares it with a state, so states that accept
nothing are neither merged with it nor left out.
-/

namespace GlrMask

open Interning PartitionRefinement

namespace MinimizeCyclic

variable (dfa : DFA)

/-- The states that the search marks, in increasing order. -/
def reachable_states : List ℕ :=
  (List.range dfa.states.length).filter fun state =>
    (reachableFrom dfa.targets dfa.states.length dfa.start_state)[state]? = some true

structure SparseRefinementSignature where
  previous_class : ℕ
  transitions : List (Label × ℕ)
deriving DecidableEq

section Partition

variable (dense_to_state class_of : List ℕ)

/-- The dense id of the implicit sink follows those of the states. -/
def dead : ℕ := dense_to_state.length

/-- The dense id of a reachable state. -/
def state_to_dense (state : ℕ) : Option ℕ := dense_to_state.idxOf? state

def initial_partition : List ℕ :=
  (dense_to_state.map fun state => if dfa.is_accepting state then 2 else 1) ++ [0]

def class_at (dense_id : ℕ) : ℕ := class_of.getD dense_id 0

def dead_class : ℕ := class_at class_of (dead dense_to_state)

/-- States that were not reached are in the class of the sink. -/
def target_class (target : ℕ) : ℕ :=
  class_at class_of ((state_to_dense dense_to_state target).getD (dead dense_to_state))

/-- The transitions of a state to classes other than the one of the sink. -/
def live_transitions (state : ℕ) : SortedMap Label ℕ :=
  (dfa.transitions state).filterMapValues fun target =>
    if target_class dense_to_state class_of target ≠ dead_class dense_to_state class_of then
      some (target_class dense_to_state class_of target)
    else none

def signature (dense_id : ℕ) : SparseRefinementSignature where
  previous_class := class_at class_of dense_id
  transitions :=
    match dense_to_state[dense_id]? with
    | some state => (live_transitions dfa dense_to_state class_of state).entries
    | none => []

def signatures : List SparseRefinementSignature :=
  (List.range (dead dense_to_state + 1)).map (signature dfa dense_to_state class_of)

def refine_partition : List ℕ := numbers (signatures dfa dense_to_state class_of)

/-- One round of the refinement loop. -/
def refine : Option (List ℕ) :=
  let new_class_of := refine_partition dfa dense_to_state class_of
  if new_class_of = class_of then none else some new_class_of

end Partition

section Build

variable (dense_to_state class_of : List ℕ)

/-- The classes by new state: the class of the start, and the others as they occur. -/
def class_to_new_state : List ℕ :=
  dense_to_state.zipIdx.foldl (fun classes entry =>
      if class_at class_of entry.2 = dead_class dense_to_state class_of ∨
        class_at class_of entry.2 ∈ classes then classes
      else classes ++ [class_at class_of entry.2])
    [target_class dense_to_state class_of dfa.start_state]

/-- The transitions that a new state takes over from a state. -/
def new_transitions (classes : List ℕ) (state : ℕ) : SortedMap Label ℕ :=
  (dfa.transitions state).filterMapValues fun target =>
    (state_to_dense dense_to_state target).bind fun target_dense =>
      if class_at class_of target_dense = dead_class dense_to_state class_of then none
      else classes.idxOf? (class_at class_of target_dense)

/-- The new states, and which of them are filled. -/
structure NewStates where
  states : List DFAState
  filled : List Bool

/-- The first state of a class fills the new state of the class. -/
def fill (classes : List ℕ) (new : NewStates) (entry : ℕ × ℕ) : NewStates :=
  if class_at class_of entry.2 = dead_class dense_to_state class_of then new
  else
    let new_state := classes.idxOf (class_at class_of entry.2)
    if new.filled[new_state]? = some false then
      { states := new.states.set new_state
          ⟨dfa.is_accepting entry.1, new_transitions dfa dense_to_state class_of classes entry.1⟩
        filled := new.filled.set new_state true }
    else new

def build_minimized_cyclic_dfa : DFA :=
  let classes := class_to_new_state dfa dense_to_state class_of
  let new := dense_to_state.zipIdx.foldl (fill dfa dense_to_state class_of classes)
    ⟨List.replicate classes.length default, List.replicate classes.length false⟩
  ⟨new.states, 0⟩

end Build

def minimize_cyclic (fuel : ℕ) : Option DFA :=
  if dfa.states = [] then some dfa
  else
    let reachable := reachable_states dfa
    if reachable = [] then some DFA.new
    else
      (loop (fun _ class_of => some (refine dfa reachable class_of)) fuel
        (initial_partition dfa reachable)).map (build_minimized_cyclic_dfa dfa reachable)

/-! ## Reachable states -/

variable {dfa}

/-- What is reached from a marked state is marked. -/
theorem marked_of_run {first start state : ℕ} {word : List Label}
    (h : (reachableFrom dfa.targets dfa.states.length first)[start]? = some true)
    (hrun : dfa.bounded.run start word = some state) :
    (reachableFrom dfa.targets dfa.states.length first)[state]? = some true := by
  induction word generalizing start with
  | nil => exact Option.some.inj hrun ▸ h
  | cons label word ih =>
      rw [PartialSystem.run] at hrun
      obtain ⟨middle, hstep, hrest⟩ := Option.bind_eq_some_iff.mp hrun
      obtain ⟨hnext, hlt⟩ := DFA.bounded_step_eq_some.mp hstep
      exact ih (reachableFrom_closed _ _ h (DFA.mem_targets.mpr ⟨label, hnext⟩) hlt) hrest

theorem mem_reachable_states {state : ℕ} : state ∈ reachable_states dfa ↔ dfa.Reachable state := by
  unfold reachable_states
  rw [List.mem_filter, List.mem_range, decide_eq_true_eq]
  constructor
  · intro h
    have hedge : ∀ s t, (∃ word, dfa.plain.run dfa.start_state word = some s) → t ∈ dfa.targets s →
        ∃ word, dfa.plain.run dfa.start_state word = some t := by
      intro s t hs ht
      obtain ⟨word, hword⟩ := hs
      obtain ⟨label, hnext⟩ := DFA.mem_targets.mp ht
      refine ⟨word ++ [label], ?_⟩
      rw [PartialSystem.run_append, hword, Option.bind_some]
      simp [PartialSystem.run, DFA.plain, hnext]
    exact ⟨h.1, reachableFrom_sound dfa.targets _ hedge ⟨[], rfl⟩ h.2⟩
  · intro h
    have hstart := reachableFrom_start dfa.targets dfa.states.length h.start_lt
    obtain ⟨hlt, word, hword⟩ := h
    exact ⟨hlt, marked_of_run hstart (DFA.bounded_run hword hlt)⟩

theorem reachable_states_nodup : (reachable_states dfa).Nodup := List.nodup_range.filter _

/-! ## Classes of states -/

section Classes

variable {dense_to_state class_of : List ℕ}

theorem state_to_dense_eq_some (hnodup : dense_to_state.Nodup) {state dense_id : ℕ} :
    state_to_dense dense_to_state state = some dense_id ↔ dense_to_state[dense_id]? = some state := by
  rw [state_to_dense, List.idxOf?_eq_some_iff, List.getElem?_eq_some_iff]
  constructor
  · intro h
    obtain ⟨hlt, hget, -⟩ := h
    exact ⟨hlt, hget⟩
  · intro h
    obtain ⟨hlt, hget⟩ := h
    refine ⟨hlt, hget, ?_⟩
    intro j hj he
    have hsame : j = dense_id := hnodup.getElem_inj_iff.mp (he.trans hget.symm)
    omega

theorem target_class_eq (hnodup : dense_to_state.Nodup) {state dense_id : ℕ}
    (h : dense_to_state[dense_id]? = some state) :
    target_class dense_to_state class_of state = class_at class_of dense_id := by
  rw [target_class, (state_to_dense_eq_some hnodup).mpr h, Option.getD_some]

theorem target_class_of_not_mem {state : ℕ} (h : state ∉ dense_to_state) :
    target_class dense_to_state class_of state = dead_class dense_to_state class_of := by
  rw [target_class, state_to_dense, List.idxOf?_eq_none_iff.mpr h, Option.getD_none, dead_class]

theorem class_at_eq_iff {i j : ℕ} (hi : i < class_of.length) (hj : j < class_of.length) :
    class_at class_of i = class_at class_of j ↔ class_of[i]? = class_of[j]? := by
  rw [class_at, class_at, List.getD_eq_getElem?_getD, List.getD_eq_getElem?_getD,
    List.getElem?_eq_getElem hi, List.getElem?_eq_getElem hj, Option.getD_some, Option.getD_some,
    Option.some.injEq]

theorem signatures_getElem? {dense_id : ℕ} (h : dense_id < dead dense_to_state + 1) :
    (signatures dfa dense_to_state class_of)[dense_id]? =
      some (signature dfa dense_to_state class_of dense_id) := by
  rw [signatures, List.getElem?_map, List.getElem?_range h, Option.map_some]

theorem length_signatures :
    (signatures dfa dense_to_state class_of).length = dead dense_to_state + 1 := by
  rw [signatures, List.length_map, List.length_range]

/-- A signature contains the class that it refines. -/
theorem refines : Refines (signatures dfa dense_to_state) (dead dense_to_state + 1) where
  length _ := length_signatures
  tells class_of i j hlength hi hj he := by
    rw [signatures_getElem? hi, signatures_getElem? hj, Option.some.injEq] at he
    have hclass : class_at class_of i = class_at class_of j :=
      congrArg SparseRefinementSignature.previous_class he
    exact (class_at_eq_iff (hlength ▸ hi) (hlength ▸ hj)).mp hclass

/-- After a round, places with one class are those with one signature. -/
theorem class_at_refine {i j : ℕ} (hi : i < dead dense_to_state + 1)
    (hj : j < dead dense_to_state + 1) :
    class_at (refine_partition dfa dense_to_state class_of) i =
        class_at (refine_partition dfa dense_to_state class_of) j ↔
      signature dfa dense_to_state class_of i = signature dfa dense_to_state class_of j := by
  have hlength : (refine_partition dfa dense_to_state class_of).length = dead dense_to_state + 1 := by
    rw [refine_partition, length_numbers, length_signatures]
  rw [class_at_eq_iff (hlength ▸ hi) (hlength ▸ hj), refine_partition,
    numbers_eq_iff (length_signatures ▸ hi) (length_signatures ▸ hj), signatures_getElem? hi,
    signatures_getElem? hj, Option.some.injEq]

theorem signature_eq_iff (hnodup : dense_to_state.Nodup) {i j s t : ℕ}
    (hi : dense_to_state[i]? = some s) (hj : dense_to_state[j]? = some t) :
    signature dfa dense_to_state class_of i = signature dfa dense_to_state class_of j ↔
      target_class dense_to_state class_of s = target_class dense_to_state class_of t ∧
      live_transitions dfa dense_to_state class_of s =
        live_transitions dfa dense_to_state class_of t := by
  rw [target_class_eq hnodup hi, target_class_eq hnodup hj, signature, signature, hi, hj,
    SparseRefinementSignature.mk.injEq, SortedMap.ext_iff]

theorem target_class_refine (hnodup : dense_to_state.Nodup) {s t : ℕ} (hs : s ∈ dense_to_state)
    (ht : t ∈ dense_to_state) :
    target_class dense_to_state (refine_partition dfa dense_to_state class_of) s =
        target_class dense_to_state (refine_partition dfa dense_to_state class_of) t ↔
      target_class dense_to_state class_of s = target_class dense_to_state class_of t ∧
      live_transitions dfa dense_to_state class_of s =
        live_transitions dfa dense_to_state class_of t := by
  obtain ⟨i, hi⟩ := List.mem_iff_getElem?.mp hs
  obtain ⟨j, hj⟩ := List.mem_iff_getElem?.mp ht
  rw [← signature_eq_iff hnodup hi hj, target_class_eq hnodup hi, target_class_eq hnodup hj]
  apply class_at_refine
  · exact (List.getElem?_eq_some_iff.mp hi).1.trans (Nat.lt_succ_self _)
  · exact (List.getElem?_eq_some_iff.mp hj).1.trans (Nat.lt_succ_self _)

/-- The sink is alone in its class, and the states of a class accept the empty word alike. -/
structure Separates (dfa : DFA) (dense_to_state class_of : List ℕ) : Prop where
  dead_alone : ∀ s ∈ dense_to_state,
    target_class dense_to_state class_of s ≠ dead_class dense_to_state class_of
  accepting : ∀ s ∈ dense_to_state, ∀ t ∈ dense_to_state,
    target_class dense_to_state class_of s = target_class dense_to_state class_of t →
    dfa.is_accepting s = dfa.is_accepting t

theorem Separates.refine (h : Separates dfa dense_to_state class_of) (hnodup : dense_to_state.Nodup) :
    Separates dfa dense_to_state (refine_partition dfa dense_to_state class_of) where
  dead_alone s hs he := by
    obtain ⟨i, hi⟩ := List.mem_iff_getElem?.mp hs
    rw [target_class_eq hnodup hi, dead_class] at he
    rw [class_at_refine ((List.getElem?_eq_some_iff.mp hi).1.trans (Nat.lt_succ_self _))
      (Nat.lt_succ_self _)] at he
    apply h.dead_alone s hs
    rw [target_class_eq hnodup hi, dead_class]
    exact congrArg SparseRefinementSignature.previous_class he
  accepting s hs t ht he := h.accepting s hs t ht ((target_class_refine hnodup hs ht).mp he).1

theorem initial_class {s : ℕ} (hnodup : dense_to_state.Nodup) (hs : s ∈ dense_to_state) :
    target_class dense_to_state (initial_partition dfa dense_to_state) s =
      if dfa.is_accepting s then 2 else 1 := by
  obtain ⟨i, hi⟩ := List.mem_iff_getElem?.mp hs
  have hlt := (List.getElem?_eq_some_iff.mp hi).1
  rw [target_class_eq hnodup hi, class_at, initial_partition, List.getD_eq_getElem?_getD,
    List.getElem?_append_left (by rwa [List.length_map]), List.getElem?_map, hi, Option.map_some,
    Option.getD_some]

theorem initial_dead_class : dead_class dense_to_state (initial_partition dfa dense_to_state) = 0 := by
  rw [dead_class, class_at, initial_partition, dead, List.getD_eq_getElem?_getD,
    List.getElem?_append_right (by rw [List.length_map]), List.length_map, Nat.sub_self]
  rfl

theorem separates_initial (hnodup : dense_to_state.Nodup) :
    Separates dfa dense_to_state (initial_partition dfa dense_to_state) where
  dead_alone s hs := by
    rw [initial_class hnodup hs, initial_dead_class]
    split_ifs <;> decide
  accepting s hs t ht he := by
    rw [initial_class hnodup hs, initial_class hnodup ht] at he
    cases hacc : dfa.is_accepting s <;> cases hacc' : dfa.is_accepting t <;> simp_all

/-- All targets of the states that exist are among the states. -/
def Closed (dfa : DFA) (dense_to_state : List ℕ) : Prop :=
  ∀ s ∈ dense_to_state, ∀ label target, dfa.next s label = some target →
    (target ∈ dense_to_state ↔ target < dfa.states.length)

theorem closed_reachable_states : Closed dfa (reachable_states dfa) := by
  intro s hs label target hnext
  rw [mem_reachable_states] at hs ⊢
  exact ⟨fun h => h.1, fun hlt => hs.next hnext hlt⟩

theorem Closed.step (h : Closed dfa dense_to_state) {s t : ℕ} {label : Label} (hs : s ∈ dense_to_state)
    (hstep : dfa.bounded.step s label = some t) : t ∈ dense_to_state := by
  obtain ⟨hnext, hlt⟩ := DFA.bounded_step_eq_some.mp hstep
  exact (h s hs label t hnext).mpr hlt

/-- The live transitions are the steps to existing states, with the classes of these. -/
theorem get_live_transitions (h : Separates dfa dense_to_state class_of)
    (hclosed : Closed dfa dense_to_state) {s : ℕ} (hs : s ∈ dense_to_state) (label : Label) :
    (live_transitions dfa dense_to_state class_of s).get label =
      (dfa.bounded.step s label).map (target_class dense_to_state class_of) := by
  rw [live_transitions, SortedMap.get_filterMapValues, ← DFA.next_eq, DFA.bounded]
  dsimp only
  cases hnext : dfa.next s label with
  | none => rfl
  | some target =>
      rw [Option.bind_some, Option.filter_some]
      by_cases hlt : target < dfa.states.length
      · have hmem := (hclosed s hs label target hnext).mpr hlt
        rw [if_pos (h.dead_alone target hmem), if_pos (decide_eq_true hlt), Option.map_some]
      · have hmem : target ∉ dense_to_state := fun hmem =>
          hlt ((hclosed s hs label target hnext).mp hmem)
        rw [if_neg (not_not.mpr (target_class_of_not_mem hmem)), if_neg (by simpa using hlt),
          Option.map_none]

/-- Related states are in one class. -/
def Coarse (r : ℕ → ℕ → Prop) (dense_to_state class_of : List ℕ) : Prop :=
  ∀ s ∈ dense_to_state, ∀ t ∈ dense_to_state, r s t →
    target_class dense_to_state class_of s = target_class dense_to_state class_of t

variable {r : ℕ → ℕ → Prop}

theorem coarse_initial (hnodup : dense_to_state.Nodup)
    (hr : ∀ s t, r s t → dfa.is_accepting s = dfa.is_accepting t) :
    Coarse r dense_to_state (initial_partition dfa dense_to_state) := by
  intro s hs t ht hst
  rw [initial_class hnodup hs, initial_class hnodup ht, hr s t hst]

/-- A round separates no states that are related with all their steps. -/
theorem Coarse.refine (hcoarse : Coarse r dense_to_state class_of)
    (h : Separates dfa dense_to_state class_of) (hnodup : dense_to_state.Nodup)
    (hclosed : Closed dfa dense_to_state)
    (hr : ∀ s t label, r s t → Option.Rel r (dfa.bounded.step s label) (dfa.bounded.step t label)) :
    Coarse r dense_to_state (refine_partition dfa dense_to_state class_of) := by
  intro s hs t ht hst
  rw [target_class_refine hnodup hs ht]
  refine ⟨hcoarse s hs t ht hst, ?_⟩
  apply SortedMap.ext_get
  intro label
  rw [get_live_transitions h hclosed hs, get_live_transitions h hclosed ht]
  have hrel := hr s t label hst
  cases hs' : dfa.bounded.step s label with
  | none =>
      rw [hs'] at hrel
      cases ht' : dfa.bounded.step t label with
      | none => rfl
      | some t' =>
          rw [ht'] at hrel
          cases hrel
  | some s' =>
      rw [hs'] at hrel
      cases ht' : dfa.bounded.step t label with
      | none =>
          rw [ht'] at hrel
          cases hrel
      | some t' =>
          rw [ht'] at hrel
          cases hrel with
          | some hrel =>
              exact congrArg some (hcoarse s' (hclosed.step hs hs') t' (hclosed.step ht ht') hrel)

/-- A relation of states that accept the empty word alike and have related steps. -/
structure Bisimulation (dfa : DFA) (r : ℕ → ℕ → Prop) : Prop where
  accepting : ∀ s t, r s t → dfa.is_accepting s = dfa.is_accepting t
  step : ∀ s t label, r s t → Option.Rel r (dfa.bounded.step s label) (dfa.bounded.step t label)

/-- The classes of the targets tell no states of one class apart, and related states are in
one class. -/
structure Stable (dfa : DFA) (dense_to_state class_of : List ℕ) : Prop where
  separates : Separates dfa dense_to_state class_of
  step : ∀ s ∈ dense_to_state, ∀ t ∈ dense_to_state,
    target_class dense_to_state class_of s = target_class dense_to_state class_of t → ∀ label,
      (dfa.bounded.step s label).map (target_class dense_to_state class_of) =
        (dfa.bounded.step t label).map (target_class dense_to_state class_of)
  coarse : ∀ r, Bisimulation dfa r → Coarse r dense_to_state class_of

/-- The rounds end with stable classes. -/
theorem rounds_yield (hnodup : dense_to_state.Nodup) (hclosed : Closed dfa dense_to_state) :
    ∃ class_of, Yields (fun fuel => loop (fun _ class_of => some (refine dfa dense_to_state class_of))
      fuel (initial_partition dfa dense_to_state)) class_of ∧ Stable dfa dense_to_state class_of := by
  obtain ⟨class_of, hy, -, ⟨hseparates, hcoarse⟩, hfixed⟩ := refines.rounds_yield
    (I := fun class_of => Separates dfa dense_to_state class_of ∧
      ∀ r, Bisimulation dfa r → Coarse r dense_to_state class_of) (by
      intro class_of _ h
      refine ⟨h.1.refine hnodup, ?_⟩
      intro r hr
      exact (h.2 r hr).refine h.1 hnodup hclosed hr.step)
    (show (initial_partition dfa dense_to_state).length = dead dense_to_state + 1 by
      rw [initial_partition, List.length_append, List.length_map, List.length_singleton, dead])
    ⟨separates_initial hnodup, fun r hr => coarse_initial hnodup hr.accepting⟩
  refine ⟨class_of, hy, hseparates, ?_, hcoarse⟩
  intro s hs t ht he label
  rw [← get_live_transitions hseparates hclosed hs, ← get_live_transitions hseparates hclosed ht]
  change refine_partition dfa dense_to_state class_of = class_of at hfixed
  rw [← hfixed, target_class_refine hnodup hs ht] at he
  rw [he.2]

/-! ## The new automaton -/

theorem class_to_new_state_eq (hnodup : dense_to_state.Nodup) :
    class_to_new_state dfa dense_to_state class_of =
      tableFrom [target_class dense_to_state class_of dfa.start_state]
        ((dense_to_state.map (target_class dense_to_state class_of)).filter
          (· ≠ dead_class dense_to_state class_of)) := by
  have hfold : ∀ (l : List (ℕ × ℕ)) (classes : List ℕ), (∀ e ∈ l, dense_to_state[e.2]? = some e.1) →
      l.foldl (fun classes entry =>
        if class_at class_of entry.2 = dead_class dense_to_state class_of ∨
          class_at class_of entry.2 ∈ classes then classes
        else classes ++ [class_at class_of entry.2]) classes =
      tableFrom classes (((l.map Prod.fst).map (target_class dense_to_state class_of)).filter
        (· ≠ dead_class dense_to_state class_of)) := by
    intro l
    induction l with
    | nil => exact fun _ _ => rfl
    | cons e l ih =>
        intro classes hl
        have he : target_class dense_to_state class_of e.1 = class_at class_of e.2 :=
          target_class_eq hnodup (hl e List.mem_cons_self)
        rw [List.foldl_cons, ih _ fun e' he' => hl e' (List.mem_cons_of_mem _ he'), List.map_cons,
          List.map_cons, List.filter_cons, he]
        by_cases hdead : class_at class_of e.2 = dead_class dense_to_state class_of
        · rw [if_pos (Or.inl hdead), if_neg (by simpa using hdead)]
        · have hkeep : decide (class_at class_of e.2 ≠ dead_class dense_to_state class_of) = true :=
            decide_eq_true hdead
          rw [if_pos hkeep, tableFrom, tableFrom, List.foldl_cons]
          congr 1
          unfold intern
          by_cases hmem : class_at class_of e.2 ∈ classes
          · rw [if_pos (Or.inr hmem), if_pos hmem]
          · rw [if_neg (not_or.mpr ⟨hdead, hmem⟩), if_neg hmem]
  rw [class_to_new_state, hfold _ _ fun e he => by simpa using List.mem_zipIdx_iff_getElem?.mp he,
    List.zipIdx_map_fst]

/-- The classes of the new states are those of the states, without repetition. -/
theorem classes_spec (hnodup : dense_to_state.Nodup) (h : Separates dfa dense_to_state class_of)
    (hstart : dfa.start_state ∈ dense_to_state) :
    (class_to_new_state dfa dense_to_state class_of)[0]? =
        some (target_class dense_to_state class_of dfa.start_state) ∧
      (class_to_new_state dfa dense_to_state class_of).Nodup ∧
      ∀ c, c ∈ class_to_new_state dfa dense_to_state class_of ↔
        ∃ s ∈ dense_to_state, target_class dense_to_state class_of s = c := by
  obtain ⟨new, htable, hall, hnew, hunique⟩ := tableFrom_spec
    [target_class dense_to_state class_of dfa.start_state]
    ((dense_to_state.map (target_class dense_to_state class_of)).filter
      (· ≠ dead_class dense_to_state class_of))
  rw [class_to_new_state_eq hnodup, htable]
  refine ⟨rfl, hunique (List.nodup_singleton _), ?_⟩
  intro c
  constructor
  · intro hc
    obtain hc | hc := List.mem_append.mp hc
    · exact ⟨dfa.start_state, hstart, (List.mem_singleton.mp hc).symm⟩
    · obtain ⟨s, hs, he⟩ := List.mem_map.mp (List.mem_filter.mp (hnew c hc)).1
      exact ⟨s, hs, he⟩
  · intro hc
    obtain ⟨s, hs, rfl⟩ := hc
    apply hall
    rw [List.mem_filter]
    exact ⟨List.mem_map_of_mem hs, by simpa using h.dead_alone s hs⟩

/-- The row that a state gives to the new state of its class. -/
def newRow (dfa : DFA) (dense_to_state class_of classes : List ℕ) (state : ℕ) : DFAState :=
  ⟨dfa.is_accepting state, new_transitions dfa dense_to_state class_of classes state⟩

/-- A new state that is filled has the row of a state of its class; the classes that were seen
are filled. -/
structure Filling (dfa : DFA) (dense_to_state class_of classes : List ℕ) (new : NewStates)
    (seen : List ℕ) : Prop where
  states : new.states.length = classes.length
  filled : new.filled.length = classes.length
  row : ∀ i : ℕ, new.filled[i]? = some true → ∃ s ∈ dense_to_state,
    classes[i]? = some (target_class dense_to_state class_of s) ∧
      new.states[i]? = some (newRow dfa dense_to_state class_of classes s)
  seen : ∀ s ∈ seen,
    new.filled[classes.idxOf (target_class dense_to_state class_of s)]? = some true

variable {classes : List ℕ}

theorem filling_start : Filling dfa dense_to_state class_of classes
    ⟨List.replicate classes.length default, List.replicate classes.length false⟩ [] where
  states := List.length_replicate
  filled := List.length_replicate
  row i hi := by
    rw [List.getElem?_replicate] at hi
    split_ifs at hi
    cases hi
  seen s hs := by cases hs

theorem Filling.fill {new : NewStates} {seen : List ℕ}
    (h : Filling dfa dense_to_state class_of classes new seen) (hnodup : dense_to_state.Nodup)
    (hseparates : Separates dfa dense_to_state class_of) {entry : ℕ × ℕ}
    (hentry : dense_to_state[entry.2]? = some entry.1)
    (hmem : target_class dense_to_state class_of entry.1 ∈ classes) :
    Filling dfa dense_to_state class_of classes
      (fill dfa dense_to_state class_of classes new entry) (entry.1 :: seen) := by
  have hs := List.mem_of_getElem? hentry
  have hclass : target_class dense_to_state class_of entry.1 = class_at class_of entry.2 :=
    target_class_eq hnodup hentry
  have hlt : classes.idxOf (target_class dense_to_state class_of entry.1) < new.filled.length :=
    h.filled ▸ List.idxOf_lt_length_of_mem hmem
  rw [MinimizeCyclic.fill, ← hclass, if_neg (hseparates.dead_alone _ hs)]
  dsimp only
  split_ifs with hfalse
  · refine ⟨List.length_set.trans h.states, List.length_set.trans h.filled, ?_, ?_⟩
    · intro i hi
      by_cases he : classes.idxOf (target_class dense_to_state class_of entry.1) = i
      · refine ⟨entry.1, hs, ?_, ?_⟩
        · rw [← he]
          exact List.getElem?_idxOf hmem
        · rw [← he]
          exact List.getElem?_set_self (h.states.trans h.filled.symm ▸ hlt)
      · rw [List.getElem?_set_ne he] at hi
        obtain ⟨s, hs, hi, hrow⟩ := h.row i hi
        exact ⟨s, hs, hi, (List.getElem?_set_ne he).trans hrow⟩
    · intro s hs
      by_cases he : classes.idxOf (target_class dense_to_state class_of entry.1) =
          classes.idxOf (target_class dense_to_state class_of s)
      · rw [← he]
        exact List.getElem?_set_self hlt
      · rw [List.getElem?_set_ne he]
        obtain rfl | hs := List.mem_cons.mp hs
        · exact absurd rfl he
        · exact h.seen s hs
  · refine ⟨h.states, h.filled, h.row, ?_⟩
    intro s hs
    obtain rfl | hs := List.mem_cons.mp hs
    · rw [List.getElem?_eq_getElem hlt] at hfalse ⊢
      rw [Bool.eq_true_of_not_eq_false fun he => hfalse (congrArg some he)]
    · exact h.seen s hs

theorem Filling.foldl {new : NewStates} {seen : List ℕ} {l : List (ℕ × ℕ)}
    (h : Filling dfa dense_to_state class_of classes new seen) (hnodup : dense_to_state.Nodup)
    (hseparates : Separates dfa dense_to_state class_of)
    (hl : ∀ entry ∈ l, dense_to_state[entry.2]? = some entry.1)
    (hmem : ∀ s ∈ dense_to_state, target_class dense_to_state class_of s ∈ classes) :
    Filling dfa dense_to_state class_of classes
      (l.foldl (MinimizeCyclic.fill dfa dense_to_state class_of classes) new)
      ((l.map Prod.fst).reverse ++ seen) := by
  induction l generalizing new seen with
  | nil => exact h
  | cons entry l ih =>
      have hentry := hl entry List.mem_cons_self
      rw [List.foldl_cons, List.map_cons, List.reverse_cons, List.append_assoc, List.singleton_append]
      exact ih (h.fill hnodup hseparates hentry (hmem _ (List.mem_of_getElem? hentry)))
        fun e he => hl e (List.mem_cons_of_mem _ he)

/-- Every new state has the row of a state of its class. -/
structure Built (dfa : DFA) (dense_to_state class_of classes : List ℕ) (result : DFA) : Prop where
  length : result.states.length = classes.length
  start_state : result.start_state = 0
  row : ∀ (i : ℕ) c, classes[i]? = some c → ∃ s ∈ dense_to_state,
    target_class dense_to_state class_of s = c ∧
      result.states[i]? = some (newRow dfa dense_to_state class_of classes s)

theorem built (hnodup : dense_to_state.Nodup) (h : Separates dfa dense_to_state class_of)
    (hstart : dfa.start_state ∈ dense_to_state) :
    Built dfa dense_to_state class_of (class_to_new_state dfa dense_to_state class_of)
      (build_minimized_cyclic_dfa dfa dense_to_state class_of) := by
  obtain ⟨-, hunique, hmem⟩ := classes_spec hnodup h hstart
  generalize hclasses : class_to_new_state dfa dense_to_state class_of = classes at hunique hmem ⊢
  have hzip : ∀ entry ∈ dense_to_state.zipIdx, dense_to_state[entry.2]? = some entry.1 :=
    fun entry hentry => by simpa using List.mem_zipIdx_iff_getElem?.mp hentry
  have hfilled := filling_start.foldl hnodup h hzip fun s hs => (hmem _).mpr ⟨s, hs, rfl⟩
  rw [List.zipIdx_map_fst, List.append_nil] at hfilled
  rw [build_minimized_cyclic_dfa, hclasses]
  refine ⟨hfilled.states, rfl, ?_⟩
  intro i c hc
  obtain ⟨s, hs, rfl⟩ := (hmem c).mp (List.mem_of_getElem? hc)
  have hseen := hfilled.seen s (List.mem_reverse.mpr hs)
  have hi : classes.idxOf (target_class dense_to_state class_of s) = i := by
    obtain ⟨hlt, hget⟩ := List.getElem?_eq_some_iff.mp hc
    rw [← hget]
    exact hunique.idxOf_getElem i hlt
  rw [hi] at hseen
  obtain ⟨t, ht, hclass, hrow⟩ := hfilled.row i hseen
  exact ⟨t, ht, Option.some.inj (hclass.symm.trans hc), hrow⟩

theorem get_new_transitions (hnodup : dense_to_state.Nodup) (hunique : classes.Nodup)
    (h : Separates dfa dense_to_state class_of) (hclosed : Closed dfa dense_to_state)
    (hmem : ∀ s ∈ dense_to_state, target_class dense_to_state class_of s ∈ classes) {s : ℕ}
    (hs : s ∈ dense_to_state) (label : Label) :
    (new_transitions dfa dense_to_state class_of classes s).get label =
      (dfa.bounded.step s label).map fun t =>
        classes.idxOf (target_class dense_to_state class_of t) := by
  rw [new_transitions, SortedMap.get_filterMapValues, ← DFA.next_eq]
  cases hnext : dfa.next s label with
  | none =>
      rw [DFA.bounded]
      simp only [hnext, Option.bind_none, Option.filter_none, Option.map_none]
  | some t =>
      rw [Option.bind_some]
      by_cases hlt : t < dfa.states.length
      · have ht := (hclosed s hs label t hnext).mpr hlt
        obtain ⟨d, hd⟩ := List.mem_iff_getElem?.mp ht
        rw [(state_to_dense_eq_some hnodup).mpr hd, Option.bind_some, ← target_class_eq hnodup hd,
          if_neg (h.dead_alone t ht), DFA.bounded_step_eq_some.mpr ⟨hnext, hlt⟩, Option.map_some]
        exact (state_to_dense_eq_some hunique).mpr (List.getElem?_idxOf (hmem t ht))
      · have ht : t ∉ dense_to_state := fun ht => hlt ((hclosed s hs label t hnext).mp ht)
        have hnone : dfa.bounded.step s label = none := by
          rw [DFA.bounded]
          simp only [hnext, Option.filter_some, decide_eq_true_eq, if_neg hlt]
        rw [state_to_dense, List.idxOf?_eq_none_iff.mpr ht, hnone]
        rfl

/-- The new state is the class of the state. -/
def Represents (dense_to_state class_of classes : List ℕ) (i s : ℕ) : Prop :=
  s ∈ dense_to_state ∧ classes[i]? = some (target_class dense_to_state class_of s)

section Result

variable {result : DFA} (hnodup : dense_to_state.Nodup) (hunique : classes.Nodup)
  (hstable : Stable dfa dense_to_state class_of) (hclosed : Closed dfa dense_to_state)
  (hmem : ∀ s ∈ dense_to_state, target_class dense_to_state class_of s ∈ classes)
  (hbuilt : Built dfa dense_to_state class_of classes result)
include hnodup hunique hstable hclosed hmem hbuilt

theorem represents_step {i s : ℕ} (h : Represents dense_to_state class_of classes i s)
    (label : Label) : Option.Rel (Represents dense_to_state class_of classes)
      (result.plain.step i label) (dfa.bounded.step s label) := by
  obtain ⟨hs, hi⟩ := h
  obtain ⟨t, ht, hclass, hrow⟩ := hbuilt.row i _ hi
  have hnext : result.plain.step i label = (dfa.bounded.step s label).map fun t =>
      classes.idxOf (target_class dense_to_state class_of t) := by
    have hsame := hstable.step t ht s hs hclass label
    calc result.plain.step i label
        = (newRow dfa dense_to_state class_of classes t).transitions.get label := by
          rw [DFA.plain]
          simp only [DFA.next, hrow, Option.bind_some]
      _ = (dfa.bounded.step t label).map fun t =>
            classes.idxOf (target_class dense_to_state class_of t) :=
          get_new_transitions hnodup hunique hstable.separates hclosed hmem ht label
      _ = ((dfa.bounded.step t label).map (target_class dense_to_state class_of)).map
            fun c => classes.idxOf c := by
          rw [Option.map_map]
          rfl
      _ = (dfa.bounded.step s label).map fun t =>
            classes.idxOf (target_class dense_to_state class_of t) := by
          rw [hsame]
          exact Option.map_map _ _ _
  rw [hnext]
  cases hstep : dfa.bounded.step s label with
  | none => exact Option.Rel.none
  | some s' =>
      have hs' := hclosed.step hs hstep
      exact Option.Rel.some ⟨hs', List.getElem?_idxOf (hmem s' hs')⟩

theorem represents_accepts {i s : ℕ} (h : Represents dense_to_state class_of classes i s)
    (word : List Label) : result.plain.accepts i word = dfa.plain.accepts s word := by
  rw [← DFA.bounded_accepts s]
  apply PartialSystem.accepts_eq_of_related (r := Represents dense_to_state class_of classes) _
    (fun i s label h => represents_step hnodup hunique hstable hclosed hmem hbuilt h label) h
  intro i s h
  obtain ⟨hs, hi⟩ := h
  obtain ⟨t, ht, hclass, hrow⟩ := hbuilt.row i _ hi
  change result.is_accepting i = dfa.is_accepting s
  rw [DFA.is_accepting_eq hrow]
  exact hstable.separates.accepting t ht s hs hclass

/-- A new state is reached by the words that reach a state of its class. -/
theorem represents_reachable (hstart : classes[0]? =
      some (target_class dense_to_state class_of dfa.start_state))
    (hfirst : dfa.start_state ∈ dense_to_state) {i s : ℕ}
    (h : Represents dense_to_state class_of classes i s) (hs : dfa.Reachable s) :
    result.Reachable i := by
  obtain ⟨hlt, word, hword⟩ := hs
  refine ⟨hbuilt.length ▸ (List.getElem?_eq_some_iff.mp h.2).1, word, ?_⟩
  have hrun := PartialSystem.run_rel
    (fun i s label h => represents_step hnodup hunique hstable hclosed hmem hbuilt h label)
    (show Represents dense_to_state class_of classes 0 dfa.start_state from ⟨hfirst, hstart⟩) word
  rw [DFA.bounded_run hword hlt] at hrun
  rw [hbuilt.start_state]
  cases hend : result.plain.run 0 word with
  | none =>
      rw [hend] at hrun
      cases hrun
  | some j =>
      rw [hend] at hrun
      cases hrun with
      | some hj =>
          obtain ⟨hilt, hi⟩ := List.getElem?_eq_some_iff.mp h.2
          obtain ⟨hjlt, hj⟩ := List.getElem?_eq_some_iff.mp hj.2
          rw [hunique.getElem_inj_iff.mp (hj.trans hi.symm)]

end Result

end Classes

/-! ## The number of states -/

/-- Every reachable state is live, or no word is accepted and the reachable states have edges to
existing states for the same labels. -/
def NoSplitDead (dfa : DFA) : Prop :=
  (∀ s, dfa.Reachable s → dfa.Live s) ∨
    ((∀ word, dfa.accepts_word word = false) ∧ ∀ s t, dfa.Reachable s → dfa.Reachable t →
      ∀ label, dfa.HasEdge s label ↔ dfa.HasEdge t label)

/-- Live states with the same residual language have related steps. -/
theorem bisimulation_of_live (h : ∀ s, dfa.Reachable s → dfa.Live s) :
    Bisimulation dfa fun s t => (dfa.Reachable s ∧ dfa.Reachable t) ∧
      ∀ word, dfa.plain.accepts s word = dfa.plain.accepts t word where
  accepting s t hst := hst.2 []
  step s t label hst := by
    have htarget : ∀ s t, dfa.Reachable s → dfa.Reachable t →
        (∀ word, dfa.plain.accepts s word = dfa.plain.accepts t word) →
        ∀ s', dfa.bounded.step s label = some s' → ∃ t', dfa.bounded.step t label = some t' ∧
          ∀ word, dfa.plain.accepts s' word = dfa.plain.accepts t' word := by
      intro s t hs _ hst s' hs'
      obtain ⟨hnext, -⟩ := DFA.bounded_step_eq_some.mp hs'
      obtain ⟨word, hword⟩ := h s' (hs.step hs')
      rw [← DFA.plain_accepts_cons hnext, hst] at hword
      cases hnext' : dfa.next t label with
      | none =>
          rw [DFA.plain_accepts_cons_none hnext'] at hword
          cases hword
      | some t' =>
          rw [DFA.plain_accepts_cons hnext'] at hword
          refine ⟨t', DFA.bounded_step_eq_some.mpr ⟨hnext', DFA.lt_of_plain_accepts hword⟩, ?_⟩
          intro word
          rw [← DFA.plain_accepts_cons hnext, hst, DFA.plain_accepts_cons hnext']
    obtain ⟨⟨hs, ht⟩, hst⟩ := hst
    cases hs' : dfa.bounded.step s label with
    | none =>
        cases ht' : dfa.bounded.step t label with
        | none => exact Option.Rel.none
        | some t' =>
            obtain ⟨s', hsome, -⟩ := htarget t s ht hs (fun word => (hst word).symm) t' ht'
            rw [hs'] at hsome
            cases hsome
    | some s' =>
        obtain ⟨t', ht', hsame⟩ := htarget s t hs ht hst s' hs'
        rw [ht']
        exact Option.Rel.some ⟨⟨hs.step hs', ht.step ht'⟩, hsame⟩

theorem hasEdge_iff {s : ℕ} {label : Label} :
    dfa.HasEdge s label ↔ ∃ t, dfa.bounded.step s label = some t := by
  unfold DFA.HasEdge
  simp only [DFA.bounded_step_eq_some]

/-- When no word is accepted, states with edges for the same labels have related steps. -/
theorem bisimulation_of_dead (hempty : ∀ word, dfa.accepts_word word = false)
    (hedges : ∀ s t, dfa.Reachable s → dfa.Reachable t → ∀ label,
      dfa.HasEdge s label ↔ dfa.HasEdge t label) :
    Bisimulation dfa fun s t => dfa.Reachable s ∧ dfa.Reachable t where
  accepting s t hst := by
    have hdead : ∀ s, dfa.Reachable s → dfa.is_accepting s = false := by
      intro s hs
      obtain ⟨-, word, hword⟩ := hs
      have hno := hempty (word ++ [])
      rw [DFA.accepts_word, PartialSystem.accepts_append hword] at hno
      exact hno
    rw [hdead s hst.1, hdead t hst.2]
  step s t label hst := by
    have hiff := hedges s t hst.1 hst.2 label
    rw [hasEdge_iff, hasEdge_iff] at hiff
    cases hs' : dfa.bounded.step s label with
    | none =>
        cases ht' : dfa.bounded.step t label with
        | none => exact Option.Rel.none
        | some t' =>
            obtain ⟨s', hsome⟩ := hiff.mpr ⟨t', ht'⟩
            rw [hs'] at hsome
            cases hsome
    | some s' =>
        obtain ⟨t', ht'⟩ := hiff.mp ⟨s', hs'⟩
        rw [ht']
        exact Option.Rel.some ⟨hst.1.step hs', hst.2.step ht'⟩

/-- Without a reachable state there is no word. -/
theorem accepts_word_of_unreachable (h : ∀ s, ¬dfa.Reachable s) (word : List Label) :
    dfa.accepts_word word = false := by
  by_contra hacc
  rw [Bool.not_eq_false] at hacc
  exact h _ (DFA.Reachable.start (DFA.lt_of_plain_accepts hacc))

/-- What is known of the result when there are reachable states. -/
structure Minimized (dfa result : DFA) : Prop where
  accepts_word : ∀ word, result.accepts_word word = dfa.accepts_word word
  reachable : ∀ i < result.states.length, result.Reachable i
  /-- Every new state stands for a reachable state with the same words. -/
  source : ∀ i < result.states.length, ∃ s, dfa.Reachable s ∧
    ∀ word, result.plain.accepts i word = dfa.plain.accepts s word
  image : ∀ s, dfa.Reachable s → ∃ i < result.states.length,
    ∀ word, result.plain.accepts i word = dfa.plain.accepts s word
  /-- Related states are one state. -/
  merged : ∀ r, Bisimulation dfa r → (∀ s t, dfa.Reachable s → dfa.Reachable t →
    (∀ word, dfa.plain.accepts s word = dfa.plain.accepts t word) → r s t) →
    ∀ i < result.states.length, ∀ j < result.states.length,
      (∀ word, result.plain.accepts i word = result.plain.accepts j word) → i = j
  /-- States with edges for different labels stay apart. -/
  apart : ∀ s t label, dfa.Reachable s → dfa.Reachable t → dfa.HasEdge s label →
    ¬dfa.HasEdge t label → 2 ≤ result.states.length

theorem minimized {class_of : List ℕ} (hstart : dfa.Reachable dfa.start_state)
    (hstable : Stable dfa (reachable_states dfa) class_of) :
    Minimized dfa (build_minimized_cyclic_dfa dfa (reachable_states dfa) class_of) := by
  have hnodup : (reachable_states dfa).Nodup := reachable_states_nodup
  have hclosed : Closed dfa (reachable_states dfa) := closed_reachable_states
  have hfirst := mem_reachable_states.mpr hstart
  have hbuilt := built hnodup hstable.separates hfirst
  obtain ⟨hzero, hunique, hclasses⟩ := classes_spec hnodup hstable.separates hfirst
  generalize hc : class_to_new_state dfa (reachable_states dfa) class_of = classes
    at hbuilt hzero hunique hclasses
  generalize build_minimized_cyclic_dfa dfa (reachable_states dfa) class_of = result at hbuilt ⊢
  have hmem : ∀ s ∈ reachable_states dfa,
      target_class (reachable_states dfa) class_of s ∈ classes :=
    fun s hs => (hclasses _).mpr ⟨s, hs, rfl⟩
  have haccepts : ∀ i s, Represents (reachable_states dfa) class_of classes i s → ∀ word,
      result.plain.accepts i word = dfa.plain.accepts s word :=
    fun i s h => represents_accepts hnodup hunique hstable hclosed hmem hbuilt h
  have hsource : ∀ i < result.states.length, ∃ s, dfa.Reachable s ∧
      Represents (reachable_states dfa) class_of classes i s := by
    intro i hi
    rw [hbuilt.length] at hi
    obtain ⟨s, hs, he⟩ := (hclasses _).mp (List.getElem_mem hi)
    exact ⟨s, mem_reachable_states.mp hs, hs, he ▸ List.getElem?_eq_getElem hi⟩
  have himage : ∀ s, dfa.Reachable s → ∃ i < result.states.length,
      Represents (reachable_states dfa) class_of classes i s := by
    intro s hs
    have hs' := mem_reachable_states.mpr hs
    refine ⟨_, ?_, hs', List.getElem?_idxOf (hmem s hs')⟩
    rw [hbuilt.length]
    exact List.idxOf_lt_length_of_mem (hmem s hs')
  refine ⟨?_, ?_, ?_, ?_, ?_, ?_⟩
  · intro word
    rw [DFA.accepts_word, hbuilt.start_state]
    exact haccepts 0 dfa.start_state ⟨hfirst, hzero⟩ word
  · intro i hi
    obtain ⟨s, hs, hrepr⟩ := hsource i hi
    exact represents_reachable hnodup hunique hstable hclosed hmem hbuilt hzero hfirst hrepr hs
  · intro i hi
    obtain ⟨s, hs, hrepr⟩ := hsource i hi
    exact ⟨s, hs, haccepts i s hrepr⟩
  · intro s hs
    obtain ⟨i, hi, hrepr⟩ := himage s hs
    exact ⟨i, hi, haccepts i s hrepr⟩
  · intro r hr hall i hi j hj he
    obtain ⟨s, hs, hrepr⟩ := hsource i hi
    obtain ⟨t, ht, hrepr'⟩ := hsource j hj
    have hst := hall s t hs ht fun word => by
      rw [← haccepts i s hrepr, ← haccepts j t hrepr', he]
    have hclass := hstable.coarse r hr s hrepr.1 t hrepr'.1 hst
    obtain ⟨_, hi⟩ := List.getElem?_eq_some_iff.mp hrepr.2
    obtain ⟨_, hj⟩ := List.getElem?_eq_some_iff.mp hrepr'.2
    exact hunique.getElem_inj_iff.mp ((hi.trans hclass).trans hj.symm)
  · intro s t label hs ht hedge hno
    obtain ⟨i, hi, hrepr⟩ := himage s hs
    obtain ⟨j, hj, hrepr'⟩ := himage t ht
    by_contra hlt
    obtain rfl : i = j := by omega
    have hclass := Option.some.inj (hrepr.2.symm.trans hrepr'.2)
    have hsame := hstable.step s hrepr.1 t hrepr'.1 hclass label
    obtain ⟨s', hs'⟩ := hasEdge_iff.mp hedge
    rw [hs', Option.map_some, eq_comm, Option.map_eq_some_iff] at hsame
    obtain ⟨t', ht', -⟩ := hsame
    exact hno (hasEdge_iff.mpr ⟨t', ht'⟩)

/-- The result has the fewest states if and only if no reachable state is dead while others are
live, and dead states are not told apart by their edges. -/
theorem Minimized.fewest_iff {result : DFA} (h : Minimized dfa result) : DFA.Fewest dfa result ↔ NoSplitDead dfa := by
  constructor
  · intro hfewest
    by_cases hlive : dfa.Live dfa.start_state
    · left
      intro s hs
      by_contra hdead
      obtain ⟨i, hi, hsame⟩ := h.image s hs
      have hstart' : result.Live result.start_state := by
        obtain ⟨word, hword⟩ := hlive
        exact ⟨word, (h.accepts_word word).trans hword⟩
      apply DFA.not_fewest_of_dead h.accepts_word hstart' hi _ hfewest
      intro hi'
      obtain ⟨word, hword⟩ := hi'
      exact hdead ⟨word, (hsame word).symm.trans hword⟩
    · have hempty : ∀ word, dfa.accepts_word word = false := fun word =>
        Bool.eq_false_of_not_eq_true fun hword => hlive ⟨word, hword⟩
      right
      refine ⟨hempty, ?_⟩
      -- one state would accept as much
      have hone : result.states.length ≤ 1 := by
        apply hfewest DFA.new (List.cons_ne_nil _ _)
        intro word
        rw [hempty word, DFA.new_accepts_word]
      have hsub : ∀ s t, dfa.Reachable s → dfa.Reachable t → ∀ label, dfa.HasEdge s label →
          dfa.HasEdge t label := by
        intro s t hs ht label hedge
        by_contra hno
        have htwo := h.apart s t label hs ht hedge hno
        omega
      intro s t hs ht label
      exact ⟨hsub s t hs ht label, hsub t s ht hs label⟩
  · intro hcond
    obtain hlive | ⟨hempty, hedges⟩ := hcond
    · apply DFA.fewest_of_residuals h.accepts_word h.reachable
      · intro i hi
        obtain ⟨s, hs, hsame⟩ := h.source i hi
        obtain ⟨word, hword⟩ := hlive s hs
        exact ⟨word, (hsame word).trans hword⟩
      · exact h.merged _ (bisimulation_of_live hlive) fun s t hs ht hst => ⟨⟨hs, ht⟩, hst⟩
    · apply DFA.fewest_of_le_one
      by_contra hlt
      have hdead : ∀ i < result.states.length, ∀ word, result.plain.accepts i word = false := by
        intro i hi word
        obtain ⟨-, path, hpath⟩ := h.reachable i hi
        have hno := hempty (path ++ word)
        rwa [← h.accepts_word, DFA.accepts_word, PartialSystem.accepts_append hpath] at hno
      have hsame := h.merged _ (bisimulation_of_dead hempty hedges) (fun s t hs ht _ => ⟨hs, ht⟩)
        0 (by omega) 1 (by omega) fun word => by rw [hdead 0 (by omega), hdead 1 (by omega)]
      cases hsame

/-- The minimised automaton accepts the same words, and has the fewest states if and only if the
reachable states are all live or are dead states with the same labels. -/
theorem minimize_cyclic_correct (dfa : DFA) : ∃ result, Yields (minimize_cyclic dfa) result ∧
    (∀ word, result.accepts_word word = dfa.accepts_word word) ∧
    (DFA.Fewest dfa result ↔ NoSplitDead dfa) := by
  by_cases hstates : dfa.states = []
  · have hnone : ∀ s, ¬dfa.Reachable s := by
      intro s hs
      have hlt := hs.1
      rw [hstates] at hlt
      exact absurd hlt (Nat.not_lt_zero s)
    refine ⟨dfa, ?_, fun word => rfl, ?_⟩
    · unfold minimize_cyclic
      simp only [if_pos hstates]
      exact Yields.const dfa
    · refine iff_of_true (DFA.fewest_of_le_one ?_) (Or.inl fun s hs => absurd hs (hnone s))
      rw [hstates]
      exact Nat.zero_le 1
  by_cases hreachable : reachable_states dfa = []
  · have hnone : ∀ s, ¬dfa.Reachable s := by
      intro s hs
      rw [← mem_reachable_states, hreachable] at hs
      cases hs
    refine ⟨DFA.new, ?_, ?_, ?_⟩
    · unfold minimize_cyclic
      simp only [if_neg hstates, if_pos hreachable]
      exact Yields.const DFA.new
    · intro word
      rw [accepts_word_of_unreachable hnone, DFA.new_accepts_word]
    · exact iff_of_true (DFA.fewest_of_le_one le_rfl) (Or.inl fun s hs => absurd hs (hnone s))
  · obtain ⟨s, hs⟩ := List.exists_mem_of_ne_nil _ hreachable
    have hstart := DFA.Reachable.start (mem_reachable_states.mp hs).start_lt
    have hclosed : Closed dfa (reachable_states dfa) := closed_reachable_states
    obtain ⟨class_of, hy, hstable⟩ := rounds_yield reachable_states_nodup hclosed
    have hresult := minimized hstart hstable
    refine ⟨build_minimized_cyclic_dfa dfa (reachable_states dfa) class_of, ?_,
      hresult.accepts_word, hresult.fewest_iff⟩
    unfold minimize_cyclic
    simp only [if_neg hstates, if_neg hreachable]
    exact hy.map _

/-- An accepting start state with an edge to a rejecting state without edges. -/
def deadEnd : DFA := ⟨[⟨true, SortedMap.empty.insert 0 1⟩, ⟨false, SortedMap.empty⟩], 0⟩

theorem reachable_states_deadEnd : reachable_states deadEnd = [0, 1] := by
  have hreach : reachableFrom deadEnd.targets 2 0 = [true, true] := by
    simp [reachableFrom, reachLoop, deadEnd, DFA.targets, DFA.transitions, SortedMap.values,
      SortedMap.insert, SortedMap.empty, SortedMap.insertEntry]
  change (List.range 2).filter (fun state =>
    decide ((reachableFrom deadEnd.targets 2 0)[state]? = some true)) = [0, 1]
  rw [hreach]
  rfl

/-- Both states stay, although the start state alone accepts the same words. -/
theorem minimize_cyclic_deadEnd : Yields (minimize_cyclic deadEnd) deadEnd ∧
    ∃ N : DFA, N.states ≠ [] ∧ (∀ word, N.accepts_word word = deadEnd.accepts_word word) ∧
      N.states.length < deadEnd.states.length := by
  refine ⟨?_, deadEnd.without 1, List.cons_ne_nil _ _, ?_, by decide⟩
  · refine ⟨3, ?_⟩
    intro fuel hfuel
    obtain ⟨fuel, rfl⟩ := Nat.exists_eq_add_of_le' hfuel
    unfold minimize_cyclic
    have hstates : deadEnd.states ≠ [] := List.cons_ne_nil _ _
    rw [if_neg hstates, reachable_states_deadEnd]
    rfl
  · intro word
    apply DFA.without_accepts _ Nat.zero_ne_one
    intro hlive
    obtain ⟨word, hword⟩ := hlive
    cases word with
    | nil => cases hword
    | cons label word => cases hword

end MinimizeCyclic

end GlrMask
