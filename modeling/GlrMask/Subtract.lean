import GlrMask.UnweightedDfa

/-!
# Subtraction of unweighted automata

The result accepts what the left automaton accepts and the right one does not. Its
states are pairs of a left state and a right state, if there still is one; a
missing transition of the right automaton leads to an implicit rejecting sink.
-/

namespace GlrMask

open Exploration

namespace Subtract

structure ProductState where
  left : ℕ
  right : Option ℕ
deriving DecidableEq

variable (left right : DFA)

/-- The state of the right automaton in a pair, if there is one; `none` is a panic. -/
def right_state_of (product : ProductState) : Option (Option DFAState) :=
  match product.right with
  | some state => (right.states[state]?).map some
  | none => some none

def right_next (right_state : Option DFAState) (label : Label) : Option ℕ :=
  right_state.bind fun state => state.transitions.get label

/-- One round of the worklist loop; the outer `none` is a panic. -/
def step (table : Table ProductState DFAState) : Option (Option (Table ProductState DFAState)) :=
  match table.worklist with
  | [] => some none
  | (_, product) :: worklist => do
      let result_state ← table.number product
      let left_state ← left.states[product.left]?
      let right_state ← right_state_of right product
      let accepting := left_state.is_accepting && !right_state.any (·.is_accepting)
      let table := Table.edit { table with worklist } result_state (DFAState.mark accepting)
      let table := left_state.transitions.entries.foldl (fun table t =>
        link_key DFAState.link result_state table
          (t.1, ⟨t.2, right_next right_state t.1⟩)) table
      pure (some table)

def start_product : ProductState :=
  ⟨left.start_state, if right.states = [] then none else some right.start_state⟩

def subtract (fuel : ℕ) : Option DFA :=
  if left.states = [] then some left
  else
    (loop (fun _ => step left right) fuel (start_table (start_product left right))).map fun table =>
      ⟨table.rows, 0⟩

/-! ## Pairs -/

/-- The successors of a pair. -/
def successors (product : ProductState) : List (Label × ProductState) :=
  ((left.states[product.left]?).getD default).transitions.entries.map fun t =>
    (t.1, ⟨t.2, product.right.bind fun state => right.next state t.1⟩)

def accepting (product : ProductState) : Bool :=
  left.is_accepting product.left && !product.right.any right.is_accepting

/-- A pair of states that exist. -/
def InPair (product : ProductState) : Prop :=
  product.left < left.states.length ∧ ∀ state ∈ product.right, state < right.states.length

/-- All pairs of states. -/
def pairs : Finset ProductState :=
  (Finset.range left.states.length ×ˢ Finset.insertNone (Finset.range right.states.length)).image
    fun pair => ⟨pair.1, pair.2⟩

variable {left right}

theorem mem_pairs {product : ProductState} : product ∈ pairs left right ↔ InPair left right product := by
  unfold pairs InPair
  simp only [Finset.mem_image, Finset.mem_product, Finset.mem_range, Finset.mem_insertNone]
  constructor
  · intro hex
    obtain ⟨pair, hpair, rfl⟩ := hex
    exact hpair
  · intro hpair
    exact ⟨(product.left, product.right), hpair, rfl⟩

theorem lookup_successors {product : ProductState} {data : DFAState}
    (h : left.states[product.left]? = some data) (label : Label) :
    (successors left right product).lookup label = (data.transitions.get label).map fun target =>
      ⟨target, product.right.bind fun state => right.next state label⟩ := by
  unfold successors SortedMap.get
  rw [h, Option.getD_some]
  induction data.transitions.entries with
  | nil => rfl
  | cons t entries ih =>
      rw [List.map_cons, List.lookup_cons, ih, SortedMap.lookupEntry]
      by_cases ht : t.1 = label
      · rw [if_pos ht, ht, beq_self_eq_true]
        rfl
      · rw [if_neg ht, beq_false_of_ne (Ne.symm ht)]

theorem successors_nodup (product : ProductState) :
    ((successors left right product).map Prod.fst).Nodup := by
  rw [successors, List.map_map]
  exact (List.pairwise_map.mpr (SortedMap.sorted _)).imp fun hlt => ne_of_lt hlt

theorem inPair_successor (hl : left.InRange) (hr : right.InRange) {product : ProductState}
    {e : Label × ProductState} (he : e ∈ successors left right product) :
    InPair left right e.2 := by
  obtain ⟨t, ht, rfl⟩ := List.mem_map.mp he
  refine ⟨?_, ?_⟩
  · cases hdata : left.states[product.left]? with
    | none =>
        rw [hdata] at ht
        cases ht
    | some data =>
        rw [hdata, Option.getD_some] at ht
        apply hl.targets product.left t.1 t.2
        rw [DFA.next, hdata, Option.bind_some]
        exact SortedMap.get_eq_some_iff.mpr ht
  · intro state hstate
    obtain ⟨r, -, hnext⟩ := Option.bind_eq_some_iff.mp hstate
    exact hr.targets r t.1 state hnext

/-- A pair accepts what its left state accepts and its right state, if there is one, does not. -/
theorem pair_accepts (product : ProductState) (word : List Label) :
    (keySystem (successors left right) (accepting left right)).accepts product word =
      (left.plain.accepts product.left word &&
        !product.right.any fun state => right.plain.accepts state word) := by
  induction word generalizing product with
  | nil => rfl
  | cons label word ih =>
      simp only [PartialSystem.accepts_cons, keySystem, DFA.plain]
      cases hdata : left.states[product.left]? with
      | none => simp [successors, hdata, DFA.next, default]
      | some data =>
          rw [lookup_successors hdata, DFA.next, hdata, Option.bind_some]
          cases data.transitions.get label with
          | none => rfl
          | some target =>
              refine (ih _).trans ?_
              cases product.right with
              | none => rfl
              | some state =>
                  simp only [Option.bind_some, Option.any_some]
                  cases right.next state label with
                  | none => rfl
                  | some state' => rfl

/-! ## The loop -/

/-- On a pair of states that exist, a round is a visit. -/
theorem step_eq_visit {table : Table ProductState DFAState} {id : ℕ} {product : ProductState}
    {rest : List (ℕ × ProductState)} (h : InPair left right product)
    (hworklist : table.worklist = (id, product) :: rest) (hnumber : table.number product = some id) :
    step left right table = some (some (visit (successors left right)
      (fun k => DFAState.mark (accepting left right k)) DFAState.link
      { table with worklist := rest } id product)) := by
  obtain ⟨data, hdata⟩ : ∃ data, left.states[product.left]? = some data :=
    ⟨_, List.getElem?_eq_getElem h.1⟩
  obtain ⟨right_state, hright, haccepting, hnext⟩ : ∃ right_state,
      right_state_of right product = some right_state ∧
        right_state.any (·.is_accepting) = product.right.any right.is_accepting ∧
        ∀ label, right_next right_state label =
          product.right.bind fun state => right.next state label := by
    unfold right_state_of
    cases hr : product.right with
    | none => exact ⟨none, rfl, rfl, fun _ => rfl⟩
    | some state =>
        have hlt := h.2 state hr
        refine ⟨some right.states[state], ?_, ?_, ?_⟩
        · dsimp only
          rw [List.getElem?_eq_getElem hlt]
          rfl
        · simp [DFA.is_accepting, List.getElem?_eq_getElem hlt]
        · intro label
          simp [right_next, DFA.next, List.getElem?_eq_getElem hlt]
  unfold step visit
  rw [hworklist]
  simp only [hnumber, hdata, hright, haccepting, hnext, Option.bind_eq_bind, Option.bind_some,
    Option.pure_def, successors, Option.getD_some, List.foldl_map, accepting, DFA.is_accepting]

/-- Subtraction ends, and its result accepts what the left automaton accepts and the right one does
not. -/
theorem subtract_correct (hl : left.InRange) (hr : right.InRange) :
    ∃ result, Yields (subtract left right) result ∧
      ∀ word, result.accepts_word word = (left.accepts_word word && !right.accepts_word word) := by
  by_cases hempty : left.states = []
  · refine ⟨left, ⟨0, ?_⟩, ?_⟩
    · intro fuel _
      rw [subtract, if_pos hempty]
    · intro word
      rw [DFA.accepts_word, DFA.plain_accepts_of_empty hempty, Bool.false_and]
  · have hstart : InPair left right (start_product left right) := by
      refine ⟨hl.start hempty, ?_⟩
      intro state hstate
      unfold start_product at hstate
      split_ifs at hstate with hright
      · cases hstate
      · cases hstate
        exact hr.start hright
    have hclosed : ∀ k ∈ pairs left right, ∀ e ∈ successors left right k, e.2 ∈ pairs left right :=
      fun k _ e he => mem_pairs.mpr (inPair_successor hl hr he)
    obtain ⟨table, hyields, -, keys, hexplored, -⟩ := explore_yields (fun table => table)
      (fun _ => True) hclosed
      (fun table _ hworklist => by rw [step, hworklist])
      (fun table id product rest _ hworklist hpair hnumber =>
        ⟨_, step_eq_visit (mem_pairs.mp hpair) hworklist hnumber, trivial, rfl⟩)
      trivial rfl (mem_pairs.mpr hstart)
    refine ⟨⟨table.rows, 0⟩, ?_, ?_⟩
    · unfold subtract
      simp only [if_neg hempty]
      exact hyields.map _
    · intro word
      refine (explored_accepts hexplored (fun k _ => successors_nodup k) (fun _ _ => rfl)
        hexplored.first 0 word).trans ?_
      rw [pair_accepts]
      congr 2
      unfold start_product
      split_ifs with hright
      · exact (DFA.plain_accepts_of_empty hright _ word).symm
      · rfl

/-- One letter from a state to an accepting state. -/
def oneLetter (label : Label) : DFA :=
  ⟨[⟨false, .ofList [(label, 1)]⟩, ⟨true, .empty⟩], 0⟩

theorem oneLetter_inRange (label : Label) : (oneLetter label).InRange := by
  refine ⟨fun _ => Nat.zero_lt_two, ?_⟩
  intro state l target hnext
  obtain ⟨row, hrow, hget⟩ := Option.bind_eq_some_iff.mp hnext
  match state, hrow with
  | 0, hrow =>
      cases hrow
      have hmem := SortedMap.get_eq_some_iff.mp hget
      cases List.mem_singleton.mp hmem
      exact Nat.one_lt_two
  | 1, hrow =>
      cases hrow
      cases hget

theorem subtract_oneLetter : ∃ result, Yields (subtract (oneLetter 1) (oneLetter 2)) result ∧
    ∀ word, result.accepts_word word =
      ((oneLetter 1).accepts_word word && !(oneLetter 2).accepts_word word) :=
  subtract_correct (oneLetter_inRange 1) (oneLetter_inRange 2)

end Subtract

end GlrMask
