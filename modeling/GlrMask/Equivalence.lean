import GlrMask.Dwa
import GlrMask.BreadthFirst

/-!
# Exact equivalence of acyclic weighted automata

The product is searched breadth first. A product state keeps both accumulated
path weights, since two paths to the same pair of states may admit different
tokens. A side whose path weight became empty is dead.
-/

namespace GlrMask

structure ProductState where
  left_state : Option ℕ
  right_state : Option ℕ
  left_weight : Weight
  right_weight : Weight
deriving DecidableEq

variable [Runtime]

def final_weight (dwa : DWA) (state : Option ℕ) (path_weight : Weight) : Weight :=
  match state.bind dwa.final with
  | some final_weight => path_weight.intersection final_weight
  | none => Weight.empty

def advance (dwa : DWA) (state : Option ℕ) (path_weight : Weight) (label : Label) :
    Option ℕ × Weight :=
  match state.bind fun state => dwa.edge state label with
  | none => (none, Weight.empty)
  | some (next_state, edge_weight) =>
      let next_weight := path_weight.intersection edge_weight
      (if next_weight.is_empty then none else some next_state, next_weight)

omit [Runtime] in
def outgoing_labels (dwa : DWA) (state : Option ℕ) : List Label :=
  match state.bind fun state => dwa.states[state]? with
  | some state => state.transitions.keys
  | none => []

/-- The labels that leave a product state, in increasing order. -/
def productLabels (left right : DWA) (current : ProductState) : List Label :=
  ((outgoing_labels left current.left_state ++
    outgoing_labels right current.right_state).insertionSort (· ≤ ·)).dedup

/-- Follow a label on both sides, unless both path weights become empty. -/
def advanceBoth (left right : DWA) (current : ProductState) (label : Label) :
    Option ProductState :=
  let l := advance left current.left_state current.left_weight label
  let r := advance right current.right_state current.right_weight label
  if l.2.is_empty && r.2.is_empty then none else some ⟨l.1, r.1, l.2, r.2⟩

def productSuccessors (left right : DWA) (current : ProductState) : List (Label × ProductState) :=
  (productLabels left right current).filterMap fun label =>
    (advanceBoth left right current label).map (Prod.mk label)

def differs (left right : DWA) (current : ProductState) : Bool :=
  !(final_weight left current.left_state current.left_weight).eq
    (final_weight right current.right_state current.right_weight)

def productStart (left right : DWA) : ProductState :=
  ⟨some left.start_state, some right.start_state, Weight.all, Weight.all⟩

inductive CompilationError
  | compilation (message : String)
deriving DecidableEq

/-- `none` when the fuel did not suffice; otherwise the value that the source returns. -/
def find_difference (fuel : ℕ) (left right : DWA) :
    Option (Except CompilationError (Option (List Label))) :=
  if !left.is_acyclic || !right.is_acyclic then
    some (Except.error (.compilation
      "exact weighted DWA equivalence currently supports only acyclic inputs"))
  else
    (search (productSuccessors left right) (differs left right) fuel
      [productStart left right] [(productStart left right, [])]).map Except.ok

/-! ## Words and product states -/

/-- One side of the product after reading a word. -/
def advanceWord (dwa : DWA) : Option ℕ × Weight → List Label → Option ℕ × Weight
  | side, [] => side
  | side, label :: word => advanceWord dwa (advance dwa side.1 side.2 label) word

/-- A side is dead once its path weight is empty. -/
def Alive (side : Option ℕ × Weight) : Prop := side.2 = Weight.empty → side.1 = none

theorem advance_alive (dwa : DWA) (side : Option ℕ × Weight) (label : Label) :
    Alive (advance dwa side.1 side.2 label) := by
  intro he
  unfold advance at he ⊢
  split
  · rfl
  · rename_i next_state edge_weight h
    simp only [h] at he ⊢
    rw [if_pos (Weight.is_empty_iff.mpr he)]

/-- Reading a word along one side gives the weight of the word from that side's state. -/
theorem final_weight_advanceWord (dwa : DWA) (side : Option ℕ × Weight) (word : List Label) :
    final_weight dwa (advanceWord dwa side word).1 (advanceWord dwa side word).2 =
      match side.1 with
      | some state => dwa.evalFrom state side.2 word
      | none => Weight.empty := by
  induction word generalizing side with
  | nil =>
      obtain ⟨state, weight⟩ := side
      cases state with
      | none => rfl
      | some state => rfl
  | cons label word ih =>
      obtain ⟨state, weight⟩ := side
      rw [advanceWord, ih]
      cases state with
      | none => rfl
      | some state =>
          simp only [advance, DWA.evalFrom, Option.bind_some]
          cases dwa.edge state label with
          | none => rfl
          | some e =>
              obtain ⟨next_state, edge_weight⟩ := e
              simp only
              split_ifs with he
              · rw [Weight.is_empty_iff.mp he, DWA.evalFrom_empty]
              · rfl

/-- The product state a word leads to when nothing is pruned. -/
def productWord (left right : DWA) (current : ProductState) (word : List Label) : ProductState :=
  let l := advanceWord left (current.left_state, current.left_weight) word
  let r := advanceWord right (current.right_state, current.right_weight) word
  ⟨l.1, r.1, l.2, r.2⟩

theorem advanceBoth_eq_some {left right : DWA} {current next : ProductState} {label : Label}
    (h : advanceBoth left right current label = some next) :
    next = productWord left right current [label] ∧
      (next.left_weight ≠ Weight.empty ∨ next.right_weight ≠ Weight.empty) := by
  unfold advanceBoth at h
  dsimp only at h
  split_ifs at h with he
  obtain rfl := Option.some.inj h
  refine ⟨rfl, ?_⟩
  rw [Bool.and_eq_true, Weight.is_empty_iff, Weight.is_empty_iff, not_and_or] at he
  exact he

theorem advance_of_no_label {dwa : DWA} {state : Option ℕ} {weight : Weight} {label : Label}
    (h : label ∉ outgoing_labels dwa state) :
    advance dwa state weight label = (none, Weight.empty) := by
  have hedge : (state.bind fun state => dwa.edge state label) = none := by
    cases state with
    | none => rfl
    | some q =>
        simp only [outgoing_labels, Option.bind_some] at h
        simp only [Option.bind_some, DWA.edge]
        cases hs : dwa.states[q]? with
        | none => rfl
        | some s =>
            rw [hs] at h
            exact SortedMap.get_eq_none_iff.mpr h
  rw [advance, hedge]

theorem mem_productSuccessors {left right : DWA} {current next : ProductState} {label : Label} :
    (label, next) ∈ productSuccessors left right current ↔
      advanceBoth left right current label = some next := by
  simp only [productSuccessors, List.mem_filterMap, Option.map_eq_some_iff, Prod.mk.injEq]
  constructor
  · rintro ⟨_, -, _, h, rfl, rfl⟩
    exact h
  · intro h
    refine ⟨label, ?_, next, h, rfl, rfl⟩
    by_contra hno
    simp only [productLabels, List.mem_dedup, List.mem_insertionSort, List.mem_append,
      not_or] at hno
    simp [advanceBoth, advance_of_no_label hno.1, advance_of_no_label hno.2,
      Weight.is_empty_iff] at h

theorem productWord_of_reaches {left right : DWA} {current next : ProductState}
    {word : List Label} (h : Reaches (productSuccessors left right) current word next) :
    next = productWord left right current word := by
  induction h with
  | nil s => rfl
  | cons hmem _ ih =>
      obtain ⟨rfl, -⟩ := advanceBoth_eq_some (mem_productSuccessors.mp hmem)
      exact ih

/-- A word whose product path is pruned has the empty weight on both sides. -/
theorem reaches_or_empty (left right : DWA) (current : ProductState) (word : List Label) :
    Reaches (productSuccessors left right) current word (productWord left right current word) ∨
      final_weight left (productWord left right current word).left_state
        (productWord left right current word).left_weight = Weight.empty ∧
      final_weight right (productWord left right current word).right_state
        (productWord left right current word).right_weight = Weight.empty := by
  induction word generalizing current with
  | nil => exact Or.inl (Reaches.nil current)
  | cons label word ih =>
      cases hb : advanceBoth left right current label with
      | some next =>
          obtain ⟨rfl, -⟩ := advanceBoth_eq_some hb
          rcases ih (productWord left right current [label]) with h | h
          · exact Or.inl (Reaches.cons (mem_productSuccessors.mpr hb) h)
          · exact Or.inr h
      | none =>
          unfold advanceBoth at hb
          dsimp only at hb
          split_ifs at hb with he
          rw [Bool.and_eq_true, Weight.is_empty_iff, Weight.is_empty_iff] at he
          have hl := advance_alive left (current.left_state, current.left_weight) label he.1
          have hr := advance_alive right (current.right_state, current.right_weight) label he.2
          right
          constructor
          · change final_weight left (advanceWord left (advance left _ _ label) word).1
              (advanceWord left (advance left _ _ label) word).2 = _
            rw [final_weight_advanceWord, hl]
          · change final_weight right (advanceWord right (advance right _ _ label) word).1
              (advanceWord right (advance right _ _ label) word).2 = _
            rw [final_weight_advanceWord, hr]

/-- At the product state of a word the two final weights are the weights of the word. -/
theorem differs_productWord (left right : DWA) (word : List Label) :
    differs left right (productWord left right (productStart left right) word) = true ↔
      left.eval_word word ≠ right.eval_word word := by
  have hl := final_weight_advanceWord left (some left.start_state, Weight.all) word
  have hr := final_weight_advanceWord right (some right.start_state, Weight.all) word
  rw [differs, Bool.not_eq_true', ← Bool.not_eq_true, Weight.eq_iff, not_iff_not]
  exact ⟨fun h => hl.symm.trans (h.trans hr), fun h => hl.trans (h.trans hr.symm)⟩

theorem exists_reaches_differs_iff {left right : DWA} {word : List Label} :
    (∃ t, Reaches (productSuccessors left right) (productStart left right) word t ∧
      differs left right t = true) ↔ left.eval_word word ≠ right.eval_word word := by
  rw [← differs_productWord]
  constructor
  · rintro ⟨t, ht, hd⟩
    rwa [← productWord_of_reaches ht]
  · intro hd
    rcases reaches_or_empty left right (productStart left right) word with h | ⟨hl, hr⟩
    · exact ⟨_, h, hd⟩
    · rw [differs, hl, hr, Weight.eq_iff.mpr rfl] at hd
      cases hd

/-! ## Termination -/

def sideRank (rank : ℕ → ℕ) : Option ℕ → ℕ
  | none => 0
  | some state => rank state + 1

theorem sideRank_advance {dwa : DWA} {rank : ℕ → ℕ}
    (hr : ∀ state label next weight, dwa.edge state label = some (next, weight) →
      rank next < rank state) (state : Option ℕ) (weight : Weight) (label : Label) :
    sideRank rank (advance dwa state weight label).1 ≤ sideRank rank state ∧
      ((advance dwa state weight label).2 ≠ Weight.empty →
        sideRank rank (advance dwa state weight label).1 < sideRank rank state) := by
  cases state with
  | none => exact ⟨le_rfl, fun h => absurd rfl h⟩
  | some q =>
      simp only [advance, Option.bind_some]
      cases he : dwa.edge q label with
      | none => exact ⟨Nat.zero_le _, fun h => absurd rfl h⟩
      | some e =>
          obtain ⟨next, edge_weight⟩ := e
          have hlt := hr q label next edge_weight he
          simp only
          split_ifs
          · exact ⟨Nat.zero_le _, fun _ => Nat.succ_pos _⟩
          · simp only [sideRank]
            exact ⟨by omega, fun _ => by omega⟩

theorem exists_product_rank {left right : DWA} (hl : left.is_acyclic = true)
    (hr : right.is_acyclic = true) : ∃ rank : ProductState → ℕ,
    ∀ s, ∀ e ∈ productSuccessors left right s, rank e.2 < rank s := by
  obtain ⟨rankl, hrl⟩ := left.exists_rank hl
  obtain ⟨rankr, hrr⟩ := right.exists_rank hr
  refine ⟨fun s => sideRank rankl s.left_state + sideRank rankr s.right_state, ?_⟩
  intro s e he
  obtain ⟨heq, hne⟩ := advanceBoth_eq_some (mem_productSuccessors.mp he)
  obtain ⟨hlle, hllt⟩ := sideRank_advance hrl s.left_state s.left_weight e.1
  obtain ⟨hrle, hrlt⟩ := sideRank_advance hrr s.right_state s.right_weight e.1
  rw [heq] at hne ⊢
  simp only [productWord, advanceWord] at hne ⊢
  rcases hne with h | h
  · have := hllt h
    omega
  · have := hrlt h
    omega

/-- The search returns, reports no word exactly when the automata agree on every word, and
otherwise reports a shortest word on which they differ. -/
theorem find_difference_correct (left right : DWA) (hl : left.is_acyclic = true)
    (hr : right.is_acyclic = true) :
    ∃ enough, ∀ fuel ≥ enough, ∃ result, find_difference fuel left right = some (.ok result) ∧
      (result = none ↔ ∀ word, left.eval_word word = right.eval_word word) ∧
      ∀ word, result = some word → left.eval_word word ≠ right.eval_word word ∧
        ∀ other, left.eval_word other ≠ right.eval_word other → word.length ≤ other.length := by
  obtain ⟨rank, hrank⟩ := exists_product_rank hl hr
  obtain ⟨enough, h⟩ := @search_ranked _ _ _ _ (differs left right) rank hrank
    (productStart left right)
  refine ⟨enough, fun fuel hfuel => ?_⟩
  obtain ⟨result, hs, hnone, hsome⟩ := h fuel hfuel
  refine ⟨result, ?_, ?_, fun word hw => ?_⟩
  · simp only [find_difference, hl, hr, Bool.not_true, Bool.or_false, hs]
    rfl
  · rw [hnone]
    constructor
    · intro hall word
      by_contra hne
      obtain ⟨t, ht, hd⟩ := exists_reaches_differs_iff.mpr hne
      rw [hall word t ht] at hd
      cases hd
    · intro hall word t ht
      by_contra hd
      exact exists_reaches_differs_iff.mp ⟨t, ht, by simpa using hd⟩ (hall word)
  · obtain ⟨hex, hshort⟩ := hsome word hw
    refine ⟨exists_reaches_differs_iff.mp hex, fun other hne => ?_⟩
    obtain ⟨t, ht, hd⟩ := exists_reaches_differs_iff.mpr hne
    exact hshort other t ht hd

/-- Two states with one transition labelled 7, and a final weight on the second. -/
def oneStepDwa (final_weight : Weight) : DWA :=
  ⟨[⟨SortedMap.empty.insert 7 (1, Weight.all), none⟩, ⟨SortedMap.empty, some final_weight⟩], 0⟩

omit [Runtime] in
theorem find_difference_oneStepDwa :
    ∃ enough, ∀ fuel ≥ enough, ∃ result,
      @find_difference Runtime.default fuel (oneStepDwa Weight.all) (oneStepDwa Weight.empty) =
        some (.ok result) ∧
      (result = none ↔ ∀ word, @DWA.eval_word Runtime.default (oneStepDwa Weight.all) word =
        @DWA.eval_word Runtime.default (oneStepDwa Weight.empty) word) ∧
      ∀ word, result = some word →
        @DWA.eval_word Runtime.default (oneStepDwa Weight.all) word ≠
          @DWA.eval_word Runtime.default (oneStepDwa Weight.empty) word ∧
        ∀ other, @DWA.eval_word Runtime.default (oneStepDwa Weight.all) other ≠
          @DWA.eval_word Runtime.default (oneStepDwa Weight.empty) other →
          word.length ≤ other.length :=
  @find_difference_correct Runtime.default (oneStepDwa Weight.all) (oneStepDwa Weight.empty)
    (by decide +kernel) (by decide +kernel)

end GlrMask
