import GlrMask.Weight
import GlrMask.Nfa

/-!
# Deterministic weighted automata

Each label leaves a state along at most one weighted transition. The weight of a
word is the intersection of the weights along its path and the final weight.
-/

namespace GlrMask

structure DWAState where
  transitions : SortedMap Label (ℕ × Weight)
  final_weight : Option Weight

structure DWA where
  states : List DWAState
  start_state : ℕ

instance : Inhabited DWAState := ⟨⟨SortedMap.empty, none⟩⟩

namespace DWA

/-- The transition of a state for a label, if the state exists and has one. -/
def edge (self : DWA) (state : ℕ) (label : Label) : Option (ℕ × Weight) :=
  (self.states[state]?).bind fun state => state.transitions.get label

def final (self : DWA) (state : ℕ) : Option Weight :=
  (self.states[state]?).bind fun state => state.final_weight

def targets (self : DWA) (state : ℕ) : List ℕ :=
  match self.states[state]? with
  | some state => state.transitions.values.map Prod.fst
  | none => []

def is_acyclic (self : DWA) : Bool := allReleased self.targets self.states.length

section Eval

variable [Runtime]

def evalFrom (self : DWA) (state : ℕ) (weight : Weight) : List Label → Weight
  | [] =>
      match self.final state with
      | some final_weight => weight.intersection final_weight
      | none => Weight.empty
  | label :: word =>
      match self.edge state label with
      | some (next, edge_weight) => self.evalFrom next (weight.intersection edge_weight) word
      | none => Weight.empty

def eval_word (self : DWA) (word : List Label) : Weight :=
  self.evalFrom self.start_state Weight.all word

end Eval

/-- A point passes all weights along the path of a word from a state. -/
def Accepts (self : DWA) (p : Point) (state : ℕ) : List Label → Prop
  | [] => ∃ final_weight ∈ self.final state, p ∈ final_weight
  | label :: word => ∃ next edge_weight, self.edge state label = some (next, edge_weight) ∧
      p ∈ edge_weight ∧ self.Accepts p next word

variable [Runtime] {self : DWA} {p : Point}

theorem mem_evalFrom {state : ℕ} {weight : Weight} {word : List Label} :
    p ∈ self.evalFrom state weight word ↔ p ∈ weight ∧ self.Accepts p state word := by
  induction word generalizing state weight with
  | nil =>
      simp only [evalFrom, Accepts]
      cases self.final state with
      | none => simp
      | some final_weight => simp
  | cons label word ih =>
      simp only [evalFrom, Accepts]
      cases self.edge state label with
      | none => simp
      | some e =>
          obtain ⟨next, edge_weight⟩ := e
          simp only [ih, Weight.mem_intersection, Option.some.injEq, Prod.mk.injEq]
          constructor
          · rintro ⟨⟨hw, he⟩, h⟩
            exact ⟨hw, next, edge_weight, ⟨rfl, rfl⟩, he, h⟩
          · rintro ⟨hw, next', edge_weight', ⟨rfl, rfl⟩, he, h⟩
            exact ⟨⟨hw, he⟩, h⟩

theorem evalFrom_empty {state : ℕ} {word : List Label} :
    self.evalFrom state Weight.empty word = Weight.empty := by
  apply Weight.eq_empty_iff.mpr
  intro p hp
  exact Weight.not_mem_empty (mem_evalFrom.mp hp).1

omit [Runtime] in
theorem edge_mem_targets {state next : ℕ} {label : Label} {weight : Weight}
    (h : self.edge state label = some (next, weight)) :
    state < self.states.length ∧ next ∈ self.targets state := by
  obtain ⟨s, hs, hget⟩ := Option.bind_eq_some_iff.mp h
  refine ⟨(List.getElem?_eq_some_iff.mp hs).1, ?_⟩
  simp only [targets, hs, SortedMap.values, List.map_map]
  exact List.mem_map_of_mem (f := Prod.fst ∘ Prod.snd) (SortedMap.get_eq_some_iff.mp hget)

omit [Runtime] in
/-- A rank that is positive on the states and decreases along the transitions. -/
theorem exists_rank (h : self.is_acyclic = true) : ∃ rank : ℕ → ℕ,
    ∀ state label next weight, self.edge state label = some (next, weight) →
      rank next < rank state := by
  obtain ⟨rank, hr⟩ := (allReleased_iff _ _).mp h
  refine ⟨fun x => if x < self.states.length then rank x + 1 else 0, ?_⟩
  intro state label next weight he
  obtain ⟨hlt, hmem⟩ := edge_mem_targets he
  simp only [if_pos hlt]
  split_ifs with hn
  · have := hr state hlt next hmem hn
    omega
  · omega

end DWA

end GlrMask
