import Mathlib.Logic.Relation
import GlrMask.Nfa
import GlrMask.Weight

/-!
# Nondeterministic weighted automata

A state has any number of weighted edges, with a label or without one. A word's
weight is the union over its accepting paths of the intersection of the weights
along the path, the final weight included.
-/

namespace GlrMask

structure NWAState where
  final_weight : Option Weight
  transitions : SortedMap Label (List (ℕ × Weight))
  epsilons : List (ℕ × Weight)

structure NWA where
  states : List NWAState
  start_states : List ℕ

instance : Inhabited NWAState := ⟨⟨none, SortedMap.empty, []⟩⟩

namespace NWA

/-- The data of a state; a state that does not exist has no edges. -/
def state (self : NWA) (id : ℕ) : NWAState := (self.states[id]?).getD default

def final (self : NWA) (id : ℕ) : Option Weight := (self.state id).final_weight

def epsilons (self : NWA) (id : ℕ) : List (ℕ × Weight) := (self.state id).epsilons

def transition (self : NWA) (id : ℕ) (label : Label) : List (ℕ × Weight) :=
  ((self.state id).transitions.get label).getD []

def targets (self : NWA) (id : ℕ) : List ℕ :=
  ((self.state id).transitions.values.flatten ++ self.epsilons id).map Prod.fst

def is_acyclic (self : NWA) : Bool := allReleased self.targets self.states.length

/-- An accepting path from a state: the word it reads and the weights along it, the final
weight last. -/
inductive AcceptingPath (self : NWA) : ℕ → List Label → List Weight → Prop
  | final {id : ℕ} {weight : Weight} (h : self.final id = some weight) :
      AcceptingPath self id [] [weight]
  | epsilon {id target : ℕ} {weight : Weight} {word : List Label} {weights : List Weight}
      (h : (target, weight) ∈ self.epsilons id) (rest : AcceptingPath self target word weights) :
      AcceptingPath self id word (weight :: weights)
  | label {id target : ℕ} {weight : Weight} {label : Label} {word : List Label}
      {weights : List Weight} (h : (target, weight) ∈ self.transition id label)
      (rest : AcceptingPath self target word weights) :
      AcceptingPath self id (label :: word) (weight :: weights)

/-- The points of a word's weight. -/
def wordWeight (self : NWA) (word : List Label) : Set Point :=
  {p | ∃ start ∈ self.start_states, ∃ weights, self.AcceptingPath start word weights ∧
    ∀ weight ∈ weights, p ∈ weight}

/-! ## One point at a time -/

/-- An edge without a label that a point passes. -/
def EpsilonStep (self : NWA) (p : Point) (id target : ℕ) : Prop :=
  ∃ weight, (target, weight) ∈ self.epsilons id ∧ p ∈ weight

def EpsilonReach (self : NWA) (p : Point) : ℕ → ℕ → Prop :=
  Relation.ReflTransGen (self.EpsilonStep p)

/-- An edge with a label that a point passes. -/
def LabelStep (self : NWA) (p : Point) (label : Label) (id target : ℕ) : Prop :=
  ∃ weight, (target, weight) ∈ self.transition id label ∧ p ∈ weight

def Accepts (self : NWA) (p : Point) (id : ℕ) (word : List Label) : Prop :=
  ∃ weights, self.AcceptingPath id word weights ∧ ∀ weight ∈ weights, p ∈ weight

variable {self : NWA} {p : Point}

theorem mem_wordWeight {word : List Label} :
    p ∈ self.wordWeight word ↔ ∃ start ∈ self.start_states, self.Accepts p start word := Iff.rfl

/-! ## Ranks -/

/-- A rank that decreases along every edge. -/
structure RankedBy (nwa : NWA) (rank : ℕ → ℕ) : Prop where
  epsilon : ∀ id, ∀ edge ∈ nwa.epsilons id, rank edge.1 < rank id
  label : ∀ id label, ∀ edge ∈ nwa.transition id label, rank edge.1 < rank id

theorem mem_targets_of_epsilon {id : ℕ} {edge : ℕ × Weight} (h : edge ∈ self.epsilons id) :
    edge.1 ∈ self.targets id :=
  List.mem_map_of_mem (List.mem_append_right _ h)

theorem mem_targets_of_transition {id : ℕ} {label : Label} {edge : ℕ × Weight}
    (h : edge ∈ self.transition id label) : edge.1 ∈ self.targets id := by
  unfold transition at h
  cases hget : (self.state id).transitions.get label with
  | none => simp [hget] at h
  | some edges =>
      rw [hget] at h
      apply List.mem_map_of_mem (List.mem_append_left _ _)
      apply List.mem_flatten_of_mem _ h
      exact List.mem_map_of_mem (SortedMap.get_eq_some_iff.mp hget)

theorem lt_of_mem_targets {id target : ℕ} (h : target ∈ self.targets id) :
    id < self.states.length := by
  by_contra hge
  have hnone : self.states[id]? = none := List.getElem?_eq_none (by omega)
  simp [targets, epsilons, state, hnone, default, SortedMap.values] at h

theorem exists_rank (h : self.is_acyclic = true) : ∃ rank, self.RankedBy rank := by
  obtain ⟨rank, hr⟩ := (allReleased_iff _ _).mp h
  have hdown : ∀ id, ∀ target ∈ self.targets id,
      (if target < self.states.length then rank target + 1 else 0) <
        if id < self.states.length then rank id + 1 else 0 := by
    intro id target ht
    have hid := lt_of_mem_targets ht
    rw [if_pos hid]
    split_ifs with hlt
    · exact Nat.succ_lt_succ (hr id hid target ht hlt)
    · exact Nat.succ_pos _
  exact ⟨fun id => if id < self.states.length then rank id + 1 else 0,
    fun id edge he => hdown id edge.1 (mem_targets_of_epsilon he),
    fun id label edge he => hdown id edge.1 (mem_targets_of_transition he)⟩

theorem RankedBy.epsilonReach {rank : ℕ → ℕ} (h : self.RankedBy rank) {id target : ℕ}
    (hreach : self.EpsilonReach p id target) : rank target ≤ rank id := by
  induction hreach with
  | refl => exact le_rfl
  | tail _ hstep ih =>
      obtain ⟨weight, hedge, -⟩ := hstep
      exact (h.epsilon _ _ hedge).le.trans ih

end NWA

end GlrMask
