import GlrMask.Residual
import GlrMask.SortedMap
import GlrMask.TopologicalSort

/-!
# Unweighted automata with a default label

A template automaton uses one label, the default label, for an edge that matches
every nonnegative label. Negative labels match explicit edges only. In a
deterministic automaton an explicit edge takes precedence over the default edge.
-/

namespace GlrMask

abbrev Label := ℤ

structure NFAState where
  is_accepting : Bool
  transitions : SortedMap Label (List ℕ)
  epsilons : List ℕ

structure NFA where
  states : List NFAState
  start_states : List ℕ

structure DFAState where
  is_accepting : Bool
  transitions : SortedMap Label ℕ
deriving DecidableEq

structure DFA where
  states : List DFAState
  start_state : ℕ
deriving DecidableEq

instance : Inhabited NFAState := ⟨⟨false, SortedMap.empty, []⟩⟩

instance : Inhabited DFAState := ⟨⟨false, SortedMap.empty⟩⟩

namespace NFA

/-- The targets of all edges of a state, labelled or not. -/
def targets (self : NFA) (state : ℕ) : List ℕ :=
  match self.states[state]? with
  | some data => data.transitions.values.flatten ++ data.epsilons
  | none => []

/-- Paths from a state on which a default edge matches every nonnegative label. -/
inductive AcceptsFrom (self : NFA) (default_label : Label) : ℕ → List Label → Prop
  | accept {state : ℕ} {data : NFAState} : self.states[state]? = some data →
      data.is_accepting = true → AcceptsFrom self default_label state []
  | epsilon {state target : ℕ} {data : NFAState} {word : List Label} :
      self.states[state]? = some data → target ∈ data.epsilons →
      AcceptsFrom self default_label target word → AcceptsFrom self default_label state word
  | explicit {state target : ℕ} {data : NFAState} {label : Label} {targets : List ℕ}
      {word : List Label} : self.states[state]? = some data →
      data.transitions.get label = some targets → target ∈ targets →
      AcceptsFrom self default_label target word →
      AcceptsFrom self default_label state (label :: word)
  | byDefault {state target : ℕ} {data : NFAState} {label : Label} {targets : List ℕ}
      {word : List Label} : self.states[state]? = some data → 0 ≤ label →
      data.transitions.get default_label = some targets → target ∈ targets →
      AcceptsFrom self default_label target word →
      AcceptsFrom self default_label state (label :: word)

def Accepts (self : NFA) (default_label : Label) (word : List Label) : Prop :=
  ∃ state ∈ self.start_states, self.AcceptsFrom default_label state word

variable {self : NFA} {default_label : Label}

theorem acceptsFrom_nil {state : ℕ} {data : NFAState} (h : self.states[state]? = some data) :
    self.AcceptsFrom default_label state [] ↔ data.is_accepting = true ∨
      ∃ target ∈ data.epsilons, self.AcceptsFrom default_label target [] := by
  constructor
  · intro ha
    cases ha with
    | accept hd hacc => exact Or.inl (Option.some.inj (h.symm.trans hd) ▸ hacc)
    | epsilon hd ht hrest => exact Or.inr ⟨_, Option.some.inj (h.symm.trans hd) ▸ ht, hrest⟩
  · rintro (hacc | ⟨target, ht, hrest⟩)
    · exact AcceptsFrom.accept h hacc
    · exact AcceptsFrom.epsilon h ht hrest

theorem acceptsFrom_cons {state : ℕ} {data : NFAState} (h : self.states[state]? = some data)
    {label : Label} {word : List Label} :
    self.AcceptsFrom default_label state (label :: word) ↔
      (∃ targets, data.transitions.get label = some targets ∧
        ∃ target ∈ targets, self.AcceptsFrom default_label target word) ∨
      (0 ≤ label ∧ ∃ targets, data.transitions.get default_label = some targets ∧
        ∃ target ∈ targets, self.AcceptsFrom default_label target word) ∨
      ∃ target ∈ data.epsilons, self.AcceptsFrom default_label target (label :: word) := by
  constructor
  · intro ha
    cases ha with
    | epsilon hd ht hrest =>
        obtain rfl := Option.some.inj (h.symm.trans hd)
        exact Or.inr (Or.inr ⟨_, ht, hrest⟩)
    | explicit hd hget ht hrest =>
        obtain rfl := Option.some.inj (h.symm.trans hd)
        exact Or.inl ⟨_, hget, _, ht, hrest⟩
    | byDefault hd hl hget ht hrest =>
        obtain rfl := Option.some.inj (h.symm.trans hd)
        exact Or.inr (Or.inl ⟨hl, _, hget, _, ht, hrest⟩)
  · rintro (⟨targets, hget, target, ht, hrest⟩ | ⟨hl, targets, hget, target, ht, hrest⟩ |
      ⟨target, ht, hrest⟩)
    · exact AcceptsFrom.explicit h hget ht hrest
    · exact AcceptsFrom.byDefault h hl hget ht hrest
    · exact AcceptsFrom.epsilon h ht hrest

end NFA

namespace DFA

def new : DFA := ⟨[default], 0⟩

/-- Follow explicit edges, and let nonnegative labels fall back to the default edge. -/
def step (self : DFA) (default_label : Label) (state : ℕ) (label : Label) : Option ℕ :=
  (self.states[state]?).bind fun row =>
    match row.transitions.get label with
    | some target => some target
    | none => if 0 ≤ label then row.transitions.get default_label else none

def is_accepting (self : DFA) (state : ℕ) : Bool :=
  match self.states[state]? with
  | some row => row.is_accepting
  | none => false

def system (self : DFA) (default_label : Label) : PartialSystem ℕ Label where
  step := self.step default_label
  accepting := self.is_accepting

def accepts (self : DFA) (default_label : Label) (word : List Label) : Bool :=
  (self.system default_label).accepts self.start_state word

variable {self : DFA} {default_label : Label}

/-- Only existing states accept a word. -/
theorem lt_of_accepts {state : ℕ} {word : List Label}
    (h : (self.system default_label).accepts state word = true) : state < self.states.length := by
  by_contra hge
  have hnone : self.states[state]? = none := List.getElem?_eq_none (by omega)
  cases word with
  | nil => simp [system, is_accepting, hnone] at h
  | cons label word =>
      rw [PartialSystem.accepts_cons] at h
      simp [system, step, hnone] at h

theorem new_accepts (word : List Label) : new.accepts default_label word = false := by
  cases word with
  | nil => rfl
  | cons label word =>
      rw [accepts, PartialSystem.accepts_cons]
      simp [system, step, new, default]

end DFA

end GlrMask
