import GlrMask.BoundaryWeights
import GlrMask.Nfa

/-!
# Signed weighted graphs

Negative labels push a symbol, all others read: a label pops an equal top and
the default label pops any top. A cancellation is a path that pushes a symbol
and ends when the literal stack machine first returns to the stack it started on.
-/

namespace GlrMask

def DEFAULT_LABEL : Label := 2 ^ 31 - 2

def is_negative_label (label : Label) : Bool := label < 0 && label ≠ DEFAULT_LABEL

def negative_to_positive_label (label : Label) : Label := Int.bmod (label + 2 ^ 31) (2 ^ 32)

structure FastBoundaryNwaState where
  epsilons : List (ℕ × ℕ)
  transitions : List (Label × List (ℕ × ℕ))
  final_weight : ℕ

instance : Inhabited FastBoundaryNwaState := ⟨⟨[], [], 0⟩⟩

/-- The rows, and which class labels read which symbols. -/
structure SignedGraph where
  states : List FastBoundaryNwaState
  class_read_labels : List Label
  class_read_matches : Label → Label → Bool

namespace SignedGraph

def row (graph : SignedGraph) (state : ℕ) : FastBoundaryNwaState :=
  (graph.states[state]?).getD default

def Epsilon (graph : SignedGraph) (source target weight : ℕ) : Prop :=
  (target, weight) ∈ (graph.row source).epsilons

def Edge (graph : SignedGraph) (source : ℕ) (label : Label) (target weight : ℕ) : Prop :=
  ∃ branches, (label, branches) ∈ (graph.row source).transitions ∧ (target, weight) ∈ branches

/-- Every label is a 32-bit integer. -/
def LabelsFit (graph : SignedGraph) : Prop :=
  ∀ state, ∀ row ∈ (graph.row state).transitions, -2 ^ 31 ≤ row.1 ∧ row.1 < 2 ^ 31

/-- A label that reads the top of the stack. -/
def Reads (graph : SignedGraph) (label top : Label) : Prop :=
  is_negative_label label = false ∧ (label = top ∨ label = DEFAULT_LABEL) ∨
    label ∈ graph.class_read_labels ∧ graph.class_read_matches label top = true

/-- A run of the literal stack machine, with the weights along it, that empties the stack with
its last edge. -/
inductive LiteralPath (graph : SignedGraph) : ℕ → List Label → List ℕ → ℕ → Prop
  | done (state : ℕ) : LiteralPath graph state [] [] state
  | epsilon {state target weight final : ℕ} {top : Label} {stack : List Label} {weights : List ℕ}
      (edge : graph.Epsilon state target weight)
      (rest : LiteralPath graph target (top :: stack) weights final) :
      LiteralPath graph state (top :: stack) (weight :: weights) final
  | push {state target weight final : ℕ} {label top : Label} {stack : List Label}
      {weights : List ℕ} (edge : graph.Edge state label target weight)
      (negative : is_negative_label label = true)
      (rest : LiteralPath graph target (negative_to_positive_label label :: top :: stack) weights
        final) :
      LiteralPath graph state (top :: stack) (weight :: weights) final
  | read {state target weight final : ℕ} {label top : Label} {stack : List Label}
      {weights : List ℕ} (edge : graph.Edge state label target weight)
      (reads : graph.Reads label top) (rest : LiteralPath graph target stack weights final) :
      LiteralPath graph state (top :: stack) (weight :: weights) final

/-- A path that starts with a push and ends with the matching read. -/
inductive Cancellation (graph : SignedGraph) (state final : ℕ) : List ℕ → Prop
  | push {target weight : ℕ} {label : Label} {weights : List ℕ}
      (edge : graph.Edge state label target weight) (negative : is_negative_label label = true)
      (rest : LiteralPath graph target [negative_to_positive_label label] weights final) :
      Cancellation graph state final (weight :: weights)

/-! ## Balanced excursions

For the weights that pass, one symbol's stay on the stack is described without
the stack below it. -/

section Passing

variable (graph : SignedGraph) (pass : ℕ → Prop)

/-- From a state with a symbol on top, the final state after the symbol's matching read. -/
inductive Pops : ℕ → Label → ℕ → Prop
  | read {state target weight : ℕ} {label top : Label} (edge : graph.Edge state label target weight)
      (reads : graph.Reads label top) (passes : pass weight) : Pops state top target
  | epsilon {state target weight final : ℕ} {top : Label}
      (edge : graph.Epsilon state target weight) (passes : pass weight)
      (rest : Pops target top final) : Pops state top final
  | push {state target weight middle final : ℕ} {label top : Label}
      (edge : graph.Edge state label target weight) (negative : is_negative_label label = true)
      (passes : pass weight) (inner : Pops target (negative_to_positive_label label) middle)
      (rest : Pops middle top final) : Pops state top final

/-- A passing push at a state, with the state after its matching read. -/
def Cancels (state final : ℕ) : Prop :=
  ∃ label target weight, graph.Edge state label target weight ∧ is_negative_label label = true ∧
    pass weight ∧ Pops graph pass target (negative_to_positive_label label) final

/-- One step that leaves the stack as it is. -/
def Effective (state target : ℕ) : Prop :=
  (∃ weight, graph.Epsilon state target weight ∧ pass weight) ∨ Cancels graph pass state target

/-- A whole stack is popped one symbol after the other. -/
def PopsAll : List Label → ℕ → ℕ → Prop
  | [], state, final => state = final
  | top :: stack, state, final => ∃ middle, Pops graph pass state top middle ∧
      PopsAll stack middle final

variable {graph pass}

theorem pops_iff {state final : ℕ} {top : Label} : Pops graph pass state top final ↔
    (∃ label weight, graph.Edge state label final weight ∧ graph.Reads label top ∧ pass weight) ∨
      ∃ middle, Effective graph pass state middle ∧ Pops graph pass middle top final := by
  constructor
  · intro h
    cases h with
    | read edge reads passes => exact Or.inl ⟨_, _, edge, reads, passes⟩
    | epsilon edge passes rest => exact Or.inr ⟨_, Or.inl ⟨_, edge, passes⟩, rest⟩
    | push edge negative passes inner rest =>
        exact Or.inr ⟨_, Or.inr ⟨_, _, _, edge, negative, passes, inner⟩, rest⟩
  · rintro (⟨label, weight, edge, reads, passes⟩ | ⟨middle, heff, rest⟩)
    · exact Pops.read edge reads passes
    · rcases heff with ⟨weight, edge, passes⟩ | ⟨label, target, weight, edge, negative, passes, inner⟩
      · exact Pops.epsilon edge passes rest
      · exact Pops.push edge negative passes inner rest

theorem LiteralPath.popsAll {state final : ℕ} {stack : List Label} {weights : List ℕ}
    (h : graph.LiteralPath state stack weights final) (hpass : ∀ weight ∈ weights, pass weight) :
    PopsAll graph pass stack state final := by
  induction h with
  | done => rfl
  | epsilon edge _ ih =>
      obtain ⟨passes, hpass⟩ := List.forall_mem_cons.mp hpass
      obtain ⟨middle, hpops, hrest⟩ := ih hpass
      exact ⟨middle, Pops.epsilon edge passes hpops, hrest⟩
  | push edge negative _ ih =>
      obtain ⟨passes, hpass⟩ := List.forall_mem_cons.mp hpass
      -- First the pushed symbol is popped, then the symbol under it.
      obtain ⟨below, hinner, middle, hpops, hrest⟩ := ih hpass
      exact ⟨middle, Pops.push edge negative passes hinner hpops, hrest⟩
  | read edge reads _ ih =>
      obtain ⟨passes, hpass⟩ := List.forall_mem_cons.mp hpass
      exact ⟨_, Pops.read edge reads passes, ih hpass⟩

theorem Pops.literalPath {state middle final : ℕ} {top : Label} {stack : List Label}
    (h : Pops graph pass state top middle)
    (hrest : ∃ weights, graph.LiteralPath middle stack weights final ∧
      ∀ weight ∈ weights, pass weight) :
    ∃ weights, graph.LiteralPath state (top :: stack) weights final ∧
      ∀ weight ∈ weights, pass weight := by
  induction h generalizing stack final with
  | read edge reads passes =>
      obtain ⟨weights, hpath, hpass⟩ := hrest
      exact ⟨_, LiteralPath.read edge reads hpath, List.forall_mem_cons.mpr ⟨passes, hpass⟩⟩
  | epsilon edge passes _ ih =>
      obtain ⟨weights, hpath, hpass⟩ := ih hrest
      exact ⟨_, LiteralPath.epsilon edge hpath, List.forall_mem_cons.mpr ⟨passes, hpass⟩⟩
  | push edge negative passes _ _ ihInner ihRest =>
      obtain ⟨weights, hpath, hpass⟩ := ihInner (ihRest hrest)
      exact ⟨_, LiteralPath.push edge negative hpath, List.forall_mem_cons.mpr ⟨passes, hpass⟩⟩

/-- A push cancels through passing weights exactly when a literal path does. -/
theorem cancels_iff {state final : ℕ} : Cancels graph pass state final ↔
    ∃ weights, graph.Cancellation state final weights ∧ ∀ weight ∈ weights, pass weight := by
  constructor
  · rintro ⟨label, target, weight, edge, negative, passes, inner⟩
    obtain ⟨weights, hpath, hpass⟩ := inner.literalPath ⟨[], LiteralPath.done final, by simp⟩
    exact ⟨_, Cancellation.push edge negative hpath, List.forall_mem_cons.mpr ⟨passes, hpass⟩⟩
  · rintro ⟨weights, hpath, hpass⟩
    cases hpath with
    | push edge negative rest =>
        obtain ⟨passes, hpass⟩ := List.forall_mem_cons.mp hpass
        obtain ⟨middle, hpops, rfl⟩ := rest.popsAll hpass
        exact ⟨_, _, _, edge, negative, passes, hpops⟩

end Passing

end SignedGraph

end GlrMask
