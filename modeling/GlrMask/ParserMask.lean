import GlrMask.Dwa
import GlrMask.SignedGraph
import GlrMask.BatchSearch

/-!
# Masks of parser automata

A parser automaton reads a stack from its top. An explicit edge for a parser
state hides the edge labelled with the default, also at the tokens which the
weight of the explicit edge rejects. The mask of a stack allows what is accepted
after some of its prefixes.
-/

namespace GlrMask

namespace DWA

/-- The edge a parser state takes. -/
def parserEdge (self : DWA) (state parser : ℕ) : Option (ℕ × Weight) :=
  (self.edge state parser).or (self.edge state DEFAULT_LABEL)

/-- A point passes all weights along the path of a stack from a state. -/
def AcceptsStack (self : DWA) (p : Point) (state : ℕ) : List ℕ → Prop
  | [] => ∃ final_weight ∈ self.final state, p ∈ final_weight
  | parser :: stack => ∃ next edge_weight, self.parserEdge state parser = some (next, edge_weight) ∧
      p ∈ edge_weight ∧ self.AcceptsStack p next stack

def Mask (self : DWA) (stack : List ℕ) : Set Point :=
  {p | ∃ word, word <+: stack ∧ self.AcceptsStack p self.start_state word}

/-- A run at one point: `none` once an edge is missing or rejects the point. -/
noncomputable def stepAt (self : DWA) (p : Point) (side : Option ℕ) (parser : ℕ) : Option ℕ :=
  open Classical in
  side.bind fun state => (self.parserEdge state parser).bind fun e =>
    if p ∈ e.2 then some e.1 else none

def AcceptsHere (self : DWA) (p : Point) (side : Option ℕ) : Prop :=
  ∃ state ∈ side, ∃ final_weight ∈ self.final state, p ∈ final_weight

/-- The mask of a stack, at one point and from any state of a run. -/
def MaskFrom (self : DWA) (p : Point) (side : Option ℕ) : List ℕ → Prop
  | [] => self.AcceptsHere p side
  | parser :: stack => self.AcceptsHere p side ∨ self.MaskFrom p (self.stepAt p side parser) stack

variable {self : DWA} {p : Point}

theorem stepAt_eq_some {side : Option ℕ} {parser next : ℕ} :
    self.stepAt p side parser = some next ↔
      ∃ state ∈ side, ∃ w, self.parserEdge state parser = some (next, w) ∧ p ∈ w := by
  simp only [stepAt, Option.bind_eq_some_iff, Option.mem_def]
  apply exists_congr
  intro state
  apply and_congr_right
  intro _
  constructor
  · intro h
    obtain ⟨⟨t, w⟩, he, hif⟩ := h
    split_ifs at hif with hp
    obtain rfl := Option.some.inj hif
    exact ⟨w, he, hp⟩
  · intro h
    obtain ⟨w, he, hp⟩ := h
    exact ⟨(next, w), he, if_pos hp⟩

@[simp] theorem not_acceptsHere_none : ¬ self.AcceptsHere p none := by simp [AcceptsHere]

@[simp] theorem acceptsHere_some {state : ℕ} :
    self.AcceptsHere p (some state) ↔ ∃ final_weight ∈ self.final state, p ∈ final_weight := by
  simp [AcceptsHere]

@[simp] theorem stepAt_none (parser : ℕ) : self.stepAt p none parser = none := rfl

theorem not_maskFrom_none (stack : List ℕ) : ¬ self.MaskFrom p none stack := by
  induction stack with
  | nil => exact not_acceptsHere_none
  | cons parser stack ih =>
      intro h
      rcases h with h | h
      · exact not_acceptsHere_none h
      · exact ih h

theorem maskFrom_of_acceptsHere {side : Option ℕ} (h : self.AcceptsHere p side)
    (stack : List ℕ) : self.MaskFrom p side stack := by
  cases stack with
  | nil => exact h
  | cons parser stack => exact Or.inl h

theorem acceptsStack_cons {state parser : ℕ} {stack : List ℕ} :
    self.AcceptsStack p state (parser :: stack) ↔
      ∃ next ∈ self.stepAt p (some state) parser, self.AcceptsStack p next stack := by
  simp only [AcceptsStack, Option.mem_def, stepAt_eq_some, Option.some.injEq, exists_eq_left']
  constructor
  · intro h
    obtain ⟨next, w, he, hp, hrest⟩ := h
    exact ⟨next, ⟨w, he, hp⟩, hrest⟩
  · intro h
    obtain ⟨next, ⟨w, he, hp⟩, hrest⟩ := h
    exact ⟨next, w, he, hp, hrest⟩

theorem maskFrom_some {state : ℕ} {stack : List ℕ} :
    self.MaskFrom p (some state) stack ↔
      ∃ word, word <+: stack ∧ self.AcceptsStack p state word := by
  induction stack generalizing state with
  | nil => simp [MaskFrom, AcceptsStack]
  | cons parser stack ih =>
      constructor
      · intro h
        rcases h with h | h
        · exact ⟨[], List.nil_prefix, acceptsHere_some.mp h⟩
        · cases hstep : self.stepAt p (some state) parser with
          | none => exact absurd (hstep ▸ h) (not_maskFrom_none stack)
          | some next =>
              obtain ⟨word, hword, hacc⟩ := ih.mp (hstep ▸ h)
              refine ⟨parser :: word, List.cons_prefix_cons.mpr ⟨rfl, hword⟩, ?_⟩
              exact acceptsStack_cons.mpr ⟨next, hstep, hacc⟩
      · intro h
        obtain ⟨word, hword, hacc⟩ := h
        cases word with
        | nil => exact Or.inl (acceptsHere_some.mpr hacc)
        | cons q word =>
            obtain ⟨rfl, hrest⟩ := List.cons_prefix_cons.mp hword
            obtain ⟨next, hstep, hacc⟩ := acceptsStack_cons.mp hacc
            right
            rw [hstep]
            exact ih.mpr ⟨word, hrest, hacc⟩

theorem mem_mask {stack : List ℕ} :
    p ∈ self.Mask stack ↔ self.MaskFrom p (some self.start_state) stack := maskFrom_some.symm

end DWA

/-! ## Two automata at a point

While neither side has accepted, the masks of two automata at a point depend only
on where their runs at that point are. -/

/-- A state of a run in each of two automata. -/
abbrev StatePair := Option ℕ × Option ℕ

namespace PairSearch

variable (left right : DWA) (num_parser_states : ℕ)

/-- Exactly one side accepts. -/
def Disagrees (x : StatePair × Point) : Prop :=
  ¬ (left.AcceptsHere x.2 x.1.1 ↔ right.AcceptsHere x.2 x.1.2)

/-- Both runs read a parser state; neither side has accepted, and not both runs end. -/
structure Next (x : StatePair × Point) (parser : ℕ) (y : StatePair × Point) : Prop where
  inRange : parser < num_parser_states
  left_rejects : ¬ left.AcceptsHere x.2 x.1.1
  right_rejects : ¬ right.AcceptsHere x.2 x.1.2
  step : y = ((left.stepAt x.2 x.1.1 parser, right.stepAt x.2 x.1.2 parser), x.2)
  alive : y.1 ≠ (none, none)

variable {left right num_parser_states}

theorem path_point {x y : StatePair × Point} {w : List ℕ}
    (h : Path (Next left right num_parser_states) x w y) : y.2 = x.2 := by
  induction h with
  | nil => rfl
  | snoc _ hstep ih => rw [hstep.step, ih]

theorem path_inRange {x y : StatePair × Point} {w : List ℕ}
    (h : Path (Next left right num_parser_states) x w y) :
    ∀ parser ∈ w, parser < num_parser_states := by
  induction h with
  | nil => simp
  | snoc _ hstep ih =>
      intro parser hmem
      rcases List.mem_append.mp hmem with hmem | hmem
      · exact ih parser hmem
      · rw [List.mem_singleton.mp hmem]
        exact hstep.inRange

/-- The masks at the start of a path are those at its end, for the rest of the stack. -/
theorem path_maskFrom {x y : StatePair × Point} {w : List ℕ}
    (h : Path (Next left right num_parser_states) x w y) (stack : List ℕ) :
    (left.MaskFrom x.2 x.1.1 (w ++ stack) ↔ left.MaskFrom y.2 y.1.1 stack) ∧
      (right.MaskFrom x.2 x.1.2 (w ++ stack) ↔ right.MaskFrom y.2 y.1.2 stack) := by
  induction h generalizing stack with
  | nil => exact ⟨Iff.rfl, Iff.rfl⟩
  | snoc _ hstep ih =>
      rename_i t u w parser _
      obtain ⟨hl, hr⟩ := ih (parser :: stack)
      rw [List.append_assoc, List.singleton_append, hl, hr, hstep.step]
      constructor
      · exact or_iff_right hstep.left_rejects
      · exact or_iff_right hstep.right_rejects

/-- A path to a pair of states that disagree is a stack whose masks differ. -/
theorem masks_differ_of_path {x y : StatePair × Point} {w : List ℕ}
    (h : Path (Next left right num_parser_states) x w y) (hy : Disagrees left right y) :
    ¬ (left.MaskFrom x.2 x.1.1 w ↔ right.MaskFrom x.2 x.1.2 w) := by
  obtain ⟨hl, hr⟩ := path_maskFrom h []
  rw [List.append_nil] at hl hr
  rw [hl, hr]
  exact hy

/-- Where the masks of a stack differ, a path that is no longer leads to a disagreement. -/
theorem exists_path_of_masks_differ {pair : StatePair} {p : Point} {stack : List ℕ}
    (hrange : ∀ parser ∈ stack, parser < num_parser_states)
    (h : ¬ (left.MaskFrom p pair.1 stack ↔ right.MaskFrom p pair.2 stack)) :
    ∃ w y, Path (Next left right num_parser_states) (pair, p) w y ∧ Disagrees left right y ∧
      w.length ≤ stack.length := by
  induction stack generalizing pair with
  | nil => exact ⟨[], (pair, p), Path.nil, h, le_rfl⟩
  | cons parser stack ih =>
      by_cases hhere : left.AcceptsHere p pair.1 ↔ right.AcceptsHere p pair.2
      · by_cases hl : left.AcceptsHere p pair.1
        · have hr := hhere.mp hl
          exact absurd (iff_of_true (Or.inl hl) (Or.inl hr)) h
        · have hr : ¬ right.AcceptsHere p pair.2 := fun hr => hl (hhere.mpr hr)
          simp only [DWA.MaskFrom, hl, hr, false_or] at h
          have halive : (left.stepAt p pair.1 parser, right.stepAt p pair.2 parser) ≠
              (none, none) := by
            intro he
            obtain ⟨hel, her⟩ := Prod.mk.inj he
            rw [hel, her] at h
            exact h (iff_of_false (DWA.not_maskFrom_none stack) (DWA.not_maskFrom_none stack))
          obtain ⟨w, y, hw, hy, hlen⟩ := @ih
            (left.stepAt p pair.1 parser, right.stepAt p pair.2 parser)
            (fun q hq => hrange q (List.mem_cons_of_mem _ hq)) h
          refine ⟨parser :: w, y, Path.cons ?_ hw, hy, Nat.succ_le_succ hlen⟩
          exact ⟨hrange parser List.mem_cons_self, hl, hr, rfl, halive⟩
      · exact ⟨[], (pair, p), Path.nil, hhere, Nat.zero_le _⟩

end PairSearch

end GlrMask
