import GlrMask.ParserMask

/-!
# Trimming a parser automaton

The states that a queue reaches from the start along edges with a weight are kept
in their order and numbered again. An edge without a weight is deleted, so that its
label is read by the default edge afterwards.
-/

namespace GlrMask

namespace DWA

/-! ## Masks through a simulation -/

/-- Two runs at a point that stay related and accept together. -/
structure Simulates (p : Point) (left right : DWA) (Related : Option ℕ → Option ℕ → Prop) :
    Prop where
  accepts : ∀ x y, Related x y → (left.AcceptsHere p x ↔ right.AcceptsHere p y)
  steps : ∀ x y parser, Related x y → Related (left.stepAt p x parser) (right.stepAt p y parser)

theorem Simulates.maskFrom_iff {p : Point} {left right : DWA} {Related : Option ℕ → Option ℕ → Prop}
    (h : Simulates p left right Related) {x y : Option ℕ} (hxy : Related x y) (stack : List ℕ) :
    left.MaskFrom p x stack ↔ right.MaskFrom p y stack := by
  induction stack generalizing x y with
  | nil => exact h.accepts x y hxy
  | cons parser stack ih => exact or_congr (h.accepts x y hxy) (ih (h.steps x y parser hxy))

/-- Where an edge leads at a point. -/
noncomputable def follow (p : Point) (e : ℕ × Weight) : Option ℕ :=
  open Classical in if p ∈ e.2 then some e.1 else none

/-- Two rows have an edge for the same labels, and their edges lead to related runs. -/
def EdgesMatch (p : Point) (Related : Option ℕ → Option ℕ → Prop) :
    Option (ℕ × Weight) → Option (ℕ × Weight) → Prop
  | none, none => True
  | some e, some e' => Related (follow p e) (follow p e')
  | _, _ => False

theorem stepAt_some {self : DWA} {p : Point} {state parser : ℕ} :
    self.stepAt p (some state) parser = (self.parserEdge state parser).bind (follow p) := rfl

/-- Matching edges also match where a label falls back to the default. -/
theorem related_stepAt {p : Point} {left right : DWA} {Related : Option ℕ → Option ℕ → Prop}
    (hnone : Related none none) {s t : ℕ}
    (h : ∀ label, EdgesMatch p Related (left.edge s label) (right.edge t label)) (parser : ℕ) :
    Related (left.stepAt p (some s) parser) (right.stepAt p (some t) parser) := by
  have hparser := h parser
  have hdefault := h DEFAULT_LABEL
  rw [stepAt_some, stepAt_some, parserEdge, parserEdge]
  cases hl : left.edge s parser with
  | some e =>
      cases hr : right.edge t parser with
      | some e' =>
          rw [hl, hr] at hparser
          exact hparser
      | none => simp only [hl, hr, EdgesMatch] at hparser
  | none =>
      cases hr : right.edge t parser with
      | some e' => simp only [hl, hr, EdgesMatch] at hparser
      | none =>
          rw [Option.none_or, Option.none_or]
          cases hdl : left.edge s DEFAULT_LABEL with
          | some e =>
              cases hdr : right.edge t DEFAULT_LABEL with
              | some e' =>
                  rw [hdl, hdr] at hdefault
                  exact hdefault
              | none => simp only [hdl, hdr, EdgesMatch] at hdefault
          | none =>
              cases hdr : right.edge t DEFAULT_LABEL with
              | some e' => simp only [hdl, hdr, EdgesMatch] at hdefault
              | none => exact hnone

/-- The automaton without some of its edges. -/
def withoutEdges (self : DWA) (dead : ℕ × Weight → Bool) : DWA where
  states := self.states.map fun row =>
    { row with transitions := row.transitions.filterMapValues fun e => if dead e then none else some e }
  start_state := self.start_state

section WithoutEdges

variable {self : DWA} {dead : ℕ × Weight → Bool}

theorem edge_withoutEdges {state : ℕ} {label : Label} :
    (self.withoutEdges dead).edge state label =
      (self.edge state label).bind fun e => if dead e then none else some e := by
  simp only [edge, withoutEdges, List.getElem?_map]
  cases self.states[state]? with
  | none => rfl
  | some row => exact SortedMap.get_filterMapValues _ _ _

theorem final_withoutEdges (state : ℕ) :
    (self.withoutEdges dead).final state = self.final state := by
  simp only [final, withoutEdges, List.getElem?_map]
  cases self.states[state]? with
  | none => rfl
  | some row => rfl

theorem acceptsHere_withoutEdges {p : Point} {side : Option ℕ} :
    (self.withoutEdges dead).AcceptsHere p side ↔ self.AcceptsHere p side := by
  simp only [AcceptsHere, final_withoutEdges]

theorem edge_withoutEdges_eq_some {state : ℕ} {label : Label} {e : ℕ × Weight} :
    (self.withoutEdges dead).edge state label = some e ↔
      self.edge state label = some e ∧ dead e = false := by
  rw [edge_withoutEdges, Option.bind_eq_some_iff]
  constructor
  · intro h
    obtain ⟨e', he', hif⟩ := h
    split_ifs at hif with hdead
    obtain rfl := Option.some.inj hif
    exact ⟨he', Bool.eq_false_iff.mpr hdead⟩
  · intro h
    obtain ⟨he, hdead⟩ := h
    exact ⟨e, he, by rw [hdead]; rfl⟩

theorem edge_withoutEdges_eq_none {state : ℕ} {label : Label} :
    (self.withoutEdges dead).edge state label = none ↔
      ∀ e, self.edge state label = some e → dead e = true := by
  rw [edge_withoutEdges, Option.bind_eq_none_iff]
  apply forall_congr'
  intro e
  apply imp_congr_right
  intro _
  split_ifs with hdead
  · exact iff_of_true rfl hdead
  · exact iff_of_false (by simp) hdead

theorem parserEdge_withoutEdges {state parser : ℕ} {e : ℕ × Weight}
    (h : self.parserEdge state parser = some e) (hkept : dead e = false) :
    (self.withoutEdges dead).parserEdge state parser = some e := by
  unfold parserEdge at h ⊢
  cases hedge : self.edge state parser with
  | some explicit =>
      rw [hedge] at h
      obtain rfl : explicit = e := Option.some.inj h
      rw [edge_withoutEdges_eq_some.mpr ⟨hedge, hkept⟩]
      rfl
  | none =>
      rw [hedge] at h
      rw [edge_withoutEdges_eq_some.mpr ⟨h, hkept⟩, edge_withoutEdges, hedge]
      rfl

/-- An edge that is read after the deletion was read before, or a deleted edge hid it. -/
theorem parserEdge_withoutEdges_cases {state parser : ℕ} {e : ℕ × Weight}
    (h : (self.withoutEdges dead).parserEdge state parser = some e) :
    self.parserEdge state parser = some e ∨
      ∃ hidden, self.edge state parser = some hidden ∧ dead hidden = true ∧
        self.edge state DEFAULT_LABEL = some e := by
  unfold parserEdge at h ⊢
  cases hexplicit : (self.withoutEdges dead).edge state parser with
  | some explicit =>
      rw [hexplicit] at h
      obtain rfl : explicit = e := Option.some.inj h
      rw [(edge_withoutEdges_eq_some.mp hexplicit).1]
      exact Or.inl rfl
  | none =>
      rw [hexplicit] at h
      have hdefault := (edge_withoutEdges_eq_some.mp h).1
      cases hedge : self.edge state parser with
      | some hidden =>
          exact Or.inr ⟨hidden, rfl, edge_withoutEdges_eq_none.mp hexplicit hidden hedge, hdefault⟩
      | none => exact Or.inl hdefault

end WithoutEdges

/-! ## The search -/

/-- A target in range that is not reached yet is marked and queued. -/
def visit (found : List Bool × List ℕ) (target : ℕ) : List Bool × List ℕ :=
  if found.1[target]? = some false then (found.1.set target true, found.2 ++ [target]) else found

/-- What a visit adds is both marked and queued. -/
structure Visited (old new : List Bool × List ℕ) : Prop where
  length : new.1.length = old.1.length
  marked : ∀ s : ℕ, old.1[s]? = some true → new.1[s]? = some true
  queued : ∀ s ∈ old.2, s ∈ new.2
  added : ∀ s : ℕ, new.1[s]? = some true → old.1[s]? = some true ∨ s ∈ new.2

theorem Visited.refl (found : List Bool × List ℕ) : Visited found found :=
  ⟨rfl, fun _ h => h, fun _ h => h, fun _ h => Or.inl h⟩

theorem Visited.trans {a b c : List Bool × List ℕ} (h : Visited a b) (h' : Visited b c) :
    Visited a c where
  length := h'.length.trans h.length
  marked s hs := h'.marked s (h.marked s hs)
  queued s hs := h'.queued s (h.queued s hs)
  added s hs := by
    rcases h'.added s hs with hs | hs
    · exact (h.added s hs).imp_right (h'.queued s)
    · exact Or.inr hs

theorem visited_visit (found : List Bool × List ℕ) (target : ℕ) :
    Visited found (visit found target) := by
  unfold visit
  split_ifs with hnew
  · have hlt : target < found.1.length := (List.getElem?_eq_some_iff.mp hnew).1
    constructor
    · exact List.length_set
    · intro s hs
      by_cases heq : target = s
      · rw [heq]
        exact List.getElem?_set_self (heq ▸ hlt)
      · rw [List.getElem?_set_ne heq]
        exact hs
    · intro s hs
      exact List.mem_append_left _ hs
    · intro s hs
      by_cases heq : target = s
      · exact Or.inr (List.mem_append_right _ (List.mem_singleton.mpr heq.symm))
      · rw [List.getElem?_set_ne heq] at hs
        exact Or.inl hs
  · exact Visited.refl found

theorem visited_foldl (targets : List ℕ) (found : List Bool × List ℕ) :
    Visited found (targets.foldl visit found) := by
  induction targets generalizing found with
  | nil => exact Visited.refl found
  | cons target targets ih => exact (visited_visit found target).trans (ih _)

theorem foldl_visit_marks {targets : List ℕ} {found : List Bool × List ℕ} {target : ℕ}
    (h : target ∈ targets) (hlt : target < found.1.length) :
    (targets.foldl visit found).1[target]? = some true := by
  induction targets generalizing found with
  | nil => cases h
  | cons head targets ih =>
      rw [List.foldl_cons]
      rcases List.mem_cons.mp h with rfl | h
      · apply (visited_foldl targets _).marked
        unfold visit
        split_ifs with hnew
        · exact List.getElem?_set_self hlt
        · cases hmark : found.1[target] with
          | true => rw [List.getElem?_eq_getElem hlt, hmark]
          | false => exact absurd (by rw [List.getElem?_eq_getElem hlt, hmark]) hnew
      · exact ih h ((visited_visit found head).length.symm ▸ hlt)

theorem size_foldl_visit (targets : List ℕ) (found : List Bool × List ℕ) :
    (targets.foldl visit found).1.count false + (targets.foldl visit found).2.length =
      found.1.count false + found.2.length := by
  induction targets generalizing found with
  | nil => rfl
  | cons target targets ih =>
      rw [List.foldl_cons, ih, visit]
      split_ifs with hnew
      · obtain ⟨hlt, hget⟩ := List.getElem?_eq_some_iff.mp hnew
        have hpos : 0 < found.1.count false := List.count_pos_iff.mpr (hget ▸ List.getElem_mem hlt)
        have hcount : (found.1.set target true).count false = found.1.count false - 1 := by
          rw [List.count_set hlt, hget]
          simp
        rw [hcount, List.length_append, List.length_singleton]
        omega
      · rfl

/-- The marks once the queue is empty. -/
def reach (targets : ℕ → List ℕ) (reachable : List Bool) (queue : List ℕ) : List Bool :=
  match queue with
  | [] => reachable
  | state_id :: rest =>
      reach targets ((targets state_id).foldl visit (reachable, rest)).1
        ((targets state_id).foldl visit (reachable, rest)).2
termination_by reachable.count false + queue.length
decreasing_by
  rw [size_foldl_visit, List.length_cons]
  exact Nat.lt_succ_self _

/-- A marked state is queued or its targets are marked. -/
def Marking (targets : ℕ → List ℕ) (found : List Bool × List ℕ) : Prop :=
  ∀ s : ℕ, found.1[s]? = some true → s ∈ found.2 ∨
    ∀ t ∈ targets s, t < found.1.length → found.1[t]? = some true

theorem Marking.pop {targets : ℕ → List ℕ} {reachable : List Bool} {state_id : ℕ} {rest : List ℕ}
    (h : Marking targets (reachable, state_id :: rest)) :
    Marking targets ((targets state_id).foldl visit (reachable, rest)) := by
  intro s hs
  have hvisited := visited_foldl (targets state_id) (reachable, rest)
  rcases hvisited.added s hs with hold | hqueued
  · rcases h s hold with hqueue | hclosed
    · rcases List.mem_cons.mp hqueue with rfl | hqueue
      · right
        intro t ht hlt
        exact foldl_visit_marks ht (hvisited.length ▸ hlt)
      · exact Or.inl (hvisited.queued s hqueue)
    · right
      intro t ht hlt
      exact hvisited.marked t (hclosed t ht (hvisited.length ▸ hlt))
  · exact Or.inl hqueued

theorem reach_marking {targets : ℕ → List ℕ} {reachable : List Bool} {queue : List ℕ}
    (h : Marking targets (reachable, queue)) :
    Marking targets (reach targets reachable queue, []) ∧
      (reach targets reachable queue).length = reachable.length ∧
      ∀ s : ℕ, reachable[s]? = some true → (reach targets reachable queue)[s]? = some true := by
  fun_induction reach targets reachable queue with
  | case1 reachable => exact ⟨h, rfl, fun _ hs => hs⟩
  | case2 reachable state_id rest ih =>
      obtain ⟨hmarking, hlength, hmarked⟩ := ih h.pop
      have hvisited := visited_foldl (targets state_id) (reachable, rest)
      exact ⟨hmarking, hlength.trans hvisited.length, fun s hs => hmarked s (hvisited.marked s hs)⟩

/-! ## Numbering what is reached -/

/-- `remap`: the new number of each reached state. -/
def numberLive : List Bool → ℕ → List (Option ℕ)
  | [], _ => []
  | true :: reachable, next_id => some next_id :: numberLive reachable (next_id + 1)
  | false :: reachable, next_id => none :: numberLive reachable next_id

def keepLive {α : Type*} : List Bool → List α → List α
  | true :: reachable, state :: states => state :: keepLive reachable states
  | false :: reachable, _ :: states => keepLive reachable states
  | _, _ => []

theorem numberLive_of_marked {reachable : List Bool} {s : ℕ} (h : reachable[s]? = some true)
    (next_id : ℕ) : ∃ j, (numberLive reachable next_id)[s]? = some (some j) := by
  induction reachable generalizing s next_id with
  | nil => cases h
  | cons live reachable ih =>
      cases s with
      | zero =>
          obtain rfl : live = true := Option.some.inj h
          exact ⟨next_id, rfl⟩
      | succ s =>
          cases live with
          | true => exact ih h (next_id + 1)
          | false => exact ih h next_id

theorem marked_of_numberLive {reachable : List Bool} {next_id s j : ℕ}
    (h : (numberLive reachable next_id)[s]? = some (some j)) : reachable[s]? = some true := by
  induction reachable generalizing s next_id with
  | nil => cases h
  | cons live reachable ih =>
      cases live with
      | true =>
          cases s with
          | zero => rfl
          | succ s => exact ih h
      | false =>
          cases s with
          | zero => cases Option.some.inj h
          | succ s => exact ih h

/-- A new number is the place of the old row among the rows that are kept. -/
theorem getElem?_keepLive {α : Type*} {reachable : List Bool} {states : List α} {next_id s j : ℕ}
    (hlength : reachable.length = states.length)
    (h : (numberLive reachable next_id)[s]? = some (some j)) :
    next_id ≤ j ∧ (keepLive reachable states)[j - next_id]? = states[s]? := by
  induction reachable generalizing states next_id s with
  | nil => cases h
  | cons live reachable ih =>
      cases states with
      | nil => cases hlength
      | cons state states =>
          have hrest : reachable.length = states.length := Nat.succ.inj hlength
          cases live with
          | true =>
              cases s with
              | zero =>
                  obtain rfl : next_id = j := Option.some.inj (Option.some.inj h)
                  simp [keepLive]
              | succ s =>
                  obtain ⟨hle, hget⟩ := ih hrest h
                  have hj : j - next_id = (j - (next_id + 1)) + 1 := by omega
                  rw [hj]
                  exact ⟨by omega, hget⟩
          | false =>
              cases s with
              | zero => cases Option.some.inj h
              | succ s => exact ih hrest h

/-! ## The function -/

/-- The targets in range are found by the marks. -/
def liveTargets (self : DWA) (state : ℕ) : List ℕ :=
  match self.states[state]? with
  | some row => row.transitions.values.filterMap fun e => if e.2.is_empty then none else some e.1
  | none => []

def retarget (remap : List (Option ℕ)) (e : ℕ × Weight) : Option (ℕ × Weight) :=
  if e.2.is_empty then none else (remap[e.1]?).join.map fun mapped => (mapped, e.2)

def retargetRows (remap : List (Option ℕ)) (rows : List DWAState) : List DWAState :=
  rows.map fun row =>
    { row with transitions := row.transitions.filterMapValues (retarget remap) }

/-- `none` is the index panic of a start state out of range. -/
def trim_unreachable_dwa (dwa : DWA) : Option DWA :=
  if dwa.states.isEmpty then some dwa
  else if dwa.start_state < dwa.states.length then
    let reachable := reach dwa.liveTargets
      ((List.replicate dwa.states.length false).set dwa.start_state true) [dwa.start_state]
    let remap := numberLive reachable 0
    some
      { states := retargetRows remap (keepLive reachable dwa.states)
        start_state := (remap[dwa.start_state]?).join.getD u32Max }
  else none

theorem isEmpty_eq_false_of_start {dwa : DWA} (h : dwa.start_state < dwa.states.length) :
    dwa.states.isEmpty = false := by
  cases hstates : dwa.states with
  | nil => rw [hstates] at h; cases h
  | cons row rest => rfl

theorem mem_liveTargets {dwa : DWA} {state target : ℕ} {label : Label} {weight : Weight}
    (h : dwa.edge state label = some (target, weight)) (hweight : weight.is_empty = false) :
    target ∈ dwa.liveTargets state := by
  obtain ⟨row, hrow, hget⟩ := Option.bind_eq_some_iff.mp h
  simp only [liveTargets, hrow]
  apply List.mem_filterMap.mpr
  exact ⟨(target, weight), List.mem_map_of_mem (SortedMap.get_eq_some_iff.mp hget), by simp [hweight]⟩

section Trim

variable {dwa : DWA} {remap : List (Option ℕ)} {rows : List DWAState} {start : ℕ} {p : Point}

/-- `remap` numbers states whose rows are kept and whose edges stay among them. -/
structure Renumbers (dwa : DWA) (remap : List (Option ℕ)) (rows : List DWAState) : Prop where
  kept : ∀ s j : ℕ, remap[s]? = some (some j) → rows[j]? = dwa.states[s]?
  closed : ∀ (s j : ℕ) (label : Label) (target : ℕ) (weight : Weight),
    remap[s]? = some (some j) → dwa.edge s label = some (target, weight) →
      weight.is_empty = false → ∃ k, remap[target]? = some (some k)

theorem Renumbers.edge (h : Renumbers dwa remap rows) {s j : ℕ} (hs : remap[s]? = some (some j))
    (label : Label) : DWA.edge ⟨retargetRows remap rows, start⟩ j label =
      (dwa.edge s label).bind (retarget remap) := by
  simp only [DWA.edge, retargetRows, List.getElem?_map, h.kept s j hs]
  cases dwa.states[s]? with
  | none => rfl
  | some row => exact SortedMap.get_filterMapValues _ _ _

theorem Renumbers.final (h : Renumbers dwa remap rows) {s j : ℕ} (hs : remap[s]? = some (some j)) :
    DWA.final ⟨retargetRows remap rows, start⟩ j = dwa.final s := by
  simp only [DWA.final, retargetRows, List.getElem?_map, h.kept s j hs]
  cases dwa.states[s]? with
  | none => rfl
  | some row => rfl

/-- A state and its new number, or two runs that have ended. -/
def Renumbered (remap : List (Option ℕ)) (x y : Option ℕ) : Prop :=
  (x = none ∧ y = none) ∨ ∃ s j : ℕ, x = some s ∧ y = some j ∧ remap[s]? = some (some j)

/-- The edges without a weight are gone, the others are renumbered. -/
theorem Renumbers.edgesMatch (h : Renumbers dwa remap rows) {s j : ℕ}
    (hs : remap[s]? = some (some j)) (label : Label) :
    EdgesMatch p (Renumbered remap) ((dwa.withoutEdges fun e => e.2.is_empty).edge s label)
      (DWA.edge ⟨retargetRows remap rows, start⟩ j label) := by
  rw [h.edge hs, edge_withoutEdges]
  cases he : dwa.edge s label with
  | none => trivial
  | some e =>
      obtain ⟨target, weight⟩ := e
      rw [Option.bind_some, Option.bind_some]
      cases hweight : weight.is_empty with
      | true => simp [retarget, hweight, EdgesMatch]
      | false =>
          obtain ⟨k, hk⟩ := h.closed s j label target weight hs he hweight
          have hretarget : retarget remap (target, weight) = some (k, weight) := by
            simp [retarget, hweight, hk]
          rw [hretarget]
          simp only [Bool.false_eq_true, if_false, EdgesMatch, follow]
          by_cases hp : p ∈ weight
          · rw [if_pos hp, if_pos hp]
            exact Or.inr ⟨target, k, rfl, rfl, hk⟩
          · rw [if_neg hp, if_neg hp]
            exact Or.inl ⟨rfl, rfl⟩

theorem Renumbers.simulates (h : Renumbers dwa remap rows) (p : Point) (start : ℕ) :
    Simulates p (dwa.withoutEdges fun e => e.2.is_empty) ⟨retargetRows remap rows, start⟩
      (Renumbered remap) where
  accepts x y hxy := by
    rcases hxy with ⟨rfl, rfl⟩ | ⟨s, j, rfl, rfl, hs⟩
    · exact iff_of_false not_acceptsHere_none not_acceptsHere_none
    · rw [acceptsHere_withoutEdges, acceptsHere_some, acceptsHere_some, h.final hs]
  steps x y parser hxy := by
    rcases hxy with ⟨rfl, rfl⟩ | ⟨s, j, rfl, rfl, hs⟩
    · exact Or.inl ⟨rfl, rfl⟩
    · apply related_stepAt (Or.inl ⟨rfl, rfl⟩)
      intro label
      exact h.edgesMatch hs label

/-- The search marks the start and is closed under the edges with a weight. -/
theorem renumbers_reach (hstart : dwa.start_state < dwa.states.length)
    (hrange : ∀ state label target weight, dwa.edge state label = some (target, weight) →
      target < dwa.states.length) {reachable : List Bool}
    (hreach : reachable = reach dwa.liveTargets
      ((List.replicate dwa.states.length false).set dwa.start_state true) [dwa.start_state]) :
    Renumbers dwa (numberLive reachable 0) (keepLive reachable dwa.states) ∧
      ∃ j, (numberLive reachable 0)[dwa.start_state]? = some (some j) := by
  have hinitial : Marking dwa.liveTargets
      ((List.replicate dwa.states.length false).set dwa.start_state true, [dwa.start_state]) := by
    intro s hs
    by_cases heq : dwa.start_state = s
    · exact Or.inl (List.mem_singleton.mpr heq.symm)
    · rw [List.getElem?_set_ne heq] at hs
      have hfalse := List.eq_of_mem_replicate (List.mem_of_getElem? hs)
      cases hfalse
  obtain ⟨hmarking, hlength, hmarked⟩ := reach_marking hinitial
  rw [← hreach] at hmarking hlength hmarked
  rw [List.length_set, List.length_replicate] at hlength
  constructor
  · constructor
    · intro s j hs
      exact (getElem?_keepLive hlength hs).2
    · intro s j label target weight hs he hweight
      apply numberLive_of_marked
      have hclosed := (hmarking s (marked_of_numberLive hs)).resolve_left List.not_mem_nil
      apply hclosed target (mem_liveTargets he hweight)
      rw [hlength]
      exact hrange s label target weight he
  · apply numberLive_of_marked
    apply hmarked
    apply List.getElem?_set_self
    rw [List.length_replicate]
    exact hstart

/-- Trimming deletes the edges without a weight, and nothing else that a run can see. -/
theorem trim_unreachable_dwa_spec (hstart : dwa.start_state < dwa.states.length)
    (hrange : ∀ state label target weight, dwa.edge state label = some (target, weight) →
      target < dwa.states.length) :
    ∃ result, trim_unreachable_dwa dwa = some result ∧ ∀ p stack,
      result.MaskFrom p (some result.start_state) stack ↔
        (dwa.withoutEdges fun e => e.2.is_empty).MaskFrom p (some dwa.start_state) stack := by
  obtain ⟨hrenumbers, j, hj⟩ := renumbers_reach hstart hrange rfl
  have hnonempty := Bool.eq_false_iff.mp (isEmpty_eq_false_of_start hstart)
  refine ⟨_, (if_neg hnonempty).trans (if_pos hstart), ?_⟩
  intro p stack
  symm
  apply (hrenumbers.simulates p _).maskFrom_iff
  exact Or.inr ⟨dwa.start_state, j, rfl, by simp [hj], hj⟩

end Trim

end DWA

end GlrMask
