import GlrMask.Nwa
import GlrMask.WeightUnionAll

/-!
# Restricting an acyclic automaton to its support

Going backward through the states, every edge weight is cut down to the points
that some accepting path from its target lets pass; going forward, to the points
that reach its source. Neither changes the weight of a word.
-/

namespace GlrMask

namespace NWAState

variable {state : NWAState} {p : Point} {target : ℕ} {label : Label}

def edges (self : NWAState) : List (ℕ × Weight) := self.epsilons ++ self.transitions.values.flatten

/-- Cut down the weight of every edge, with a weight for each target. -/
def narrow [Runtime] (self : NWAState) (support : ℕ → Weight) : NWAState :=
  let narrow_edges (edges : List (ℕ × Weight)) :=
    edges.map fun edge => (edge.1, edge.2.intersection (support edge.1))
  { self with
    epsilons := narrow_edges self.epsilons
    transitions := self.transitions.mapValues narrow_edges }

/-- Drop the edges without a weight, and the labels without an edge. -/
def retain_nonempty (self : NWAState) : NWAState :=
  let retain (edges : List (ℕ × Weight)) := edges.filter fun edge => !edge.2.is_empty
  { self with
    epsilons := retain self.epsilons
    transitions := (self.transitions.mapValues retain).filter fun e => !e.2.isEmpty }

def intersect_final [Runtime] (self : NWAState) (incoming : Weight) : NWAState :=
  { self with final_weight := self.final_weight.map fun weight => weight.intersection incoming }

def cleared : NWAState := ⟨none, SortedMap.empty, []⟩

/-- A point ends in the state. -/
def FinalPass (self : NWAState) (p : Point) : Prop := ∃ weight ∈ self.final_weight, p ∈ weight

def EpsilonPass (self : NWAState) (p : Point) (target : ℕ) : Prop :=
  ∃ weight, (target, weight) ∈ self.epsilons ∧ p ∈ weight

def LabelPass (self : NWAState) (p : Point) (label : Label) (target : ℕ) : Prop :=
  ∃ weight, (target, weight) ∈ (self.transitions.get label).getD [] ∧ p ∈ weight

theorem not_finalPass_cleared : ¬cleared.FinalPass p := fun ⟨_, hw, _⟩ => by cases hw

theorem not_epsilonPass_cleared : ¬cleared.EpsilonPass p target := fun ⟨_, hw, _⟩ => by cases hw

theorem not_labelPass_cleared : ¬cleared.LabelPass p label target := fun ⟨_, hw, _⟩ => by cases hw

theorem pass_narrow_edges [Runtime] {support : ℕ → Weight} {edges : List (ℕ × Weight)} :
    (∃ weight, (target, weight) ∈ (edges.map fun edge : ℕ × Weight =>
        (edge.1, edge.2.intersection (support edge.1))) ∧ p ∈ weight) ↔
      (∃ weight, (target, weight) ∈ edges ∧ p ∈ weight) ∧ p ∈ support target := by
  constructor
  · intro ⟨weight, hmem, hp⟩
    obtain ⟨⟨t, w⟩, hedge, heq⟩ := List.mem_map.mp hmem
    obtain ⟨rfl, rfl⟩ := Prod.mk.inj heq
    obtain ⟨hw, hsupport⟩ := Weight.mem_intersection.mp hp
    exact ⟨⟨w, hedge, hw⟩, hsupport⟩
  · intro ⟨⟨weight, hedge, hp⟩, hsupport⟩
    exact ⟨_, List.mem_map_of_mem hedge, Weight.mem_intersection.mpr ⟨hp, hsupport⟩⟩

theorem pass_retain {edges : List (ℕ × Weight)} :
    (∃ weight, (target, weight) ∈ (edges.filter fun edge => !edge.2.is_empty) ∧ p ∈ weight) ↔
      ∃ weight, (target, weight) ∈ edges ∧ p ∈ weight := by
  constructor
  · intro ⟨weight, hmem, hp⟩
    exact ⟨weight, (List.mem_filter.mp hmem).1, hp⟩
  · intro ⟨weight, hmem, hp⟩
    have hne : weight.is_empty = false := by
      rw [Bool.eq_false_iff]
      intro hempty
      rw [Weight.is_empty_iff.mp hempty] at hp
      exact Weight.not_mem_empty hp
    exact ⟨weight, List.mem_filter.mpr ⟨hmem, by rw [hne]; rfl⟩, hp⟩

theorem epsilonPass_narrow [Runtime] {support : ℕ → Weight} :
    (state.narrow support).EpsilonPass p target ↔ state.EpsilonPass p target ∧ p ∈ support target :=
  pass_narrow_edges

theorem labelPass_narrow [Runtime] {support : ℕ → Weight} :
    (state.narrow support).LabelPass p label target ↔
      state.LabelPass p label target ∧ p ∈ support target := by
  unfold LabelPass narrow
  rw [SortedMap.get_mapValues]
  cases state.transitions.get label with
  | none => simp
  | some edges => exact pass_narrow_edges

theorem epsilonPass_retain : state.retain_nonempty.EpsilonPass p target ↔ state.EpsilonPass p target :=
  pass_retain

theorem get_retain : (state.retain_nonempty.transitions.get label).getD [] =
    ((state.transitions.get label).getD []).filter fun edge => !edge.2.is_empty := by
  have hnodup : ((state.transitions.mapValues fun edges : List (ℕ × Weight) =>
      edges.filter fun edge => !edge.2.is_empty).entries.map Prod.fst).Nodup :=
    (SortedMap.keys_sorted _).imp fun hlt => hlt.ne
  have hget := SortedMap.lookupEntry_filter (k := label) (p := fun edges : List (ℕ × Weight) =>
    !edges.isEmpty) hnodup
  have hmap := SortedMap.get_mapValues (fun edges : List (ℕ × Weight) =>
    edges.filter fun edge => !edge.2.is_empty) state.transitions label
  unfold SortedMap.get at hmap
  unfold retain_nonempty SortedMap.get
  dsimp only [SortedMap.filter]
  rw [hget, hmap]
  cases SortedMap.lookupEntry state.transitions.entries label with
  | none => rfl
  | some edges =>
      rw [Option.map_some, Option.filter_some, Option.getD_some]
      split_ifs with hne
      · rfl
      · rw [Bool.not_eq_true, Bool.not_eq_false', List.isEmpty_iff] at hne
        rw [hne]
        rfl

theorem labelPass_retain :
    state.retain_nonempty.LabelPass p label target ↔ state.LabelPass p label target := by
  unfold LabelPass
  rw [get_retain]
  exact pass_retain

/-- A point is on some edge exactly when it passes with or without a label. -/
theorem pass_edges : (∃ edge ∈ state.edges, edge.1 = target ∧ p ∈ edge.2) ↔
    state.EpsilonPass p target ∨ ∃ label, state.LabelPass p label target := by
  constructor
  · intro ⟨⟨t, weight⟩, hedge, ht, hp⟩
    obtain rfl : t = target := ht
    obtain hmem | hmem := List.mem_append.mp hedge
    · exact Or.inl ⟨weight, hmem, hp⟩
    · obtain ⟨edges, hedges, hmem⟩ := List.mem_flatten.mp hmem
      obtain ⟨⟨label, _⟩, hentry, rfl⟩ := List.mem_map.mp hedges
      refine Or.inr ⟨label, weight, ?_, hp⟩
      rw [SortedMap.get_eq_some_iff.mpr hentry]
      exact hmem
  · intro h
    obtain ⟨weight, hmem, hp⟩ | ⟨label, weight, hmem, hp⟩ := h
    · exact ⟨_, List.mem_append_left _ hmem, rfl, hp⟩
    · cases hget : state.transitions.get label with
      | none =>
          rw [hget] at hmem
          cases hmem
      | some edges =>
          rw [hget] at hmem
          refine ⟨_, List.mem_append_right _ (List.mem_flatten_of_mem ?_ hmem), rfl, hp⟩
          exact List.mem_map_of_mem (SortedMap.get_eq_some_iff.mp hget)

end NWAState

namespace NWA

def num_transitions (self : NWA) : ℕ :=
  (self.states.map fun state => state.epsilons.length + (state.transitions.values.map List.length).sum).sum

/-- The targets of a state, those of its edges without a label first. -/
def support_targets (self : NWA) (id : ℕ) : List ℕ := (self.state id).edges.map Prod.fst

structure NwaSupportProfile where
  states : ℕ
  edges_before : ℕ
  edges_after : ℕ

/-- The states, and a weight for each of them. -/
abbrev SupportPass : Type := List NWAState × List Weight

def SupportPass.state (s : SupportPass) (id : ℕ) : NWAState := (s.1[id]?).getD default

def SupportPass.weight (s : SupportPass) (id : ℕ) : Weight := (s.2[id]?).getD Weight.empty

/-- Cut down the edges of a state to the suffixes of its targets. -/
def backward_step [Runtime] (s : SupportPass) (source : ℕ) : SupportPass :=
  let state := (s.state source).narrow s.weight
  let parts := (state.final_weight.toList ++ state.edges.map Prod.snd).filter fun weight =>
    !weight.is_empty
  (s.1.set source state.retain_nonempty, s.2.set source (Weight.union_all parts))

/-- Cut down a state to the points that reach it. -/
def forward_step [Runtime] (s : SupportPass) (source : ℕ) : SupportPass :=
  let incoming := s.weight source
  if incoming.is_empty then (s.1.set source NWAState.cleared, s.2)
  else
    let state := ((s.state source).intersect_final incoming).narrow fun _ => incoming
    (s.1.set source state.retain_nonempty,
      state.edges.foldl (fun forward edge => forward.modify edge.1 fun weight => weight.union edge.2) s.2)

def restrict_backward [Runtime] (self : NWA) (topo : List ℕ) : NWA :=
  let backward := List.replicate self.states.length Weight.empty
  { self with states := (topo.reverse.foldl backward_step (self.states, backward)).1 }

def restrict_forward [Runtime] (self : NWA) (topo : List ℕ) : NWA :=
  let forward := self.start_states.foldl (fun forward start => forward.set start Weight.all)
    (List.replicate self.states.length Weight.empty)
  { self with states := (topo.foldl forward_step (self.states, forward)).1 }

/-- The result, and the automaton as it is left behind. -/
def restrict_acyclic_nwa_support [Runtime] (self : NWA) (forward : Bool) :
    Except String NwaSupportProfile × NWA :=
  let n := self.states.length
  if self.start_states.any fun start => n ≤ start then
    (.error "NWA support restriction has an invalid start state", self)
  else if (List.range n).any fun id => (self.support_targets id).any fun target => n ≤ target then
    (.error "NWA support restriction has an invalid target", self)
  else if !allReleased self.support_targets n then
    (.error "NWA support restriction requires an acyclic graph", self)
  else
    let topo := releaseOrder self.support_targets n
    let restricted := self.restrict_backward topo
    let restricted := if forward then restricted.restrict_forward topo else restricted
    (.ok ⟨n, self.num_transitions, restricted.num_transitions⟩, restricted)

/-! ## Accepting and reaching, one edge at a time -/

variable {self other : NWA} {p : Point} {id target : ℕ} {word : List Label}

theorem Accepts.final (h : (self.state id).FinalPass p) : self.Accepts p id [] := by
  obtain ⟨weight, hfinal, hp⟩ := h
  exact ⟨[weight], AcceptingPath.final hfinal, by simpa using hp⟩

theorem Accepts.epsilon (h : self.EpsilonStep p id target) (rest : self.Accepts p target word) :
    self.Accepts p id word := by
  obtain ⟨weight, hedge, hp⟩ := h
  obtain ⟨weights, hpath, hw⟩ := rest
  exact ⟨weight :: weights, AcceptingPath.epsilon hedge hpath, List.forall_mem_cons.mpr ⟨hp, hw⟩⟩

theorem Accepts.label {label : Label} (h : self.LabelStep p label id target) (rest : self.Accepts p target word) :
    self.Accepts p id (label :: word) := by
  obtain ⟨weight, hedge, hp⟩ := h
  obtain ⟨weights, hpath, hw⟩ := rest
  exact ⟨weight :: weights, AcceptingPath.label hedge hpath, List.forall_mem_cons.mpr ⟨hp, hw⟩⟩

/-- What holds at the end of accepted words, and before every edge that a point passes. -/
theorem Accepts.induction {motive : ℕ → List Label → Prop}
    (final : ∀ id, (self.state id).FinalPass p → motive id [])
    (epsilon : ∀ id target word, self.EpsilonStep p id target → self.Accepts p target word →
      motive target word → motive id word)
    (label : ∀ id target label word, self.LabelStep p label id target → self.Accepts p target word →
      motive target word → motive id (label :: word))
    (h : self.Accepts p id word) : motive id word := by
  obtain ⟨weights, hpath, hw⟩ := h
  induction hpath with
  | final h => exact final _ ⟨_, h, hw _ List.mem_cons_self⟩
  | epsilon h hpath ih =>
      obtain ⟨hp, hrest⟩ := List.forall_mem_cons.mp hw
      exact epsilon _ _ _ ⟨_, h, hp⟩ ⟨_, hpath, hrest⟩ (ih hrest)
  | label h hpath ih =>
      obtain ⟨hp, hrest⟩ := List.forall_mem_cons.mp hw
      exact label _ _ _ _ ⟨_, h, hp⟩ ⟨_, hpath, hrest⟩ (ih hrest)

/-- The support of the accepting paths from a state. -/
def Supports (self : NWA) (p : Point) (id : ℕ) : Prop := ∃ word, self.Accepts p id word

/-- A point passes some edge between two states. -/
def Step (self : NWA) (p : Point) (id target : ℕ) : Prop :=
  self.EpsilonStep p id target ∨ ∃ label, self.LabelStep p label id target

theorem supports_iff : self.Supports p id ↔
    (self.state id).FinalPass p ∨ ∃ target, self.Step p id target ∧ self.Supports p target := by
  constructor
  · intro ⟨word, h⟩
    apply Accepts.induction (motive := fun id _ => (self.state id).FinalPass p ∨
      ∃ target, self.Step p id target ∧ self.Supports p target) _ _ _ h
    · exact fun id h => Or.inl h
    · exact fun id target word h rest _ => Or.inr ⟨target, Or.inl h, word, rest⟩
    · exact fun id target label word h rest _ => Or.inr ⟨target, Or.inr ⟨label, h⟩, word, rest⟩
  · intro h
    obtain h | ⟨target, h | ⟨label, h⟩, word, rest⟩ := h
    · exact ⟨[], Accepts.final h⟩
    · exact ⟨word, Accepts.epsilon h rest⟩
    · exact ⟨label :: word, Accepts.label h rest⟩

/-- The points that reach a state from some start state. -/
inductive Reached (self : NWA) (p : Point) : ℕ → Prop
  | start {id : ℕ} (h : id ∈ self.start_states) : Reached self p id
  | step {id target : ℕ} (h : self.Step p id target) (rest : Reached self p id) : Reached self p target

/-! ## Going backward -/

/-- The edges of a state are cut down to the points in a set for each target. -/
structure NarrowedTo (keep : Point → ℕ → Prop) (old new : NWAState) : Prop where
  epsilon : ∀ p target, new.EpsilonPass p target ↔ old.EpsilonPass p target ∧ keep p target
  label : ∀ p label target, new.LabelPass p label target ↔ old.LabelPass p label target ∧ keep p target

theorem NarrowedTo.congr {keep keep' : Point → ℕ → Prop} {old new : NWAState}
    (h : NarrowedTo keep old new)
    (heq : ∀ p, ∀ target ∈ old.edges.map Prod.fst, keep p target ↔ keep' p target) :
    NarrowedTo keep' old new := by
  have htarget : ∀ {p : Point} {target : ℕ},
      (old.EpsilonPass p target ∨ ∃ label, old.LabelPass p label target) →
        target ∈ old.edges.map Prod.fst := by
    intro p target hpass
    obtain ⟨edge, hedge, rfl, -⟩ := NWAState.pass_edges.mpr hpass
    exact List.mem_map_of_mem hedge
  constructor
  · intro p target
    rw [h.epsilon]
    exact and_congr_right fun hpass => heq p target (htarget (Or.inl hpass))
  · intro p label target
    rw [h.label]
    exact and_congr_right fun hpass => heq p target (htarget (Or.inr ⟨label, hpass⟩))

theorem NarrowedTo.pass {keep : Point → ℕ → Prop} {old new : NWAState} (h : NarrowedTo keep old new) :
    (new.EpsilonPass p target ∨ ∃ label, new.LabelPass p label target) ↔
      (old.EpsilonPass p target ∨ ∃ label, old.LabelPass p label target) ∧ keep p target := by
  rw [h.epsilon, or_and_right, ← exists_and_right]
  exact or_congr Iff.rfl (exists_congr fun label => h.label p label target)

theorem NarrowedTo.retain {keep : Point → ℕ → Prop} {old new : NWAState} (h : NarrowedTo keep old new) :
    NarrowedTo keep old new.retain_nonempty := by
  constructor
  · intro p target
    rw [NWAState.epsilonPass_retain, h.epsilon]
  · intro p label target
    rw [NWAState.labelPass_retain, h.label]

theorem narrowedTo_narrow [Runtime] (state : NWAState) (support : ℕ → Weight) :
    NarrowedTo (fun p target => p ∈ support target) state (state.narrow support) :=
  ⟨fun _ _ => NWAState.epsilonPass_narrow, fun _ _ _ => NWAState.labelPass_narrow⟩

/-- The states that are done are cut down to their suffixes, and their suffixes are known. -/
structure Backward (nwa : NWA) (done : List ℕ) (s : SupportPass) : Prop where
  length : s.1.length = nwa.states.length
  weights : s.2.length = nwa.states.length
  final : ∀ id, (s.state id).final_weight = (nwa.state id).final_weight
  narrowed : ∀ id ∈ done, NarrowedTo nwa.Supports (nwa.state id) (s.state id)
  undone : ∀ id ∉ done, s.state id = nwa.state id
  support : ∀ id ∈ done, ∀ p, p ∈ s.weight id ↔ nwa.Supports p id

theorem state_set {s : SupportPass} {state : NWAState} {weights : List Weight}
    (hid : id < s.1.length) (j : ℕ) :
    SupportPass.state (s.1.set id state, weights) j = if id = j then state else s.state j := by
  unfold SupportPass.state
  rw [List.getElem?_set, if_pos hid]
  split_ifs <;> rfl

theorem weight_set {s : SupportPass} {states : List NWAState} {weight : Weight}
    (hid : id < s.2.length) (j : ℕ) :
    SupportPass.weight (states, s.2.set id weight) j = if id = j then weight else s.weight j := by
  unfold SupportPass.weight
  rw [List.getElem?_set, if_pos hid]
  split_ifs <;> rfl

/-- The parts of the suffixes of a state: those that end in it and those of its edges. -/
theorem mem_parts [Runtime] {state : NWAState} :
    p ∈ Weight.union_all ((state.final_weight.toList ++ state.edges.map Prod.snd).filter fun weight =>
        !weight.is_empty) ↔
      state.FinalPass p ∨ ∃ target, state.EpsilonPass p target ∨ ∃ label, state.LabelPass p label target := by
  rw [Weight.mem_union_all]
  constructor
  · intro ⟨weight, hmem, hp⟩
    obtain hmem | hmem := List.mem_append.mp (List.mem_filter.mp hmem).1
    · exact Or.inl ⟨weight, Option.mem_toList.mp hmem, hp⟩
    · obtain ⟨edge, hedge, rfl⟩ := List.mem_map.mp hmem
      exact Or.inr ⟨edge.1, NWAState.pass_edges.mp ⟨edge, hedge, rfl, hp⟩⟩
  · intro h
    have hkeep : ∀ {weight : Weight}, p ∈ weight → (!weight.is_empty) = true := by
      intro weight hp
      rw [Bool.not_eq_true', Bool.eq_false_iff]
      intro hempty
      rw [Weight.is_empty_iff.mp hempty] at hp
      exact Weight.not_mem_empty hp
    obtain ⟨weight, hfinal, hp⟩ | ⟨target, hpass⟩ := h
    · refine ⟨weight, List.mem_filter.mpr ⟨List.mem_append_left _ ?_, hkeep hp⟩, hp⟩
      exact Option.mem_toList.mpr hfinal
    · obtain ⟨edge, hedge, -, hp⟩ := NWAState.pass_edges.mpr hpass
      refine ⟨edge.2, List.mem_filter.mpr ⟨List.mem_append_right _ ?_, hkeep hp⟩, hp⟩
      exact List.mem_map_of_mem hedge

theorem Backward.step [Runtime] {done : List ℕ} {s : SupportPass} (h : Backward self done s)
    (hid : id < self.states.length) (hnew : id ∉ done)
    (htargets : ∀ target ∈ self.support_targets id, target ∈ done) :
    Backward self (id :: done) (backward_step s id) := by
  have hstate : s.state id = self.state id := h.undone id hnew
  have hsupports : NarrowedTo self.Supports (self.state id) ((self.state id).narrow s.weight) :=
    (narrowedTo_narrow (self.state id) s.weight).congr fun p target ht =>
      h.support target (htargets target ht) p
  have hparts : ∀ p, p ∈ Weight.union_all ((((self.state id).narrow s.weight).final_weight.toList ++
      ((self.state id).narrow s.weight).edges.map Prod.snd).filter fun weight => !weight.is_empty) ↔
        self.Supports p id := by
    intro p
    rw [mem_parts, supports_iff]
    exact or_congr Iff.rfl (exists_congr fun target => hsupports.pass)
  unfold backward_step
  rw [hstate]
  dsimp only
  refine ⟨?_, ?_, fun j => ?_, fun j hj => ?_, fun j hj => ?_, fun j hj p => ?_⟩
  · rw [List.length_set, h.length]
  · rw [List.length_set, h.weights]
  · rw [state_set (h.length ▸ hid)]
    split_ifs with hj
    · rw [← hj]
      rfl
    · exact h.final j
  · rw [state_set (h.length ▸ hid)]
    split_ifs with heq
    · rw [← heq]
      exact hsupports.retain
    · exact h.narrowed j ((List.mem_cons.mp hj).resolve_left (Ne.symm heq))
  · obtain ⟨hne, hj⟩ := not_or.mp (List.mem_cons.not.mp hj)
    rw [state_set (h.length ▸ hid), if_neg (Ne.symm hne)]
    exact h.undone j hj
  · rw [weight_set (h.weights ▸ hid)]
    split_ifs with heq
    · rw [← heq]
      exact hparts p
    · exact h.support j ((List.mem_cons.mp hj).resolve_left (Ne.symm heq)) p

/-- All states are cut down to their suffixes. -/
structure SuffixRestricted (old new : NWA) : Prop where
  starts : new.start_states = old.start_states
  length : new.states.length = old.states.length
  final : ∀ id, (new.state id).final_weight = (old.state id).final_weight
  narrowed : ∀ id, NarrowedTo old.Supports (old.state id) (new.state id)

theorem NarrowedTo.cleared (keep : Point → ℕ → Prop) :
    NarrowedTo keep NWAState.cleared NWAState.cleared := by
  constructor
  · intro p target
    simp [NWAState.not_epsilonPass_cleared]
  · intro p label target
    simp [NWAState.not_labelPass_cleared]

theorem state_of_ge (h : self.states.length ≤ id) : self.state id = NWAState.cleared := by
  rw [state, List.getElem?_eq_none h]
  rfl

/-- A state that is done has edges to states that are done. -/
theorem restrict_backward_spec [Runtime] (h : allReleased self.support_targets self.states.length = true)
    (htargets : ∀ id, ∀ target ∈ self.support_targets id, target < self.states.length) :
    SuffixRestricted self
      (self.restrict_backward (releaseOrder self.support_targets self.states.length)) := by
  obtain ⟨hmem, -⟩ := releaseOrder_before self.support_targets self.states.length h
  generalize htopo : releaseOrder self.support_targets self.states.length = topo at hmem
  have hrun : ∀ done todo : List ℕ, topo = todo.reverse ++ done → ∀ s, Backward self done s →
      Backward self topo (todo.foldl backward_step s) := by
    intro done todo
    induction todo generalizing done with
    | nil =>
        intro heq s hs
        rw [heq]
        exact hs
    | cons id todo ih =>
        intro heq s hs
        rw [List.reverse_cons, List.append_assoc, List.singleton_append] at heq
        rw [List.foldl_cons]
        apply ih (id :: done) heq
        have hnodup := releaseOrder_nodup self.support_targets self.states.length
        rw [htopo, heq] at hnodup
        apply hs.step
        · exact (hmem id).mp (heq ▸ by simp)
        · exact (List.nodup_cons.mp (List.nodup_append.mp hnodup).2.1).1
        · intro target ht
          exact releaseOrder_after _ _ h (htopo.trans heq) ht (htargets id target ht)
  have hstart : Backward self [] (self.states, List.replicate self.states.length Weight.empty) :=
    ⟨rfl, List.length_replicate, fun id => rfl, (fun _ h => by cases h), fun id _ => rfl,
      fun _ h => by cases h⟩
  have hend := hrun [] topo.reverse (by simp) _ hstart
  refine ⟨rfl, hend.length, hend.final, fun id => ?_⟩
  obtain hid | hid := lt_or_ge id self.states.length
  · exact hend.narrowed id ((hmem id).mpr hid)
  · have hsame := hend.undone id fun hin => absurd ((hmem id).mp hin) (not_lt.mpr hid)
    change NarrowedTo _ _ (SupportPass.state _ id)
    rw [hsame, state_of_ge hid]
    exact NarrowedTo.cleared _

theorem SuffixRestricted.accepts_iff {old new : NWA} (h : SuffixRestricted old new) :
    new.Accepts p id word ↔ old.Accepts p id word := by
  have hfinal : ∀ id, (new.state id).FinalPass p ↔ (old.state id).FinalPass p := by
    intro id
    rw [NWAState.FinalPass, NWAState.FinalPass, h.final]
  constructor
  · intro hacc
    apply Accepts.induction (motive := fun id word => old.Accepts p id word) _ _ _ hacc
    · exact fun id hpass => Accepts.final ((hfinal id).mp hpass)
    · intro id target word hstep _ hrest
      exact Accepts.epsilon (((h.narrowed id).epsilon p target).mp hstep).1 hrest
    · intro id target label word hstep _ hrest
      exact Accepts.label (((h.narrowed id).label p label target).mp hstep).1 hrest
  · intro hacc
    apply Accepts.induction (motive := fun id word => new.Accepts p id word) _ _ _ hacc
    · exact fun id hpass => Accepts.final ((hfinal id).mpr hpass)
    · intro id target word hstep hacc hrest
      exact Accepts.epsilon (((h.narrowed id).epsilon p target).mpr ⟨hstep, word, hacc⟩) hrest
    · intro id target label word hstep hacc hrest
      exact Accepts.label (((h.narrowed id).label p label target).mpr ⟨hstep, word, hacc⟩) hrest

/-! ## Going forward -/

/-- A state is cut down to the points in a set. -/
structure CutTo (keep : Point → Prop) (old new : NWAState) : Prop where
  final : ∀ p, new.FinalPass p ↔ old.FinalPass p ∧ keep p
  narrowed : NarrowedTo (fun p _ => keep p) old new

/-- The states that are done are cut down to the points that reach them, and the points that come
from them are known. -/
structure Forward (nwa : NWA) (done : List ℕ) (s : SupportPass) : Prop where
  length : s.1.length = nwa.states.length
  weights : s.2.length = nwa.states.length
  cut : ∀ id ∈ done, CutTo (fun p => nwa.Reached p id) (nwa.state id) (s.state id)
  undone : ∀ id ∉ done, s.state id = nwa.state id
  reached : ∀ id < nwa.states.length, ∀ p, p ∈ s.weight id ↔
    id ∈ nwa.start_states ∨ ∃ source ∈ done, nwa.Reached p source ∧ nwa.Step p source id

theorem step_mem_targets (h : self.Step p id target) : target ∈ self.support_targets id := by
  obtain ⟨edge, hedge, rfl, -⟩ := NWAState.pass_edges.mpr h
  exact List.mem_map_of_mem hedge

theorem lt_of_step (h : self.Step p id target) : id < self.states.length := by
  by_contra hge
  have hmem := step_mem_targets h
  rw [support_targets, state_of_ge (not_lt.mp hge)] at hmem
  cases hmem

/-- Every edge adds its weight to that of its target. -/
theorem mem_foldl_modify {edges : List (ℕ × Weight)} {weights : List Weight}
    (htarget : target < weights.length) :
    p ∈ ((edges.foldl (fun forward edge => forward.modify edge.1 fun weight => weight.union edge.2)
        weights)[target]?).getD Weight.empty ↔
      p ∈ (weights[target]?).getD Weight.empty ∨ ∃ edge ∈ edges, edge.1 = target ∧ p ∈ edge.2 := by
  induction edges generalizing weights with
  | nil => simp
  | cons edge edges ih =>
      rw [List.foldl_cons, ih (by rwa [List.length_modify]), List.exists_mem_cons_iff, ← or_assoc,
        List.getElem?_modify, List.getElem?_eq_getElem htarget]
      by_cases heq : edge.1 = target
      · simp [heq]
      · simp [heq]

theorem length_foldl_modify (edges : List (ℕ × Weight)) (weights : List Weight) :
    (edges.foldl (fun forward edge => forward.modify edge.1 fun weight => weight.union edge.2)
      weights).length = weights.length := by
  induction edges generalizing weights with
  | nil => rfl
  | cons edge edges ih => rw [List.foldl_cons, ih, List.length_modify]

theorem cutTo_cleared {keep : Point → Prop} (h : ∀ p, ¬keep p) (state : NWAState) :
    CutTo keep state NWAState.cleared := by
  refine ⟨fun p => ?_, fun p target => ?_, fun p label target => ?_⟩
  · simp [NWAState.not_finalPass_cleared, h]
  · simp [NWAState.not_epsilonPass_cleared, h]
  · simp [NWAState.not_labelPass_cleared, h]

theorem cutTo_narrow [Runtime] (state : NWAState) (incoming : Weight) :
    CutTo (fun p => p ∈ incoming) state ((state.intersect_final incoming).narrow fun _ => incoming) := by
  constructor
  · intro p
    constructor
    · intro ⟨weight, hfinal, hp⟩
      obtain ⟨w, hw, rfl⟩ := Option.map_eq_some_iff.mp hfinal
      obtain ⟨hp, hin⟩ := Weight.mem_intersection.mp hp
      exact ⟨⟨w, hw, hp⟩, hin⟩
    · intro ⟨⟨weight, hfinal, hp⟩, hin⟩
      exact ⟨_, Option.map_eq_some_iff.mpr ⟨weight, hfinal, rfl⟩, Weight.mem_intersection.mpr ⟨hp, hin⟩⟩
  · have hnarrow := narrowedTo_narrow (state.intersect_final incoming) fun _ => incoming
    exact ⟨hnarrow.epsilon, hnarrow.label⟩

theorem CutTo.retain {keep : Point → Prop} {old new : NWAState} (h : CutTo keep old new) :
    CutTo keep old new.retain_nonempty :=
  ⟨h.final, h.narrowed.retain⟩

theorem CutTo.congr {keep keep' : Point → Prop} {old new : NWAState} (h : CutTo keep old new)
    (heq : ∀ p, keep p ↔ keep' p) : CutTo keep' old new := by
  obtain rfl : keep = keep' := funext fun p => propext (heq p)
  exact h

theorem Forward.step [Runtime] {done : List ℕ} {s : SupportPass} (h : Forward self done s)
    (hid : id < self.states.length) (hnew : id ∉ done)
    (hbefore : ∀ p source, self.Step p source id → source ∈ done) :
    Forward self (id :: done) (forward_step s id) := by
  have hstate : s.state id = self.state id := h.undone id hnew
  have hincoming : ∀ p, p ∈ s.weight id ↔ self.Reached p id := by
    intro p
    rw [h.reached id hid]
    constructor
    · intro hp
      obtain hstart | ⟨source, -, hreached, hstep⟩ := hp
      · exact Reached.start hstart
      · exact Reached.step hstep hreached
    · intro hp
      cases hp with
      | start hstart => exact Or.inl hstart
      | @step source _ hstep hreached =>
          exact Or.inr ⟨source, hbefore p source hstep, hreached, hstep⟩
  -- What changes beside the state itself: the weights of the targets of its edges.
  have hrest : ∀ {state : NWAState} {weights : List Weight},
      CutTo (fun p => self.Reached p id) (self.state id) state →
      weights.length = self.states.length →
      (∀ target < self.states.length, ∀ p, p ∈ (weights[target]?).getD Weight.empty ↔
        p ∈ s.weight target ∨ self.Reached p id ∧ self.Step p id target) →
      Forward self (id :: done) (s.1.set id state, weights) := by
    intro state weights hcut hlength hweights
    refine ⟨by rw [List.length_set, h.length], hlength, fun j hj => ?_, fun j hj => ?_, fun j hj p => ?_⟩
    · rw [state_set (h.length ▸ hid)]
      split_ifs with heq
      · rw [← heq]
        exact hcut
      · exact h.cut j ((List.mem_cons.mp hj).resolve_left (Ne.symm heq))
    · obtain ⟨hne, hj⟩ := not_or.mp (List.mem_cons.not.mp hj)
      rw [state_set (h.length ▸ hid), if_neg (Ne.symm hne)]
      exact h.undone j hj
    · change p ∈ (weights[j]?).getD Weight.empty ↔ _
      rw [hweights j hj, h.reached j hj, List.exists_mem_cons_iff, or_assoc]
      exact or_congr Iff.rfl or_comm
  unfold forward_step
  rw [hstate]
  dsimp only
  split_ifs with hempty
  · have hnone : ∀ p, ¬self.Reached p id := by
      intro p hp
      have hin := (hincoming p).mpr hp
      rw [Weight.is_empty_iff.mp hempty] at hin
      exact Weight.not_mem_empty hin
    apply hrest (cutTo_cleared hnone _) h.weights
    intro target _ p
    exact ⟨Or.inl, fun hp => hp.resolve_right fun hreached => hnone p hreached.1⟩
  · have hcut := (cutTo_narrow (self.state id) (s.weight id)).congr hincoming
    apply hrest hcut.retain
    · rw [length_foldl_modify, h.weights]
    · intro target htarget p
      rw [mem_foldl_modify (h.weights ▸ htarget), NWAState.pass_edges, hcut.narrowed.pass]
      exact or_congr Iff.rfl and_comm

/-- All states are cut down to the points that reach them. -/
structure ReachRestricted (old new : NWA) : Prop where
  starts : new.start_states = old.start_states
  cut : ∀ id, CutTo (fun p => old.Reached p id) (old.state id) (new.state id)

theorem mem_foldl_starts {starts : List ℕ} {weights : List Weight} (hid : id < weights.length) :
    p ∈ ((starts.foldl (fun forward start => forward.set start Weight.all) weights)[id]?).getD Weight.empty ↔
      id ∈ starts ∨ p ∈ (weights[id]?).getD Weight.empty := by
  induction starts generalizing weights with
  | nil => simp
  | cons start starts ih =>
      rw [List.foldl_cons, ih (by rwa [List.length_set]), List.getElem?_set, List.mem_cons]
      by_cases heq : start = id
      · simp [heq, hid]
      · simp [heq, Ne.symm heq]

theorem length_foldl_starts (starts : List ℕ) (weights : List Weight) :
    (starts.foldl (fun forward start => forward.set start Weight.all) weights).length = weights.length := by
  induction starts generalizing weights with
  | nil => rfl
  | cons start starts ih => rw [List.foldl_cons, ih, List.length_set]

theorem restrict_forward_spec [Runtime] {topo : List ℕ} (hnodup : topo.Nodup)
    (hmem : ∀ id, id ∈ topo ↔ id < self.states.length)
    (hbefore : ∀ l₁ x l₂, topo = l₁ ++ x :: l₂ → ∀ p i, self.Step p i x → i ∈ l₁) :
    ReachRestricted self (self.restrict_forward topo) := by
  have hrun : ∀ done todo : List ℕ, topo = done.reverse ++ todo → ∀ s, Forward self done s →
      Forward self topo.reverse (todo.foldl forward_step s) := by
    intro done todo
    induction todo generalizing done with
    | nil =>
        intro heq s hs
        rw [heq, List.append_nil, List.reverse_reverse]
        exact hs
    | cons id todo ih =>
        intro heq s hs
        rw [List.foldl_cons]
        apply ih (id :: done) (by rw [heq, List.reverse_cons, List.append_assoc, List.singleton_append])
        apply hs.step
        · exact (hmem id).mp (heq ▸ by simp)
        · rw [heq] at hnodup
          exact fun hin => (List.nodup_append.mp hnodup).2.2 id (List.mem_reverse.mpr hin) id
            List.mem_cons_self rfl
        · exact fun p source hstep => List.mem_reverse.mp (hbefore _ _ _ heq p source hstep)
  have hstart : Forward self [] (self.states, self.start_states.foldl (fun forward start =>
      forward.set start Weight.all) (List.replicate self.states.length Weight.empty)) := by
    refine ⟨rfl, by rw [length_foldl_starts, List.length_replicate], (fun _ h => by cases h),
      fun id _ => rfl, fun id hid p => ?_⟩
    unfold SupportPass.weight
    rw [mem_foldl_starts (by rwa [List.length_replicate])]
    apply or_congr Iff.rfl
    simp [hid]
  have hend := hrun [] topo (by simp) _ hstart
  refine ⟨rfl, fun id => ?_⟩
  obtain hid | hid := lt_or_ge id self.states.length
  · exact hend.cut id (List.mem_reverse.mpr ((hmem id).mpr hid))
  · have hsame := hend.undone id fun hin =>
      absurd ((hmem id).mp (List.mem_reverse.mp hin)) (not_lt.mpr hid)
    change CutTo _ _ (SupportPass.state _ id)
    rw [hsame, state_of_ge hid]
    refine ⟨fun p => ?_, NarrowedTo.cleared _⟩
    simp [NWAState.not_finalPass_cleared]

theorem ReachRestricted.accepts_iff {old new : NWA} (h : ReachRestricted old new)
    (hreached : old.Reached p id) : new.Accepts p id word ↔ old.Accepts p id word := by
  constructor
  · intro hacc
    apply Accepts.induction (motive := fun id word => old.Accepts p id word) _ _ _ hacc
    · exact fun id hpass => Accepts.final (((h.cut id).final p).mp hpass).1
    · intro id target word hstep _ hrest
      exact Accepts.epsilon (((h.cut id).narrowed.epsilon p target).mp hstep).1 hrest
    · intro id target label word hstep _ hrest
      exact Accepts.label (((h.cut id).narrowed.label p label target).mp hstep).1 hrest
  · intro hacc
    have hall : old.Reached p id → new.Accepts p id word := by
      apply Accepts.induction (motive := fun id word => old.Reached p id → new.Accepts p id word) _ _ _ hacc
      · exact fun id hpass hid => Accepts.final (((h.cut id).final p).mpr ⟨hpass, hid⟩)
      · intro id target word hstep _ hrest hid
        exact Accepts.epsilon (((h.cut id).narrowed.epsilon p target).mpr ⟨hstep, hid⟩)
          (hrest (Reached.step (Or.inl hstep) hid))
      · intro id target label word hstep _ hrest hid
        exact Accepts.label (((h.cut id).narrowed.label p label target).mpr ⟨hstep, hid⟩)
          (hrest (Reached.step (Or.inr ⟨label, hstep⟩) hid))
    exact hall hreached

/-! ## Both passes -/

theorem SuffixRestricted.step {old new : NWA} (h : SuffixRestricted old new) :
    new.Step p id target ↔ old.Step p id target ∧ old.Supports p target :=
  (h.narrowed id).pass

theorem ReachRestricted.step {old new : NWA} (h : ReachRestricted old new) :
    new.Step p id target ↔ old.Step p id target ∧ old.Reached p id :=
  (h.cut id).narrowed.pass

/-- The restricted automaton gives every word its weight, and all its edges lead to suffixes. -/
structure Exact (old new : NWA) : Prop where
  starts : new.start_states = old.start_states
  weight : ∀ word, new.wordWeight word = old.wordWeight word
  suffix : ∀ p id target, new.Step p id target → new.Supports p target

theorem SuffixRestricted.exact {old new : NWA} (h : SuffixRestricted old new) : Exact old new := by
  refine ⟨h.starts, fun word => ?_, fun p id target hstep => ?_⟩
  · ext p
    rw [mem_wordWeight, mem_wordWeight, h.starts]
    exact exists_congr fun start => and_congr_right fun _ => h.accepts_iff
  · obtain ⟨word, hword⟩ := (h.step.mp hstep).2
    exact ⟨word, h.accepts_iff.mpr hword⟩

theorem Exact.trans {old new : NWA} (h : Exact old self) (h' : ReachRestricted self new) : Exact old new := by
  refine ⟨h'.starts.trans h.starts, fun word => ?_, fun p id target hstep => ?_⟩
  · rw [← h.weight]
    ext p
    rw [mem_wordWeight, mem_wordWeight, h'.starts]
    apply exists_congr
    intro start
    apply and_congr_right
    exact fun hstart => h'.accepts_iff (Reached.start hstart)
  · obtain ⟨hold, hreached⟩ := h'.step.mp hstep
    obtain ⟨word, hword⟩ := h.suffix p id target hold
    exact ⟨word, (h'.accepts_iff (Reached.step hold hreached)).mpr hword⟩

/-- The automata that are restricted: no edge leads out of the states or around a cycle. -/
structure Restrictable (nwa : NWA) : Prop where
  starts : ∀ start ∈ nwa.start_states, start < nwa.states.length
  targets : ∀ id, ∀ target ∈ nwa.support_targets id, target < nwa.states.length
  acyclic : ∃ rank : ℕ → ℕ, ∀ id, ∀ target ∈ nwa.support_targets id, rank target < rank id

theorem restrictable_iff : self.Restrictable ↔
    (∀ start ∈ self.start_states, start < self.states.length) ∧
      (∀ id < self.states.length, ∀ target ∈ self.support_targets id, target < self.states.length) ∧
        allReleased self.support_targets self.states.length = true := by
  rw [allReleased_iff]
  constructor
  · intro h
    obtain ⟨rank, hrank⟩ := h.acyclic
    exact ⟨h.starts, fun id _ => h.targets id, rank, fun id _ target ht _ => hrank id target ht⟩
  · intro ⟨hstarts, htargets, rank, hrank⟩
    have hlt : ∀ {id target : ℕ}, target ∈ self.support_targets id → id < self.states.length := by
      intro id target ht
      by_contra hge
      rw [support_targets, state_of_ge (not_lt.mp hge)] at ht
      cases ht
    refine ⟨hstarts, fun id target ht => htargets id (hlt ht) target ht, rank, fun id target ht => ?_⟩
    exact hrank id (hlt ht) target ht (htargets id (hlt ht) target ht)

theorem restricted_exact [Runtime] (h : self.Restrictable) (forward : Bool) :
    let topo := releaseOrder self.support_targets self.states.length
    let restricted := self.restrict_backward topo
    Exact self (if forward then restricted.restrict_forward topo else restricted) := by
  intro topo restricted
  obtain ⟨-, -, hreleased⟩ := restrictable_iff.mp h
  have hbackward : SuffixRestricted self restricted := restrict_backward_spec hreleased h.targets
  obtain ⟨hmem, hbefore⟩ := releaseOrder_before self.support_targets self.states.length hreleased
  cases forward with
  | false => exact hbackward.exact
  | true =>
      apply hbackward.exact.trans
      apply restrict_forward_spec (releaseOrder_nodup _ _)
      · intro id
        rw [hbackward.length]
        exact hmem id
      · intro l₁ x l₂ heq p i hstep
        have hold := (hbackward.step.mp hstep).1
        exact hbefore l₁ x l₂ heq i (lt_of_step hold) (step_mem_targets hold)

/-- A failure leaves the automaton as it is, and is one of an automaton with an invalid state or a
cycle. After a success every word has the weight that it had, and the points of every edge are
those of accepting suffixes of its target. -/
theorem restrict_acyclic_nwa_support_correct [Runtime] (self : NWA) (forward : Bool) :
    match self.restrict_acyclic_nwa_support forward with
    | (.error _, new) => new = self ∧ ¬self.Restrictable
    | (.ok _, new) => self.Restrictable ∧ new.start_states = self.start_states ∧
        (∀ word, new.wordWeight word = self.wordWeight word) ∧
        ∀ id target weight, ((target, weight) ∈ new.epsilons id ∨
            ∃ label, (target, weight) ∈ new.transition id label) →
          ∀ p ∈ weight, ∃ suffix, new.Accepts p target suffix := by
  unfold restrict_acyclic_nwa_support
  dsimp only
  by_cases hstarts : (self.start_states.any fun start => decide (self.states.length ≤ start)) = true
  · rw [if_pos hstarts]
    obtain ⟨start, hmem, hge⟩ := List.any_eq_true.mp hstarts
    exact ⟨rfl, fun h => absurd (h.starts start hmem) (not_lt.mpr (of_decide_eq_true hge))⟩
  rw [if_neg hstarts]
  by_cases htargets : ((List.range self.states.length).any fun id =>
      (self.support_targets id).any fun target => decide (self.states.length ≤ target)) = true
  · rw [if_pos htargets]
    obtain ⟨id, -, htarget⟩ := List.any_eq_true.mp htargets
    obtain ⟨target, hmem, hge⟩ := List.any_eq_true.mp htarget
    exact ⟨rfl, fun h => absurd (h.targets id target hmem) (not_lt.mpr (of_decide_eq_true hge))⟩
  rw [if_neg htargets]
  by_cases hcyclic : (!allReleased self.support_targets self.states.length) = true
  · rw [if_pos hcyclic]
    refine ⟨rfl, fun h => ?_⟩
    rw [(restrictable_iff.mp h).2.2] at hcyclic
    cases hcyclic
  rw [if_neg hcyclic]
  have h : self.Restrictable := by
    rw [restrictable_iff]
    refine ⟨fun start hmem => ?_, fun id hid target hmem => ?_, by simpa using hcyclic⟩
    · by_contra hge
      exact hstarts (List.any_eq_true.mpr ⟨start, hmem, decide_eq_true (not_lt.mp hge)⟩)
    · by_contra hge
      exact htargets (List.any_eq_true.mpr ⟨id, List.mem_range.mpr hid,
        List.any_eq_true.mpr ⟨target, hmem, decide_eq_true (not_lt.mp hge)⟩⟩)
  have hexact := restricted_exact h forward
  refine ⟨h, hexact.starts, hexact.weight, fun id target weight hedge p hp => ?_⟩
  apply hexact.suffix p id target
  obtain hedge | ⟨label, hedge⟩ := hedge
  · exact Or.inl ⟨weight, hedge, hp⟩
  · exact Or.inr ⟨label, weight, hedge, hp⟩

end NWA

end GlrMask
