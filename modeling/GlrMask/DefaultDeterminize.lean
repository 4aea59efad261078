import GlrMask.DefaultBuilder

/-!
# Canonical nodes for the states of an automaton

The states are visited after all their targets. The node of a state unites the
accepting node, the nodes behind its epsilon edges and a node for its labelled
edges, in which every nonnegative label also takes the default edge.
-/

namespace GlrMask

namespace NFA

/-- The states with an edge to a state, once for each edge. -/
def predecessors (self : NFA) (target : ℕ) : List ℕ :=
  (List.range self.states.length).flatMap fun source =>
    ((self.targets source).filter (· = target)).map fun _ => source

variable {self : NFA}

theorem mem_predecessors {source target : ℕ} :
    source ∈ self.predecessors target ↔
      source < self.states.length ∧ target ∈ self.targets source := by
  simp only [predecessors, List.mem_flatMap, List.mem_range, List.mem_map, List.mem_filter,
    decide_eq_true_eq]
  constructor
  · rintro ⟨s, hs, t, ⟨ht, rfl⟩, rfl⟩
    exact ⟨hs, ht⟩
  · rintro ⟨hs, ht⟩
    exact ⟨source, hs, target, ⟨ht, rfl⟩, rfl⟩

end NFA

def reverse_topological_order (nfa : NFA) : Option (List ℕ) :=
  let states := nfa.states.length
  if (List.range states).any fun source => (nfa.targets source).any fun target => states ≤ target
  then none
  else if allReleased nfa.predecessors states then some (releaseOrder nfa.predecessors states)
  else none

theorem reverse_topological_order_spec {nfa : NFA} {order : List ℕ}
    (h : reverse_topological_order nfa = some order) :
    (∀ s, s ∈ order ↔ s < nfa.states.length) ∧
      ∀ l₁ s l₂, order = l₁ ++ s :: l₂ → ∀ t ∈ nfa.targets s, t ∈ l₁ := by
  unfold reverse_topological_order at h
  dsimp only at h
  split_ifs at h with hrange hall
  obtain rfl := Option.some.inj h
  obtain ⟨hmem, hbefore⟩ := releaseOrder_before _ _ hall
  refine ⟨hmem, fun l₁ s l₂ he t ht => ?_⟩
  have hs : s < nfa.states.length := (hmem s).mp (by rw [he]; simp)
  have hlt : t < nfa.states.length := by
    by_contra hge
    apply hrange
    simp only [List.any_eq_true, List.mem_range, decide_eq_true_eq]
    exact ⟨s, hs, t, ht, by omega⟩
  exact hbefore l₁ s l₂ he t hlt (NFA.mem_predecessors.mpr ⟨hs, ht⟩)

/-! ## The node of one state -/

namespace Builder

/-- A union within the whole depth budget. -/
def unionTop (self : Builder) (ids : List ℕ) : Option (Builder × ℕ) :=
  union self.depth_budget self ids

/-- The nonempty rows of labelled edges, with targets replaced by their nodes. -/
def rows (data : NFAState) (canonical : List ℕ) : List (Label × List ℕ) :=
  (data.transitions.entries.filter fun e => !e.2.isEmpty).map fun e =>
    (e.1, e.2.map fun target => (canonical[target]?).getD 0)

/-- The node of the labelled edges of a state. -/
def labelsNode (self : Builder) (data : NFAState) (default_label : Label) (canonical : List ℕ) :
    Option (Builder × ℕ) :=
  let default_targets :=
    ((rows data canonical).filter fun row => row.1 = default_label).flatMap Prod.snd
  let explicit := (rows data canonical).filter fun row => row.1 ≠ default_label
  (self.unionTop default_targets).bind fun (self, default) =>
    (explicit.foldlM (fun state row =>
      let children := if 0 ≤ row.1 ∧ default ≠ 0 then row.2 ++ [default] else row.2
      unionEdge unionTop default row.1 children state) (self, [])).bind
    fun (self, transitions) => self.intern false default transitions

def acceptPart (self : Builder) (data : NFAState) : Option (Builder × List ℕ) :=
  if data.is_accepting then self.accept_node.map fun (self, node) => (self, [node])
  else some (self, [])

/-- The node of a state whose targets have their nodes in `canonical`. -/
def stateNode (self : Builder) (data : NFAState) (default_label : Label) (canonical : List ℕ) :
    Option (Builder × ℕ) :=
  (self.labelsNode data default_label canonical).bind fun (self, labels_node) =>
    (self.acceptPart data).bind fun (self, parts) =>
      self.unionTop (parts ++ data.epsilons.map (fun target => (canonical[target]?).getD 0) ++
        if labels_node ≠ 0 then [labels_node] else [])

end Builder

def visitState (nfa : NFA) (default_label : Label) (progress : Builder × List ℕ) (state : ℕ) :
    Option (Builder × List ℕ) :=
  (progress.1.stateNode ((nfa.states[state]?).getD default) default_label progress.2).map
    fun (builder, node) => (builder, progress.2.set state node)

theorem unionTop_spec (default_label : Label) :
    UnitesSoundly default_label Builder.unionTop := by
  intro b b' ids node hb hids hr
  exact union_spec default_label b.depth_budget hb hids hr

/-! ## What the node of a state accepts -/

def targetsOf (data : NFAState) (label : Label) : List ℕ := (data.transitions.get label).getD []

/-- A word is accepted by the node of a target. -/
def ViaTargets (nodes : List Node) (canonical targets : List ℕ) (word : List Label) : Prop :=
  ∃ target ∈ targets, acceptsFrom nodes ((canonical[target]?).getD 0) word = true

/-- What the edge of a label has to accept. -/
def labelGoal (nodes : List Node) (canonical : List ℕ) (data : NFAState) (default_label : Label)
    (label : Label) (word : List Label) : Prop :=
  ViaTargets nodes canonical (targetsOf data label) word ∨
    0 ≤ label ∧ ViaTargets nodes canonical (targetsOf data default_label) word

section StateNode

variable {default_label : Label} {b b' : Builder} {canonical : List ℕ} {data : NFAState}

theorem mem_rows {row : Label × List ℕ} : row ∈ Builder.rows data canonical ↔
    targetsOf data row.1 ≠ [] ∧
      row.2 = (targetsOf data row.1).map fun target => (canonical[target]?).getD 0 := by
  obtain ⟨label, children⟩ := row
  simp only [Builder.rows, List.mem_map, List.mem_filter, Bool.not_eq_true', Prod.exists,
    Prod.mk.injEq, targetsOf]
  constructor
  · rintro ⟨l, targets, ⟨hmem, hne⟩, rfl, rfl⟩
    rw [SortedMap.get_eq_some_iff.mpr hmem, Option.getD_some]
    exact ⟨fun he => by simp [he] at hne, rfl⟩
  · rintro ⟨hne, rfl⟩
    cases hget : data.transitions.get label with
    | none => simp [hget] at hne
    | some targets =>
        rw [hget, Option.getD_some] at hne
        exact ⟨label, targets, ⟨SortedMap.get_eq_some_iff.mp hget, by simpa using hne⟩, rfl, rfl⟩

theorem rows_sorted (data : NFAState) (canonical : List ℕ) :
    ((Builder.rows data canonical).map Prod.fst).Pairwise (· < ·) := by
  rw [Builder.rows, List.map_map, List.pairwise_map]
  exact data.transitions.sorted.filter _

theorem exists_mem_children {nodes : List Node} {targets : List ℕ} {word : List Label} :
    (∃ id ∈ targets.map (fun target => (canonical[target]?).getD 0),
      acceptsFrom nodes id word = true) ↔ ViaTargets nodes canonical targets word := by
  simp [ViaTargets]

/-- The united default targets. -/
theorem default_targets_iff {nodes : List Node} {word : List Label} :
    (∃ id ∈ ((Builder.rows data canonical).filter fun row => row.1 = default_label).flatMap
        Prod.snd, acceptsFrom nodes id word = true) ↔
      ViaTargets nodes canonical (targetsOf data default_label) word := by
  constructor
  · rintro ⟨id, hid, hacc⟩
    obtain ⟨row, hrow, hmem⟩ := List.mem_flatMap.mp hid
    obtain ⟨hrow, hlabel⟩ := List.mem_filter.mp hrow
    rw [(mem_rows.mp hrow).2, of_decide_eq_true hlabel] at hmem
    exact exists_mem_children.mp ⟨id, hmem, hacc⟩
  · rintro ⟨target, ht, hacc⟩
    refine ⟨_, List.mem_flatMap.mpr ⟨(default_label, (targetsOf data default_label).map
      fun target => (canonical[target]?).getD 0), ?_, List.mem_map_of_mem ht⟩, hacc⟩
    apply List.mem_filter.mpr ⟨mem_rows.mpr ⟨List.ne_nil_of_mem ht, rfl⟩, ?_⟩
    exact decide_eq_true rfl

theorem viaTargets_grown (hb : Sound default_label b) (hg : Grown default_label b b')
    (hcanon : ∀ t : ℕ, (canonical[t]?).getD 0 < b.nodes.length) {targets : List ℕ}
    {word : List Label} : ViaTargets b'.nodes canonical targets word ↔
      ViaTargets b.nodes canonical targets word := by
  apply exists_congr
  intro t
  rw [hg.acceptsFrom hb (hcanon t)]

/-- The children of an explicit row, with the default target among them. -/
theorem explicit_children (hb : Sound default_label b) (hg : Grown default_label b b')
    (hcanon : ∀ t : ℕ, (canonical[t]?).getD 0 < b.nodes.length) {default : ℕ}
    (hlt : default < b'.nodes.length)
    (hdefault : ∀ word, acceptsFrom b'.nodes default word = true ↔
      ViaTargets b.nodes canonical (targetsOf data default_label) word)
    {row : Label × List ℕ} (hrow : row ∈ Builder.rows data canonical) :
    (∀ id ∈ (if 0 ≤ row.1 ∧ default ≠ 0 then row.2 ++ [default] else row.2),
        id < b'.nodes.length) ∧
      ∀ word, (∃ id ∈ (if 0 ≤ row.1 ∧ default ≠ 0 then row.2 ++ [default] else row.2),
        acceptsFrom b'.nodes id word = true) ↔
          labelGoal b.nodes canonical data default_label row.1 word := by
  obtain ⟨-, hchildren⟩ := mem_rows.mp hrow
  have hrange : ∀ id ∈ row.2, id < b'.nodes.length := fun id hid => by
    rw [hchildren] at hid
    obtain ⟨t, -, rfl⟩ := List.mem_map.mp hid
    exact (hcanon t).trans_le hg.length_le
  have hexplicit : ∀ word, (∃ id ∈ row.2, acceptsFrom b'.nodes id word = true) ↔
      ViaTargets b.nodes canonical (targetsOf data row.1) word := fun word => by
    rw [hchildren, exists_mem_children, viaTargets_grown hb hg hcanon]
  by_cases hc : 0 ≤ row.1 ∧ default ≠ 0
  · rw [if_pos hc]
    constructor
    · intro id hid
      rcases List.mem_append.mp hid with hid | hid
      · exact hrange id hid
      · rwa [List.mem_singleton.mp hid]
    · intro word
      rw [labelGoal, ← hexplicit, ← hdefault, and_iff_right hc.1]
      simp only [List.mem_append, List.mem_singleton, or_and_right, exists_or, exists_eq_left]
  · rw [if_neg hc]
    refine ⟨hrange, fun word => ?_⟩
    rw [labelGoal, hexplicit]
    apply (or_iff_left_of_imp ?_).symm
    rintro ⟨hpos, hvia⟩
    obtain rfl : default = 0 := by
      by_contra hne
      exact hc ⟨hpos, hne⟩
    have := (hdefault word).mpr hvia
    rw [hg.sound.canonical.acceptsFrom_zero] at this
    cases this

/-- The node of the labelled edges of a state. -/
theorem labelsNode_spec (hb : Sound default_label b)
    (hcanon : ∀ t : ℕ, (canonical[t]?).getD 0 < b.nodes.length) {r : ℕ}
    (hr : b.labelsNode data default_label canonical = some (b', r)) :
    Grown default_label b b' ∧ r < b'.nodes.length ∧ acceptsFrom b'.nodes r [] = false ∧
      ∀ label word, label ≠ default_label → (acceptsFrom b'.nodes r (label :: word) = true ↔
        labelGoal b.nodes canonical data default_label label word) := by
  simp only [Builder.labelsNode, Option.bind_eq_some_iff] at hr
  obtain ⟨⟨b₁, default⟩, hunion, ⟨b₂, ts⟩, hloop, hintern⟩ := hr
  have hdefaults : ∀ id ∈ ((Builder.rows data canonical).filter fun row =>
      row.1 = default_label).flatMap Prod.snd, id < b.nodes.length := by
    intro id hid
    obtain ⟨row, hrow, hmem⟩ := List.mem_flatMap.mp hid
    rw [(mem_rows.mp (List.mem_filter.mp hrow).1).2] at hmem
    obtain ⟨t, -, rfl⟩ := List.mem_map.mp hmem
    exact hcanon t
  obtain ⟨hg₁, hu⟩ := unionTop_spec default_label hb hdefaults hunion
  have hdefault : ∀ word, acceptsFrom b₁.nodes default word = true ↔
      ViaTargets b.nodes canonical (targetsOf data default_label) word := by
    intro word
    rw [hu.accepts, default_targets_iff, viaTargets_grown hb hg₁ hcanon]
  obtain ⟨hg₂, hedges⟩ := foldlM_unionEdge (unionTop_spec default_label) Prod.fst
    (labelGoal b.nodes canonical data default_label) [] hg₁.sound hu.lt
    (fun hg row hrow => explicit_children hb (hg₁.trans hg) hcanon (hu.lt.trans_le hg.length_le)
      (fun word => by rw [hg.acceptsFrom hg₁.sound hu.lt, hdefault]) (List.mem_filter.mp hrow).1)
    (by
      rw [List.nil_append]
      exact (rows_sorted data canonical).sublist (List.filter_sublist.map _))
    edges_nil hloop
  rw [List.nil_append] at hedges
  have hg₁₂ := hg₁.trans hg₂
  have hlt : default < b₂.nodes.length := hu.lt.trans_le hg₂.length_le
  have hdefault₂ : ∀ word, acceptsFrom b₂.nodes default word = true ↔
      ViaTargets b.nodes canonical (targetsOf data default_label) word := by
    intro word
    rw [hg₂.acceptsFrom hg₁.sound hu.lt, hdefault]
  have hdone : default_label ∉ ((Builder.rows data canonical).filter fun row =>
      row.1 ≠ default_label).map Prod.fst := by
    intro hmem
    obtain ⟨row, hrow, he⟩ := List.mem_map.mp hmem
    exact of_decide_eq_true (List.mem_filter.mp hrow).2 he
  have hwf := hedges.wellFormed hlt hdone (by
    intro label _ word hacc
    rw [fallback] at hacc
    split_ifs at hacc with hpos
    · exact Or.inr ⟨hpos, (hdefault₂ word).mp hacc⟩
    · rw [hg₂.sound.canonical.acceptsFrom_zero] at hacc
      cases hacc) false
  obtain ⟨hg₃, hget⟩ := intern_spec hg₂.sound hwf hintern
  refine ⟨hg₁₂.trans hg₃, (List.getElem?_eq_some_iff.mp hget).1, ?_, ?_⟩
  · rw [acceptsFrom, nodeAt_of_getElem? hget]
  intro label word hlabel
  have htarget := hedges.edgeTarget_lt hlt label
  rw [acceptsFrom, nodeAt_of_getElem? hget]
  calc
    acceptsFrom b'.nodes (edgeTarget default ts label) word = true
        ↔ acceptsFrom b₂.nodes (edgeTarget default ts label) word = true := by
          rw [hg₃.acceptsFrom hg₂.sound htarget]
    _ ↔ labelGoal b.nodes canonical data default_label label word := by
          by_cases hmem : label ∈ ((Builder.rows data canonical).filter fun row =>
              row.1 ≠ default_label).map Prod.fst
          · exact hedges.accepts label hmem word
          -- A label without an explicit row has no explicit targets.
          have hnil : targetsOf data label = [] := by
            by_contra hne
            apply hmem
            apply List.mem_map.mpr ⟨(label, (targetsOf data label).map
              fun target => (canonical[target]?).getD 0), ?_, rfl⟩
            exact List.mem_filter.mpr ⟨mem_rows.mpr ⟨hne, rfl⟩, decide_eq_true hlabel⟩
          have hno : ¬ ViaTargets b.nodes canonical (targetsOf data label) word := by
            rw [hnil]
            rintro ⟨t, ht, -⟩
            exact List.not_mem_nil ht
          rw [hedges.edgeTarget_of_notMem hmem, labelGoal, or_iff_right hno, fallback]
          split_ifs with hpos
          · rw [hdefault₂, and_iff_right hpos]
          · rw [hg₂.sound.canonical.acceptsFrom_zero]
            simp [hpos]

theorem acceptPart_spec (hb : Sound default_label b) {parts : List ℕ}
    (hr : b.acceptPart data = some (b', parts)) :
    Grown default_label b b' ∧ (∀ id ∈ parts, id < b'.nodes.length) ∧
      ∀ word, (∃ id ∈ parts, acceptsFrom b'.nodes id word = true) ↔
        data.is_accepting = true ∧ word = [] := by
  unfold Builder.acceptPart at hr
  split_ifs at hr with hacc
  · obtain ⟨⟨b₁, node⟩, hnode, he⟩ := Option.map_eq_some_iff.mp hr
    obtain ⟨rfl, rfl⟩ := Prod.mk.inj he
    obtain ⟨hg, hget⟩ := accept_node_spec hb hnode
    refine ⟨hg, fun id hid => ?_, fun word => ?_⟩
    · rw [List.mem_singleton.mp hid]
      exact (List.getElem?_eq_some_iff.mp hget).1
    · simp only [List.mem_singleton, exists_eq_left, hacc, true_and]
      cases word with
      | nil => simp [acceptsFrom, nodeAt_of_getElem? hget]
      | cons label word =>
          have hz : fallback 0 label = 0 := ite_self 0
          simp only [acceptsFrom, nodeAt_of_getElem? hget, Node.target, SortedMap.get_empty,
            Option.getD_none, hz, hg.sound.canonical.acceptsFrom_zero, reduceCtorEq]
  · obtain ⟨rfl, rfl⟩ := Prod.mk.inj (Option.some.inj hr)
    exact ⟨hb.refl, by simp, by simp [hacc]⟩

end StateNode

/-! ## All states -/

theorem exists_targets_iff {data : NFAState} {label : Label} {P : ℕ → Prop} :
    (∃ targets, data.transitions.get label = some targets ∧ ∃ target ∈ targets, P target) ↔
      ∃ target ∈ targetsOf data label, P target := by
  unfold targetsOf
  cases data.transitions.get label with
  | none => simp
  | some targets => simp

theorem NFA.mem_targets_epsilon {nfa : NFA} {state target : ℕ} {data : NFAState}
    (h : nfa.states[state]? = some data) (ht : target ∈ data.epsilons) :
    target ∈ nfa.targets state := by
  simp only [targets, h]
  exact List.mem_append_right _ ht

theorem NFA.mem_targets_targetsOf {nfa : NFA} {state target : ℕ} {data : NFAState}
    (h : nfa.states[state]? = some data) {label : Label} (ht : target ∈ targetsOf data label) :
    target ∈ nfa.targets state := by
  simp only [targets, h]
  apply List.mem_append_left
  unfold targetsOf at ht
  cases hget : data.transitions.get label with
  | none => simp [hget] at ht
  | some ts =>
      rw [hget, Option.getD_some] at ht
      exact List.mem_flatten.mpr
        ⟨ts, List.mem_map_of_mem (f := Prod.snd) (SortedMap.get_eq_some_iff.mp hget), ht⟩

/-- The nodes of the states `done` accept the words that their states accept. -/
structure Progress (nfa : NFA) (default_label : Label) (done : List ℕ)
    (progress : Builder × List ℕ) : Prop where
  sound : Sound default_label progress.1
  length : progress.2.length = nfa.states.length
  lt : ∀ q : ℕ, (progress.2[q]?).getD 0 < progress.1.nodes.length
  accepts : ∀ q ∈ done, ∀ word, default_label ∉ word →
    (acceptsFrom progress.1.nodes ((progress.2[q]?).getD 0) word = true ↔
      nfa.AcceptsFrom default_label q word)

section States

variable {nfa : NFA} {default_label : Label} {done : List ℕ} {b b' : Builder}
  {canonical : List ℕ} {data : NFAState} {s node : ℕ}

theorem Progress.viaTargets (h : Progress nfa default_label done (b, canonical))
    {targets : List ℕ} (ht : ∀ t ∈ targets, t ∈ done) {word : List Label}
    (hword : default_label ∉ word) : ViaTargets b.nodes canonical targets word ↔
      ∃ t ∈ targets, nfa.AcceptsFrom default_label t word := by
  apply exists_congr
  intro t
  apply and_congr_right
  intro hmem
  exact h.accepts t (ht t hmem) word hword

theorem stateNode_spec (h : Progress nfa default_label done (b, canonical))
    (hdata : nfa.states[s]? = some data) (hdone : ∀ t ∈ nfa.targets s, t ∈ done)
    (hr : b.stateNode data default_label canonical = some (b', node)) :
    Grown default_label b b' ∧ node < b'.nodes.length ∧
      ∀ word, default_label ∉ word → (acceptsFrom b'.nodes node word = true ↔
        nfa.AcceptsFrom default_label s word) := by
  simp only [Builder.stateNode, Option.bind_eq_some_iff] at hr
  obtain ⟨⟨b₁, labels_node⟩, hlabels, ⟨b₂, parts⟩, hparts, hunion⟩ := hr
  obtain ⟨hg₁, hlt, hnil, hcons⟩ := labelsNode_spec h.sound h.lt hlabels
  obtain ⟨hg₂, hrange, haccept⟩ := acceptPart_spec hg₁.sound hparts
  have hg₁₂ := hg₁.trans hg₂
  have hids : ∀ id ∈ parts ++ data.epsilons.map (fun target => (canonical[target]?).getD 0) ++
      (if labels_node ≠ 0 then [labels_node] else []), id < b₂.nodes.length := by
    intro id hid
    rcases List.mem_append.mp hid with hid | hid
    · rcases List.mem_append.mp hid with hid | hid
      · exact hrange id hid
      · obtain ⟨t, -, rfl⟩ := List.mem_map.mp hid
        exact (h.lt t).trans_le hg₁₂.length_le
    · split_ifs at hid
      · rw [List.mem_singleton.mp hid]
        exact hlt.trans_le hg₂.length_le
      · exact absurd hid List.not_mem_nil
  obtain ⟨hg₃, hu⟩ := unionTop_spec default_label hg₁₂.sound hids hunion
  refine ⟨hg₁₂.trans hg₃, hu.lt, fun word hword => ?_⟩
  have hepsilon : ∀ t ∈ data.epsilons, t ∈ done := fun t ht =>
    hdone t (NFA.mem_targets_epsilon hdata ht)
  have hlabelled : ∀ label, ∀ t ∈ targetsOf data label, t ∈ done := fun label t ht =>
    hdone t (NFA.mem_targets_targetsOf hdata ht)
  have hunited : acceptsFrom b'.nodes node word = true ↔
      ∃ id ∈ parts ++ data.epsilons.map (fun target => (canonical[target]?).getD 0) ++
        (if labels_node ≠ 0 then [labels_node] else []), acceptsFrom b₂.nodes id word = true := by
    rw [hu.accepts]
    apply exists_congr
    intro id
    apply and_congr_right
    intro hid
    rw [hg₃.acceptsFrom hg₁₂.sound (hids id hid)]
  have hlabels_node : (∃ id ∈ (if labels_node ≠ 0 then [labels_node] else []),
      acceptsFrom b₂.nodes id word = true) ↔ acceptsFrom b₁.nodes labels_node word = true := by
    rw [← hg₂.acceptsFrom hg₁.sound hlt]
    split_ifs with hz
    · simp
    · rw [not_not.mp hz, hg₂.sound.canonical.acceptsFrom_zero]
      simp
  calc
    acceptsFrom b'.nodes node word = true
        ↔ (data.is_accepting = true ∧ word = []) ∨
            (∃ t ∈ data.epsilons, nfa.AcceptsFrom default_label t word) ∨
            acceptsFrom b₁.nodes labels_node word = true := by
          rw [hunited, ← haccept, ← h.viaTargets hepsilon hword,
            ← viaTargets_grown h.sound hg₁₂ h.lt, ← exists_mem_children, ← hlabels_node]
          simp only [List.mem_append, or_and_right, exists_or, or_assoc]
    _ ↔ nfa.AcceptsFrom default_label s word := by
          cases word with
          | nil => simp [NFA.acceptsFrom_nil hdata, hnil]
          | cons label word =>
              rw [List.mem_cons, not_or] at hword
              have hgoal : labelGoal b.nodes canonical data default_label label word ↔
                  (∃ t ∈ targetsOf data label, nfa.AcceptsFrom default_label t word) ∨
                    0 ≤ label ∧ ∃ t ∈ targetsOf data default_label,
                      nfa.AcceptsFrom default_label t word := by
                rw [labelGoal, h.viaTargets (hlabelled label) hword.2,
                  h.viaTargets (hlabelled default_label) hword.2]
              rw [hcons label word (Ne.symm hword.1), hgoal, NFA.acceptsFrom_cons hdata,
                exists_targets_iff, exists_targets_iff]
              simp only [reduceCtorEq, and_false, false_or]
              rw [or_comm, or_assoc]

theorem visitState_spec (h : Progress nfa default_label done (b, canonical))
    (hdata : nfa.states[s]? = some data) (hdone : ∀ t ∈ nfa.targets s, t ∈ done)
    {progress : Builder × List ℕ}
    (hr : visitState nfa default_label (b, canonical) s = some progress) :
    Progress nfa default_label (done ++ [s]) progress := by
  simp only [visitState, hdata, Option.getD_some, Option.map_eq_some_iff] at hr
  obtain ⟨⟨b', node⟩, hnode, rfl⟩ := hr
  obtain ⟨hg, hlt, hacc⟩ := stateNode_spec h hdata hdone hnode
  have hs : s < canonical.length := by
    rw [h.length]
    exact (List.getElem?_eq_some_iff.mp hdata).1
  have hset : ∀ q : ℕ, ((canonical.set s node)[q]?).getD 0 =
      if s = q then node else (canonical[q]?).getD 0 := by
    intro q
    rw [List.getElem?_set]
    split_ifs
    all_goals rfl
  constructor
  · exact hg.sound
  · rw [List.length_set]
    exact h.length
  · intro q
    simp only [hset]
    split_ifs
    · exact hlt
    · exact (h.lt q).trans_le hg.length_le
  · intro q hq word hword
    simp only [hset]
    split_ifs with he
    · rw [← he]
      exact hacc word hword
    · have hq' : q ∈ done := (List.mem_append.mp hq).resolve_right
        fun hq => he (List.mem_singleton.mp hq).symm
      rw [hg.acceptsFrom h.sound (h.lt q)]
      exact h.accepts q hq' word hword

/-- Visiting the states of `order`, each after all its targets. -/
theorem foldlM_visitState {order : List ℕ} {progress progress' : Builder × List ℕ}
    (h : Progress nfa default_label done progress)
    (hrange : ∀ s ∈ order, s < nfa.states.length)
    (hbefore : ∀ l₁ s l₂, order = l₁ ++ s :: l₂ → ∀ t ∈ nfa.targets s, t ∈ done ++ l₁)
    (hr : order.foldlM (visitState nfa default_label) progress = some progress') :
    Progress nfa default_label (done ++ order) progress' := by
  induction order generalizing done progress with
  | nil =>
      obtain rfl := Option.some.inj hr
      rwa [List.append_nil]
  | cons s order ih =>
      rw [List.foldlM_cons, Option.bind_eq_bind, Option.bind_eq_some_iff] at hr
      obtain ⟨progress₁, hvisit, hrest⟩ := hr
      have hdata := List.getElem?_eq_getElem (hrange s List.mem_cons_self)
      have hdone : ∀ t ∈ nfa.targets s, t ∈ done := by
        simpa using hbefore [] s order rfl
      have h₁ := visitState_spec h hdata hdone hvisit
      have hrest' := ih h₁ (fun t ht => hrange t (List.mem_cons_of_mem _ ht)) (by
        intro l₁ t l₂ he u hu
        have := hbefore (s :: l₁) t l₂ (by rw [he, List.cons_append]) u hu
        simpa using this) hrest
      simpa using hrest'

theorem progress_start (nfa : NFA) (default_label : Label) (node_budget depth_budget : ℕ) :
    Progress nfa default_label []
      (Builder.new node_budget depth_budget, List.replicate nfa.states.length 0) where
  sound := sound_new default_label node_budget depth_budget
  length := List.length_replicate
  lt q := by
    simp only [List.getElem?_replicate]
    split_ifs <;> exact Nat.zero_lt_one
  accepts q hq := absurd hq List.not_mem_nil

end States

end GlrMask
