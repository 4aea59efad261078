import Mathlib.Data.List.Destutter
import GlrMask.DefaultNodes

/-!
# Interning and uniting canonical nodes

The builder keeps a table of all nodes, so that equal nodes share an id, and a
memo table of unions. Uniting nodes recurses through their targets and gives up
beyond the node and depth budgets. The returned node accepts what one of the
united nodes accepts.
-/

namespace GlrMask

/-- The key of an interned node is the node itself. -/
structure Builder where
  nodes : List Node
  interned : List (Node × ℕ)
  unions : List (List ℕ × ℕ)
  node_budget : ℕ
  depth_budget : ℕ
  accept : Option ℕ

theorem sortByLabel_sorted (transitions : List (Label × ℕ)) :
    ((transitions.insertionSort fun a b => a.1 ≤ b.1).destutter fun a b => a.1 ≠ b.1).Pairwise
      (fun a b => a.1 < b.1) := by
  have hle : (transitions.insertionSort fun a b => a.1 ≤ b.1).Pairwise (fun a b => a.1 ≤ b.1) := by
    have : Std.Total (fun a b : Label × ℕ => a.1 ≤ b.1) := ⟨fun a b => le_total a.1 b.1⟩
    have : IsTrans (Label × ℕ) (fun a b => a.1 ≤ b.1) := ⟨fun a b c => le_trans⟩
    exact List.pairwise_insertionSort _ _
  have hchain := List.isChain_destutter (fun a b : Label × ℕ => a.1 ≠ b.1)
    (transitions.insertionSort fun a b => a.1 ≤ b.1)
  have hsub := List.destutter_sublist (fun a b : Label × ℕ => a.1 ≠ b.1)
    (transitions.insertionSort fun a b => a.1 ≤ b.1)
  have : IsTrans (Label × ℕ) (fun a b => a.1 < b.1) := ⟨fun a b c => lt_trans⟩
  apply List.isChain_iff_pairwise.mp
  rw [List.isChain_iff_forall_rel_of_append_cons_cons] at hchain ⊢
  intro a b l₁ l₂ he
  have hpair := hle.sublist hsub
  rw [he] at hpair
  exact lt_of_le_of_ne
    (List.rel_of_pairwise_cons (List.pairwise_append.mp hpair).2.1 List.mem_cons_self) (hchain he)

/-- Sort by label, and keep the first of several edges with one label. -/
def sortByLabel (transitions : List (Label × ℕ)) : SortedMap Label ℕ :=
  ⟨(transitions.insertionSort fun a b => a.1 ≤ b.1).destutter fun a b => a.1 ≠ b.1,
    sortByLabel_sorted transitions⟩

/-- Sorted, without repetitions and without the dead node. -/
def sortIds (ids : List ℕ) : List ℕ := (ids.insertionSort (· ≤ ·)).dedup.filter (· ≠ 0)

namespace Builder

def new (node_budget depth_budget : ℕ) : Builder :=
  ⟨[Node.dead], [], [], node_budget, depth_budget, none⟩

def intern (self : Builder) (accepting : Bool) (default : ℕ) (transitions : List (Label × ℕ)) :
    Option (Builder × ℕ) :=
  let transitions := (sortByLabel transitions).filter fun e => e.2 ≠ fallback default e.1
  if transitions.entries.isEmpty && !accepting && default == 0 then some (self, 0)
  else
    let key : Node := ⟨accepting, default, transitions⟩
    match self.interned.lookup key with
    | some node => some (self, node)
    | none =>
        if self.node_budget ≤ self.nodes.length then none
        else some ({ self with
          nodes := self.nodes ++ [key]
          interned := (key, self.nodes.length) :: self.interned }, self.nodes.length)

def accept_node (self : Builder) : Option (Builder × ℕ) :=
  match self.accept with
  | some node => some (self, node)
  | none => (self.intern true 0 []).map fun (self, node) => ({ self with accept := some node }, node)

/-- Unite the children of one label, and keep the edge unless it repeats the fallback. -/
def unionEdge (union : Builder → List ℕ → Option (Builder × ℕ)) (default : ℕ) (label : Label)
    (children : List ℕ) (state : Builder × List (Label × ℕ)) :
    Option (Builder × List (Label × ℕ)) :=
  (union state.1 children).map fun (self, child) =>
    (self, if child ≠ fallback default label then state.2 ++ [(label, child)] else state.2)

/-- The unions that need no new node. -/
def knownUnion (self : Builder) : List ℕ → Option ℕ
  | [] => some 0
  | [id] => some id
  | ids => self.unions.lookup ids

/-- The labels on explicit edges of the nodes, in increasing order. -/
def unionLabels (self : Builder) (ids : List ℕ) : List Label :=
  ((ids.flatMap fun id => (nodeAt self.nodes id).transitions.keys).insertionSort (· ≤ ·)).dedup

/-- `remaining` levels are left of the depth budget. -/
def union (remaining : ℕ) (self : Builder) (ids : List ℕ) : Option (Builder × ℕ) :=
  let ids := sortIds ids
  match self.knownUnion ids with
  | some node => some (self, node)
  | none =>
      match remaining with
      | 0 => none
      | remaining + 1 =>
          let accepting := ids.any fun id => (nodeAt self.nodes id).accepting
          let defaults := (ids.map fun id => (nodeAt self.nodes id).default).filter (· ≠ 0)
          let labels := self.unionLabels ids
          (union remaining self defaults).bind fun (self, default) =>
            (labels.foldlM (fun state label =>
              let children :=
                (ids.map fun id => (nodeAt state.1.nodes id).target label).filter (· ≠ 0)
              unionEdge (union remaining) default label children state) (self, [])).bind
            fun (self, transitions) =>
              (self.intern accepting default transitions).map fun (self, node) =>
                ({ self with unions := (ids, node) :: self.unions }, node)

end Builder

/-! ## What the builder keeps -/

/-- The node accepts what one of `ids` accepts. -/
structure IsUnion (nodes : List Node) (ids : List ℕ) (node : ℕ) : Prop where
  lt : node < nodes.length
  accepts : ∀ word, acceptsFrom nodes node word = true ↔
    ∃ id ∈ ids, acceptsFrom nodes id word = true

/-- The tables agree with the nodes. -/
structure Sound (default_label : Label) (builder : Builder) : Prop where
  canonical : CanonicalNodes default_label builder.nodes
  interned : ∀ key id, builder.interned.lookup key = some id ↔
    builder.nodes[id]? = some key ∧ 0 < id
  unions : ∀ ids node, builder.unions.lookup ids = some node →
    (∀ id ∈ ids, id < builder.nodes.length) ∧ IsUnion builder.nodes ids node
  accept : ∀ id, builder.accept = some id →
    builder.nodes[id]? = some ⟨true, 0, SortedMap.empty⟩

/-- The tables still agree after some nodes were added. -/
structure Grown (default_label : Label) (builder builder' : Builder) : Prop where
  sound : Sound default_label builder'
  nodes : ∃ more, builder'.nodes = builder.nodes ++ more

variable {default_label : Label} {b b' b'' : Builder}

theorem Sound.refl (h : Sound default_label b) : Grown default_label b b :=
  ⟨h, [], (List.append_nil _).symm⟩

theorem Grown.trans (h : Grown default_label b b') (h' : Grown default_label b' b'') :
    Grown default_label b b'' := by
  obtain ⟨more, he⟩ := h.nodes
  obtain ⟨more', he'⟩ := h'.nodes
  exact ⟨h'.sound, more ++ more', by rw [he', he, List.append_assoc]⟩

theorem Grown.length_le (h : Grown default_label b b') : b.nodes.length ≤ b'.nodes.length := by
  obtain ⟨more, he⟩ := h.nodes
  rw [he, List.length_append]
  exact Nat.le_add_right _ _

theorem Grown.nodeAt (h : Grown default_label b b') {i : ℕ} (hi : i < b.nodes.length) :
    nodeAt b'.nodes i = nodeAt b.nodes i := by
  obtain ⟨more, he⟩ := h.nodes
  rw [he, nodeAt_append hi]

theorem Grown.acceptsFrom (h : Grown default_label b b') (hb : Sound default_label b) {i : ℕ}
    (hi : i < b.nodes.length) (word : List Label) :
    acceptsFrom b'.nodes i word = acceptsFrom b.nodes i word := by
  obtain ⟨more, he⟩ := h.nodes
  rw [he, hb.canonical.acceptsFrom_append hi]

theorem IsUnion.append (h : CanonicalNodes default_label b.nodes) {more : List Node} {ids : List ℕ}
    {node : ℕ} (hids : ∀ id ∈ ids, id < b.nodes.length) (hu : IsUnion b.nodes ids node) :
    IsUnion (b.nodes ++ more) ids node where
  lt := by
    rw [List.length_append]
    exact hu.lt.trans_le (Nat.le_add_right _ _)
  accepts word := by
    rw [h.acceptsFrom_append hu.lt, hu.accepts]
    apply exists_congr
    intro id
    apply and_congr_right
    intro hid
    rw [h.acceptsFrom_append (hids id hid)]

theorem sound_new (default_label : Label) (node_budget depth_budget : ℕ) :
    Sound default_label (Builder.new node_budget depth_budget) where
  canonical := by
    refine ⟨rfl, fun i node hi hpos => ?_, List.nodup_singleton _⟩
    have := (List.getElem?_eq_some_iff.mp hi).1
    simp only [Builder.new, List.length_singleton] at this
    omega
  interned key id := by
    simp only [Builder.new, List.lookup_nil, reduceCtorEq, false_iff, not_and]
    intro h
    have := (List.getElem?_eq_some_iff.mp h).1
    simp only [List.length_singleton] at this
    omega
  unions ids node h := by simp [Builder.new] at h
  accept id h := by simp [Builder.new] at h

/-! ## Interning -/

theorem sortByLabel_of_sorted {transitions : List (Label × ℕ)}
    (h : transitions.Pairwise (fun a b => a.1 < b.1)) :
    (sortByLabel transitions).entries = transitions := by
  have hsort : (transitions.insertionSort fun a b => a.1 ≤ b.1) = transitions :=
    List.Pairwise.insertionSort_eq (h.imp fun hlt => hlt.le)
  have hchain : transitions.IsChain fun a b => a.1 ≠ b.1 := (h.imp fun hlt => hlt.ne).isChain
  calc
    (sortByLabel transitions).entries
        = (transitions.insertionSort fun a b => a.1 ≤ b.1).destutter fun a b => a.1 ≠ b.1 := rfl
    _ = transitions := by rw [hsort, List.destutter_of_isChain _ _ hchain]

/-- Adding a node under the next id, and recording that id for it. -/
theorem Sound.push (h : Sound default_label b) {node : Node} (hnew : node ∉ b.nodes)
    (hwf : node.WellFormed default_label (acceptsFrom b.nodes) b.nodes.length) :
    Grown default_label b { b with
      nodes := b.nodes ++ [node], interned := (node, b.nodes.length) :: b.interned } := by
  have hgrown : ∀ {i : ℕ} {old : Node}, b.nodes[i]? = some old →
      (b.nodes ++ [node])[i]? = some old := fun hi => by
    rw [List.getElem?_append_left (List.getElem?_eq_some_iff.mp hi).1, hi]
  refine ⟨⟨h.canonical.append_node hnew hwf, ?_, ?_, fun id hid => hgrown (h.accept id hid)⟩,
    _, rfl⟩
  · intro key id
    simp only [List.lookup_cons]
    by_cases hkey : key = node
    · subst hkey
      simp only [beq_self_eq_true, Option.some.injEq]
      constructor
      · rintro rfl
        rw [List.getElem?_append_right le_rfl]
        exact ⟨by simp, h.canonical.zero_lt⟩
      · rintro ⟨hid, -⟩
        rcases lt_or_ge id b.nodes.length with hlt | hge
        · rw [List.getElem?_append_left hlt] at hid
          exact absurd (List.mem_of_getElem? hid) hnew
        · have := (List.getElem?_eq_some_iff.mp hid).1
          rw [List.length_append, List.length_singleton] at this
          omega
    · rw [beq_false_of_ne hkey]
      simp only [h.interned]
      constructor
      · rintro ⟨hid, hpos⟩
        exact ⟨hgrown hid, hpos⟩
      · rintro ⟨hid, hpos⟩
        refine ⟨?_, hpos⟩
        rcases lt_or_ge id b.nodes.length with hlt | hge
        · rwa [List.getElem?_append_left hlt] at hid
        · rw [List.getElem?_append_right hge, List.getElem?_singleton] at hid
          split_ifs at hid
          exact absurd (Option.some.inj hid).symm hkey
  · intro ids union hlook
    obtain ⟨hids, hu⟩ := h.unions ids union hlook
    refine ⟨fun id hid => ?_, hu.append h.canonical hids⟩
    rw [List.length_append]
    exact (hids id hid).trans_le (Nat.le_add_right _ _)

/-- Interning returns the id of the node with the given parts. -/
theorem intern_spec (h : Sound default_label b) {accepting : Bool} {default r : ℕ}
    {transitions : SortedMap Label ℕ}
    (hwf : Node.WellFormed default_label (acceptsFrom b.nodes) b.nodes.length
      ⟨accepting, default, transitions⟩)
    (hr : b.intern accepting default transitions.entries = some (b', r)) :
    Grown default_label b b' ∧ b'.nodes[r]? = some ⟨accepting, default, transitions⟩ := by
  have hkeep : ((sortByLabel transitions.entries).filter fun e =>
      e.2 ≠ fallback default e.1) = transitions := by
    apply SortedMap.ext
    simp only [SortedMap.filter, sortByLabel_of_sorted transitions.sorted]
    apply List.filter_eq_self.mpr
    intro e he
    exact decide_eq_true (hwf.kept e he)
  simp only [Builder.intern, hkeep] at hr
  by_cases hdead : transitions.entries.isEmpty && !accepting && default == 0
  · rw [if_pos hdead] at hr
    obtain ⟨rfl, rfl⟩ := Prod.mk.inj (Option.some.inj hr)
    simp only [Bool.and_eq_true, List.isEmpty_iff, Bool.not_eq_true', beq_iff_eq] at hdead
    obtain ⟨⟨he, rfl⟩, rfl⟩ := hdead
    obtain rfl : transitions = SortedMap.empty := SortedMap.ext he
    exact ⟨h.refl, h.canonical.dead⟩
  rw [if_neg hdead] at hr
  cases hlook : b.interned.lookup ⟨accepting, default, transitions⟩ with
  | some node =>
      simp only [hlook, Option.some.injEq, Prod.mk.injEq] at hr
      obtain ⟨rfl, rfl⟩ := hr
      exact ⟨h.refl, ((h.interned _ _).mp hlook).1⟩
  | none =>
      simp only [hlook] at hr
      split_ifs at hr
      obtain ⟨rfl, rfl⟩ := Prod.mk.inj (Option.some.inj hr)
      have hnew : (⟨accepting, default, transitions⟩ : Node) ∉ b.nodes := fun hmem => by
        obtain ⟨id, hid⟩ := List.mem_iff_getElem?.mp hmem
        rcases Nat.eq_zero_or_pos id with rfl | hpos
        · have heq := Option.some.inj (h.canonical.dead.symm.trans hid)
          simp only [Node.dead, Node.mk.injEq] at heq
          obtain ⟨rfl, rfl, rfl⟩ := heq
          simp at hdead
        · rw [(h.interned _ _).mpr ⟨hid, hpos⟩] at hlook
          cases hlook
      refine ⟨h.push hnew hwf, ?_⟩
      rw [List.getElem?_append_right le_rfl]
      simp

theorem accept_node_spec (h : Sound default_label b) {r : ℕ}
    (hr : b.accept_node = some (b', r)) :
    Grown default_label b b' ∧ b'.nodes[r]? = some ⟨true, 0, SortedMap.empty⟩ := by
  unfold Builder.accept_node at hr
  cases haccept : b.accept with
  | some node =>
      simp only [haccept, Option.some.injEq, Prod.mk.injEq] at hr
      obtain ⟨rfl, rfl⟩ := hr
      exact ⟨h.refl, h.accept _ haccept⟩
  | none =>
      simp only [haccept, Option.map_eq_some_iff, Prod.mk.injEq] at hr
      obtain ⟨⟨b₁, node⟩, hintern, rfl, rfl⟩ := hr
      have hwf : Node.WellFormed default_label (acceptsFrom b.nodes) b.nodes.length
          ⟨true, 0, SortedMap.empty⟩ := by
        refine ⟨h.canonical.zero_lt, ?_, ?_, ?_, ?_⟩ <;>
          exact fun e he => absurd he List.not_mem_nil
      obtain ⟨hgrown, hget⟩ := intern_spec h hwf hintern
      refine ⟨⟨?_, hgrown.nodes⟩, hget⟩
      exact { hgrown.sound with
        accept := fun id hid => by obtain rfl := Option.some.inj hid; exact hget }

/-! ## The edges of a new node -/

def edgeTarget (default : ℕ) (transitions : List (Label × ℕ)) (label : Label) : ℕ :=
  (SortedMap.lookupEntry transitions label).getD (fallback default label)

/-- After the labels `done`, the collected edges lead to what `goal` asks for each label. -/
structure Edges (nodes : List Node) (default : ℕ) (goal : Label → List Label → Prop)
    (done : List Label) (transitions : List (Label × ℕ)) : Prop where
  sorted : transitions.Pairwise (fun a b => a.1 < b.1)
  labels : ∀ e ∈ transitions, e.1 ∈ done
  target_lt : ∀ e ∈ transitions, e.2 < nodes.length
  kept : ∀ e ∈ transitions, e.2 ≠ fallback default e.1
  accepts : ∀ label ∈ done, ∀ word,
    acceptsFrom nodes (edgeTarget default transitions label) word = true ↔ goal label word

section Edges

variable {nodes : List Node} {default : ℕ} {goal : Label → List Label → Prop} {done : List Label}
  {transitions : List (Label × ℕ)}

theorem edges_nil : Edges nodes default goal [] [] := by
  refine ⟨List.Pairwise.nil, ?_, ?_, ?_, ?_⟩ <;> exact fun e he => absurd he List.not_mem_nil

theorem Edges.edgeTarget_lt (h : Edges nodes default goal done transitions)
    (hdefault : default < nodes.length) (label : Label) :
    edgeTarget default transitions label < nodes.length := by
  unfold edgeTarget
  cases hget : SortedMap.lookupEntry transitions label with
  | none => exact Node.fallback_lt hdefault label
  | some t => exact h.target_lt (label, t) (SortedMap.lookupEntry_eq_some hget)

theorem Edges.edgeTarget_of_notMem (h : Edges nodes default goal done transitions) {label : Label}
    (hlabel : label ∉ done) : edgeTarget default transitions label = fallback default label := by
  unfold edgeTarget
  cases hget : SortedMap.lookupEntry transitions label with
  | none => rfl
  | some t => exact absurd (h.labels (label, t) (SortedMap.lookupEntry_eq_some hget)) hlabel

theorem edgeTarget_concat {label : Label} (hlabel : ∀ e ∈ transitions, e.1 ≠ label) (child : ℕ)
    (l : Label) :
    edgeTarget default (if child ≠ fallback default label then transitions ++ [(label, child)]
      else transitions) l = if label = l then child else edgeTarget default transitions l := by
  have hnone : SortedMap.lookupEntry transitions label = none := by
    cases hget : SortedMap.lookupEntry transitions label with
    | none => rfl
    | some t => exact absurd rfl (hlabel (label, t) (SortedMap.lookupEntry_eq_some hget))
  unfold edgeTarget
  by_cases hc : child = fallback default label
  · rw [if_neg (not_not.mpr hc)]
    split_ifs with hl
    · rw [← hl, hnone, Option.getD_none, hc]
    · rfl
  · rw [if_pos hc, SortedMap.lookupEntry_concat hlabel]
    split_ifs <;> rfl

/-- Adding the edge of the next label. -/
theorem Edges.concat (h : Edges nodes default goal done transitions) {label : Label} {child : ℕ}
    (hlt : ∀ l ∈ done, l < label) (hchild : child < nodes.length)
    (hacc : ∀ word, acceptsFrom nodes child word = true ↔ goal label word) :
    Edges nodes default goal (done ++ [label])
      (if child ≠ fallback default label then transitions ++ [(label, child)] else transitions) := by
  have hne : ∀ e ∈ transitions, e.1 ≠ label := fun e he => (hlt e.1 (h.labels e he)).ne
  have haccepts : ∀ l ∈ done ++ [label], ∀ word, acceptsFrom nodes (edgeTarget default
      (if child ≠ fallback default label then transitions ++ [(label, child)] else transitions) l)
        word = true ↔ goal l word := by
    intro l hl word
    rw [edgeTarget_concat hne]
    split_ifs with heq
    · rw [← heq, hacc]
    · exact h.accepts l ((List.mem_append.mp hl).resolve_right
        fun hl' => heq (List.mem_singleton.mp hl').symm) word
  split_ifs at haccepts ⊢ with hc
  · have hmem : ∀ {p : Label × ℕ → Prop}, (∀ e ∈ transitions, p e) → p (label, child) →
        ∀ e ∈ transitions ++ [(label, child)], p e := fun hall hnew e he =>
      (List.mem_append.mp he).elim (hall e) fun he' => List.mem_singleton.mp he' ▸ hnew
    refine ⟨?_, hmem (fun e he => List.mem_append_left _ (h.labels e he)) (by simp),
      hmem h.target_lt hchild, hmem h.kept hc, haccepts⟩
    apply List.pairwise_append.mpr ⟨h.sorted, List.pairwise_singleton _ _, ?_⟩
    intro e he e' he'
    rw [List.mem_singleton.mp he']
    exact hlt e.1 (h.labels e he)
  · exact ⟨h.sorted, fun e he => List.mem_append_left _ (h.labels e he), h.target_lt, h.kept,
      haccepts⟩

theorem Edges.grown (hb : Sound default_label b) (hg : Grown default_label b b')
    (hdefault : default < b.nodes.length) (h : Edges b.nodes default goal done transitions) :
    Edges b'.nodes default goal done transitions where
  sorted := h.sorted
  labels := h.labels
  target_lt e he := (h.target_lt e he).trans_le hg.length_le
  kept := h.kept
  accepts label hl word := by
    rw [hg.acceptsFrom hb (h.edgeTarget_lt hdefault label), h.accepts label hl]

/-- The collected edges make a well-formed node when no label asks for less than its fallback. -/
theorem Edges.wellFormed (h : Edges nodes default goal done transitions)
    (hdefault : default < nodes.length) (hdone : default_label ∉ done)
    (hgoal : ∀ label ∈ done, ∀ word,
      acceptsFrom nodes (fallback default label) word = true → goal label word)
    (accepting : Bool) :
    Node.WellFormed default_label (acceptsFrom nodes) nodes.length
      ⟨accepting, default, ⟨transitions, h.sorted⟩⟩ where
  default_lt := hdefault
  target_lt := h.target_lt
  kept := h.kept
  label_ne e he heq := hdone (heq ▸ h.labels e he)
  above e he word hacc := by
    have hget : edgeTarget default transitions e.1 = e.2 := by
      rw [edgeTarget, SortedMap.lookupEntry_of_mem h.sorted (v := e.2) he, Option.getD_some]
    rw [← hget, h.accepts e.1 (h.labels e he)]
    exact hgoal e.1 (h.labels e he) word hacc

end Edges

/-- What the recursive calls of `union` do. -/
def UnitesSoundly (default_label : Label) (union : Builder → List ℕ → Option (Builder × ℕ)) :
    Prop :=
  ∀ {b b' : Builder} {ids : List ℕ} {node : ℕ}, Sound default_label b →
    (∀ id ∈ ids, id < b.nodes.length) → union b ids = some (b', node) →
    Grown default_label b b' ∧ IsUnion b'.nodes ids node

/-- The loop over the labels of a new node. -/
theorem foldlM_unionEdge {I : Type*} {union : Builder → List ℕ → Option (Builder × ℕ)}
    (hunion : UnitesSoundly default_label union) (labelOf : I → Label)
    (goal : Label → List Label → Prop) (done : List Label) {children : Builder → I → List ℕ}
    {default : ℕ} {items : List I} {ts ts' : List (Label × ℕ)} {b b' : Builder}
    (hb : Sound default_label b) (hdefault : default < b.nodes.length)
    (hchildren : ∀ {b'}, Grown default_label b b' → ∀ x ∈ items,
      (∀ id ∈ children b' x, id < b'.nodes.length) ∧ ∀ word,
        (∃ id ∈ children b' x, acceptsFrom b'.nodes id word = true) ↔ goal (labelOf x) word)
    (hsorted : (done ++ items.map labelOf).Pairwise (· < ·))
    (hedges : Edges b.nodes default goal done ts)
    (hr : items.foldlM (fun state x =>
      Builder.unionEdge union default (labelOf x) (children state.1 x) state) (b, ts) = some (b', ts')) :
    Grown default_label b b' ∧ Edges b'.nodes default goal (done ++ items.map labelOf) ts' := by
  induction items generalizing b ts done with
  | nil =>
      obtain ⟨rfl, rfl⟩ := Prod.mk.inj (Option.some.inj hr)
      rw [List.map_nil, List.append_nil]
      exact ⟨hb.refl, hedges⟩
  | cons x items ih =>
      simp only [List.foldlM_cons, Option.bind_eq_bind, Option.bind_eq_some_iff, Builder.unionEdge,
        Option.map_eq_some_iff] at hr
      obtain ⟨_, ⟨⟨b₁, child⟩, hchild, rfl⟩, hrest⟩ := hr
      obtain ⟨hids, hgoal⟩ := hchildren hb.refl x List.mem_cons_self
      obtain ⟨hg, hu⟩ := hunion hb hids hchild
      have hlt : ∀ l ∈ done, l < labelOf x := fun l hl =>
        (List.pairwise_append.mp hsorted).2.2 l hl _ List.mem_cons_self
      have hacc : ∀ word, acceptsFrom b₁.nodes child word = true ↔ goal (labelOf x) word := by
        intro word
        rw [hu.accepts, ← hgoal]
        apply exists_congr
        intro id
        apply and_congr_right
        intro hid
        rw [hg.acceptsFrom hb (hids id hid)]
      have hedges₁ := (hedges.grown hb hg hdefault).concat hlt hu.lt hacc
      obtain ⟨hg', hedges'⟩ := ih (done ++ [labelOf x]) hg.sound
        (hdefault.trans_le hg.length_le)
        (fun hg' y hy => hchildren (hg.trans hg') y (List.mem_cons_of_mem _ hy))
        (by simpa using hsorted) hedges₁ hrest
      refine ⟨hg.trans hg', ?_⟩
      simpa using hedges'

/-! ## Uniting nodes -/

theorem mem_sortIds {ids : List ℕ} {id : ℕ} : id ∈ sortIds ids ↔ id ∈ ids ∧ id ≠ 0 := by
  simp [sortIds]

/-- The dead node and the order of the ids do not matter for a union. -/
theorem isUnion_sortIds {nodes : List Node} (h : CanonicalNodes default_label nodes)
    {ids : List ℕ} {node : ℕ} : IsUnion nodes (sortIds ids) node ↔ IsUnion nodes ids node := by
  have hiff : ∀ word, (∃ id ∈ sortIds ids, acceptsFrom nodes id word = true) ↔
      ∃ id ∈ ids, acceptsFrom nodes id word = true := by
    intro word
    apply exists_congr
    intro id
    rw [mem_sortIds, and_assoc]
    apply and_congr_right
    intro _
    apply and_iff_right_of_imp
    rintro hacc rfl
    rw [h.acceptsFrom_zero] at hacc
    cases hacc
  constructor
  · exact fun hu => ⟨hu.lt, fun word => (hu.accepts word).trans (hiff word)⟩
  · exact fun hu => ⟨hu.lt, fun word => (hu.accepts word).trans (hiff word).symm⟩

theorem knownUnion_spec (h : Sound default_label b) {ids : List ℕ} {node : ℕ}
    (hids : ∀ id ∈ ids, id < b.nodes.length) (hr : b.knownUnion ids = some node) :
    IsUnion b.nodes ids node := by
  unfold Builder.knownUnion at hr
  split at hr
  · obtain rfl := Option.some.inj hr
    exact ⟨h.canonical.zero_lt, fun word => by simp [h.canonical.acceptsFrom_zero]⟩
  · obtain rfl := Option.some.inj hr
    exact ⟨hids _ List.mem_cons_self, fun word => by simp⟩
  · exact (h.unions _ _ hr).2

theorem mem_unionLabels {ids : List ℕ} {label : Label} :
    label ∈ b.unionLabels ids ↔ ∃ id ∈ ids, label ∈ (nodeAt b.nodes id).transitions.keys := by
  simp [Builder.unionLabels]

theorem unionLabels_sorted (b : Builder) (ids : List ℕ) :
    (b.unionLabels ids).Pairwise (· < ·) := by
  have hsort := List.sortedLE_insertionSort
    (l := ids.flatMap fun id => (nodeAt b.nodes id).transitions.keys)
  have hle := hsort.pairwise.sublist (List.dedup_sublist _)
  exact (hle.and (List.nodup_dedup _)).imp fun h => lt_of_le_of_ne h.1 h.2

/-- A node accepts at least what it falls back to. -/
theorem CanonicalNodes.target_above {nodes : List Node} (h : CanonicalNodes default_label nodes)
    {i : ℕ} (hi : i < nodes.length) (label : Label) {word : List Label}
    (hacc : acceptsFrom nodes (fallback (nodeAt nodes i).default label) word = true) :
    acceptsFrom nodes ((nodeAt nodes i).target label) word = true := by
  rcases Nat.eq_zero_or_pos i with rfl | hpos
  · simp [h.nodeAt_zero, Node.dead, fallback, h.acceptsFrom_zero] at hacc
  unfold Node.target
  cases hget : (nodeAt nodes i).transitions.get label with
  | none => exact hacc
  | some t =>
      exact (h.nodeAt_wellFormed hi hpos).above (label, t) (SortedMap.get_eq_some_iff.mp hget)
        word hacc

/-- What the edge of a label of the union of `ids` has to accept. -/
def unionGoal (nodes : List Node) (ids : List ℕ) (label : Label) (word : List Label) : Prop :=
  ∃ id ∈ ids, acceptsFrom nodes ((nodeAt nodes id).target label) word = true

/-- The union of the defaults is below every edge. -/
theorem unionGoal_of_default {nodes : List Node} (h : CanonicalNodes default_label nodes)
    {ids : List ℕ} (hids : ∀ id ∈ ids, id < nodes.length) {label : Label} {word : List Label}
    (hpos : 0 ≤ label)
    (hacc : ∃ id ∈ (ids.map fun id => (nodeAt nodes id).default).filter (· ≠ 0),
      acceptsFrom nodes id word = true) : unionGoal nodes ids label word := by
  obtain ⟨d, hd, hacc⟩ := hacc
  obtain ⟨id, hid, rfl⟩ := List.mem_map.mp (List.mem_filter.mp hd).1
  refine ⟨id, hid, h.target_above (hids id hid) label ?_⟩
  rwa [fallback, if_pos hpos]

/-- Without an explicit edge for a label, the union of the defaults is all there is. -/
theorem unionGoal_iff_of_notMem (h : CanonicalNodes default_label b.nodes) {ids : List ℕ}
    {label : Label} (hlabel : label ∉ b.unionLabels ids) (word : List Label) :
    unionGoal b.nodes ids label word ↔ 0 ≤ label ∧
      ∃ id ∈ (ids.map fun id => (nodeAt b.nodes id).default).filter (· ≠ 0),
        acceptsFrom b.nodes id word = true := by
  have htarget : ∀ id ∈ ids,
      (nodeAt b.nodes id).target label = fallback (nodeAt b.nodes id).default label := by
    intro id hid
    have hkey : label ∉ (nodeAt b.nodes id).transitions.keys := fun hmem =>
      hlabel (mem_unionLabels.mpr ⟨id, hid, hmem⟩)
    rw [Node.target, SortedMap.get_eq_none_iff.mpr hkey, Option.getD_none]
  constructor
  · rintro ⟨id, hid, hacc⟩
    rw [htarget id hid, fallback] at hacc
    split_ifs at hacc with hpos
    · refine ⟨hpos, _, List.mem_filter.mpr ⟨List.mem_map_of_mem hid, ?_⟩, hacc⟩
      simp only [ne_eq, decide_not, Bool.not_eq_true', decide_eq_false_iff_not]
      intro hz
      rw [hz, h.acceptsFrom_zero] at hacc
      cases hacc
    · rw [h.acceptsFrom_zero] at hacc
      cases hacc
  · rintro ⟨hpos, d, hd, hacc⟩
    obtain ⟨id, hid, rfl⟩ := List.mem_map.mp (List.mem_filter.mp hd).1
    refine ⟨id, hid, ?_⟩
    rwa [htarget id hid, fallback, if_pos hpos]

theorem Sound.record (h : Sound default_label b) {ids : List ℕ} {node : ℕ}
    (hids : ∀ id ∈ ids, id < b.nodes.length) (hu : IsUnion b.nodes ids node) :
    Sound default_label { b with unions := (ids, node) :: b.unions } := by
  refine ⟨h.canonical, h.interned, fun ids' node' hlook => ?_, h.accept⟩
  simp only [List.lookup_cons] at hlook
  split at hlook
  · rename_i heq
    obtain rfl := Option.some.inj hlook
    obtain rfl := eq_of_beq heq
    exact ⟨hids, hu⟩
  · exact h.unions ids' node' hlook

theorem CanonicalNodes.default_lt_length {nodes : List Node}
    (h : CanonicalNodes default_label nodes) {i : ℕ} (hi : i < nodes.length) :
    (nodeAt nodes i).default < nodes.length := by
  rcases Nat.eq_zero_or_pos i with rfl | hpos
  · rw [h.nodeAt_zero]
    exact h.zero_lt
  · exact (h.nodeAt_wellFormed hi hpos).default_lt.trans hi

theorem default_label_notMem_unionLabels (h : CanonicalNodes default_label b.nodes) {ids : List ℕ}
    (hids : ∀ id ∈ ids, id < b.nodes.length) : default_label ∉ b.unionLabels ids := by
  intro hmem
  obtain ⟨id, hid, hkey⟩ := mem_unionLabels.mp hmem
  rcases Nat.eq_zero_or_pos id with rfl | hpos
  · rw [h.nodeAt_zero] at hkey
    simp [Node.dead, SortedMap.keys] at hkey
  · have hnone := Node.get_default_label (h.nodeAt_wellFormed (hids id hid) hpos)
    exact SortedMap.get_eq_none_iff.mp hnone hkey

/-- The children of one label in a later builder. -/
theorem unionGoal_children (hb : Sound default_label b) (hg : Grown default_label b b')
    {ids : List ℕ} (hids : ∀ id ∈ ids, id < b.nodes.length) (label : Label) :
    (∀ id ∈ (ids.map fun id => (nodeAt b'.nodes id).target label).filter (· ≠ 0),
        id < b'.nodes.length) ∧
      ∀ word, (∃ id ∈ (ids.map fun id => (nodeAt b'.nodes id).target label).filter (· ≠ 0),
        acceptsFrom b'.nodes id word = true) ↔ unionGoal b.nodes ids label word := by
  have htarget : ∀ id ∈ ids, ((nodeAt b'.nodes id).target label) < b.nodes.length ∧
      (nodeAt b'.nodes id).target label = (nodeAt b.nodes id).target label := by
    intro id hid
    rw [hg.nodeAt (hids id hid)]
    exact ⟨hb.canonical.target_lt_length (hids id hid) label, rfl⟩
  constructor
  · intro t ht
    obtain ⟨id, hid, rfl⟩ := List.mem_map.mp (List.mem_filter.mp ht).1
    exact (htarget id hid).1.trans_le hg.length_le
  · intro word
    constructor
    · rintro ⟨t, ht, hacc⟩
      obtain ⟨id, hid, rfl⟩ := List.mem_map.mp (List.mem_filter.mp ht).1
      refine ⟨id, hid, ?_⟩
      rwa [hg.acceptsFrom hb (htarget id hid).1, (htarget id hid).2] at hacc
    · rintro ⟨id, hid, hacc⟩
      refine ⟨_, List.mem_filter.mpr ⟨List.mem_map_of_mem hid, ?_⟩, ?_⟩
      · simp only [ne_eq, decide_not, Bool.not_eq_true', decide_eq_false_iff_not]
        intro hz
        rw [← (htarget id hid).2, hz, hb.canonical.acceptsFrom_zero] at hacc
        cases hacc
      · rwa [hg.acceptsFrom hb (htarget id hid).1, (htarget id hid).2]

/-- The new node accepts what one of the united nodes accepts. -/
theorem unite_children {union : Builder → List ℕ → Option (Builder × ℕ)}
    (hunion : UnitesSoundly default_label union) {b₁ b₂ b₃ : Builder} {ids : List ℕ}
    {default node : ℕ} {ts : List (Label × ℕ)} (hb : Sound default_label b)
    (hids : ∀ id ∈ ids, id < b.nodes.length)
    (hdefault : union b ((ids.map fun id => (nodeAt b.nodes id).default).filter (· ≠ 0)) =
      some (b₁, default))
    (hloop : (b.unionLabels ids).foldlM (fun state label =>
      Builder.unionEdge union default label
        ((ids.map fun id => (nodeAt state.1.nodes id).target label).filter (· ≠ 0)) state)
          (b₁, []) = some (b₂, ts))
    (hintern : b₂.intern (ids.any fun id => (nodeAt b.nodes id).accepting) default ts =
      some (b₃, node)) :
    Grown default_label b b₃ ∧ IsUnion b₃.nodes ids node := by
  have hdefaults : ∀ id ∈ (ids.map fun id => (nodeAt b.nodes id).default).filter (· ≠ 0),
      id < b.nodes.length := by
    intro d hd
    obtain ⟨id, hid, rfl⟩ := List.mem_map.mp (List.mem_filter.mp hd).1
    exact hb.canonical.default_lt_length (hids id hid)
  obtain ⟨hg₁, hu⟩ := hunion hb hdefaults hdefault
  obtain ⟨hg₂, hedges⟩ := foldlM_unionEdge hunion id (unionGoal b.nodes ids) []
    hg₁.sound hu.lt
    (fun hg x _ => unionGoal_children hb (hg₁.trans hg) hids x)
    (by simpa using unionLabels_sorted b ids) edges_nil hloop
  rw [List.nil_append, List.map_id] at hedges
  have hg₁₂ := hg₁.trans hg₂
  have hlt : default < b₂.nodes.length := hu.lt.trans_le hg₂.length_le
  have hdef : ∀ word, acceptsFrom b₂.nodes default word = true ↔
      ∃ id ∈ (ids.map fun id => (nodeAt b.nodes id).default).filter (· ≠ 0),
        acceptsFrom b.nodes id word = true := by
    intro word
    rw [hg₂.acceptsFrom hg₁.sound hu.lt, hu.accepts]
    apply exists_congr
    intro id
    apply and_congr_right
    intro hid
    rw [hg₁.acceptsFrom hb (hdefaults id hid)]
  have hdone := default_label_notMem_unionLabels hb.canonical hids
  have hwf := hedges.wellFormed hlt hdone (by
    intro label _ word hacc
    rw [fallback] at hacc
    split_ifs at hacc with hpos
    · exact unionGoal_of_default hb.canonical hids hpos ((hdef word).mp hacc)
    · rw [hg₂.sound.canonical.acceptsFrom_zero] at hacc
      cases hacc) (ids.any fun id => (nodeAt b.nodes id).accepting)
  obtain ⟨hg₃, hget⟩ := intern_spec hg₂.sound hwf hintern
  have hedge : ∀ label word, acceptsFrom b₂.nodes (edgeTarget default ts label) word = true ↔
      unionGoal b.nodes ids label word := by
    intro label word
    by_cases hlabel : label ∈ b.unionLabels ids
    · exact hedges.accepts label hlabel word
    · rw [hedges.edgeTarget_of_notMem hlabel, unionGoal_iff_of_notMem hb.canonical hlabel,
        fallback]
      split_ifs with hpos
      · rw [hdef]
        exact (and_iff_right hpos).symm
      · rw [hg₂.sound.canonical.acceptsFrom_zero]
        simp [hpos]
  have hg := hg₁₂.trans hg₃
  refine ⟨hg, (List.getElem?_eq_some_iff.mp hget).1, fun word => ?_⟩
  cases word with
  | nil =>
      rw [acceptsFrom, nodeAt_of_getElem? hget, List.any_eq_true]
      apply exists_congr
      intro id
      apply and_congr_right
      intro hid
      rw [hg.acceptsFrom hb (hids id hid), acceptsFrom]
  | cons label word =>
      have htarget := hedges.edgeTarget_lt hlt label
      rw [acceptsFrom, nodeAt_of_getElem? hget]
      calc
        acceptsFrom b₃.nodes (edgeTarget default ts label) word = true
            ↔ unionGoal b.nodes ids label word := by
              rw [hg₃.acceptsFrom hg₂.sound htarget, hedge]
        _ ↔ ∃ id ∈ ids, acceptsFrom b₃.nodes id (label :: word) = true := by
              apply exists_congr
              intro id
              apply and_congr_right
              intro hid
              rw [hg.acceptsFrom hb (hids id hid), acceptsFrom]

/-- Uniting nodes within any depth budget is sound. -/
theorem union_spec (default_label : Label) (remaining : ℕ) :
    UnitesSoundly default_label (Builder.union remaining) := by
  induction remaining with
  | zero =>
      intro b b' ids node hb hids hr
      have hsorted : ∀ id ∈ sortIds ids, id < b.nodes.length := fun id hid =>
        hids id (mem_sortIds.mp hid).1
      rw [Builder.union] at hr
      cases hknown : b.knownUnion (sortIds ids) with
      | none => simp [hknown] at hr
      | some known =>
          simp only [hknown, Option.some.injEq, Prod.mk.injEq] at hr
          obtain ⟨rfl, rfl⟩ := hr
          exact ⟨hb.refl, (isUnion_sortIds hb.canonical).mp (knownUnion_spec hb hsorted hknown)⟩
  | succ remaining ih =>
      intro b b' ids₀ node hb hids₀ hr
      have hids : ∀ id ∈ sortIds ids₀, id < b.nodes.length := fun id hid =>
        hids₀ id (mem_sortIds.mp hid).1
      rw [Builder.union] at hr
      cases hknown : b.knownUnion (sortIds ids₀) with
      | some known =>
          simp only [hknown, Option.some.injEq, Prod.mk.injEq] at hr
          obtain ⟨rfl, rfl⟩ := hr
          exact ⟨hb.refl, (isUnion_sortIds hb.canonical).mp (knownUnion_spec hb hids hknown)⟩
      | none =>
          simp only [hknown, Option.bind_eq_some_iff, Option.map_eq_some_iff] at hr
          obtain ⟨⟨b₁, default⟩, hdefault, ⟨b₂, ts⟩, hloop, ⟨b₃, r⟩, hintern, he⟩ := hr
          obtain ⟨rfl, rfl⟩ := Prod.mk.inj he
          obtain ⟨hg, hu⟩ := unite_children ih hb hids hdefault hloop hintern
          have hids₃ : ∀ id ∈ sortIds ids₀, id < b₃.nodes.length := fun id hid =>
            (hids id hid).trans_le hg.length_le
          refine ⟨⟨hg.sound.record hids₃ hu, hg.nodes⟩, ?_⟩
          exact (isUnion_sortIds hg.sound.canonical).mp hu

end GlrMask
