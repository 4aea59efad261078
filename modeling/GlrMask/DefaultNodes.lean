import GlrMask.Nfa

/-!
# CanonicalNodes nodes with a default target

A node has a target for nonnegative labels without an explicit edge. Its explicit
edges never repeat that target, and all targets were made before the node. Under
these conditions a node is determined by the words it accepts.
-/

namespace GlrMask

/-- The target of a label without an explicit edge. -/
def fallback (default : ℕ) (label : Label) : ℕ := if 0 ≤ label then default else 0

structure Node where
  accepting : Bool
  default : ℕ
  transitions : SortedMap Label ℕ
deriving DecidableEq

namespace Node

/-- The node `0`, which accepts nothing. -/
def dead : Node := ⟨false, 0, SortedMap.empty⟩

def target (self : Node) (label : Label) : ℕ :=
  (self.transitions.get label).getD (fallback self.default label)

/-- All targets lie below `bound`, and no explicit edge repeats the target it would fall back to
or accepts less than that target. -/
structure WellFormed (default_label : Label) (accepts : ℕ → List Label → Bool) (bound : ℕ)
    (node : Node) : Prop where
  default_lt : node.default < bound
  target_lt : ∀ e ∈ node.transitions.entries, e.2 < bound
  kept : ∀ e ∈ node.transitions.entries, e.2 ≠ fallback node.default e.1
  label_ne : ∀ e ∈ node.transitions.entries, e.1 ≠ default_label
  above : ∀ e ∈ node.transitions.entries, ∀ word,
    accepts (fallback node.default e.1) word = true → accepts e.2 word = true

variable {default_label : Label} {accepts accepts' : ℕ → List Label → Bool} {bound bound' : ℕ}
  {self : Node}

theorem fallback_lt {default bound : ℕ} (h : default < bound) (label : Label) :
    fallback default label < bound := by
  unfold fallback
  split_ifs <;> omega

@[simp] theorem dead_target (label : Label) : dead.target label = 0 := by
  simp [target, dead, fallback]

theorem WellFormed.lt (h : self.WellFormed default_label accepts bound) (label : Label) :
    self.target label < bound := by
  unfold target
  cases hget : self.transitions.get label with
  | none => exact fallback_lt h.default_lt label
  | some t => exact h.target_lt (label, t) (SortedMap.get_eq_some_iff.mp hget)

/-- The explicit edges can be read off the targets. -/
theorem WellFormed.get_eq (h : self.WellFormed default_label accepts bound) (label : Label) :
    self.transitions.get label =
      if self.target label = fallback self.default label then none else some (self.target label) := by
  unfold target
  cases hget : self.transitions.get label with
  | none => simp
  | some t =>
      have hne := h.kept (label, t) (SortedMap.get_eq_some_iff.mp hget)
      rw [Option.getD_some, if_neg hne]

theorem WellFormed.mono (h : self.WellFormed default_label accepts bound) (hle : bound ≤ bound')
    (hacc : ∀ i < bound, accepts' i = accepts i) :
    self.WellFormed default_label accepts' bound' where
  default_lt := h.default_lt.trans_le hle
  target_lt e he := (h.target_lt e he).trans_le hle
  kept := h.kept
  label_ne := h.label_ne
  above e he word := by
    rw [hacc _ (fallback_lt h.default_lt e.1), hacc _ (h.target_lt e he)]
    exact h.above e he word

end Node

/-- The node with an id; an id without a node reads as the dead node. -/
def nodeAt (nodes : List Node) (id : ℕ) : Node := (nodes[id]?).getD Node.dead

def acceptsFrom (nodes : List Node) : ℕ → List Label → Bool
  | id, [] => (nodeAt nodes id).accepting
  | id, label :: word => acceptsFrom nodes ((nodeAt nodes id).target label) word

/-- Node `0` is dead, no node occurs twice, and the targets of a node precede it. -/
structure CanonicalNodes (default_label : Label) (nodes : List Node) : Prop where
  dead : nodes[0]? = some Node.dead
  wellFormed : ∀ i node, nodes[i]? = some node → 0 < i →
    node.WellFormed default_label (acceptsFrom nodes) i
  nodup : nodes.Nodup

section CanonicalNodes

variable {default_label : Label} {nodes more : List Node} {i j : ℕ}

theorem nodeAt_of_getElem? {node : Node} (h : nodes[i]? = some node) : nodeAt nodes i = node := by
  rw [nodeAt, h, Option.getD_some]

theorem getElem?_of_lt (h : i < nodes.length) : nodes[i]? = some (nodeAt nodes i) := by
  rw [nodeAt, List.getElem?_eq_getElem h, Option.getD_some]

theorem CanonicalNodes.zero_lt (h : CanonicalNodes default_label nodes) : 0 < nodes.length :=
  (List.getElem?_eq_some_iff.mp h.dead).1

theorem CanonicalNodes.nodeAt_zero (h : CanonicalNodes default_label nodes) :
    nodeAt nodes 0 = Node.dead := nodeAt_of_getElem? h.dead

theorem CanonicalNodes.nodeAt_wellFormed (h : CanonicalNodes default_label nodes) (hi : i < nodes.length)
    (hpos : 0 < i) : (nodeAt nodes i).WellFormed default_label (acceptsFrom nodes) i :=
  h.wellFormed i _ (getElem?_of_lt hi) hpos

theorem CanonicalNodes.acceptsFrom_zero (h : CanonicalNodes default_label nodes) (word : List Label) :
    acceptsFrom nodes 0 word = false := by
  induction word with
  | nil => rw [acceptsFrom, h.nodeAt_zero]; rfl
  | cons label word ih => rw [acceptsFrom, h.nodeAt_zero, Node.dead_target, ih]

/-- The targets of a node other than the dead node have smaller ids. -/
theorem CanonicalNodes.target_lt (h : CanonicalNodes default_label nodes) (hi : i < nodes.length)
    (label : Label) : (nodeAt nodes i).target label < i ∨
      i = 0 ∧ (nodeAt nodes i).target label = 0 := by
  rcases Nat.eq_zero_or_pos i with rfl | hpos
  · rw [h.nodeAt_zero]
    exact Or.inr ⟨rfl, Node.dead_target label⟩
  · exact Or.inl ((h.nodeAt_wellFormed hi hpos).lt label)

theorem CanonicalNodes.target_lt_length (h : CanonicalNodes default_label nodes) (hi : i < nodes.length)
    (label : Label) : (nodeAt nodes i).target label < nodes.length := by
  rcases h.target_lt hi label with hlt | ⟨-, hz⟩
  · exact hlt.trans hi
  · rw [hz]
    exact h.zero_lt

theorem nodeAt_append (hi : i < nodes.length) : nodeAt (nodes ++ more) i = nodeAt nodes i := by
  rw [nodeAt, nodeAt, List.getElem?_append_left hi]

/-- New nodes do not change what the old ones accept. -/
theorem CanonicalNodes.acceptsFrom_append (h : CanonicalNodes default_label nodes) (hi : i < nodes.length)
    (word : List Label) : acceptsFrom (nodes ++ more) i word = acceptsFrom nodes i word := by
  induction word generalizing i with
  | nil => rw [acceptsFrom, acceptsFrom, nodeAt_append hi]
  | cons label word ih =>
      rw [acceptsFrom, acceptsFrom, nodeAt_append hi, ih (h.target_lt_length hi label)]

theorem CanonicalNodes.append_node {node : Node} (h : CanonicalNodes default_label nodes)
    (hnew : node ∉ nodes) (hwf : node.WellFormed default_label (acceptsFrom nodes) nodes.length) :
    CanonicalNodes default_label (nodes ++ [node]) := by
  have hacc : ∀ k < nodes.length, acceptsFrom (nodes ++ [node]) k = acceptsFrom nodes k :=
    fun k hk => funext (h.acceptsFrom_append hk)
  constructor
  · rw [List.getElem?_append_left h.zero_lt, h.dead]
  · intro k m hm hpos
    rcases lt_or_ge k nodes.length with hk | hk
    · rw [List.getElem?_append_left hk] at hm
      exact (h.wellFormed k m hm hpos).mono le_rfl fun l hl => hacc l (hl.trans hk)
    · rw [List.getElem?_append_right hk, List.getElem?_singleton] at hm
      split_ifs at hm with hz
      obtain rfl := Option.some.inj hm
      obtain rfl : k = nodes.length := by omega
      exact hwf.mono le_rfl hacc
  · apply List.nodup_append.mpr ⟨h.nodup, List.nodup_singleton node, ?_⟩
    intro a ha b hb hab
    exact hnew (List.mem_singleton.mp hb ▸ hab ▸ ha)

/-! ## Nodes and their languages -/

theorem exists_fresh_label (default_label : Label) (labels : List Label) :
    ∃ label, 0 ≤ label ∧ label ≠ default_label ∧ label ∉ labels := by
  obtain ⟨n, hn⟩ := Infinite.exists_notMem_finset ((default_label :: labels).map Int.toNat).toFinset
  simp only [List.mem_toFinset, List.mem_map, not_exists, not_and] at hn
  have hne : ∀ l ∈ default_label :: labels, (n : ℤ) ≠ l := fun l hl he =>
    hn l hl (by rw [← he, Int.toNat_natCast])
  exact ⟨n, Int.natCast_nonneg n, hne _ List.mem_cons_self,
    fun hmem => hne _ (List.mem_cons_of_mem _ hmem) rfl⟩

theorem Node.target_fresh {node : Node} {label : Label} (hpos : 0 ≤ label)
    (h : label ∉ node.transitions.keys) : node.target label = node.default := by
  rw [Node.target, SortedMap.get_eq_none_iff.mpr h, Option.getD_none, fallback, if_pos hpos]

theorem Node.get_default_label {accepts : ℕ → List Label → Bool} {bound : ℕ} {node : Node}
    (h : node.WellFormed default_label accepts bound) :
    node.transitions.get default_label = none := by
  cases hget : node.transitions.get default_label with
  | none => rfl
  | some t => exact absurd rfl (h.label_ne (default_label, t) (SortedMap.get_eq_some_iff.mp hget))

/-- Well-formed nodes with the same verdict on the empty word and the same targets are equal. -/
theorem Node.ext_target {accepts : ℕ → List Label → Bool} {b b' : ℕ} {node node' : Node}
    (h : node.WellFormed default_label accepts b) (h' : node'.WellFormed default_label accepts b')
    (hacc : node.accepting = node'.accepting)
    (ht : ∀ label, label ≠ default_label → node.target label = node'.target label) :
    node = node' := by
  obtain ⟨label, hpos, hne, hfresh⟩ :=
    exists_fresh_label default_label (node.transitions.keys ++ node'.transitions.keys)
  rw [List.mem_append, not_or] at hfresh
  have hdefault : node.default = node'.default := by
    rw [← Node.target_fresh hpos hfresh.1, ← Node.target_fresh hpos hfresh.2, ht label hne]
  have htransitions : node.transitions = node'.transitions := by
    apply SortedMap.ext_get
    intro k
    by_cases hk : k = default_label
    · rw [hk, Node.get_default_label h, Node.get_default_label h']
    · rw [h.get_eq, h'.get_eq, ht k hk, hdefault]
  cases node
  cases node'
  simp_all

theorem Node.dead_wellFormed {accepts : ℕ → List Label → Bool} :
    Node.dead.WellFormed default_label accepts 1 where
  default_lt := Nat.zero_lt_one
  target_lt e he := by simp [Node.dead] at he
  kept e he := by simp [Node.dead] at he
  label_ne e he := by simp [Node.dead] at he
  above e he := by simp [Node.dead] at he

/-- Nodes that accept the same words without the default label are equal. -/
theorem CanonicalNodes.eq_of_accepts (h : CanonicalNodes default_label nodes) (hi : i < nodes.length)
    (hj : j < nodes.length)
    (hlang : ∀ word, default_label ∉ word → acceptsFrom nodes i word = acceptsFrom nodes j word) :
    i = j := by
  induction hn : i + j using Nat.strong_induction_on generalizing i j with
  | _ n ih =>
  by_contra hne
  have hwf : ∀ k, k < nodes.length → ∃ b,
      (nodeAt nodes k).WellFormed default_label (acceptsFrom nodes) b := fun k hk => by
    rcases Nat.eq_zero_or_pos k with rfl | hpos
    · rw [h.nodeAt_zero]
      exact ⟨1, Node.dead_wellFormed⟩
    · exact ⟨k, h.nodeAt_wellFormed hk hpos⟩
  -- One of the two ids is positive, so the residuals are compared at smaller ids.
  have htarget : ∀ label, label ≠ default_label →
      (nodeAt nodes i).target label = (nodeAt nodes j).target label := by
    intro label hlabel
    have hi' := h.target_lt hi label
    have hj' := h.target_lt hj label
    apply ih ((nodeAt nodes i).target label + (nodeAt nodes j).target label) (by omega)
      (h.target_lt_length hi label) (h.target_lt_length hj label) _ rfl
    intro word hword
    exact hlang (label :: word) (by simp [hword, hlabel.symm])
  obtain ⟨bi, hbi⟩ := hwf i hi
  obtain ⟨bj, hbj⟩ := hwf j hj
  have hacc : (nodeAt nodes i).accepting = (nodeAt nodes j).accepting :=
    hlang [] (by simp)
  have heq := Node.ext_target hbi hbj hacc htarget
  have hget : nodes[i]? = nodes[j]? := by rw [getElem?_of_lt hi, getElem?_of_lt hj, heq]
  exact hne ((List.getElem?_inj hi h.nodup).mp hget)

theorem CanonicalNodes.exists_accepts (h : CanonicalNodes default_label nodes) (hi : i < nodes.length)
    (hpos : 0 < i) : ∃ word, default_label ∉ word ∧ acceptsFrom nodes i word = true := by
  by_contra hno
  push Not at hno
  apply hpos.ne'
  apply h.eq_of_accepts hi h.zero_lt
  intro word hword
  rw [h.acceptsFrom_zero, Bool.eq_false_iff]
  exact hno word hword

/-- No explicit edge leads to the dead node. -/
theorem CanonicalNodes.explicit_pos (h : CanonicalNodes default_label nodes) (hi : i < nodes.length)
    {e : Label × ℕ} (he : e ∈ (nodeAt nodes i).transitions.entries) : 0 < e.2 := by
  rcases Nat.eq_zero_or_pos i with rfl | hpos
  · rw [h.nodeAt_zero] at he
    simp [Node.dead] at he
  have hwf := h.nodeAt_wellFormed hi hpos
  by_contra hz
  have hz : e.2 = 0 := by omega
  have hlt : fallback (nodeAt nodes i).default e.1 < nodes.length :=
    (Node.fallback_lt hwf.default_lt e.1).trans hi
  apply hwf.kept e he
  rw [hz]
  by_contra hne
  obtain ⟨word, -, hacc⟩ := h.exists_accepts hlt (Nat.pos_of_ne_zero fun he' => hne he'.symm)
  have := hwf.above e he word hacc
  rw [hz, h.acceptsFrom_zero] at this
  cases this

end CanonicalNodes

end GlrMask
