import GlrMask.DefaultDeterminize

/-!
# The minimal automaton behind a canonical node

The nodes reachable from the start node become the states of the result, in the
order of their discovery. Since distinct nodes accept distinct languages, no
automaton with the same language has fewer states.
-/

namespace GlrMask

/-- The states built so far, the state of each discovered node, and the nodes without edges yet. -/
structure Materialized where
  states : List DFAState
  id_of : List (ℕ × ℕ)
  queue : List ℕ

/-- Insert an edge to the state of a node, which is added when the node is new. -/
def addEdge (state : ℕ) (self : Materialized) (edge : Label × ℕ) : Materialized :=
  match self.id_of.lookup edge.2 with
  | some target =>
      { self with states := self.states.modify state fun row =>
          { row with transitions := row.transitions.insert edge.1 target } }
  | none =>
      let target := self.states.length
      { states := (self.states ++ [default]).modify state fun row =>
          { row with transitions := row.transitions.insert edge.1 target }
        id_of := (edge.2, target) :: self.id_of
        queue := self.queue ++ [edge.2] }

/-- The edges of a node, its default edge first. -/
def nodeEdges (default_label : Label) (data : Node) : List (Label × ℕ) :=
  (if data.default ≠ 0 then [(default_label, data.default)] else []) ++ data.transitions.entries

/-- Every node enters the queue at most once, so the number of nodes is enough fuel. -/
def materializeLoop (nodes : List Node) (default_label : Label) : ℕ → Materialized → Materialized
  | 0, self => self
  | fuel + 1, self =>
      match self.queue with
      | [] => self
      | node :: queue =>
          let state := (self.id_of.lookup node).getD 0
          let data := nodeAt nodes node
          let states := self.states.modify state fun row =>
            { row with is_accepting := data.accepting }
          materializeLoop nodes default_label fuel
            ((nodeEdges default_label data).foldl (addEdge state)
              { self with states := states, queue := queue })

def materialize (builder : Builder) (start : ℕ) (default_label : Label) : DFA :=
  if start = 0 then DFA.new
  else
    ⟨(materializeLoop builder.nodes default_label builder.nodes.length
      ⟨[default], [(start, 0)], [start]⟩).states, 0⟩

def try_determinize_minimal_defaults_with_budget (nfa : NFA) (default_label : Label)
    (node_budget depth_budget : ℕ) : Option DFA :=
  if nfa.states.isEmpty || nfa.start_states.isEmpty then some DFA.new
  else
    (reverse_topological_order nfa).bind fun order =>
      (order.foldlM (visitState nfa default_label)
        (Builder.new node_budget depth_budget, List.replicate nfa.states.length 0)).bind
      fun (builder, canonical) =>
        (builder.unionTop
          (nfa.start_states.map fun state => (canonical[state]?).getD 0)).map
        fun (builder, start) => materialize builder start default_label

/-! ## Rows of the result

`order` lists the discovered nodes, so that state `i` stands for the node `order[i]`. -/

/-- The row has the edges `edges`, with each node replaced by its state. -/
def RowOf (order : List ℕ) (edges : List (Label × ℕ)) (row : DFAState) : Prop :=
  ∀ label, match SortedMap.lookupEntry edges label with
    | none => row.transitions.get label = none
    | some child => ∃ target, row.transitions.get label = some target ∧ order[target]? = some child

/-- State `i` has the verdict `accepting i` and the edges `edges i`. -/
structure Built (order : List ℕ) (accepting : ℕ → Bool) (edges : ℕ → List (Label × ℕ))
    (m : Materialized) : Prop where
  nodup : order.Nodup
  length : m.states.length = order.length
  id_of : ∀ node state, m.id_of.lookup node = some state ↔ order[state]? = some node
  rows : ∀ i < order.length, ∃ row, m.states[i]? = some row ∧ row.is_accepting = accepting i ∧
    RowOf order (edges i) row
  fresh : ∀ i, order.length ≤ i → accepting i = false ∧ edges i = []

section Built

variable {order : List ℕ} {accepting : ℕ → Bool} {edges : ℕ → List (Label × ℕ)}
  {m : Materialized} {k : ℕ}

theorem getElem?_modify_of_eq_some {states : List DFAState} {i : ℕ} {row : DFAState}
    {f : DFAState → DFAState} (h : states[i]? = some row) :
    (states.modify k f)[i]? = some (if k = i then f row else row) := by
  rw [List.getElem?_modify, h]
  rfl

theorem RowOf.append {es : List (Label × ℕ)} {row : DFAState} (h : RowOf order es row)
    (more : List ℕ) : RowOf (order ++ more) es row := by
  intro label
  have := h label
  split at this
  · exact this
  · obtain ⟨target, hget, ho⟩ := this
    refine ⟨target, hget, ?_⟩
    rw [List.getElem?_append_left (List.getElem?_eq_some_iff.mp ho).1, ho]

theorem RowOf.insert {es : List (Label × ℕ)} {row : DFAState} (h : RowOf order es row)
    {label : Label} {child target : ℕ} (hfresh : ∀ e ∈ es, e.1 ≠ label)
    (ht : order[target]? = some child) :
    RowOf order (es ++ [(label, child)])
      { row with transitions := row.transitions.insert label target } := by
  intro l
  rw [SortedMap.lookupEntry_concat hfresh]
  by_cases hl : label = l
  · rw [if_pos hl]
    exact ⟨target, by rw [SortedMap.get_insert, if_pos hl], ht⟩
  · rw [if_neg hl]
    simp only [SortedMap.get_insert, if_neg hl]
    exact h l

/-- Adding an edge for which the target state exists. -/
theorem Built.insert (h : Built order accepting edges m) (hk : k < order.length) {label : Label}
    {child target : ℕ} (hfresh : ∀ e ∈ edges k, e.1 ≠ label) (ht : order[target]? = some child) :
    Built order accepting (Function.update edges k (edges k ++ [(label, child)]))
      { m with states := m.states.modify k fun row =>
          { row with transitions := row.transitions.insert label target } } where
  nodup := h.nodup
  length := by rw [List.length_modify, h.length]
  id_of := h.id_of
  rows i hi := by
    obtain ⟨row, hrow, hacc, hrowOf⟩ := h.rows i hi
    refine ⟨_, getElem?_modify_of_eq_some hrow, ?_⟩
    by_cases hik : k = i
    · subst hik
      rw [if_pos rfl, Function.update_self]
      exact ⟨hacc, hrowOf.insert hfresh ht⟩
    · rw [if_neg hik, Function.update_of_ne (Ne.symm hik)]
      exact ⟨hacc, hrowOf⟩
  fresh i hi := by
    rw [Function.update_of_ne (by omega)]
    exact h.fresh i hi

/-- Discovering a node adds an empty state for it. -/
theorem Built.discover (h : Built order accepting edges m) {child : ℕ} (hnew : child ∉ order)
    (queue : List ℕ) : Built (order ++ [child]) accepting edges
      ⟨m.states ++ [default], (child, m.states.length) :: m.id_of, queue⟩ where
  nodup := List.nodup_append.mpr ⟨h.nodup, List.nodup_singleton _, fun a ha b hb hab =>
    hnew (List.mem_singleton.mp hb ▸ hab ▸ ha)⟩
  length := by rw [List.length_append, List.length_append, h.length]; rfl
  id_of node state := by
    simp only [List.lookup_cons]
    by_cases hn : node = child
    · subst hn
      simp only [beq_self_eq_true, Option.some.injEq, h.length]
      constructor
      · rintro rfl
        simp
      · intro hs
        rcases lt_or_ge state order.length with hlt | hge
        · rw [List.getElem?_append_left hlt] at hs
          exact absurd (List.mem_of_getElem? hs) hnew
        · have := (List.getElem?_eq_some_iff.mp hs).1
          rw [List.length_append, List.length_singleton] at this
          omega
    · rw [beq_false_of_ne hn]
      simp only [h.id_of]
      rcases lt_or_ge state order.length with hlt | hge
      · rw [List.getElem?_append_left hlt]
      · rw [List.getElem?_append_right hge, List.getElem?_eq_none hge, List.getElem?_singleton]
        simp [Ne.symm hn]
  rows i hi := by
    rw [List.length_append, List.length_singleton] at hi
    rcases Nat.lt_succ_iff_lt_or_eq.mp hi with hlt | rfl
    · obtain ⟨row, hrow, hacc, hrowOf⟩ := h.rows i hlt
      refine ⟨row, ?_, hacc, hrowOf.append _⟩
      rw [List.getElem?_append_left (List.getElem?_eq_some_iff.mp hrow).1, hrow]
    · obtain ⟨hacc, hedges⟩ := h.fresh order.length le_rfl
      refine ⟨default, ?_, by rw [hacc]; rfl, ?_⟩
      · rw [List.getElem?_append_right (by rw [h.length]), h.length]
        simp
      · rw [hedges]
        exact fun label => rfl
  fresh i hi := h.fresh i (by rw [List.length_append] at hi; omega)

/-- Adding an edge discovers at most its target. -/
theorem Built.connect (h : Built order accepting edges m) (hk : k < order.length)
    {e : Label × ℕ} (hfresh : ∀ f ∈ edges k, f.1 ≠ e.1) :
    ∃ more, Built (order ++ more) accepting (Function.update edges k (edges k ++ [e]))
        (addEdge k m e) ∧ (addEdge k m e).queue = m.queue ++ more ∧ (more = [] ∨ more = [e.2]) := by
  unfold addEdge
  cases hlook : m.id_of.lookup e.2 with
  | some target =>
      refine ⟨[], ?_, (List.append_nil _).symm, Or.inl rfl⟩
      rw [List.append_nil]
      exact h.insert hk hfresh ((h.id_of _ _).mp hlook)
  | none =>
      have hnew : e.2 ∉ order := fun hmem => by
        obtain ⟨i, hi⟩ := List.mem_iff_getElem?.mp hmem
        rw [(h.id_of _ _).mpr hi] at hlook
        cases hlook
      refine ⟨[e.2], ?_, rfl, Or.inr rfl⟩
      apply (h.discover hnew (m.queue ++ [e.2])).insert _ hfresh
      · rw [h.length]
        simp
      · rw [List.length_append]
        omega

/-- Adding all edges of a node discovers some of their targets. -/
theorem Built.connectAll (h : Built order accepting edges m) (es : List (Label × ℕ))
    (hk : k < order.length) (hsorted : ((edges k ++ es).map Prod.fst).Nodup) :
    ∃ more, Built (order ++ more) accepting (Function.update edges k (edges k ++ es))
        (es.foldl (addEdge k) m) ∧ (es.foldl (addEdge k) m).queue = m.queue ++ more ∧
      ∀ child ∈ more, ∃ e ∈ es, e.2 = child := by
  induction es generalizing order edges m with
  | nil =>
      refine ⟨[], ?_, (List.append_nil _).symm, by simp⟩
      rwa [List.append_nil, List.append_nil, Function.update_eq_self]
  | cons e es ih =>
      have hfresh : ∀ f ∈ edges k, f.1 ≠ e.1 := by
        rw [List.map_append, List.nodup_append] at hsorted
        exact fun f hf => hsorted.2.2 _ (List.mem_map_of_mem hf) _ List.mem_cons_self
      obtain ⟨more, hbuilt, hqueue, hmore⟩ := h.connect hk hfresh
      obtain ⟨more', hbuilt', hqueue', hmore'⟩ := ih hbuilt
        (hk.trans_le (by rw [List.length_append]; exact Nat.le_add_right _ _))
        (by rw [Function.update_self]; simpa using hsorted)
      refine ⟨more ++ more', ?_, ?_, ?_⟩
      · rw [Function.update_idem, Function.update_self, List.append_assoc,
          List.append_assoc] at hbuilt'
        exact hbuilt'
      · rw [List.foldl_cons, hqueue', hqueue, List.append_assoc]
      · intro child hchild
        rcases List.mem_append.mp hchild with hc | hc
        · rcases hmore with rfl | rfl
          · exact absurd hc List.not_mem_nil
          · exact ⟨e, List.mem_cons_self, (List.mem_singleton.mp hc).symm⟩
        · obtain ⟨f, hf, he⟩ := hmore' child hc
          exact ⟨f, List.mem_cons_of_mem _ hf, he⟩

theorem Built.setAccepting (h : Built order accepting edges m) (hk : k < order.length)
    (value : Bool) (queue : List ℕ) : Built order (Function.update accepting k value) edges
      { m with
        states := m.states.modify k fun row => { row with is_accepting := value }
        queue := queue } where
  nodup := h.nodup
  length := by rw [List.length_modify, h.length]
  id_of := h.id_of
  rows i hi := by
    obtain ⟨row, hrow, hacc, hrowOf⟩ := h.rows i hi
    refine ⟨_, getElem?_modify_of_eq_some hrow, ?_⟩
    by_cases hik : k = i
    · subst hik
      rw [if_pos rfl, Function.update_self]
      exact ⟨rfl, hrowOf⟩
    · rw [if_neg hik, Function.update_of_ne (Ne.symm hik)]
      exact ⟨hacc, hrowOf⟩
  fresh i hi := by
    rw [Function.update_of_ne (by omega)]
    exact h.fresh i hi

end Built

/-! ## The loop -/

section Loop

variable {nodes : List Node} {default_label : Label} {order : List ℕ} {m : Materialized} {k : ℕ}

/-- The first `k` discovered nodes have their edges, the others wait in the queue. -/
structure Materializing (nodes : List Node) (default_label : Label) (start : ℕ) (k : ℕ)
    (order : List ℕ) (m : Materialized) : Prop where
  built : ∃ accepting edges, Built order accepting edges m ∧
    (∀ i < k, ∀ node, order[i]? = some node → accepting i = (nodeAt nodes node).accepting ∧
      edges i = nodeEdges default_label (nodeAt nodes node)) ∧
    ∀ i, k ≤ i → accepting i = false ∧ edges i = []
  queue : m.queue = order.drop k
  start : order[0]? = some start
  discovered : ∀ i node, order[i]? = some node → i = 0 ∨
    ∃ j < i, ∃ parent, order[j]? = some parent ∧
      ∃ e ∈ nodeEdges default_label (nodeAt nodes parent), e.2 = node
  live : ∀ node ∈ order, 0 < node ∧ node < nodes.length

theorem nodeEdges_nodup {i : ℕ} (h : CanonicalNodes default_label nodes) (hi : i < nodes.length) :
    ((nodeEdges default_label (nodeAt nodes i)).map Prod.fst).Nodup := by
  have hkeys : (nodeAt nodes i).transitions.keys.Nodup :=
    (nodeAt nodes i).transitions.keys_sorted.imp fun hlt => hlt.ne
  rw [nodeEdges, List.map_append]
  split_ifs with hd
  · have hpos : 0 < i := by
      rcases Nat.eq_zero_or_pos i with rfl | hpos
      · rw [h.nodeAt_zero] at hd
        exact absurd rfl hd
      · exact hpos
    apply List.nodup_append.mpr ⟨List.nodup_singleton _, hkeys, ?_⟩
    intro a ha b hb hab
    have hnone := Node.get_default_label (h.nodeAt_wellFormed hi hpos)
    apply SortedMap.get_eq_none_iff.mp hnone
    obtain rfl : a = default_label := List.mem_singleton.mp ha
    rwa [hab]
  · exact hkeys

/-- The targets of the edges are live nodes. -/
theorem nodeEdges_live {i : ℕ} (h : CanonicalNodes default_label nodes) (hi : i < nodes.length)
    {e : Label × ℕ} (he : e ∈ nodeEdges default_label (nodeAt nodes i)) :
    0 < e.2 ∧ e.2 < nodes.length := by
  rcases List.mem_append.mp he with he | he
  · split_ifs at he with hd
    · rw [List.mem_singleton.mp he]
      exact ⟨Nat.pos_of_ne_zero hd, h.default_lt_length hi⟩
    · exact absurd he List.not_mem_nil
  · refine ⟨h.explicit_pos hi he, ?_⟩
    have hget := SortedMap.get_eq_some_iff.mpr he
    have hlt := h.target_lt_length hi e.1
    rwa [Node.target, hget, Option.getD_some] at hlt

/-- One node leaves the queue and gets its edges. -/
theorem Materializing.pop {start node : ℕ} {queue : List ℕ} (h : CanonicalNodes default_label nodes)
    (hm : Materializing nodes default_label start k order m) (hq : m.queue = node :: queue) :
    ∃ order', Materializing nodes default_label start (k + 1) order'
      ((nodeEdges default_label (nodeAt nodes node)).foldl
        (addEdge ((m.id_of.lookup node).getD 0)) { m with
          states := m.states.modify ((m.id_of.lookup node).getD 0) fun row =>
            { row with is_accepting := (nodeAt nodes node).accepting }
          queue := queue }) := by
  obtain ⟨accepting, edges, hbuilt, hdone, htodo⟩ := hm.built
  have hdrop : order.drop k = node :: queue := hm.queue.symm.trans hq
  have hget : order[k]? = some node := by
    rw [← List.head?_drop, hdrop, List.head?_cons]
  have hk : k < order.length := (List.getElem?_eq_some_iff.mp hget).1
  have hstate : (m.id_of.lookup node).getD 0 = k := by
    rw [(hbuilt.id_of node k).mpr hget, Option.getD_some]
  have hlt : node < nodes.length := (hm.live node (List.mem_of_getElem? hget)).2
  rw [hstate]
  have hset := hbuilt.setAccepting hk (nodeAt nodes node).accepting queue
  obtain ⟨more, hbuilt', hqueue', hmore⟩ := hset.connectAll
    (nodeEdges default_label (nodeAt nodes node)) hk (by
      rw [(htodo k le_rfl).2, List.nil_append]
      exact nodeEdges_nodup h hlt)
  rw [(htodo k le_rfl).2, List.nil_append] at hbuilt'
  have hold : ∀ {i : ℕ} {n : ℕ}, order[i]? = some n → (order ++ more)[i]? = some n := fun hi => by
    rw [List.getElem?_append_left (List.getElem?_eq_some_iff.mp hi).1, hi]
  refine ⟨order ++ more, ⟨_, _, hbuilt', ?_, ?_⟩, ?_, hold hm.start, ?_, ?_⟩
  · intro i hi n hn
    by_cases hik : i = k
    · subst hik
      obtain rfl := Option.some.inj ((hold hget).symm.trans hn)
      simp only [Function.update_self, and_self]
    · rw [Function.update_of_ne hik, Function.update_of_ne hik]
      have hlt' : i < order.length := by omega
      rw [List.getElem?_append_left hlt'] at hn
      exact hdone i (by omega) n hn
  · intro i hi
    rw [Function.update_of_ne (by omega), Function.update_of_ne (by omega)]
    exact htodo i (by omega)
  · have hrest : order.drop (k + 1) = queue := by
      rw [← List.tail_drop, hdrop, List.tail_cons]
    rw [hqueue', List.drop_append_of_le_length hk, hrest]
  · intro i n hn
    rcases lt_or_ge i order.length with hi | hi
    · rw [List.getElem?_append_left hi] at hn
      rcases hm.discovered i n hn with h0 | ⟨j, hj, parent, hparent, he⟩
      · exact Or.inl h0
      · exact Or.inr ⟨j, hj, parent, hold hparent, he⟩
    · rw [List.getElem?_append_right hi] at hn
      exact Or.inr ⟨k, by omega, node, hold hget, hmore n (List.mem_of_getElem? hn)⟩
  · intro n hn
    rcases List.mem_append.mp hn with hn | hn
    · exact hm.live n hn
    · obtain ⟨e, he, rfl⟩ := hmore n hn
      exact nodeEdges_live h hlt he

theorem Materializing.finish {start : ℕ} (hm : Materializing nodes default_label start k order m)
    (hle : order.length ≤ k) : Materializing nodes default_label start order.length order m := by
  obtain ⟨accepting, edges, hbuilt, hdone, -⟩ := hm.built
  refine ⟨⟨accepting, edges, hbuilt, fun i hi => hdone i (hi.trans_le hle), hbuilt.fresh⟩, ?_,
    hm.start, hm.discovered, hm.live⟩
  rw [hm.queue, List.drop_of_length_le hle, List.drop_length]

theorem Materializing.length_le {start : ℕ}
    (hm : Materializing nodes default_label start k order m) : order.length ≤ nodes.length := by
  obtain ⟨accepting, edges, hbuilt, -, -⟩ := hm.built
  calc
    order.length = order.toFinset.card := (List.toFinset_card_of_nodup hbuilt.nodup).symm
    _ ≤ (Finset.range nodes.length).card := by
        apply Finset.card_le_card
        intro n hn
        exact Finset.mem_range.mpr (hm.live n (List.mem_toFinset.mp hn)).2
    _ = nodes.length := Finset.card_range _

/-- All discovered nodes get their edges. -/
theorem materializeLoop_spec {start : ℕ} (fuel : ℕ) (h : CanonicalNodes default_label nodes)
    (hm : Materializing nodes default_label start k order m) (hfuel : nodes.length ≤ fuel + k) :
    ∃ order', Materializing nodes default_label start order'.length order'
      (materializeLoop nodes default_label fuel m) := by
  induction fuel generalizing k order m with
  | zero => exact ⟨order, hm.finish (hm.length_le.trans (by omega))⟩
  | succ fuel ih =>
      rw [materializeLoop]
      cases hq : m.queue with
      | nil =>
          have hdrop : order.drop k = [] := hm.queue.symm.trans hq
          exact ⟨order, hm.finish (List.drop_eq_nil_iff.mp hdrop)⟩
      | cons node queue =>
          obtain ⟨order', hm'⟩ := hm.pop h hq
          exact ih hm' (by omega)

end Loop

/-! ## The language of the result -/

section Result

variable {nodes : List Node} {default_label : Label} {order : List ℕ} {m : Materialized}
  {start i node : ℕ}

theorem lookupEntry_nodeEdges (data : Node) {label : Label} (hl : label ≠ default_label) :
    SortedMap.lookupEntry (nodeEdges default_label data) label = data.transitions.get label := by
  unfold nodeEdges
  split_ifs
  · rw [List.singleton_append, SortedMap.lookupEntry, if_neg hl.symm]
    rfl
  · rfl

theorem lookupEntry_nodeEdges_default {data : Node}
    (hnone : data.transitions.get default_label = none) :
    SortedMap.lookupEntry (nodeEdges default_label data) default_label =
      if data.default ≠ 0 then some data.default else none := by
  unfold nodeEdges
  split_ifs
  · rw [List.singleton_append, SortedMap.lookupEntry, if_pos rfl]
  · exact hnone

/-- A step of the result leads to the state of the target node, unless that node is dead. -/
theorem Materializing.step (h : CanonicalNodes default_label nodes)
    (hm : Materializing nodes default_label start order.length order m)
    (hi : order[i]? = some node) {label : Label} (hl : label ≠ default_label) :
    if (nodeAt nodes node).target label = 0 then
      (DFA.mk m.states 0).step default_label i label = none
    else ∃ t, (DFA.mk m.states 0).step default_label i label = some t ∧
      order[t]? = some ((nodeAt nodes node).target label) := by
  obtain ⟨accepting, edges, hbuilt, hdone, -⟩ := hm.built
  have hlt := (List.getElem?_eq_some_iff.mp hi).1
  obtain ⟨row, hrow, -, hrowOf⟩ := hbuilt.rows i hlt
  rw [(hdone i hlt node hi).2] at hrowOf
  obtain ⟨hpos, hnode⟩ := hm.live node (List.mem_of_getElem? hi)
  have hwf := h.nodeAt_wellFormed hnode hpos
  have hlabel := hrowOf label
  have hdefault := hrowOf default_label
  rw [lookupEntry_nodeEdges _ hl] at hlabel
  rw [lookupEntry_nodeEdges_default (Node.get_default_label hwf)] at hdefault
  simp only [DFA.step, hrow, Option.bind_some, Node.target]
  cases hget : (nodeAt nodes node).transitions.get label with
  | some child =>
      have hchild := h.explicit_pos hnode (SortedMap.get_eq_some_iff.mp hget)
      simp only [hget] at hlabel
      obtain ⟨t, ht, ho⟩ := hlabel
      rw [Option.getD_some, if_neg hchild.ne', ht]
      exact ⟨t, rfl, ho⟩
  | none =>
      simp only [hget] at hlabel
      simp only [hlabel, Option.getD_none, fallback]
      by_cases hsign : 0 ≤ label
      · simp only [if_pos hsign]
        by_cases hz : (nodeAt nodes node).default = 0
        · rw [if_neg (not_not.mpr hz)] at hdefault
          rwa [if_pos hz]
        · rw [if_pos hz] at hdefault
          rwa [if_neg hz]
      · simp only [if_neg hsign, if_true]

theorem Materializing.accepts (h : CanonicalNodes default_label nodes)
    (hm : Materializing nodes default_label start order.length order m)
    (hi : order[i]? = some node) {word : List Label} (hword : default_label ∉ word) :
    ((DFA.mk m.states 0).system default_label).accepts i word = acceptsFrom nodes node word := by
  induction word generalizing i node with
  | nil =>
      obtain ⟨accepting, edges, hbuilt, hdone, -⟩ := hm.built
      have hlt := (List.getElem?_eq_some_iff.mp hi).1
      obtain ⟨row, hrow, hacc, -⟩ := hbuilt.rows i hlt
      simp only [PartialSystem.accepts_nil, DFA.system, DFA.is_accepting, hrow, acceptsFrom, hacc,
        (hdone i hlt node hi).1]
  | cons label word ih =>
      rw [List.mem_cons, not_or] at hword
      have hstep := hm.step h hi (Ne.symm hword.1)
      rw [PartialSystem.accepts_cons, acceptsFrom]
      split_ifs at hstep with hz
      · rw [hz, h.acceptsFrom_zero]
        simp only [DFA.system, hstep]
      · obtain ⟨t, ht, ho⟩ := hstep
        simp only [DFA.system, ht]
        exact ih ho hword.2

/-- Every state of the result is reached by a word without the default label. -/
theorem Materializing.reached (h : CanonicalNodes default_label nodes)
    (hm : Materializing nodes default_label start order.length order m) (hi : i < order.length) :
    ∃ word, default_label ∉ word ∧
      ((DFA.mk m.states 0).system default_label).run 0 word = some i := by
  induction i using Nat.strong_induction_on with
  | _ i ih =>
  obtain ⟨accepting, edges, hbuilt, -, -⟩ := hm.built
  rcases hm.discovered i _ (List.getElem?_eq_getElem hi) with rfl | ⟨j, hj, parent, hparent, he⟩
  · exact ⟨[], List.not_mem_nil, rfl⟩
  obtain ⟨word, hword, hrun⟩ := ih j hj (hj.trans hi)
  obtain ⟨e, he, hchild⟩ := he
  obtain ⟨hpos, hnode⟩ := hm.live parent (List.mem_of_getElem? hparent)
  have hwf := h.nodeAt_wellFormed hnode hpos
  -- The default edge is taken by a label without an explicit edge.
  obtain ⟨label, hl, htarget⟩ : ∃ label, label ≠ default_label ∧
      (nodeAt nodes parent).target label = e.2 := by
    rcases List.mem_append.mp he with he | he
    · split_ifs at he with hd
      · obtain ⟨label, hsign, hl, hfresh⟩ :=
          exists_fresh_label default_label (nodeAt nodes parent).transitions.keys
        refine ⟨label, hl, ?_⟩
        rw [Node.target_fresh hsign hfresh, List.mem_singleton.mp he]
      · exact absurd he List.not_mem_nil
    · refine ⟨e.1, hwf.label_ne e he, ?_⟩
      rw [Node.target, SortedMap.get_eq_some_iff.mpr he, Option.getD_some]
  have hstep := hm.step h hparent hl
  rw [htarget, if_neg (nodeEdges_live h hnode he).1.ne', hchild] at hstep
  obtain ⟨t, ht, ho⟩ := hstep
  obtain rfl : t = i := by
    have hlt := (List.getElem?_eq_some_iff.mp ho).1
    apply (List.getElem?_inj hlt hbuilt.nodup).mp
    rw [ho, List.getElem?_eq_getElem hi]
  refine ⟨word ++ [label], ?_, ?_⟩
  · rw [List.mem_append, List.mem_singleton, not_or]
    exact ⟨hword, hl.symm⟩
  · rw [PartialSystem.run_append, hrun, Option.bind_some]
    simp only [PartialSystem.run, DFA.system, ht, Option.bind_some]

theorem forall_ne_iff_notMem {word : List Label} :
    (∀ a ∈ word, a ≠ default_label) ↔ default_label ∉ word := List.forall_mem_ne'

/-- No automaton with the language of the start node has fewer states. -/
theorem Materializing.minimal (h : CanonicalNodes default_label nodes)
    (hm : Materializing nodes default_label start order.length order m) {other : DFA}
    (hstart : other.start_state < other.states.length)
    (hlang : ∀ word, default_label ∉ word →
      acceptsFrom nodes start word = other.accepts default_label word) :
    m.states.length ≤ other.states.length := by
  obtain ⟨accepting, edges, hbuilt, -, -⟩ := hm.built
  have hget : ∀ i ∈ Finset.range order.length, ∃ n, order[i]? = some n ∧ 0 < n ∧
      n < nodes.length := fun i hi => by
    have hi := List.getElem?_eq_getElem (Finset.mem_range.mp hi)
    exact ⟨_, hi, hm.live _ (List.mem_of_getElem? hi)⟩
  have hcard := PartialSystem.card_le_of_residuals ((DFA.mk m.states 0).system default_label)
    (other.system default_label) (· ≠ default_label) 0 other.start_state
    (Finset.range order.length) (Finset.range other.states.length)
    (fun word hword => by
      rw [hm.accepts h hm.start (forall_ne_iff_notMem.mp hword)]
      exact hlang word (forall_ne_iff_notMem.mp hword))
    (fun i hi => by
      obtain ⟨word, hword, hrun⟩ := hm.reached h (Finset.mem_range.mp hi)
      exact ⟨word, forall_ne_iff_notMem.mpr hword, hrun⟩)
    (fun i hi j hj hres => by
      obtain ⟨n, hn, -, hlt⟩ := hget i hi
      obtain ⟨n', hn', -, hlt'⟩ := hget j hj
      have heq : n = n' := h.eq_of_accepts hlt hlt' fun word hword => by
        rw [← hm.accepts h hn hword, ← hm.accepts h hn' hword]
        exact hres word (forall_ne_iff_notMem.mpr hword)
      apply (List.getElem?_inj (Finset.mem_range.mp hi) hbuilt.nodup).mp
      rw [hn, hn', heq])
    (fun i hi => by
      obtain ⟨n, hn, hpos, hlt⟩ := hget i hi
      obtain ⟨word, hword, hacc⟩ := h.exists_accepts hlt hpos
      refine Or.inr ⟨word, forall_ne_iff_notMem.mpr hword, ?_⟩
      rw [hm.accepts h hn hword, hacc])
    (Finset.mem_range.mpr hstart)
    (fun t word hacc => Finset.mem_range.mpr (DFA.lt_of_accepts hacc))
  rwa [Finset.card_range, Finset.card_range, ← hbuilt.length] at hcard

end Result

theorem materializing_start {nodes : List Node} (default_label : Label) {start : ℕ}
    (hpos : 0 < start) (hlt : start < nodes.length) :
    Materializing nodes default_label start 0 [start] ⟨[default], [(start, 0)], [start]⟩ where
  built := by
    refine ⟨fun _ => false, fun _ => [], ⟨List.nodup_singleton _, rfl, ?_, ?_, ?_⟩, ?_, ?_⟩
    · intro node state
      simp only [List.lookup_cons, List.lookup_nil, List.getElem?_singleton]
      by_cases hn : node = start
      · subst hn
        simp [eq_comm]
      · rw [beq_false_of_ne hn]
        simp [Ne.symm hn]
    · intro i hi
      obtain rfl : i = 0 := by simpa using hi
      exact ⟨default, rfl, rfl, fun label => rfl⟩
    · exact fun i _ => ⟨rfl, rfl⟩
    · exact fun i hi => absurd hi (Nat.not_lt_zero i)
    · exact fun i _ => ⟨rfl, rfl⟩
  queue := rfl
  start := rfl
  discovered i node hi := by
    left
    have := (List.getElem?_eq_some_iff.mp hi).1
    simpa using this
  live node hn := by
    rw [List.mem_singleton.mp hn]
    exact ⟨hpos, hlt⟩

/-- The result for a node accepts the words of that node, with as few states as possible. -/
theorem materialize_spec {default_label : Label} {builder : Builder} {start : ℕ}
    (h : Sound default_label builder) (hlt : start < builder.nodes.length) :
    (∀ word, default_label ∉ word →
      (materialize builder start default_label).accepts default_label word =
        acceptsFrom builder.nodes start word) ∧
      ∀ other : DFA, other.start_state < other.states.length →
        (∀ word, default_label ∉ word →
          acceptsFrom builder.nodes start word = other.accepts default_label word) →
        (materialize builder start default_label).states.length ≤ other.states.length := by
  unfold materialize
  split_ifs with hz
  · subst hz
    refine ⟨fun word _ => ?_, fun other hstart _ => Nat.one_le_of_lt hstart⟩
    rw [DFA.new_accepts, h.canonical.acceptsFrom_zero]
  · obtain ⟨order, hm⟩ := materializeLoop_spec builder.nodes.length h.canonical
      (materializing_start default_label (Nat.pos_of_ne_zero hz) hlt) le_rfl
    refine ⟨fun word hword => hm.accepts h.canonical hm.start hword, ?_⟩
    exact fun other hstart hlang => hm.minimal h.canonical hstart hlang

/-! ## The whole construction -/

theorem NFA.acceptsFrom_lt {nfa : NFA} {default_label : Label} {state : ℕ} {word : List Label}
    (h : nfa.AcceptsFrom default_label state word) : state < nfa.states.length := by
  cases h with
  | accept hd => exact (List.getElem?_eq_some_iff.mp hd).1
  | epsilon hd => exact (List.getElem?_eq_some_iff.mp hd).1
  | explicit hd => exact (List.getElem?_eq_some_iff.mp hd).1
  | byDefault hd => exact (List.getElem?_eq_some_iff.mp hd).1

/-- A returned automaton accepts what the input accepts, and no automaton in which nonnegative
labels fall back to the default edge does so with fewer states. -/
theorem try_determinize_minimal_defaults_with_budget_correct {nfa : NFA} {default_label : Label}
    {node_budget depth_budget : ℕ} {dfa : DFA}
    (h : try_determinize_minimal_defaults_with_budget nfa default_label node_budget depth_budget =
      some dfa) :
    (∀ word, default_label ∉ word →
      (dfa.accepts default_label word = true ↔ nfa.Accepts default_label word)) ∧
      ∀ other : DFA, other.start_state < other.states.length →
        (∀ word, default_label ∉ word →
          (other.accepts default_label word = true ↔ nfa.Accepts default_label word)) →
        dfa.states.length ≤ other.states.length := by
  unfold try_determinize_minimal_defaults_with_budget at h
  split_ifs at h with hempty
  · obtain rfl := Option.some.inj h
    refine ⟨fun word _ => ?_, fun other hstart _ => Nat.one_le_of_lt hstart⟩
    rw [DFA.new_accepts]
    simp only [Bool.false_eq_true, false_iff]
    rintro ⟨state, hs, hacc⟩
    rw [Bool.or_eq_true, List.isEmpty_iff, List.isEmpty_iff] at hempty
    rcases hempty with he | he
    · have := NFA.acceptsFrom_lt hacc
      rw [he] at this
      exact absurd this (Nat.not_lt_zero _)
    · rw [he] at hs
      exact absurd hs List.not_mem_nil
  · simp only [Option.bind_eq_some_iff, Option.map_eq_some_iff] at h
    obtain ⟨order, horder, ⟨b, canonical⟩, hloop, ⟨b', start⟩, hunion, rfl⟩ := h
    obtain ⟨hmem, hbefore⟩ := reverse_topological_order_spec horder
    have hprogress := foldlM_visitState
      (progress_start nfa default_label node_budget depth_budget)
      (fun s hs => (hmem s).mp hs) (by simpa using hbefore) hloop
    rw [List.nil_append] at hprogress
    have hids : ∀ id ∈ nfa.start_states.map (fun state => (canonical[state]?).getD 0),
        id < b.nodes.length := by
      intro id hid
      obtain ⟨state, -, rfl⟩ := List.mem_map.mp hid
      exact hprogress.lt state
    obtain ⟨hg, hu⟩ := unionTop_spec default_label hprogress.sound hids hunion
    obtain ⟨hlang, hminimal⟩ := materialize_spec hg.sound hu.lt
    have hnfa : ∀ word, default_label ∉ word →
        (acceptsFrom b'.nodes start word = true ↔ nfa.Accepts default_label word) := by
      intro word hword
      have hvia : acceptsFrom b'.nodes start word = true ↔
          ViaTargets b.nodes canonical nfa.start_states word := by
        rw [hu.accepts, exists_mem_children, viaTargets_grown hprogress.sound hg hprogress.lt]
      rw [hvia]
      apply exists_congr
      intro state
      apply and_congr_right
      intro _
      by_cases hs : state < nfa.states.length
      · exact hprogress.accepts state ((hmem state).mpr hs) word hword
      · -- A start state that does not exist accepts nothing.
        have hlen : canonical.length = nfa.states.length := hprogress.length
        have hnone : canonical[state]? = none := List.getElem?_eq_none (by omega)
        rw [hnone, Option.getD_none, hprogress.sound.canonical.acceptsFrom_zero]
        simp only [Bool.false_eq_true, false_iff]
        exact fun hacc => hs (NFA.acceptsFrom_lt hacc)
    refine ⟨fun word hword => by rw [hlang word hword, hnfa word hword], ?_⟩
    intro other hstart hother
    apply hminimal other hstart
    intro word hword
    rw [Bool.eq_iff_iff, hnfa word hword, hother word hword]

/-- A default edge beside an explicit edge, a push label and an epsilon edge. -/
def pushNfa : NFA where
  states := [⟨false, SortedMap.ofList [(2147483646, [1]), (3, [2])], []⟩,
    ⟨false, SortedMap.ofList [(-7, [2])], [3]⟩, ⟨true, SortedMap.empty, []⟩,
    ⟨false, SortedMap.empty, []⟩]
  start_states := [0, 3]

def pushDfa : DFA where
  states := [⟨false, SortedMap.ofList [(3, 2), (2147483646, 1)]⟩,
    ⟨false, SortedMap.ofList [(-7, 3)]⟩, ⟨true, SortedMap.ofList [(-7, 3)]⟩,
    ⟨true, SortedMap.empty⟩]
  start_state := 0

theorem try_determinize_minimal_defaults_with_budget_pushNfa :
    try_determinize_minimal_defaults_with_budget pushNfa 2147483646 100 100 = some pushDfa ∧
      (∀ word, 2147483646 ∉ word →
        (pushDfa.accepts 2147483646 word = true ↔ pushNfa.Accepts 2147483646 word)) ∧
      ∀ other : DFA, other.start_state < other.states.length →
        (∀ word, 2147483646 ∉ word →
          (other.accepts 2147483646 word = true ↔ pushNfa.Accepts 2147483646 word)) →
        pushDfa.states.length ≤ other.states.length :=
  ⟨by decide +kernel, @try_determinize_minimal_defaults_with_budget_correct
    pushNfa 2147483646 100 100 pushDfa (by decide +kernel)⟩

end GlrMask
