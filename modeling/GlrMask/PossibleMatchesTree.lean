import GlrMask.PossibleMatchesExact

/-!
# Possible matches over the tree

The result of a node is exact by induction on the tree: the bytes of an edge match for every
token below it, and what is computed, found in the cache or skipped below the child adds
what the bytes behind the edge match.
-/

namespace GlrMask

open TokenizerRows

namespace PossibleMatchesComputer

variable {T : Tokenizer} {canonical_state : Option (List ℕ)}
  {address : VocabPrefixTreeNode → ℕ} {root : VocabPrefixTreeNode}

/-- The tree that a computer works on: ids of 32 bits, and one address for one node. -/
structure Tree (address : VocabPrefixTreeNode → ℕ) (root : VocabPrefixTreeNode) : Prop where
  wf : Wf root
  ids : ∀ t ∈ root.tokens, t.1 < 2 ^ 32
  addresses : ∀ a ∈ root.nodes, ∀ b ∈ root.nodes, address a = address b → a = b

theorem mem_nodes_trans {a b c : VocabPrefixTreeNode} (ha : Wf a) (hab : b ∈ a.nodes)
    (hbc : c ∈ b.nodes) : c ∈ a.nodes := by
  induction ha with
  | mk _ _ _ _ _ _ ih =>
      rcases mem_nodes.mp hab with heq | ⟨child, hchild, hb⟩
      · rw [heq] at hbc
        exact hbc
      · exact mem_nodes.mpr (Or.inr ⟨child, hchild, ih child hchild hb⟩)

theorem Tree.child (h : Tree address root) {node child : VocabPrefixTreeNode}
    (hnode : node ∈ root.nodes) (hchild : child ∈ node.children) : child ∈ root.nodes :=
  mem_nodes_trans h.wf hnode
    (mem_nodes.mpr (Or.inr ⟨child, hchild, mem_nodes.mpr (Or.inl rfl)⟩))

theorem Tree.node_wf (h : Tree address root) {node : VocabPrefixTreeNode}
    (hnode : node ∈ root.nodes) : Wf node := (h.wf.mem_tokens_of_extends hnode).2.1

theorem Wf.mem_reachable {node : VocabPrefixTreeNode} (h : Wf node) {id : ℕ} :
    id ∈ node.reachable_token_ids ↔ ∃ bytes, (id, bytes) ∈ node.tokens := by
  cases h with
  | mk _ _ _ _ ids _ => exact ids id

theorem Tree.node_ids (h : Tree address root) {node : VocabPrefixTreeNode}
    (hnode : node ∈ root.nodes) : ∀ id ∈ node.reachable_token_ids, id < 2 ^ 32 := by
  intro id hid
  obtain ⟨-, hwf, htokens⟩ := h.wf.mem_tokens_of_extends hnode
  obtain ⟨bytes, hbytes⟩ := (Wf.mem_reachable hwf).mp hid
  exact h.ids _ ((htokens _).mp hbytes).1

theorem Tree.token_id_lt (h : Tree address root) {node : VocabPrefixTreeNode}
    (hnode : node ∈ root.nodes) (htoken : node.has_token = true) : node.token_id < 2 ^ 32 := by
  obtain ⟨-, -, htokens⟩ := h.wf.mem_tokens_of_extends hnode
  have hown : (node.token_id, node.prefixBytes) ∈ node.tokens :=
    mem_tokens.mpr (Or.inl ⟨htoken, rfl⟩)
  exact h.ids _ ((htokens _).mp hown).1

/-! ## One child -/

/-- What the tokens below a node match behind an edge. -/
def EdgeMatches (T : Tokenizer) (states : List ℕ) (edge : List Byte) (node : VocabPrefixTreeNode)
    (t id : ℕ) : Prop :=
  ∃ bytes, (id, bytes) ∈ node.tokens ∧
    Drives T states (edge ++ bytes.drop node.prefixBytes.length) t

/-- A match is one within the edge, or one behind it. -/
theorem edgeMatches_iff {states next : List ℕ} {edge : List Byte} {node : VocabPrefixTreeNode}
    (hwf : Wf node) (hfollows : Follows T states edge next) {t id : ℕ} :
    EdgeMatches T states edge node t id ↔
      id ∈ node.reachable_token_ids ∧ Drives T states edge t ∨ EdgeMatches T next [] node t id := by
  rw [Wf.mem_reachable hwf]
  unfold EdgeMatches
  simp only [hfollows.drives_append, List.nil_append]
  constructor
  · intro h
    obtain ⟨bytes, hbytes, hd | hd⟩ := h
    · exact Or.inl ⟨⟨bytes, hbytes⟩, hd⟩
    · exact Or.inr ⟨bytes, hbytes, hd⟩
  · intro h
    rcases h with ⟨⟨bytes, hbytes⟩, hd⟩ | ⟨bytes, hbytes, hd⟩
    · exact ⟨bytes, hbytes, Or.inl hd⟩
    · exact ⟨bytes, hbytes, Or.inr hd⟩

/-- The tokens behind a node are those behind the edges to its children. -/
theorem edgeMatches_node {states : List ℕ} {node : VocabPrefixTreeNode} (hwf : Wf node) {t id : ℕ} :
    EdgeMatches T states [] node t id ↔ ∃ c ∈ node.children,
      EdgeMatches T states (c.prefixBytes.drop node.prefixBytes.length) c t id := by
  have hsplit : ∀ c ∈ node.children, ∀ bytes, (id, bytes) ∈ c.tokens →
      bytes.drop node.prefixBytes.length =
        c.prefixBytes.drop node.prefixBytes.length ++ bytes.drop c.prefixBytes.length := by
    intro c hc bytes hbytes
    cases hwf with
    | mk children _ extend _ _ _ =>
        obtain ⟨rest, hrest⟩ := (children c hc).token_extends hbytes
        simp only at hrest
        rw [← hrest, List.drop_left, List.drop_append_of_le_length (extend c hc).2.le]
  constructor
  · intro h
    obtain ⟨bytes, hbytes, hd⟩ := h
    rcases mem_tokens.mp hbytes with ⟨-, heq⟩ | ⟨c, hc, hbytes⟩
    · obtain ⟨-, rfl⟩ := Prod.mk.inj heq
      rw [List.drop_length] at hd
      obtain ⟨p, hne, hp, -⟩ := hd
      exact absurd (List.prefix_nil.mp hp) hne
    · refine ⟨c, hc, bytes, hbytes, ?_⟩
      rw [← hsplit c hc bytes hbytes]
      exact hd
  · intro h
    obtain ⟨c, hc, bytes, hbytes, hd⟩ := h
    refine ⟨bytes, mem_tokens.mpr (Or.inr ⟨c, hc, hbytes⟩), ?_⟩
    rw [List.nil_append, hsplit c hc bytes hbytes]
    exact hd

theorem drives_settled {next settled : List ℕ} (h : Settled T next settled) {bytes : List Byte}
    {t : ℕ} : Drives T settled bytes t ↔ Drives T next bytes t := by
  unfold Drives
  apply exists_congr
  intro p
  apply and_congr_right
  intro hne
  rw [h.later p hne]

/-- A match at the end of the edge is a match within it. -/
theorem drives_of_settled_here {states next settled : List ℕ} {u : List Byte} (hu : u ≠ [])
    (hfollows : Follows T states u next) (h : Settled T next settled) {t : ℕ}
    (hm : T.Matches settled [] t) : Drives T states u t := by
  refine ⟨u, hu, List.prefix_rfl, ?_⟩
  have hend := hfollows.matches_append (w := []).mpr (h.here t hm)
  rw [List.append_nil] at hend
  exact hend

/-- Nothing is lost where a subtree is skipped. -/
theorem drives_of_skip {states next settled : List ℕ} {u : List Byte} (hu : u ≠ [])
    (hfollows : Follows T states u next) (h : Settled T next settled) {state : ℕ}
    (hstate : settled = [state]) (hscalar : scalar_deterministic_scan T = true)
    {child : VocabPrefixTreeNode} (hwf : Wf child)
    (hloops : ∀ byte, child.subtree_bytes.contains byte = true → byte ∈ T.self_loop_bytes state)
    {t id : ℕ} (hm : EdgeMatches T next [] child t id) :
    id ∈ child.reachable_token_ids ∧ Drives T states u t := by
  obtain ⟨bytes, hbytes, hd⟩ := hm
  refine ⟨(Wf.mem_reachable hwf).mpr ⟨bytes, hbytes⟩, ?_⟩
  rw [List.nil_append, ← drives_settled h, hstate] at hd
  obtain ⟨p, -, hp, hm⟩ := hd
  have hnone : T.epsilon_targets state = [] :=
    (h.flat hscalar state (by rw [hstate]; exact List.mem_cons_self)).2
  apply drives_of_settled_here hu hfollows h
  rw [hstate]
  apply matches_of_loops hnone _ hm
  intro b hb
  apply hloops
  cases hwf with
  | mk _ _ _ _ _ mask => exact (mask b).mpr ⟨_, hbytes, hp.subset hb⟩

/-! ## The recursion -/

/-- The answer for a node is exact from every set of states that is ready. -/
def Answers (T : Tokenizer) (canonical_state : Option (List ℕ))
    (address : VocabPrefixTreeNode → ℕ) (root node : VocabPrefixTreeNode) : Prop :=
  ∀ states self, Ready T states → Valid T address root self → ∃ map self',
    possible_matches_for_node_states T canonical_state address node states self =
        some (map, self') ∧ Valid T address root self' ∧ Exact T node states map

theorem exact_iff {node : VocabPrefixTreeNode} {states : List ℕ} {map : PossibleMatchMap} :
    Exact T node states map ↔ ∀ t id, id ∈ idsOf map t ↔ EdgeMatches T states [] node t id ∨
      node.has_token = true ∧ id = node.token_id ∧ ∃ q ∈ states, t ∈ T.matched_terminals q :=
  Iff.rfl

/-- What the call below an edge adds is already there or is what it should be. -/
theorem below_iff {states next settled : List ℕ} {edge : List Byte} (hedge : edge ≠ [])
    {node : VocabPrefixTreeNode} (hwf : Wf node) (hfollows : Follows T states edge next)
    (hsettled : Settled T next settled) {map : PossibleMatchMap} (hmap : Exact T node settled map)
    {t id : ℕ} :
    (id ∈ node.reachable_token_ids ∧ Drives T states edge t ∨ id ∈ idsOf map t) ↔
      EdgeMatches T states edge node t id := by
  have hlater : EdgeMatches T settled [] node t id ↔ EdgeMatches T next [] node t id := by
    unfold EdgeMatches
    simp only [drives_settled hsettled]
  rw [edgeMatches_iff hwf hfollows, exact_iff.mp hmap, hlater]
  constructor
  · intro h
    rcases h with h | h | ⟨htoken, rfl, q, hq, ht⟩
    · exact Or.inl h
    · exact Or.inr h
    · have hown : (node.token_id, node.prefixBytes) ∈ node.tokens :=
        mem_tokens.mpr (Or.inl ⟨htoken, rfl⟩)
      have hhere : T.Matches settled [] t := ⟨q, hq, q, Reads.done q, ht⟩
      exact Or.inl ⟨(Wf.mem_reachable hwf).mpr ⟨_, hown⟩,
        drives_of_settled_here hedge hfollows hsettled hhere⟩
  · intro h
    exact h.imp_right Or.inl

/-- Without a state that goes on, nothing is matched behind the edge. -/
theorem edge_only_iff {states next settled : List ℕ} {edge : List Byte}
    {node : VocabPrefixTreeNode} (hwf : Wf node) (hfollows : Follows T states edge next)
    (hsettled : Settled T next settled) (hdead : settled = []) {t id : ℕ} :
    id ∈ node.reachable_token_ids ∧ Drives T states edge t ↔ EdgeMatches T states edge node t id := by
  have hnone : ¬EdgeMatches T next [] node t id := by
    intro hm
    obtain ⟨bytes, -, hd⟩ := hm
    rw [← drives_settled hsettled, hdead] at hd
    obtain ⟨p, -, -, hm⟩ := hd
    exact not_matches_nil hm
  rw [edgeMatches_iff hwf hfollows, or_iff_left hnone]

theorem children_spec (htree : Tree address root) (hcanonical : Canonicalizes T canonical_state)
    {len : ℕ} {states : List ℕ} (hready : Ready T states) {children : List VocabPrefixTreeNode}
    (hnodes : ∀ c ∈ children, c ∈ root.nodes ∧ len < c.prefixBytes.length)
    (hanswers : ∀ c ∈ children, Answers T canonical_state address root c)
    (result : PossibleMatchMap) {self : PossibleMatchesComputer} (hv : Valid T address root self) :
    ∃ map self', possible_matches_for_children T canonical_state address children len states result
        self = some (map, self') ∧ Valid T address root self' ∧
      ∀ t id, id ∈ idsOf map t ↔
        id ∈ idsOf result t ∨
          ∃ c ∈ children, EdgeMatches T states (c.prefixBytes.drop len) c t id := by
  induction children generalizing result self with
  | nil =>
      refine ⟨result, self, ?_, hv, ?_⟩
      · rw [possible_matches_for_children]
      · intro t id
        simp
  | cons child children ih =>
      obtain ⟨hnode, hlen⟩ := hnodes child List.mem_cons_self
      have hwf := htree.node_wf hnode
      have hedge : child.prefixBytes.drop len ≠ [] := by
        rw [Ne, List.drop_eq_nil_iff]
        omega
      obtain ⟨hreachable, hv₁⟩ :=
        reachable_for_node_spec hv htree.addresses hnode (htree.node_ids hnode)
      obtain ⟨next, edge, self₂, hconsume, hv₂, hfollows, hids⟩ :=
        consume_spec (reachable_for_node address self child).1 (child.prefixBytes.drop len) result
          hv₁ hready
      replace hfollows := hfollows hedge
      rw [hreachable] at hids
      have hsettled := settle_spec hcanonical hedge hfollows hready
      obtain ⟨hv₃, hlooping⟩ := skipSubtree_spec hv₂ child (settle T canonical_state next)
      -- the rest of the children, after a map that holds the matches of this child
      have hrest : ∀ (added : PossibleMatchMap) (self₃ : PossibleMatchesComputer),
          Valid T address root self₃ →
          (∀ t id, id ∈ idsOf added t ↔ id ∈ idsOf result t ∨
            EdgeMatches T states (child.prefixBytes.drop len) child t id) →
          ∃ map self', possible_matches_for_children T canonical_state address children len states
              added self₃ = some (map, self') ∧ Valid T address root self' ∧
            ∀ t id, id ∈ idsOf map t ↔
              id ∈ idsOf result t ∨ ∃ c ∈ child :: children,
                EdgeMatches T states (c.prefixBytes.drop len) c t id := by
        intro added self₃ hv₃ hadded
        obtain ⟨map, self', hmap, hv', hmem⟩ := @ih
          (fun c hc => hnodes c (List.mem_cons_of_mem _ hc))
          (fun c hc => hanswers c (List.mem_cons_of_mem _ hc)) added self₃ hv₃
        refine ⟨map, self', hmap, hv', ?_⟩
        intro t id
        rw [hmem, hadded, List.exists_mem_cons_iff, or_assoc]
      rw [possible_matches_for_children, hconsume, Option.bind_some]
      simp only
      split_ifs with hempty hskip
      · apply hrest edge self₂ hv₂
        intro t id
        rw [hids, edge_only_iff hwf hfollows hsettled (List.isEmpty_iff.mp hempty)]
      · apply hrest edge _ hv₃
        intro t id
        obtain ⟨state, hstate, hscalar, hloops⟩ := hlooping hskip
        rw [hids, edgeMatches_iff hwf hfollows]
        apply or_congr_right
        constructor
        · intro hd
          exact Or.inl hd
        · intro hd
          rcases hd with hd | hd
          · exact hd
          · exact drives_of_skip hedge hfollows hsettled hstate hscalar hwf hloops hd
      · obtain ⟨below, self₄, hbelow, hv₄, hexact⟩ :=
          hanswers child List.mem_cons_self (settle T canonical_state next) _ hsettled.ready hv₃
        rw [hbelow, Option.bind_some]
        apply hrest _ self₄ hv₄
        intro t id
        rw [mem_merge_possible_match_maps, hids, or_assoc,
          below_iff hedge hwf hfollows hsettled hexact]

theorem answers_of_node (htree : Tree address root)
    (hcanonical : Canonicalizes T canonical_state) {node : VocabPrefixTreeNode}
    (hnode : node ∈ root.nodes) : Answers T canonical_state address root node := by
  have hwf := htree.node_wf hnode
  induction hwf with
  | @mk n children nonempty extend increasing ids bytes ih =>
      intro states self hready hv
      have hwf : Wf n := Wf.mk children nonempty extend increasing ids bytes
      have hnodes : ∀ c ∈ n.children, c ∈ root.nodes ∧ n.prefixBytes.length < c.prefixBytes.length :=
        fun c hc => ⟨htree.child hnode hc, (extend c hc).2⟩
      have hanswers : ∀ c ∈ n.children, Answers T canonical_state address root c :=
        fun c hc => ih c hc (hnodes c hc).1
      have hlt := htree.token_id_lt hnode
      have hready' : Ready T (sortDedup states) := by
        intro hscalar
        obtain ⟨hflat, hclosed⟩ := hready hscalar
        simp only [mem_sortDedup]
        exact ⟨hflat, hclosed⟩
      have hsame : ∀ {bytes t}, Drives T (sortDedup states) bytes t ↔ Drives T states bytes t := by
        intro bytes t
        simp only [Drives, Matches, mem_sortDedup]
      cases n with
      | mk token_id has_token prefixBytes kids reachable mask =>
          have hkids : ∀ c ∈ kids, c ∈ root.nodes ∧ prefixBytes.length < c.prefixBytes.length := hnodes
          rw [possible_matches_for_node_states]
          simp only
          split
          · rename_i map hlookup
            refine ⟨map, self, rfl, hv, ?_⟩
            have hexact := hv.cache _ hnode _ _ hlookup
            intro t id
            rw [hexact t id]
            simp only [hsame, mem_sortDedup]
          · obtain ⟨map, self', hmap, hv', hids⟩ :=
              children_spec htree hcanonical hready' hkids hanswers
                (if has_token then
                  addMatched T (sortDedup states) {token_id % 2 ^ 32} SortedMap.empty
                else SortedMap.empty) hv
            have hown : ∀ t id, id ∈ idsOf (if has_token then
                  addMatched T (sortDedup states) {token_id % 2 ^ 32} SortedMap.empty
                else SortedMap.empty) t ↔ has_token = true ∧ id = token_id ∧
                  ∃ q ∈ states, t ∈ T.matched_terminals q := by
              intro t id
              split_ifs with htoken
              · have hmod : token_id % 2 ^ 32 = token_id := Nat.mod_eq_of_lt (hlt htoken)
                rw [mem_addMatched, hmod, Finset.mem_singleton]
                simp [htoken]
              · simp [htoken]
            have hexact : Exact T (.mk token_id has_token prefixBytes kids reachable mask) states
                map := by
              rw [exact_iff]
              intro t id
              rw [hids, hown, edgeMatches_node hwf, or_comm]
              simp only [EdgeMatches, hsame]
              rfl
            refine ⟨map, _, by rw [hmap, Option.map_some], ?_, hexact⟩
            refine ⟨?_, hv'.reachable, hv'.loops, hv'.rows, hv'.row⟩
            intro other hother key map' hlookup
            rw [List.lookup_cons] at hlookup
            split at hlookup
            · rename_i heq
              obtain ⟨haddress, hkey⟩ := Prod.mk.inj (beq_iff_eq.mp heq)
              rw [htree.addresses other hother _ hnode haddress, hkey, ← Option.some.inj hlookup]
              intro t id
              rw [hexact t id]
              simp only [hsame, mem_sortDedup]
            · exact hv'.cache other hother key map' hlookup

/-! ## The queries -/

/-- The exact possible matches of a query: the tokens at or below the node for which some
bytes of the suffix and the rest of the token match, and the token at the node itself for
what matches without a byte when there is no suffix. -/
def Possible (T : Tokenizer) (suffix : List Byte) (node : VocabPrefixTreeNode) (state t id : ℕ) :
    Prop :=
  ∃ bytes, (id, bytes) ∈ node.tokens ∧
    (Drives T [state] (suffix ++ bytes.drop node.prefixBytes.length) t ∨
      suffix = [] ∧ bytes = node.prefixBytes ∧ T.Matches [state] [] t)

theorem follows_closure (state : ℕ) :
    Follows T [state] [] (T.execute_from_state_end_only [] state) := by
  intro p
  exact Tokenizer.mem_epsilon_closure_states

theorem Follows.ready_start {state : ℕ} {next : List ℕ} (hfollows : Follows T [state] [] next)
    (h : scalar_deterministic_scan T = true → ScalarFrom T state) : Ready T next := by
  intro hscalar
  refine ⟨?_, fun q hq p hp => hfollows.closed hq hp⟩
  intro q hq
  obtain ⟨s, hs, hreads⟩ := (hfollows q).mp hq
  rw [List.mem_singleton] at hs
  rw [hs] at hreads
  exact (h hscalar).of_reads hreads

theorem Follows.drives_start {state : ℕ} {next : List ℕ} (hfollows : Follows T [state] [] next)
    (bytes : List Byte) (t : ℕ) : Drives T next bytes t ↔ Drives T [state] bytes t := by
  unfold Drives
  simp only [← hfollows.matches_append, List.nil_append]

theorem possible_matches_for_node_spec (htree : Tree address root)
    (hcanonical : Canonicalizes T canonical_state) {node : VocabPrefixTreeNode}
    (hnode : node ∈ root.nodes) {self : PossibleMatchesComputer} (hv : Valid T address root self)
    {state : ℕ} (hstate : scalar_deterministic_scan T = true → ScalarFrom T state) :
    ∃ map self', possible_matches_for_node T canonical_state address self node state =
        some (map, self') ∧ Valid T address root self' ∧
      ∀ t id, id ∈ idsOf map t ↔ Possible T [] node state t id := by
  obtain ⟨map, self', hmap, hv', hexact⟩ :=
    answers_of_node htree hcanonical hnode _ self ((follows_closure state).ready_start hstate) hv
  refine ⟨map, self', hmap, hv', ?_⟩
  have hfollows := follows_closure (T := T) state
  have hnil : ∀ t, (∃ q ∈ T.execute_from_state_end_only [] state, t ∈ T.matched_terminals q) ↔
      T.Matches [state] [] t := by
    intro t
    rw [← hfollows.matches_nil, ← hfollows.matches_append, List.append_nil]
  intro t id
  rw [hexact t id, hnil]
  simp only [hfollows.drives_start]
  constructor
  · intro h
    rcases h with ⟨bytes, hbytes, hd⟩ | ⟨htoken, rfl, hm⟩
    · exact ⟨bytes, hbytes, Or.inl hd⟩
    · exact ⟨node.prefixBytes, mem_tokens.mpr (Or.inl ⟨htoken, rfl⟩), Or.inr ⟨rfl, rfl, hm⟩⟩
  · intro h
    obtain ⟨bytes, hbytes, hd | ⟨-, rfl, hm⟩⟩ := h
    · exact Or.inl ⟨bytes, hbytes, hd⟩
    · obtain ⟨htoken, hid⟩ := (htree.node_wf hnode).own_token.mp hbytes
      exact Or.inr ⟨htoken, hid.symm, hm⟩

theorem possible_matches_for_suffix_and_node_spec (htree : Tree address root)
    (hcanonical : Canonicalizes T canonical_state) {node : VocabPrefixTreeNode}
    (hnode : node ∈ root.nodes) {self : PossibleMatchesComputer} (hv : Valid T address root self)
    {state : ℕ} (hstate : scalar_deterministic_scan T = true → ScalarFrom T state)
    (suffix : List Byte) :
    ∃ map self', possible_matches_for_suffix_and_node T canonical_state address self suffix node
        state = some (map, self') ∧ Valid T address root self' ∧
      ∀ t id, id ∈ idsOf map t ↔ Possible T suffix node state t id := by
  unfold possible_matches_for_suffix_and_node
  split_ifs with hempty
  · rw [List.isEmpty_iff.mp hempty]
    exact possible_matches_for_node_spec htree hcanonical hnode hv hstate
  · have hsuffix : suffix ≠ [] := fun h => hempty (List.isEmpty_iff.mpr h)
    have hwf := htree.node_wf hnode
    have hstart : Follows T [state] [] (sortDedup (T.execute_from_state_end_only [] state)) := by
      intro p
      rw [mem_sortDedup]
      exact follows_closure state p
    have hready := hstart.ready_start hstate
    obtain ⟨hreachable, hv₁⟩ :=
      reachable_for_node_spec hv htree.addresses hnode (htree.node_ids hnode)
    obtain ⟨next, edge, self₂, hconsume, hv₂, hfollows, hids⟩ :=
      consume_spec (reachable_for_node address self node).1 suffix SortedMap.empty hv₁ hready
    replace hfollows := hfollows hsuffix
    rw [hreachable] at hids
    simp only [idsOf_empty, Finset.notMem_empty, false_or] at hids
    have hsettled := settle_spec hcanonical hsuffix hfollows hready
    have hpossible : ∀ t id, Possible T suffix node state t id ↔
        EdgeMatches T (sortDedup (T.execute_from_state_end_only [] state)) suffix node t id := by
      intro t id
      unfold Possible EdgeMatches
      simp only [hstart.drives_start, hsuffix, false_and, or_false]
    simp only
    rw [hconsume, Option.bind_some]
    simp only
    split_ifs with hdead
    · refine ⟨edge, self₂, rfl, hv₂, ?_⟩
      intro t id
      rw [hids, hpossible, edge_only_iff hwf hfollows hsettled (List.isEmpty_iff.mp hdead)]
    · obtain ⟨below, self₃, hbelow, hv₃, hexact⟩ :=
        answers_of_node htree hcanonical hnode _ self₂ hsettled.ready hv₂
      refine ⟨_, self₃, by rw [hbelow, Option.map_some], hv₃, ?_⟩
      intro t id
      rw [mem_merge_possible_match_maps, hids, hpossible,
        below_iff hsuffix hwf hfollows hsettled hexact]

theorem runQueries_spec (htree : Tree address root) (hcanonical : Canonicalizes T canonical_state)
    {queries : List (List Byte × VocabPrefixTreeNode × ℕ)}
    (hqueries : ∀ q ∈ queries, q.2.1 ∈ root.nodes ∧
      (scalar_deterministic_scan T = true → ScalarFrom T q.2.2))
    {self : PossibleMatchesComputer} (hv : Valid T address root self) :
    ∃ answers self', runQueries T canonical_state address queries self = some (answers, self') ∧
      List.Forall₂ (fun q map => ∀ t id, id ∈ idsOf map t ↔ Possible T q.1 q.2.1 q.2.2 t id)
        queries answers := by
  induction queries generalizing self with
  | nil => exact ⟨[], self, rfl, List.Forall₂.nil⟩
  | cons q queries ih =>
      obtain ⟨suffix, node, state⟩ := q
      obtain ⟨hnode, hstate⟩ := hqueries _ List.mem_cons_self
      obtain ⟨map, self₁, hmap, hv₁, hexact⟩ :=
        possible_matches_for_suffix_and_node_spec htree hcanonical hnode hv hstate suffix
      obtain ⟨answers, self₂, hrest, hall⟩ :=
        ih (fun q hq => hqueries q (List.mem_cons_of_mem _ hq)) hv₁
      refine ⟨map :: answers, self₂, ?_, List.Forall₂.cons hexact hall⟩
      rw [runQueries, hmap, Option.bind_some, hrest, Option.map_some]

end PossibleMatchesComputer

end GlrMask
