import GlrMask.PossibleMatchMaps

/-!
# The possible matches are exact

One step of the computer follows the transitions of the tokenizer, dropping dead states
and passing to equivalent ones loses no later match, and a subtree that is skipped can match
nothing new. So every answer, cached or computed, holds exactly the tokens that match.
-/

namespace GlrMask

open TokenizerRows

namespace PossibleMatchesComputer

variable (T : Tokenizer)

/-- Bytes lead from a state to physical states only, which have no epsilon transitions. -/
def ScalarFrom (state : ℕ) : Prop :=
  ∀ w last, T.Reads state w last → last < T.num_states ∧ (w ≠ [] → T.epsilon_targets last = [])

/-- Where rows are read directly, the states are closed and lead to flat states. -/
def Ready (states : List ℕ) : Prop :=
  scalar_deterministic_scan T = true →
    (∀ q ∈ states, ScalarFrom T q) ∧ ∀ q ∈ states, ∀ p, T.Reads q [] p → p ∈ states

/-- A canonical state matches what its state matches, and is as flat as it. -/
def Canonicalizes (canonical_state : Option (List ℕ)) : Prop :=
  ∀ map ∈ canonical_state, ∀ state,
    (∀ w t, T.Matches [map[state]?.getD state] w t ↔ T.Matches [state] w t) ∧
      (scalar_deterministic_scan T = true → T.epsilon_targets state = [] → ScalarFrom T state →
        T.epsilon_targets (map[state]?.getD state) = [] ∧ ScalarFrom T (map[state]?.getD state))

variable {T}

theorem ScalarFrom.of_reads {q p : ℕ} {w : List Byte} (h : ScalarFrom T q) (hreads : T.Reads q w p) :
    ScalarFrom T p := by
  intro v last hlast
  obtain ⟨hlt, hflat⟩ := h (w ++ v) last (hreads.append hlast)
  refine ⟨hlt, ?_⟩
  intro hne
  exact hflat fun hnil => hne (List.append_eq_nil_iff.mp hnil).2

/-! ## Matching a byte at a time -/

theorem not_matches_nil {w : List Byte} {t : ℕ} : ¬T.Matches [] w t := by
  intro hm
  obtain ⟨q, hq, -⟩ := hm
  exact absurd hq List.not_mem_nil

/-- The states are the ones that a word leads to. -/
def Follows (T : Tokenizer) (states : List ℕ) (w : List Byte) (next : List ℕ) : Prop :=
  ∀ p, p ∈ next ↔ ∃ q ∈ states, T.Reads q w p

theorem Follows.matches_append {states next : List ℕ} {u w : List Byte} {t : ℕ}
    (h : Follows T states u next) : T.Matches states (u ++ w) t ↔ T.Matches next w t := by
  constructor
  · intro hm
    obtain ⟨q, hq, last, hlast, ht⟩ := hm
    obtain ⟨m, hm, hrest⟩ := reads_append_iff.mp hlast
    exact ⟨m, (h m).mpr ⟨q, hq, hm⟩, last, hrest, ht⟩
  · intro hm
    obtain ⟨m, hm, last, hlast, ht⟩ := hm
    obtain ⟨q, hq, hreads⟩ := (h m).mp hm
    exact ⟨q, hq, last, hreads.append hlast, ht⟩

theorem Follows.trans {states next last : List ℕ} {u w : List Byte}
    (h : Follows T states u next) (h' : Follows T next w last) : Follows T states (u ++ w) last := by
  intro p
  rw [h' p]
  constructor
  · intro hp
    obtain ⟨m, hm, hreads⟩ := hp
    obtain ⟨q, hq, hfirst⟩ := (h m).mp hm
    exact ⟨q, hq, hfirst.append hreads⟩
  · intro hp
    obtain ⟨q, hq, hreads⟩ := hp
    obtain ⟨m, hm, hrest⟩ := reads_append_iff.mp hreads
    exact ⟨m, (h m).mpr ⟨q, hq, hm⟩, hrest⟩

/-- The states behind a word are closed under epsilon transitions. -/
theorem Follows.closed {states next : List ℕ} {u : List Byte} (h : Follows T states u next) {q p : ℕ}
    (hq : q ∈ next) (hreads : T.Reads q [] p) : p ∈ next := by
  obtain ⟨s, hs, hfirst⟩ := (h q).mp hq
  have happend := hfirst.append hreads
  rw [List.append_nil] at happend
  exact (h p).mpr ⟨s, hs, happend⟩

theorem Follows.matches_nil {states next : List ℕ} {u : List Byte} (h : Follows T states u next)
    {t : ℕ} : T.Matches next [] t ↔ ∃ q ∈ next, t ∈ T.matched_terminals q := by
  constructor
  · intro hm
    obtain ⟨q, hq, last, hlast, ht⟩ := hm
    exact ⟨last, h.closed hq hlast, ht⟩
  · intro hm
    obtain ⟨q, hq, ht⟩ := hm
    exact ⟨q, hq, q, Reads.done q, ht⟩

theorem Follows.ready {states next : List ℕ} {u : List Byte} (h : Follows T states u next)
    (hready : Ready T states) : Ready T next := by
  intro hscalar
  refine ⟨?_, fun q hq p hp => h.closed hq hp⟩
  intro p hp
  obtain ⟨q, hq, hreads⟩ := (h p).mp hp
  exact ((hready hscalar).1 q hq).of_reads hreads

/-- Some prefix of the bytes drives the states to a match. -/
def Drives (T : Tokenizer) (states : List ℕ) (bytes : List Byte) (t : ℕ) : Prop :=
  ∃ p, p ≠ [] ∧ p <+: bytes ∧ T.Matches states p t

theorem Follows.drives_append {states next : List ℕ} {u w : List Byte} {t : ℕ}
    (h : Follows T states u next) :
    Drives T states (u ++ w) t ↔ Drives T states u t ∨ Drives T next w t := by
  constructor
  · intro hd
    obtain ⟨p, hne, hp, hm⟩ := hd
    rcases List.prefix_or_prefix_of_prefix hp (List.prefix_append u w) with hp | ⟨v, rfl⟩
    · exact Or.inl ⟨p, hne, hp, hm⟩
    · have hv : v <+: w := (List.prefix_append_right_inj u).mp hp
      by_cases hnil : v = []
      · rw [hnil, List.append_nil] at hne hm
        exact Or.inl ⟨u, hne, List.prefix_rfl, hm⟩
      · exact Or.inr ⟨v, hnil, hv, h.matches_append.mp hm⟩
  · intro hd
    rcases hd with ⟨p, hne, hp, hm⟩ | ⟨v, hne, hv, hm⟩
    · exact ⟨p, hne, hp.trans (List.prefix_append u w), hm⟩
    · refine ⟨u ++ v, ?_, (List.prefix_append_right_inj u).mpr hv, h.matches_append.mpr hm⟩
      intro hnil
      exact hne (List.append_eq_nil_iff.mp hnil).2

/-! ## The memory -/

section Memory

variable {canonical_state : Option (List ℕ)} {address : VocabPrefixTreeNode → ℕ}
  {root : VocabPrefixTreeNode}

/-- The terminals of the tokens below a node, scanned from some states. -/
def Exact (T : Tokenizer) (node : VocabPrefixTreeNode) (states : List ℕ) (map : PossibleMatchMap) :
    Prop :=
  ∀ t id, id ∈ idsOf map t ↔
    (∃ bytes, (id, bytes) ∈ node.tokens ∧
      Drives T states (bytes.drop node.prefixBytes.length) t) ∨
    node.has_token = true ∧ id = node.token_id ∧ ∃ q ∈ states, t ∈ T.matched_terminals q

/-- Everything remembered is what would be computed. -/
structure Valid (T : Tokenizer) (address : VocabPrefixTreeNode → ℕ) (root : VocabPrefixTreeNode)
    (computer : PossibleMatchesComputer) : Prop where
  cache : ∀ node ∈ root.nodes, ∀ states map,
    computer.cache.lookup (address node, states) = some map → Exact T node states map
  reachable : ∀ node ∈ root.nodes, ∀ ids,
    computer.reachable_cache.lookup (address node) = some ids → ids = node.reachable_token_ids
  loops : ∀ state bytes, computer.self_loop_bytes.lookup state = some bytes →
    bytes = T.self_loop_bytes state
  rows : computer.flat_transitions.length = T.num_states
  row : ∀ state row, computer.flat_transitions[state]? = some (some row) →
    row = T.transition_row state

theorem valid_new : Valid T address root (new_with_canonical_state T) where
  cache _ _ _ _ h := by cases h
  reachable _ _ _ h := by cases h
  loops _ _ h := by cases h
  rows := List.length_replicate
  row state row h := by
    rw [new_with_canonical_state, List.getElem?_replicate] at h
    split_ifs at h
    cases h

theorem fast_step_spec {self : PossibleMatchesComputer} (hv : Valid T address root self) {state : ℕ}
    (hlt : state < T.num_states) (byte : Byte) :
    ∃ self', fast_step T self state byte = some (T.step state byte, self') ∧
      Valid T address root self' := by
  unfold fast_step
  have hrow := hv.rows
  split
  · rename_i hnone
    rw [List.getElem?_eq_none_iff] at hnone
    omega
  · rename_i row hsome
    refine ⟨self, ?_, hv⟩
    rw [hv.row state row hsome]
    rfl
  · refine ⟨_, rfl, hv.cache, hv.reachable, hv.loops, ?_, ?_⟩
    · exact List.length_set.trans hrow
    · intro other row hother
      rw [List.getElem?_set] at hother
      split_ifs at hother with heq hin
      · rw [← heq]
        exact (Option.some.inj (Option.some.inj hother)).symm
      · exact hv.row other row hother

theorem reachable_for_node_spec {self : PossibleMatchesComputer} (hv : Valid T address root self)
    (hinj : ∀ a ∈ root.nodes, ∀ b ∈ root.nodes, address a = address b → a = b)
    {node : VocabPrefixTreeNode} (hnode : node ∈ root.nodes)
    (hids : ∀ id ∈ node.reachable_token_ids, id < 2 ^ 32) :
    (reachable_for_node address self node).1 = node.reachable_token_ids ∧
      Valid T address root (reachable_for_node address self node).2 := by
  unfold reachable_for_node
  split
  · rename_i ids hlookup
    exact ⟨hv.reachable node hnode ids hlookup, hv⟩
  · refine ⟨reachable_u32_eq hids, hv.cache, ?_, hv.loops, hv.rows, hv.row⟩
    intro other hother ids hlookup
    rw [List.lookup_cons] at hlookup
    split at hlookup
    · rename_i heq
      rw [hinj other hother node hnode (beq_iff_eq.mp heq), ← Option.some.inj hlookup]
      exact reachable_u32_eq hids
    · exact hv.reachable other hother ids hlookup

theorem can_skip_spec {self : PossibleMatchesComputer} (hv : Valid T address root self)
    (node : VocabPrefixTreeNode) (state : ℕ) :
    Valid T address root (can_skip_self_loop_subtree T self node state).2 ∧
      ((can_skip_self_loop_subtree T self node state).1 = true →
        scalar_deterministic_scan T = true ∧
          ∀ byte, node.subtree_bytes.contains byte = true → byte ∈ T.self_loop_bytes state) := by
  have hsub : ∀ {bytes : U8Set}, decide (fromWords node.subtree_bytes ⊆ bytes) = true →
      ∀ byte, node.subtree_bytes.contains byte = true → byte ∈ bytes := by
    intro bytes hle byte hbyte
    apply of_decide_eq_true hle
    exact Finset.mem_filter.mpr ⟨Finset.mem_univ byte, hbyte⟩
  unfold can_skip_self_loop_subtree
  split_ifs with hscalar
  · split
    · rename_i bytes hlookup
      refine ⟨hv, fun hskip => ⟨hscalar, ?_⟩⟩
      rw [← hv.loops state bytes hlookup]
      exact hsub hskip
    · refine ⟨⟨hv.cache, hv.reachable, ?_, hv.rows, hv.row⟩, fun hskip => ⟨hscalar, hsub hskip⟩⟩
      intro other bytes hlookup
      rw [List.lookup_cons] at hlookup
      split at hlookup
      · rename_i heq
        rw [beq_iff_eq.mp heq, ← Option.some.inj hlookup]
      · exact hv.loops other bytes hlookup
  · exact ⟨hv, fun hskip => by cases hskip⟩

theorem skipSubtree_spec {self : PossibleMatchesComputer} (hv : Valid T address root self)
    (node : VocabPrefixTreeNode) (states : List ℕ) :
    Valid T address root (skipSubtree T self node states).2 ∧
      ((skipSubtree T self node states).1 = true → ∃ state, states = [state] ∧
        scalar_deterministic_scan T = true ∧
          ∀ byte, node.subtree_bytes.contains byte = true → byte ∈ T.self_loop_bytes state) := by
  unfold skipSubtree
  split
  · rename_i state
    obtain ⟨hvalid, hskip⟩ := can_skip_spec hv node state
    exact ⟨hvalid, fun h => ⟨state, rfl, hskip h⟩⟩
  · exact ⟨hv, fun h => by cases h⟩

/-! ## One segment -/

theorem advance_spec {self : PossibleMatchesComputer} (hv : Valid T address root self)
    {states : List ℕ} (hready : Ready T states) (byte : Byte) :
    ∃ next self', advance T self states byte = some (next, self') ∧ Valid T address root self' ∧
      Follows T states [byte] next := by
  have hall : ∃ next self', some (T.step_all states byte, self) = some (next, self') ∧
      Valid T address root self' ∧ Follows T states [byte] next :=
    ⟨_, _, rfl, hv, fun _ => Tokenizer.mem_step_all⟩
  unfold advance
  split_ifs with hscalar
  · split
    · rename_i state
      obtain ⟨hflat, hclosed⟩ := hready hscalar
      have hstate := hflat state List.mem_cons_self
      obtain ⟨self', hstep, hv'⟩ :=
        fast_step_spec hv (hstate [] state (Reads.done state)).1 byte
      refine ⟨_, self', by rw [hstep, Option.map_some], hv', ?_⟩
      intro p
      simp only [Option.mem_toList, List.mem_singleton, exists_eq_left]
      constructor
      · intro hp
        exact Reads.byte hp (Reads.done p)
      · intro hreads
        obtain ⟨m, t, hm, ht, hlast⟩ := reads_singleton_iff.mp hreads
        have hm : m = state :=
          List.mem_singleton.mp (hclosed state List.mem_cons_self m hm)
        rw [hm] at ht
        have hnone := (hstate [byte] t (Reads.byte ht (Reads.done t))).2 (List.cons_ne_nil _ _)
        rw [Tokenizer.eq_of_reads_nil hnone hlast]
        exact ht
    · exact hall
  · exact hall

theorem consume_spec (reachable : Finset ℕ) (bytes : List Byte) {states : List ℕ}
    (result : PossibleMatchMap) {self : PossibleMatchesComputer}
    (hv : Valid T address root self) (hready : Ready T states) :
    ∃ next result' self', consume T reachable bytes states result self =
        some (next, result', self') ∧ Valid T address root self' ∧
      (bytes ≠ [] → Follows T states bytes next) ∧
      ∀ t id, id ∈ idsOf result' t ↔
        id ∈ idsOf result t ∨ id ∈ reachable ∧ Drives T states bytes t := by
  induction bytes generalizing states result self with
  | nil =>
      refine ⟨states, result, self, rfl, hv, fun h => absurd rfl h, ?_⟩
      intro t id
      have hnone : ¬Drives T states [] t := by
        intro hd
        obtain ⟨p, hne, hp, -⟩ := hd
        exact hne (List.prefix_nil.mp hp)
      rw [or_iff_left fun h => hnone h.2]
  | cons byte bytes ih =>
      obtain ⟨next, self', hadvance, hv', hfollows⟩ := advance_spec hv hready byte
      have hone : ∀ t, Drives T states [byte] t ↔ ∃ q ∈ next, t ∈ T.matched_terminals q := by
        intro t
        rw [← hfollows.matches_nil, ← hfollows.matches_append, List.append_nil]
        constructor
        · intro hd
          obtain ⟨p, hne, hp, hm⟩ := hd
          rcases List.prefix_cons_iff.mp hp with hnil | ⟨v, rfl, hv⟩
          · exact absurd hnil hne
          · rw [List.prefix_nil.mp hv] at hm
            exact hm
        · intro hm
          exact ⟨[byte], List.cons_ne_nil _ _, List.prefix_rfl, hm⟩
      have hsplit : ∀ t, Drives T states (byte :: bytes) t ↔
          Drives T states [byte] t ∨ Drives T next bytes t :=
        fun t => hfollows.drives_append
      rw [consume, hadvance, Option.bind_some]
      simp only
      split_ifs with hempty
      · rw [List.isEmpty_iff] at hempty
        rw [hempty] at hfollows hone hsplit ⊢
        refine ⟨[], result, self', rfl, hv', ?_, ?_⟩
        · intro _ p
          constructor
          · intro hp
            exact absurd hp List.not_mem_nil
          · intro hp
            obtain ⟨q, hq, hreads⟩ := hp
            obtain ⟨m, hm, -⟩ :=
              reads_append_iff.mp (show T.Reads q ([byte] ++ bytes) p from hreads)
            exact absurd ((hfollows m).mpr ⟨q, hq, hm⟩) List.not_mem_nil
        · intro t id
          have hnone : ¬Drives T states (byte :: bytes) t := by
            rw [hsplit, hone]
            intro hd
            rcases hd with ⟨q, hq, -⟩ | ⟨p, -, -, hm⟩
            · exact absurd hq List.not_mem_nil
            · exact not_matches_nil hm
          rw [or_iff_left fun h => hnone h.2]
      · obtain ⟨last, result', self'', hconsume, hv'', hlast, hids⟩ :=
          ih (addMatched T next reachable result) hv' (hfollows.ready hready)
        refine ⟨last, result', self'', hconsume, hv'', ?_, ?_⟩
        · intro _
          cases bytes with
          | nil =>
              obtain ⟨rfl, -⟩ := Prod.mk.inj (Option.some.inj hconsume)
              exact hfollows
          | cons b bytes => exact hfollows.trans (hlast (List.cons_ne_nil _ _))
        · intro t id
          rw [hids, mem_addMatched, hsplit, hone, or_assoc, ← and_or_left]

/-! ## Between segments -/

/-- A state without a future matches nothing on a word that is not empty. -/
theorem not_matches_of_is_end {q : ℕ} (h : T.is_end q = true) {w : List Byte} (hw : w ≠ []) {t : ℕ} :
    ¬T.Matches [q] w t := by
  intro hm
  have hfuture := T.futures hw hm
  rw [Tokenizer.is_end, beq_iff_eq, Finset.card_eq_zero] at h
  rw [h] at hfuture
  exact absurd hfuture (Finset.notMem_empty t)

theorem matches_mono {states others : List ℕ} (h : ∀ q ∈ states, q ∈ others) {w : List Byte} {t : ℕ}
    (hm : T.Matches states w t) : T.Matches others w t := by
  obtain ⟨q, hq, hlast⟩ := hm
  exact ⟨q, h q hq, hlast⟩

/-- What settling keeps of the states behind a word. -/
structure Settled (T : Tokenizer) (next settled : List ℕ) : Prop where
  later : ∀ w, w ≠ [] → ∀ t, T.Matches settled w t ↔ T.Matches next w t
  here : ∀ t, T.Matches settled [] t → T.Matches next [] t
  flat : scalar_deterministic_scan T = true →
    ∀ q ∈ settled, ScalarFrom T q ∧ T.epsilon_targets q = []

theorem Settled.ready {next settled : List ℕ} (h : Settled T next settled) : Ready T settled := by
  intro hscalar
  refine ⟨fun q hq => (h.flat hscalar q hq).1, ?_⟩
  intro q hq p hp
  rw [Tokenizer.eq_of_reads_nil (h.flat hscalar q hq).2 hp]
  exact hq

theorem settled_live {states next : List ℕ} {u : List Byte} (hu : u ≠ [])
    (hfollows : Follows T states u next) (hready : Ready T states) :
    Settled T next (next.filter fun state => !T.is_end state) where
  later w hw t := by
    constructor
    · exact matches_mono fun q hq => (List.mem_filter.mp hq).1
    · intro hm
      obtain ⟨q, hq, hlast⟩ := hm
      refine ⟨q, List.mem_filter.mpr ⟨hq, ?_⟩, hlast⟩
      rw [Bool.not_eq_true', Bool.eq_false_iff]
      intro hend
      exact not_matches_of_is_end hend hw ⟨q, List.mem_cons_self, hlast⟩
  here t := matches_mono fun q hq => (List.mem_filter.mp hq).1
  flat hscalar q hq := by
    obtain ⟨s, hs, hreads⟩ := (hfollows q).mp (List.mem_filter.mp hq).1
    have hscalarFrom := (hready hscalar).1 s hs
    exact ⟨hscalarFrom.of_reads hreads, (hscalarFrom u q hreads).2 hu⟩

theorem settle_spec (hcanonical : Canonicalizes T canonical_state) {states next : List ℕ}
    {u : List Byte} (hu : u ≠ []) (hfollows : Follows T states u next) (hready : Ready T states) :
    Settled T next (settle T canonical_state next) := by
  have hlive := settled_live hu hfollows hready
  unfold settle
  simp only
  split
  · exact hlive
  · rename_i map
    split_ifs with hempty
    · exact hlive
    · have hsame : ∀ w t, T.Matches (sortDedup ((next.filter fun state => !T.is_end state).map
          fun state => map[state]?.getD state)) w t ↔
            T.Matches (next.filter fun state => !T.is_end state) w t := by
        intro w t
        rw [matches_iff_singleton, matches_iff_singleton]
        simp only [mem_sortDedup, List.mem_map, exists_exists_and_eq_and]
        apply exists_congr
        intro q
        rw [(hcanonical map rfl q).1]
      constructor
      · intro w hw t
        rw [hsame, hlive.later w hw]
      · intro t hm
        exact hlive.here t ((hsame [] t).mp hm)
      · intro hscalar q hq
        obtain ⟨s, hs, rfl⟩ := List.mem_map.mp (mem_sortDedup.mp hq)
        obtain ⟨hfrom, hnone⟩ := hlive.flat hscalar s hs
        exact ((hcanonical map rfl s).2 hscalar hnone hfrom).symm

/-- Where a single state only loops, the bytes below match what the state matches. -/
theorem matches_of_loops {state : ℕ} (hnone : T.epsilon_targets state = []) {w : List Byte} {t : ℕ}
    (hloops : ∀ b ∈ w, b ∈ T.self_loop_bytes state) (hm : T.Matches [state] w t) :
    T.Matches [state] [] t := by
  obtain ⟨q, hq, last, hlast, ht⟩ := hm
  rw [List.mem_singleton] at hq
  rw [hq] at hlast
  rw [Tokenizer.eq_of_reads_loops hnone hloops hlast] at ht
  exact ⟨state, List.mem_cons_self, state, Reads.done state, ht⟩

end Memory

end PossibleMatchesComputer

end GlrMask
