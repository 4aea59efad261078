import Mathlib
import GlrMask.PossibleMatchesTree

/-!
# Where rows may be read

A tokenizer without epsilon transitions, or one whose only epsilon transitions fan out
from the reset state, is scanned by its transition rows. Everything that is reached from
the reset state then stays flat; on a state that bytes take back to an epsilon transition
the scan would lose the closure, and a virtual state has no row.
-/

namespace GlrMask

open TokenizerRows

namespace PossibleMatchesComputer

variable {T : Tokenizer} {canonical_state : Option (List ℕ)}
  {address : VocabPrefixTreeNode → ℕ} {root : VocabPrefixTreeNode}

/-- A tokenizer without virtual runtimes. -/
def Physical (T : Tokenizer) : Prop :=
  T.start_state < T.num_states ∧ ∀ s b t, T.step s b = some t → t < T.num_states

theorem Physical.reads_lt (h : Physical T) {q p : ℕ} {w : List Byte} (hq : q < T.num_states)
    (hreads : T.Reads q w p) : p < T.num_states := by
  induction hreads with
  | done => exact hq
  | byte hstep _ ih => exact ih (h.2 _ _ _ hstep)
  | epsilon hstep _ ih => exact ih (T.epsilon_lt hstep).2

theorem scalarFrom_of_no_epsilon (h : Physical T) (hnone : T.has_epsilon_transitions = false)
    {state : ℕ} (hstate : state < T.num_states) : ScalarFrom T state := by
  intro w last hreads
  have hlt := h.reads_lt hstate hreads
  refine ⟨hlt, fun _ => ?_⟩
  apply Tokenizer.not_has_epsilon
  rw [Bool.eq_false_iff]
  intro hepsilon
  rw [Tokenizer.has_epsilon_transitions, List.any_eq_false] at hnone
  exact hnone last (List.mem_range.mpr hlt) hepsilon

/-- A state on a byte path from a dispatch root. -/
def Dispatched (T : Tokenizer) (roots : List ℕ) (state : ℕ) : Prop :=
  ∃ root ∈ roots, Relation.ReflTransGen
    (fun s t => t ∈ (T.transitions_from s).map Prod.snd) root state

theorem dispatch_flat {roots : List ℕ} (hroots : T.deterministic_dispatch_roots = some roots)
    (hscalar : T.has_scalar_deterministic_dispatch = true) {state : ℕ}
    (h : Dispatched T roots state) : state < T.num_states ∧ T.epsilon_targets state = [] := by
  obtain ⟨root, hroot, hreach⟩ := h
  rw [Tokenizer.has_scalar_deterministic_dispatch, hroots] at hscalar
  obtain ⟨hlt, hflat⟩ := StackSearch.allReached_sound hscalar
    (fun s hs => absurd hs (Finset.notMem_empty s)) (fun s hs => absurd hs (Finset.notMem_empty s))
    (Or.inr (List.mem_reverse.mpr hroot)) hreach
  exact ⟨Finset.mem_range.mp hlt,
    Tokenizer.not_has_epsilon (by simpa using hflat)⟩

theorem dispatched_of_reads {roots : List ℕ}
    (hroots : T.deterministic_dispatch_roots = some roots)
    (hscalar : T.has_scalar_deterministic_dispatch = true) {q p : ℕ} {w : List Byte}
    (hq : Dispatched T roots q) (hreads : T.Reads q w p) : Dispatched T roots p := by
  induction hreads with
  | done => exact hq
  | byte hstep _ ih =>
      obtain ⟨root, hroot, hreach⟩ := hq
      exact ih ⟨root, hroot, hreach.tail
        (List.mem_map.mpr ⟨_, Tokenizer.mem_transitions_from.mpr hstep, rfl⟩)⟩
  | epsilon hstep _ _ =>
      rw [(dispatch_flat hroots hscalar hq).2] at hstep
      exact absurd hstep List.not_mem_nil

/-- From the reset state the bytes lead into the components of the dispatch roots. -/
theorem reads_from_reset {roots : List ℕ}
    (hroots : T.deterministic_dispatch_roots = some roots)
    (hscalar : T.has_scalar_deterministic_dispatch = true) {p : ℕ} {w : List Byte}
    (hreads : T.Reads T.start_state w p) :
    (p = T.start_state ∧ w = []) ∨ Dispatched T roots p := by
  have hshape : roots = T.epsilon_targets T.start_state ∧ T.transitions_from T.start_state = [] := by
    unfold Tokenizer.deterministic_dispatch_roots at hroots
    simp only at hroots
    split_ifs at hroots with hrefused hepsilon
    rw [Bool.or_eq_true, not_or] at hrefused
    exact ⟨(Option.some.inj hroots).symm, by simpa using hrefused.2⟩
  generalize hstart : T.start_state = q at hreads
  cases hreads with
  | done => exact Or.inl ⟨rfl, rfl⟩
  | @byte _ next _ b _ hstep _ =>
      rw [← hstart, ← Tokenizer.mem_transitions_from, hshape.2] at hstep
      exact absurd hstep List.not_mem_nil
  | @epsilon _ next _ _ hstep hrest =>
      right
      apply dispatched_of_reads hroots hscalar _ hrest
      rw [← hstart, ← hshape.1] at hstep
      exact ⟨next, hstep, Relation.ReflTransGen.refl⟩

/-- Rows may be read directly from everything that is reached from the reset state. -/
theorem scalarFrom_of_reached (h : Physical T) {state : ℕ} {w : List Byte}
    (hreached : T.Reads T.start_state w state) (hscan : scalar_deterministic_scan T = true) :
    ScalarFrom T state := by
  rw [scalar_deterministic_scan, Bool.or_eq_true] at hscan
  rcases hscan with hnone | hscalar
  · exact scalarFrom_of_no_epsilon h (by simpa using hnone) (h.reads_lt h.1 hreached)
  · cases hroots : T.deterministic_dispatch_roots with
    | none =>
        rw [Tokenizer.has_scalar_deterministic_dispatch, hroots] at hscalar
        cases hscalar
    | some roots =>
        intro v last hlast
        have hlt := h.reads_lt (h.reads_lt h.1 hreached) hlast
        refine ⟨hlt, ?_⟩
        intro hv
        rcases reads_from_reset hroots hscalar (hreached.append hlast) with ⟨-, hnil⟩ | hdispatched
        · exact absurd (List.append_eq_nil_iff.mp hnil).2 hv
        · exact (dispatch_flat hroots hscalar hdispatched).2

/-- The computer answers every sequence of queries exactly, whatever its memory holds from
the earlier ones; and in a tokenizer without virtual runtimes the condition on the states
holds of everything that is reached from the reset state. -/
theorem possible_matches_exact (htree : Tree address root)
    (hcanonical : Canonicalizes T canonical_state)
    {queries : List (List Byte × VocabPrefixTreeNode × ℕ)}
    (hqueries : ∀ q ∈ queries, q.2.1 ∈ root.nodes ∧
      (scalar_deterministic_scan T = true → ScalarFrom T q.2.2)) :
    (∃ answers self, runQueries T canonical_state address queries (new_with_canonical_state T) =
        some (answers, self) ∧
      List.Forall₂ (fun q map => ∀ t id, id ∈ idsOf map t ↔ Possible T q.1 q.2.1 q.2.2 t id)
        queries answers) ∧
    (Physical T → ∀ w state, T.Reads T.start_state w state →
      scalar_deterministic_scan T = true → ScalarFrom T state) :=
  ⟨runQueries_spec htree hcanonical hqueries valid_new,
    fun h _ _ hreached hscan => scalarFrom_of_reached h hreached hscan⟩

/-! ## Two tokenizers -/

/-- A tree of the empty token. -/
def emptyTokenTree : VocabPrefixTreeNode := .mk 0 true [] [] {0} fun _ => 0#64

theorem emptyTokenTree_tree : Tree (fun _ => 0) emptyTokenTree := by
  have htokens : emptyTokenTree.tokens = [(0, [])] := rfl
  have hnodes : emptyTokenTree.nodes = [emptyTokenTree] := rfl
  refine ⟨Wf.mk ?_ ?_ ?_ List.Pairwise.nil ?_ ?_, ?_, ?_⟩
  · exact fun c hc => absurd hc List.not_mem_nil
  · exact fun c hc => absurd hc List.not_mem_nil
  · exact fun c hc => absurd hc List.not_mem_nil
  · intro id
    rw [htokens]
    simp [emptyTokenTree, VocabPrefixTreeNode.reachable_token_ids]
  · intro byte
    rw [htokens]
    simp [emptyTokenTree, VocabPrefixTreeNode.subtree_bytes, ByteMask.contains,
      VocabPrefixTreeNode.prefixBytes]
  · intro t ht
    rw [htokens, List.mem_singleton] at ht
    rw [ht]
    decide
  · intro a ha b hb _
    rw [hnodes, List.mem_singleton] at ha hb
    rw [ha, hb]

/-- A unit repetition of `a` beside one physical state, as a virtual runtime steps it. -/
def repeatTokenizer : Tokenizer where
  num_states := 1
  start_state := 0
  step state byte := if byte = 97 ∧ state < 2 then some (state + 1) else none
  epsilon_targets _ := []
  matched_terminals state := if state = 0 then ∅ else {0}
  possible_future_terminals _ := {0}
  epsilon_lt h := absurd h List.not_mem_nil
  futures := by
    intro state w terminal _ hm
    obtain ⟨-, -, last, -, ht⟩ := hm
    simp only at ht
    split_ifs at ht
    · exact absurd ht (Finset.notMem_empty _)
    · exact ht

/-- Two components behind the reset state, and a state 3 outside them whose byte leads back
to it. -/
def dispatchTokenizer : Tokenizer where
  num_states := 5
  start_state := 0
  step state byte :=
    if state = 3 ∧ byte = 97 then some 0 else if state = 1 ∧ byte = 98 then some 4 else none
  epsilon_targets state := if state = 0 then [1, 2] else []
  matched_terminals state := if state = 4 then {0} else ∅
  possible_future_terminals _ := {0}
  epsilon_lt := by
    intro state target h
    split_ifs at h with hstate
    · simp only [List.mem_cons, List.not_mem_nil, or_false] at h
      omega
    · exact absurd h List.not_mem_nil
  futures := by
    intro state w terminal _ hm
    obtain ⟨-, -, last, -, ht⟩ := hm
    simp only at ht
    split_ifs at ht
    · exact ht
    · exact absurd ht (Finset.notMem_empty _)

theorem dispatchTokenizer_scalar : scalar_deterministic_scan dispatchTokenizer = true := by
  have hroots : dispatchTokenizer.deterministic_dispatch_roots = some [1, 2] := by decide +kernel
  rw [scalar_deterministic_scan, Tokenizer.has_scalar_deterministic_dispatch, hroots,
    Bool.or_eq_true]
  right
  simp only [List.reverse_cons, List.reverse_nil, List.nil_append, List.cons_append]
  generalize hsucc : (fun state => (dispatchTokenizer.transitions_from state).map Prod.snd) = succ
  have hone : succ 1 = [4] := by
    rw [← hsucc]
    decide +kernel
  have htwo : succ 2 = [] := by
    rw [← hsucc]
    decide +kernel
  have hfour : succ 4 = [] := by
    rw [← hsucc]
    decide +kernel
  rw [StackSearch.allReached, dif_pos (by decide), dif_neg (by decide), if_pos (by decide), htwo,
    List.reverse_nil, List.nil_append, StackSearch.allReached, dif_pos (by decide),
    dif_neg (by decide), if_pos (by decide), hone, List.append_nil, List.reverse_singleton,
    StackSearch.allReached, dif_pos (by decide), dif_neg (by decide), if_pos (by decide), hfour,
    List.reverse_nil, List.append_nil, StackSearch.allReached]

theorem dispatchTokenizer_reads : dispatchTokenizer.Reads 0 [98] 4 :=
  Reads.epsilon (show 1 ∈ [1, 2] from List.mem_cons_self) (Reads.byte rfl (Reads.done 4))

theorem possible_matches_exact_from_reset :
    ∃ answer self, runQueries dispatchTokenizer none (fun _ => 0) [([98], emptyTokenTree, 0)]
        (new_with_canonical_state dispatchTokenizer) = some ([answer], self) ∧
      0 ∈ idsOf answer 0 := by
  have hphysical : Physical dispatchTokenizer := by
    refine ⟨by decide, ?_⟩
    intro s b t h
    simp only [dispatchTokenizer] at h
    split_ifs at h
    · cases h
      decide
    · cases h
      decide
  have hquery : ∀ q ∈ [(([98] : List Byte), emptyTokenTree, 0)], q.2.1 ∈ emptyTokenTree.nodes ∧
      (scalar_deterministic_scan dispatchTokenizer = true →
        ScalarFrom dispatchTokenizer q.2.2) := by
    intro q hq
    rw [List.mem_singleton.mp hq]
    exact ⟨mem_nodes.mpr (Or.inl rfl), scalarFrom_of_reached hphysical (Reads.done 0)⟩
  obtain ⟨answers, self, hrun, hall⟩ :=
    (possible_matches_exact emptyTokenTree_tree
      (show Canonicalizes dispatchTokenizer none from fun _ h => nomatch h) hquery).1
  cases hall with
  | @cons _ answer _ rest hexact hnil =>
      cases hnil
      refine ⟨answer, self, hrun, (hexact 0 0).mpr ⟨[], List.mem_cons_self, Or.inl ?_⟩⟩
      exact ⟨[98], List.cons_ne_nil _ _, List.prefix_rfl, 0, List.mem_cons_self, 4,
        dispatchTokenizer_reads, List.mem_singleton_self 0⟩

/-- From the state outside the components the closure of the reset state is lost, and the row
of a virtual state is not there to be read. -/
theorem possible_matches_of_unreached_state :
    ((possible_matches_for_suffix_and_node dispatchTokenizer none (fun _ => 0)
        (new_with_canonical_state dispatchTokenizer) [97, 98] emptyTokenTree 3).map Prod.fst =
        some SortedMap.empty ∧
      Possible dispatchTokenizer [97, 98] emptyTokenTree 3 0 0) ∧
    possible_matches_for_suffix_and_node repeatTokenizer none (fun _ => 0)
      (new_with_canonical_state repeatTokenizer) [97, 97] emptyTokenTree 0 = none := by
  have hscalar := dispatchTokenizer_scalar
  have hreads : dispatchTokenizer.Reads 3 [97, 98] 4 := Reads.byte rfl dispatchTokenizer_reads
  refine ⟨⟨?_, ?_⟩, rfl⟩
  · rw [possible_matches_for_suffix_and_node, if_neg (by decide)]
    simp only [consume, advance, hscalar, if_true]
    decide +kernel
  · exact ⟨[], List.mem_cons_self, Or.inl ⟨[97, 98], List.cons_ne_nil _ _, List.prefix_rfl, 3,
      List.mem_cons_self, 4, hreads, List.mem_singleton_self 0⟩⟩

end PossibleMatchesComputer

end GlrMask
