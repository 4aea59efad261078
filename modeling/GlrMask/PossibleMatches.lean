import GlrMask.PrefixTreeLookup
import GlrMask.SortedMap
import GlrMask.TokenizerScan

/-!
# Possible matches

Which terminals can be matched while the tokens below a node of the prefix tree are
scanned from a state. Results are shared through caches keyed by the address of the node
and the states; a subtree on whose bytes a single state only loops is skipped, and states
without a future are dropped at every node.
-/

namespace GlrMask

abbrev PossibleMatchMap := SortedMap ℕ (Finset ℕ)

/-- The maximal ranges of a sorted list of ids. -/
def idRanges : List ℕ → List (ℕ × ℕ)
  | [] => []
  | id :: ids =>
      match idRanges ids with
      | [] => [(id, id)]
      | range :: ranges =>
          if range.1 = id + 1 then (id, range.2) :: ranges else (id, id) :: range :: ranges

def reachable_u32 (node : VocabPrefixTreeNode) : Finset ℕ :=
  (idRanges (node.reachable_token_ids.sort (· ≤ ·))).foldl
    (fun out range => out ∪ Finset.Icc (range.1 % 2 ^ 32) (range.2 % 2 ^ 32)) ∅

/-- Add ids to the entry of a terminal, which is created when it is missing. -/
def merge_token_ids (into : PossibleMatchMap) (terminal : ℕ) (other : Finset ℕ) :
    PossibleMatchMap :=
  into.insert terminal ((into.get terminal).getD ∅ ∪ other)

def merge_possible_match_maps (into other : PossibleMatchMap) : PossibleMatchMap :=
  other.entries.foldl (fun into entry => merge_token_ids into entry.1 entry.2) into

/-- The memory of a computer. `cache` holds results, the other tables hold what is asked
of the nodes and of the tokenizer. -/
structure PossibleMatchesComputer where
  cache : List ((ℕ × List ℕ) × PossibleMatchMap)
  reachable_cache : List (ℕ × Finset ℕ)
  self_loop_bytes : List (ℕ × U8Set)
  flat_transitions : List (Option (Byte → Option ℕ))

namespace PossibleMatchesComputer

section Scan

variable (tokenizer : Tokenizer) (canonical_state : Option (List ℕ))
  (address : VocabPrefixTreeNode → ℕ)

def new_with_canonical_state : PossibleMatchesComputer where
  cache := []
  reachable_cache := []
  self_loop_bytes := []
  flat_transitions := List.replicate tokenizer.num_states none

def scalar_deterministic_scan : Bool :=
  !tokenizer.has_epsilon_transitions || tokenizer.has_scalar_deterministic_dispatch

/-- `none` is the panic of an index beyond the physical states. -/
def fast_step (self : PossibleMatchesComputer) (state : ℕ) (byte : Byte) :
    Option (Option ℕ × PossibleMatchesComputer) :=
  match self.flat_transitions[state]? with
  | none => none
  | some (some row) => some (row byte, self)
  | some none =>
      let row := tokenizer.transition_row state
      some (row byte, { self with flat_transitions := self.flat_transitions.set state (some row) })

def reachable_for_node (self : PossibleMatchesComputer) (node : VocabPrefixTreeNode) :
    Finset ℕ × PossibleMatchesComputer :=
  match self.reachable_cache.lookup (address node) with
  | some reachable => (reachable, self)
  | none =>
      let reachable := reachable_u32 node
      (reachable, { self with reachable_cache := (address node, reachable) :: self.reachable_cache })

/-- The bytes of a mask of four words. -/
def fromWords (words : ByteMask) : U8Set := Finset.univ.filter fun byte => words.contains byte

def can_skip_self_loop_subtree (self : PossibleMatchesComputer) (node : VocabPrefixTreeNode)
    (tokenizer_state : ℕ) : Bool × PossibleMatchesComputer :=
  if scalar_deterministic_scan tokenizer then
    match self.self_loop_bytes.lookup tokenizer_state with
    | some bytes => (decide (fromWords node.subtree_bytes ⊆ bytes), self)
    | none =>
        let bytes := tokenizer.self_loop_bytes tokenizer_state
        (decide (fromWords node.subtree_bytes ⊆ bytes),
          { self with self_loop_bytes := (tokenizer_state, bytes) :: self.self_loop_bytes })
  else (false, self)

/-- Only a single state can be one whose subtree is skipped. -/
def skipSubtree (self : PossibleMatchesComputer) (node : VocabPrefixTreeNode)
    (current_states : List ℕ) : Bool × PossibleMatchesComputer :=
  match current_states with
  | [state] => can_skip_self_loop_subtree tokenizer self node state
  | _ => (false, self)

/-- One byte from the current states. -/
def advance (self : PossibleMatchesComputer) (states : List ℕ) (byte : Byte) :
    Option (List ℕ × PossibleMatchesComputer) :=
  if scalar_deterministic_scan tokenizer then
    match states with
    | [state] =>
        (fast_step tokenizer self state byte).map fun stepped => (stepped.1.toList, stepped.2)
    | states => some (tokenizer.step_all states byte, self)
  else some (tokenizer.step_all states byte, self)

/-- Add ids to every terminal that one of the states matches. -/
def addMatched (states : List ℕ) (ids : Finset ℕ) (result : PossibleMatchMap) :
    PossibleMatchMap :=
  states.foldl (fun result state =>
    ((tokenizer.matched_terminals state).sort (· ≤ ·)).foldl
      (fun result terminal => merge_token_ids result terminal ids) result) result

/-- The bytes of one segment; it is left when no state survives. -/
def consume (reachable : Finset ℕ) : List Byte → List ℕ → PossibleMatchMap →
    PossibleMatchesComputer → Option (List ℕ × PossibleMatchMap × PossibleMatchesComputer)
  | [], states, result, self => some (states, result, self)
  | byte :: bytes, states, result, self =>
      (advance tokenizer self states byte).bind fun advanced =>
        if advanced.1.isEmpty then some (advanced.1, result, advanced.2)
        else consume reachable bytes advanced.1 (addMatched tokenizer advanced.1 reachable result)
          advanced.2

/-- The states that go on behind a segment. -/
def settle (states : List ℕ) : List ℕ :=
  let live := states.filter fun state => !tokenizer.is_end state
  match canonical_state with
  | none => live
  | some map =>
      if live.isEmpty then live else sortDedup (live.map fun state => map[state]?.getD state)

mutual

def possible_matches_for_node_states : VocabPrefixTreeNode → List ℕ → PossibleMatchesComputer →
    Option (PossibleMatchMap × PossibleMatchesComputer)
  | .mk token_id has_token prefixBytes children ids bytes, tokenizer_states, self =>
      let cache_key :=
        (address (.mk token_id has_token prefixBytes children ids bytes), sortDedup tokenizer_states)
      match self.cache.lookup cache_key with
      | some cached => some (cached, self)
      | none =>
          let result :=
            if has_token then
              addMatched tokenizer (sortDedup tokenizer_states) {token_id % 2 ^ 32} SortedMap.empty
            else SortedMap.empty
          (possible_matches_for_children children prefixBytes.length (sortDedup tokenizer_states)
            result self).map fun r =>
              (r.1, { r.2 with cache := (cache_key, r.1) :: r.2.cache })

def possible_matches_for_children : List VocabPrefixTreeNode → ℕ → List ℕ → PossibleMatchMap →
    PossibleMatchesComputer → Option (PossibleMatchMap × PossibleMatchesComputer)
  | [], _, _, result, self => some (result, self)
  | child :: children, parent_prefix_len, tokenizer_states, result, self =>
      let reachable := reachable_for_node address self child
      (consume tokenizer reachable.1 (child.prefixBytes.drop parent_prefix_len) tokenizer_states
        result reachable.2).bind fun consumed =>
          let current_states := settle tokenizer canonical_state consumed.1
          if current_states.isEmpty then
            possible_matches_for_children children parent_prefix_len tokenizer_states consumed.2.1
              consumed.2.2
          else
            let skip := skipSubtree tokenizer consumed.2.2 child current_states
            if skip.1 then
              possible_matches_for_children children parent_prefix_len tokenizer_states consumed.2.1
                skip.2
            else
              (possible_matches_for_node_states child current_states skip.2).bind fun below =>
                possible_matches_for_children children parent_prefix_len tokenizer_states
                  (merge_possible_match_maps consumed.2.1 below.1) below.2

end

def possible_matches_for_node (self : PossibleMatchesComputer) (node : VocabPrefixTreeNode)
    (tokenizer_state : ℕ) : Option (PossibleMatchMap × PossibleMatchesComputer) :=
  possible_matches_for_node_states tokenizer canonical_state address node
    (tokenizer.execute_from_state_end_only [] tokenizer_state) self

def possible_matches_for_suffix_and_node (self : PossibleMatchesComputer) (suffix : List Byte)
    (node : VocabPrefixTreeNode) (tokenizer_state : ℕ) :
    Option (PossibleMatchMap × PossibleMatchesComputer) :=
  if suffix.isEmpty then
    possible_matches_for_node tokenizer canonical_state address self node tokenizer_state
  else
    let states := sortDedup (tokenizer.execute_from_state_end_only [] tokenizer_state)
    let reachable := reachable_for_node address self node
    (consume tokenizer reachable.1 suffix states SortedMap.empty reachable.2).bind fun consumed =>
      let states := settle tokenizer canonical_state consumed.1
      if states.isEmpty then some consumed.2
      else
        (possible_matches_for_node_states tokenizer canonical_state address node states
          consumed.2.2).map fun below =>
            (merge_possible_match_maps consumed.2.1 below.1, below.2)

/-- Queries one after another; the memory is handed on. -/
def runQueries : List (List Byte × VocabPrefixTreeNode × ℕ) → PossibleMatchesComputer →
    Option (List PossibleMatchMap × PossibleMatchesComputer)
  | [], self => some ([], self)
  | (suffix, node, state) :: queries, self =>
      (possible_matches_for_suffix_and_node tokenizer canonical_state address self suffix node
        state).bind fun answer =>
          (runQueries queries answer.2).map fun rest => (answer.1 :: rest.1, rest.2)

end Scan

end PossibleMatchesComputer

end GlrMask
