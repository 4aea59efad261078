import Mathlib.Data.Finset.Sort
import Mathlib.Data.Prod.Lex
import GlrMask.SortedMap
import GlrMask.Vectors

/-!
# Terminal exclusions of a parser path

A set of pairs of a tokenizer state and a terminal. Up to four pairs are stored in
the value itself, sorted and without repetition; more of them live in a shared map
from states to terminal sets.
-/

namespace GlrMask

def INLINE_PAIR_CAPACITY : ℕ := 4

abbrev InlinePairs := List (ℕ × ℕ)

abbrev TerminalMap := SortedMap ℕ (Finset ℕ)

namespace InlinePairs

/-- Sorted by state and terminal, each pair once. -/
def Sorted (pairs : InlinePairs) : Prop := pairs.Pairwise fun a b => toLex a < toLex b

def binary_search (pairs : InlinePairs) (pair : ℕ × ℕ) : Except ℕ ℕ :=
  let index := (pairs.takeWhile fun p => toLex p < toLex pair).length
  if pairs[index]? = some pair then .ok index else .error index

/-- Consecutive pairs are equal after sorting exactly when they are equal at all. -/
def sort_dedup (pairs : InlinePairs) : InlinePairs :=
  (pairs.insertionSort fun a b => toLex a ≤ toLex b).dedup

/-- The first pair that opens a new group, and so on. -/
def groups : InlinePairs → List InlinePairs
  | [] => []
  | pair :: pairs =>
      (pair :: pairs.takeWhile fun p => p.1 = pair.1) ::
        groups (pairs.dropWhile fun p => p.1 = pair.1)
termination_by pairs => pairs.length
decreasing_by
  rw [List.length_cons]
  exact Nat.lt_succ_of_le (List.length_dropWhile_le _ _)

end InlinePairs

/-! ## Terminal sets of one state -/

inductive TerminalSetRef
  | one (terminal : ℕ)
  | few (values : InlinePairs)
  | many (values : Finset ℕ)

namespace TerminalSetRef

def len : TerminalSetRef → ℕ
  | one _ => 1
  | few values => values.length
  | many values => values.card

def contains (set : TerminalSetRef) (terminal : ℕ) : Bool :=
  match set with
  | one value => value == terminal
  | few values => values.any fun p => p.2 == terminal
  | many values => terminal ∈ values

def iter : TerminalSetRef → List ℕ
  | one value => [value]
  | few values => values.map Prod.snd
  | many values => values.sort (· ≤ ·)

end TerminalSetRef

/-! ## Values -/

inductive TerminalsDisallowed
  | empty
  | one (state terminal : ℕ)
  | few (pairs : InlinePairs)
  | many (values : TerminalMap)
  deriving DecidableEq

namespace TerminalsDisallowed

def new : TerminalsDisallowed := empty

def from_inline_pairs (pairs : InlinePairs) : TerminalsDisallowed :=
  match pairs.sort_dedup with
  | [] => new
  | [(state, terminal)] => one state terminal
  | pairs => few pairs

def inline_pairs : TerminalsDisallowed → Option InlinePairs
  | empty => some []
  | one state terminal => some [(state, terminal)]
  | few pairs => some pairs
  | many _ => none

def mapPairs (map : TerminalMap) : InlinePairs :=
  map.entries.flatMap fun e => (e.2.sort (· ≤ ·)).map fun terminal => (e.1, terminal)

def pair_count (map : TerminalMap) : ℕ := (map.values.map Finset.card).sum

def from_map (map : TerminalMap) : TerminalsDisallowed :=
  if pair_count map ≤ INLINE_PAIR_CAPACITY then from_inline_pairs (mapPairs map)
  else many map

def is_empty : TerminalsDisallowed → Bool
  | empty => true
  | _ => false

def is_inline : TerminalsDisallowed → Bool
  | many _ => false
  | _ => true

def try_with_insert_inline (self : TerminalsDisallowed) (state terminal : ℕ) :
    Option TerminalsDisallowed :=
  match self.inline_pairs with
  | none => none
  | some pairs =>
      match pairs.binary_search (state, terminal) with
      | .ok _ => some self
      | .error index =>
          if pairs.length < INLINE_PAIR_CAPACITY then
            some (from_inline_pairs (pairs.insertIdx index (state, terminal)))
          else none

/-- One pair of the loops that collect at most four pairs. -/
def pushPair (pairs : InlinePairs) (pair : ℕ × ℕ) : Option InlinePairs :=
  match pairs.binary_search pair with
  | .ok _ => some pairs
  | .error index =>
      if pairs.length < INLINE_PAIR_CAPACITY then some (pairs.insertIdx index pair) else none

def try_merge_inline (self other : TerminalsDisallowed) : Option TerminalsDisallowed :=
  match self.inline_pairs, other.inline_pairs with
  | some pairs, some others => (others.foldlM pushPair pairs).map from_inline_pairs
  | _, _ => none

def try_remap_single_state_inline (self : TerminalsDisallowed) (source_state : ℕ)
    (end_states : List ℕ) : Option TerminalsDisallowed :=
  match self.inline_pairs with
  | none => none
  | some pairs =>
      let terminals := pairs.filterMap fun p => if p.1 = source_state then some p.2 else none
      if terminals.isEmpty || end_states.isEmpty then some new
      else
        let targets := end_states.flatMap fun state => terminals.map fun terminal => (state, terminal)
        (targets.foldlM pushPair []).map from_inline_pairs

def len : TerminalsDisallowed → ℕ
  | empty => 0
  | one .. => 1
  | few pairs => pairs.groups.length
  | many values => values.entries.length

def get (self : TerminalsDisallowed) (state : ℕ) : Option TerminalSetRef :=
  match self with
  | empty => none
  | one existing terminal => if existing = state then some (.one terminal) else none
  | few pairs =>
      match pairs.dropWhile fun p => p.1 ≠ state with
      | [] => none
      | first :: rest => some (.few (first :: rest.takeWhile fun p => p.1 = state))
  | many values => (values.get state).map .many

def iter : TerminalsDisallowed → List (ℕ × TerminalSetRef)
  | empty => []
  | one state terminal => [(state, .one terminal)]
  | few pairs => pairs.groups.filterMap fun group => group.head?.map fun p => (p.1, .few group)
  | many values => values.entries.map fun e => (e.1, .many e.2)

def is_subset_of (self other : TerminalsDisallowed) : Bool :=
  if self.is_empty then true
  else
    self.iter.all fun e =>
      match other.get e.1 with
      | none => false
      | some other_terminals => e.2.iter.all other_terminals.contains

/-- `entry(state).or_default()` extended by terminals. -/
def extendEntry (map : TerminalMap) (state : ℕ) (terminals : List ℕ) : TerminalMap :=
  map.insert state ((map.get state).getD ∅ ∪ terminals.toFinset)

def to_map : TerminalsDisallowed → TerminalMap
  | empty => .empty
  | one state terminal => SortedMap.empty.insert state {terminal}
  | few pairs => pairs.foldl (fun map p => extendEntry map p.1 [p.2]) .empty
  | many values => values

def with_insert (self : TerminalsDisallowed) (state terminal : ℕ) : TerminalsDisallowed :=
  match self.try_with_insert_inline state terminal with
  | some updated => updated
  | none => from_map (extendEntry self.to_map state [terminal])

def merge (self other : TerminalsDisallowed) : TerminalsDisallowed :=
  if self.is_subset_of other then other
  else if other.is_subset_of self then self
  else
    match self.try_merge_inline other with
    | some merged => merged
    | none =>
        from_map (other.iter.foldl (fun map e => extendEntry map e.1 e.2.iter) self.to_map)

def subsumes (self other : TerminalsDisallowed) : Bool := other.is_subset_of self

/-- Two values that share one map are equal before anything is compared. -/
def eq (self other : TerminalsDisallowed) : Bool :=
  match self, other with
  | many left, many right =>
      if left = right then true else self.is_subset_of other && other.is_subset_of self
  | _, _ => self.is_subset_of other && other.is_subset_of self

/-- What `hash` writes: of every state the terminals and their number, then the length. -/
def hash_writes (self : TerminalsDisallowed) : List ℕ :=
  (self.iter.flatMap fun e => e.1 :: (e.2.iter ++ [e.2.iter.length])) ++ [self.len]

/-- The set of pairs that a value stands for. -/
def pairs : TerminalsDisallowed → Finset (ℕ × ℕ)
  | empty => ∅
  | one state terminal => {(state, terminal)}
  | few pairs => pairs.toFinset
  | many values => (mapPairs values).toFinset

end TerminalsDisallowed

end GlrMask
