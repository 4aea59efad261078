import GlrMask.ListedMap
import GlrMask.Vectors

/-!
# Sparse rows

A row of a parser table as a small inline list, a sorted list or a hash map. Inline
rows are scanned and become a hash map when they are full; sorted rows are searched
by bisection. Every operation is the operation on the finite map the row represents.
-/

namespace GlrMask

/-! ## Vectors of entries -/

/-- Take out one element and move the last one into its place. -/
def swapRemove {α : Type*} (l : List α) (index : ℕ) : List α :=
  match l.getLast? with
  | none => []
  | some last => (l.set index last).dropLast

theorem swapRemove_perm {α : Type*} {l : List α} {index : ℕ} {a : α} (h : l[index]? = some a) :
    l.Perm (a :: swapRemove l index) := by
  obtain ⟨before, after, rfl, rfl⟩ := split_at_index h
  induction after using List.reverseRecOn with
  | nil =>
      rw [swapRemove, List.getLast?_concat]
      simp only
      rw [List.set_append_right _ _ le_rfl, Nat.sub_self, List.set_cons_zero,
        List.dropLast_concat]
      exact List.perm_append_singleton a before
  | append_singleton middle last _ =>
      have hcons : before ++ a :: (middle ++ [last]) = (before ++ a :: middle) ++ [last] := by simp
      have hset : before ++ last :: (middle ++ [last]) = (before ++ last :: middle) ++ [last] := by
        simp
      rw [swapRemove, hcons, List.getLast?_concat, ← hcons]
      simp only
      rw [List.set_append_right _ _ le_rfl, Nat.sub_self, List.set_cons_zero, hset,
        List.dropLast_concat]
      apply List.perm_middle.trans
      apply List.Perm.cons
      apply List.Perm.append_left
      exact List.perm_append_singleton last middle

section vectors

variable {K V : Type} [LinearOrder K]

/-- Put the value in the place of the first entry of the key, if there is one. -/
def replaceEntry (key : K) (value : V) : List (K × V) → Option (V × List (K × V))
  | [] => none
  | (k, v) :: entries =>
      if k = key then some (v, (k, value) :: entries)
      else (replaceEntry key value entries).map fun r => (r.1, (k, v) :: r.2)

/-- The bisection of a sorted vector: where the key is, or where it belongs. -/
def binary_search_by_key (key : K) (entries : List (K × V)) : Except ℕ ℕ :=
  let index := (entries.takeWhile fun e => e.1 < key).length
  match entries[index]? with
  | some e => if e.1 = key then .ok index else .error index
  | none => .error index

theorem replaceEntry_some {key : K} {value old : V} {entries entries' : List (K × V)}
    (h : replaceEntry key value entries = some (old, entries')) :
    ∃ rest, entries.Perm ((key, old) :: rest) ∧ entries'.Perm ((key, value) :: rest) := by
  induction entries generalizing entries' with
  | nil => cases h
  | cons e entries ih =>
      obtain ⟨k, v⟩ := e
      rw [replaceEntry] at h
      split_ifs at h with hk
      · cases h
        rw [hk]
        exact ⟨entries, .refl _, .refl _⟩
      · obtain ⟨r, hr, heq⟩ := Option.map_eq_some_iff.mp h
        cases heq
        obtain ⟨rest, hold, hnew⟩ := ih hr
        exact ⟨(k, v) :: rest, (hold.cons _).trans (.swap _ _ _),
          (hnew.cons _).trans (.swap _ _ _)⟩

theorem replaceEntry_none {key : K} {value : V} {entries : List (K × V)}
    (h : replaceEntry key value entries = none) : ∀ e ∈ entries, e.1 ≠ key := by
  induction entries with
  | nil => simp
  | cons e entries ih =>
      obtain ⟨k, v⟩ := e
      rw [replaceEntry] at h
      split_ifs at h with hk
      intro e he
      cases List.mem_cons.mp he with
      | inl heq =>
          rw [heq]
          exact hk
      | inr hmem => exact ih (Option.map_eq_none_iff.mp h) e hmem

theorem replaceEntry_length {key : K} {value old : V} {entries entries' : List (K × V)}
    (h : replaceEntry key value entries = some (old, entries')) :
    entries'.length = entries.length := by
  obtain ⟨rest, hold, hnew⟩ := replaceEntry_some h
  rw [hold.length_eq, hnew.length_eq, List.length_cons, List.length_cons]

theorem binary_search_ok {key : K} {entries : List (K × V)} {index : ℕ}
    (h : binary_search_by_key key entries = .ok index) :
    ∃ before v after, entries = before ++ (key, v) :: after ∧ index = before.length := by
  unfold binary_search_by_key at h
  simp only at h
  split at h
  · rename_i e hget
    split_ifs at h with hkey
    cases h
    obtain ⟨before, after, heq, hlength⟩ := split_at_index hget
    subst hkey
    exact ⟨before, e.2, after, heq, hlength⟩
  · cases h

theorem binary_search_error {key : K} {entries : List (K × V)} {index : ℕ}
    (hsorted : entries.Pairwise fun a b => a.1 < b.1)
    (h : binary_search_by_key key entries = .error index) :
    ∃ before after, entries = before ++ after ∧ index = before.length ∧
      (∀ e ∈ before, e.1 < key) ∧ ∀ e ∈ after, key < e.1 := by
  obtain ⟨before, after, heq, hbefore, hafter, hlength⟩ := split_at_key Prod.fst key hsorted
  unfold binary_search_by_key at h
  simp only [hlength] at h
  have hget : entries[before.length]? = after.head? := by
    rw [heq, List.getElem?_append_right le_rfl, Nat.sub_self, List.head?_eq_getElem?]
  rw [hget] at h
  cases after with
  | nil =>
      cases h
      exact ⟨before, [], heq, rfl, hbefore, by simp⟩
  | cons e after =>
      simp only [List.head?_cons] at h
      split_ifs at h with hkey
      cases h
      refine ⟨before, e :: after, heq, rfl, hbefore, ?_⟩
      have hlt : key < e.1 := lt_of_le_of_ne (hafter e List.mem_cons_self) (Ne.symm hkey)
      intro f hf
      cases List.mem_cons.mp hf with
      | inl hf =>
          rw [hf]
          exact hlt
      | inr hmem =>
          rw [heq] at hsorted
          have hrest := (List.pairwise_append.mp hsorted).2.1
          exact hlt.trans ((List.pairwise_cons.mp hrest).1 f hmem)

end vectors

/-! ## Rows -/

def INLINE_ROW_CAPACITY : ℕ := 8

inductive SparseRow (K V : Type) [LinearOrder K] [Hashable K] where
  | inline (entries : List (K × V))
  | sorted (entries : List (K × V))
  | large (entries : Std.HashMap K V)

namespace SparseRow

variable {K V W : Type} [LinearOrder K] [Hashable K]

def default : SparseRow K V := inline []

def with_expected_len (expected_len : ℕ) : SparseRow K V :=
  if expected_len ≤ INLINE_ROW_CAPACITY then inline [] else large ∅

def len : SparseRow K V → ℕ
  | inline entries => entries.length
  | sorted entries => entries.length
  | large entries => entries.size

def is_empty (row : SparseRow K V) : Bool := row.len == 0

def get (row : SparseRow K V) (key : K) : Option V :=
  match row with
  | inline entries => (entries.find? fun e => e.1 = key).map Prod.snd
  | sorted entries =>
      match binary_search_by_key key entries with
      | .ok index => entries[index]?.map Prod.snd
      | .error _ => none
  | large entries => entries[key]?

def from_sorted_unique (entries : List (K × V)) : SparseRow K V :=
  if entries.length ≤ INLINE_ROW_CAPACITY then inline entries else sorted entries

def from_hash_map (entries : Std.HashMap K V) : SparseRow K V :=
  if entries.size ≤ INLINE_ROW_CAPACITY then inline entries.toList else large entries

def insert (row : SparseRow K V) (key : K) (value : V) : Option V × SparseRow K V :=
  match row with
  | inline entries =>
      match replaceEntry key value entries with
      | some (previous, entries) => (some previous, inline entries)
      | none =>
          if entries.length < INLINE_ROW_CAPACITY then (none, inline (entries ++ [(key, value)]))
          else
            let map := entries.foldl (fun map e => map.insert e.1 e.2) (∅ : Std.HashMap K V)
            (map[key]?, large (map.insert key value))
  | sorted entries =>
      match binary_search_by_key key entries with
      | .ok index => (entries[index]?.map Prod.snd, sorted (entries.set index (key, value)))
      | .error index => (none, sorted (entries.insertIdx index (key, value)))
  | large entries => (entries[key]?, large (entries.insert key value))

def remove (row : SparseRow K V) (key : K) : Option V × SparseRow K V :=
  match row with
  | inline entries =>
      match entries.findIdx? fun e => e.1 = key with
      | some position => (entries[position]?.map Prod.snd, inline (swapRemove entries position))
      | none => (none, inline entries)
  | sorted entries =>
      match binary_search_by_key key entries with
      | .ok position => (entries[position]?.map Prod.snd, sorted (entries.eraseIdx position))
      | .error _ => (none, sorted entries)
  | large entries => (entries[key]?, large (entries.erase key))

def contains_key (row : SparseRow K V) (key : K) : Bool := (row.get key).isSome

def iter : SparseRow K V → List (K × V)
  | inline entries => entries
  | sorted entries => entries
  | large entries => entries.toList

def keys (row : SparseRow K V) : List K := row.iter.map Prod.fst

def values (row : SparseRow K V) : List V := row.iter.map Prod.snd

def for_each_value_mut (f : V → V) : SparseRow K V → SparseRow K V
  | inline entries => inline (entries.map fun e => (e.1, f e.2))
  | sorted entries => sorted (entries.map fun e => (e.1, f e.2))
  | large entries => large (entries.map fun _ => f)

/-- The row after the value that `get_mut` points to has been changed. -/
def get_mut (row : SparseRow K V) (key : K) (f : V → V) : SparseRow K V :=
  match row with
  | inline entries =>
      match entries.findIdx? fun e => e.1 = key with
      | some position => inline (entries.modify position fun e => (e.1, f e.2))
      | none => inline entries
  | sorted entries =>
      match binary_search_by_key key entries with
      | .ok position => sorted (entries.modify position fun e => (e.1, f e.2))
      | .error _ => sorted entries
  | large entries => large (entries.modify key f)

def eq [DecidableEq V] (row other : SparseRow K V) : Bool :=
  if row.len ≠ other.len then false
  else row.iter.all fun e => other.get e.1 = some e.2

def from_iter (entries : List (K × V)) : SparseRow K V :=
  entries.foldl (fun row e => (row.insert e.1 e.2).2) default

/-! ## The map that a row represents -/

/-- An inline row is small and a sorted row is sorted. -/
def Shape : SparseRow K V → Prop
  | inline entries => entries.length ≤ INLINE_ROW_CAPACITY
  | sorted entries => entries.Pairwise fun a b => a.1 < b.1
  | large _ => True

structure Represents (row : SparseRow K V) (m : K → Option V) : Prop where
  shape : row.Shape
  lists : Listing m row.iter

theorem hashMap_lists (entries : Std.HashMap K V) :
    Listing (fun k => entries[k]?) entries.toList where
  nodup := by
    rw [List.Nodup, List.pairwise_map]
    exact Std.HashMap.distinct_keys_toList.imp fun h => by simpa using h
  mem_iff _ _ := Std.HashMap.mem_toList_iff_getElem?_eq_some

theorem Represents.of_hashMap (entries : Std.HashMap K V) :
    (large entries).Represents fun k => entries[k]? := ⟨trivial, hashMap_lists entries⟩

/-- A hash map represents only its own lookup function. -/
theorem Represents.large_get {entries : Std.HashMap K V} {m : K → Option V}
    (h : (large entries).Represents m) (key : K) : entries[key]? = m key :=
  congrFun ((hashMap_lists entries).unique h.lists) key

end SparseRow

end GlrMask
