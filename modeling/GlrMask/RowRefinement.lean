import GlrMask.ActionRowSpec

/-!
# Rows as finite maps, over whole histories

A history builds a row by a constructor and any sequence of operations and, beside it,
the map that the same history denotes. Whatever can be asked of the row is answered by
the map, except the order in which the entries come.
-/

namespace GlrMask

/-- A row that a history has produced, with the map that the history denotes. -/
inductive SparseRow.Built {K V : Type} [LinearOrder K] [Hashable K] :
    SparseRow K V → (K → Option V) → Prop
  | default : Built SparseRow.default fun _ => none
  | with_expected_len (expected_len : ℕ) :
      Built (SparseRow.with_expected_len expected_len) fun _ => none
  | from_iter (entries : List (K × V)) :
      Built (SparseRow.from_iter entries) (SparseRow.insertAll (fun _ => none) entries)
  | from_sorted_unique {entries : List (K × V)} {m : K → Option V}
      (hsorted : entries.Pairwise fun a b => a.1 < b.1) (hlisting : Listing m entries) :
      Built (SparseRow.from_sorted_unique entries) m
  | from_hash_map (entries : Std.HashMap K V) :
      Built (SparseRow.from_hash_map entries) fun k => entries[k]?
  | insert {row : SparseRow K V} {m : K → Option V} (h : Built row m) (key : K) (value : V) :
      Built (row.insert key value).2 (Function.update m key (some value))
  | remove {row : SparseRow K V} {m : K → Option V} (h : Built row m) (key : K) :
      Built (row.remove key).2 (Function.update m key none)
  | get_mut {row : SparseRow K V} {m : K → Option V} (h : Built row m) (key : K) (f : V → V) :
      Built (row.get_mut key f) (Function.update m key ((m key).map f))
  | for_each_value_mut {row : SparseRow K V} {m : K → Option V} (h : Built row m) (f : V → V) :
      Built (row.for_each_value_mut f) fun k => (m k).map f

inductive ActionRow.Built [Runtime] {A : Type} [DecidableEq A] :
    ActionRow A → (ℕ → Option A) → Prop
  | empty : Built ActionRow.empty fun _ => none
  | from_iter (entries : List (ℕ × A)) :
      Built (ActionRow.from_iter entries) (SparseRow.insertAll (fun _ => none) entries)
  | from_indexed_entries (entries : List (ℕ × A)) :
      Built (ActionRow.from_indexed_entries entries) (SparseRow.insertAll (fun _ => none) entries)
  | insert {row : ActionRow A} {m : ℕ → Option A} (h : Built row m) (key : ℕ) (value : A) :
      Built (row.insert key value).2 (Function.update m key (some value))
  | remove {row : ActionRow A} {m : ℕ → Option A} (h : Built row m) (key : ℕ) :
      Built (row.remove key).2 (Function.update m key none)
  | get_mut {row : ActionRow A} {m : ℕ → Option A} (h : Built row m) (key : ℕ) (f : A → A) :
      Built (row.get_mut key f) (Function.update m key ((m key).map f))
  | for_each_value_mut {row : ActionRow A} {m : ℕ → Option A} (h : Built row m) (f : A → A) :
      Built (row.for_each_value_mut f) fun k => (m k).map f
  | compress_default {row : ActionRow A} {m : ℕ → Option A} (h : Built row m)
      (num_terminals : ℕ) : Built (row.compress_default num_terminals) m
  | expand_runtime_rows_to_sparse {row : ActionRow A} {m : ℕ → Option A} (h : Built row m) :
      Built row.expand_runtime_rows_to_sparse m

section histories

variable {K V : Type} [LinearOrder K] [Hashable K]

theorem SparseRow.Built.represents {row : SparseRow K V} {m : K → Option V} (h : row.Built m) :
    row.Represents m := by
  induction h with
  | default => exact default_represents
  | with_expected_len expected_len => exact with_expected_len_represents expected_len
  | from_iter entries => exact from_iter_represents entries
  | from_sorted_unique hsorted hlisting => exact from_sorted_unique_represents hsorted hlisting
  | from_hash_map entries => exact from_hash_map_represents entries
  | insert _ key value ih => exact (insert_spec ih key value).2
  | remove _ key ih => exact (remove_spec ih key).2
  | get_mut _ key f ih => exact get_mut_represents ih key f
  | for_each_value_mut _ f ih => exact for_each_value_mut_represents ih f

theorem ActionRow.Built.represents [Runtime] {A : Type} [DecidableEq A] {row : ActionRow A}
    {m : ℕ → Option A} (h : row.Built m) : row.Represents m := by
  induction h with
  | empty => exact empty_represents
  | from_iter entries => exact from_iter_represents entries
  | from_indexed_entries entries => exact from_indexed_entries_represents entries
  | insert _ key value ih => exact (insert_spec ih key value).2
  | remove _ key ih => exact (remove_spec ih key).2
  | get_mut _ key f ih => exact get_mut_represents ih key f
  | for_each_value_mut _ f ih => exact for_each_value_mut_represents ih f
  | compress_default _ num_terminals ih => exact compress_default_represents ih num_terminals
  | expand_runtime_rows_to_sparse _ ih => exact expand_runtime_rows_to_sparse_represents ih

end histories

/-- What a row of keys and values answers when its map is `m`. -/
structure Answers {K V : Type} (m : K → Option V) (get : K → Option V) (len : ℕ)
    (iter : List (K × V)) (keys : List K) (inserted : K → V → Option V) (removed : K → Option V) :
    Prop where
  get : ∀ key, get key = m key
  len : len = {key | (m key).isSome}.ncard
  iter : Listing m iter
  keys : keys.Nodup ∧ ∀ key, key ∈ keys ↔ (m key).isSome
  inserted : ∀ key value, inserted key value = m key
  removed : ∀ key, removed key = m key

/-- Rows answer for the maps that their histories denote, and rows are equal when the
maps are; the rows with an order of their own are iterated in increasing order. -/
theorem rows_refine_finite_maps [Runtime] {K V A : Type} [LinearOrder K] [Hashable K]
    [DecidableEq V] [DecidableEq A] :
    (∀ (row : SparseRow K V) (m : K → Option V), row.Built m →
        Answers m row.get row.len row.iter row.keys (fun k v => (row.insert k v).1)
          (fun k => (row.remove k).1) ∧
        (∀ entries, row = .sorted entries → row.iter.Pairwise fun a b => a.1 < b.1) ∧
        ∀ other m', SparseRow.Built other m' → (row.eq other = true ↔ m = m')) ∧
      (∀ (row : ActionRow A) (m : ℕ → Option A), row.Built m →
        Answers m row.get row.len row.iter row.keys (fun k v => (row.insert k v).1)
          (fun k => (row.remove k).1) ∧
        (row.is_default_compressed = true → row.iter.Pairwise fun a b => a.1 < b.1) ∧
        ∀ other m', ActionRow.Built other m' → (row.eq other = true ↔ m = m')) := by
  constructor
  · intro row m hbuilt
    have h := hbuilt.represents
    refine ⟨⟨SparseRow.get_eq h, SparseRow.len_eq h, h.lists, ⟨h.lists.nodup, SparseRow.mem_keys h⟩,
      fun key value => (SparseRow.insert_spec h key value).1,
      fun key => (SparseRow.remove_spec h key).1⟩, ?_, ?_⟩
    · intro entries heq
      subst heq
      exact h.shape
    · intro other m' hother
      exact SparseRow.eq_iff h hother.represents
  · intro row m hbuilt
    have h := hbuilt.represents
    have hlisting := ActionRow.iter_listing h
    refine ⟨⟨ActionRow.get_eq h, ?_, hlisting, ⟨hlisting.nodup, hlisting.keys_iff⟩,
      fun key value => (ActionRow.insert_spec h key value).1,
      fun key => (ActionRow.remove_spec h key).1⟩, ?_, ?_⟩
    · rw [ActionRow.len_eq_length h, hlisting.length_eq]
    · intro hdefault
      cases row with
      | sparse row => cases hdefault
      | default action exceptions num_terminals =>
          exact ActionRow.default_iter_sorted action exceptions num_terminals
      | indexed slots eof_slot entries => cases hdefault
    · intro other m' hother
      exact ActionRow.eq_iff h hother.represents

/-- One action inserted and taken out of a compressed row again. -/
theorem rows_refine_finite_maps_removed :
    letI := Runtime.default
    (((ActionRow.from_indexed_entries [(0, true), (1, true), (2, true), (3, false)]).compress_default
      4).remove 1).2.get 1 = none := by
  let _ := Runtime.default
  have hbuilt := ((ActionRow.Built.from_indexed_entries
    [(0, true), (1, true), (2, true), (3, false)]).compress_default 4).remove 1
  have hget := ((rows_refine_finite_maps (K := ℕ) (V := Bool)).2 _ _ hbuilt).1.get 1
  rw [hget, Function.update_self]

/-- The same two insertions in either order leave rows of one map with two iterations. -/
theorem iteration_order_not_determined :
    letI := Runtime.default
    ∃ (row other : ActionRow Bool) (m : ℕ → Option Bool),
      row.Built m ∧ other.Built m ∧ row.iter ≠ other.iter := by
  let _ := Runtime.default
  have hcomm : Function.update (Function.update (fun _ : ℕ => (none : Option Bool)) 2 (some false))
      1 (some true) = Function.update (Function.update (fun _ => none) 1 (some true)) 2
        (some false) := Function.update_comm (by decide) _ _ _
  have hother := ((ActionRow.Built.empty (A := Bool)).insert 1 true).insert 2 false
  rw [← hcomm] at hother
  exact ⟨_, _, _, (ActionRow.Built.empty.insert 2 false).insert 1 true, hother, by decide⟩

end GlrMask
