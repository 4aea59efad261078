import GlrMask.SparseRow

/-!
# Sparse rows represent finite maps

Each operation of a sparse row is the operation on the map it represents, whichever of
the three representations the row has before and after it. Lookups, lengths, key sets
and equality are those of the map.
-/

namespace GlrMask

namespace SparseRow

variable {K V : Type} [LinearOrder K] [Hashable K] {row : SparseRow K V} {m : K → Option V}

/-! ## Construction -/

theorem default_represents : (default : SparseRow K V).Represents fun _ => none :=
  ⟨Nat.zero_le _, Listing.nil⟩

theorem with_expected_len_represents (expected_len : ℕ) :
    (with_expected_len expected_len : SparseRow K V).Represents fun _ => none := by
  unfold with_expected_len
  split_ifs
  · exact default_represents
  · refine ⟨trivial, ?_⟩
    rw [iter, Std.HashMap.toList_empty]
    exact Listing.nil

theorem from_hash_map_represents (entries : Std.HashMap K V) :
    (from_hash_map entries).Represents fun k => entries[k]? := by
  unfold from_hash_map
  split_ifs with hsize
  · refine ⟨?_, hashMap_lists entries⟩
    rw [Shape, Std.HashMap.length_toList]
    exact hsize
  · exact .of_hashMap entries

theorem from_sorted_unique_represents {entries : List (K × V)}
    (hsorted : entries.Pairwise fun a b => a.1 < b.1) (hlists : Listing m entries) :
    (from_sorted_unique entries).Represents m := by
  unfold from_sorted_unique
  split_ifs with hsize
  · exact ⟨hsize, hlists⟩
  · exact ⟨hsorted, hlists⟩

/-! ## Queries -/

theorem get_eq (h : row.Represents m) (key : K) : row.get key = m key := by
  cases row with
  | inline entries => exact h.lists.find key
  | sorted entries =>
      rw [get]
      cases hsearch : binary_search_by_key key entries with
      | ok index =>
          obtain ⟨before, v, after, rfl, rfl⟩ := binary_search_ok hsearch
          simp only
          rw [getElem?_middle, Option.map_some]
          exact ((h.lists.mem_iff key v).mp (by simp [iter])).symm
      | error index =>
          obtain ⟨before, after, rfl, -, hbefore, hafter⟩ := binary_search_error h.shape hsearch
          refine (h.lists.none_of_forall_ne ?_).symm
          intro e he
          cases List.mem_append.mp he with
          | inl hmem => exact (hbefore e hmem).ne
          | inr hmem => exact (hafter e hmem).ne'
  | large entries => exact h.large_get key

theorem len_eq_length (row : SparseRow K V) : row.len = row.iter.length := by
  cases row with
  | inline entries => rfl
  | sorted entries => rfl
  | large entries => exact Std.HashMap.length_toList.symm

theorem len_eq (h : row.Represents m) : row.len = {k | (m k).isSome}.ncard := by
  rw [len_eq_length, h.lists.length_eq]

theorem mem_keys (h : row.Represents m) (key : K) : key ∈ row.keys ↔ (m key).isSome :=
  h.lists.keys_iff key

theorem eq_iff [DecidableEq V] {other : SparseRow K V} {m' : K → Option V}
    (h : row.Represents m) (h' : other.Represents m') : row.eq other = true ↔ m = m' := by
  rw [← h.lists.eq_iff h'.lists, eq, len_eq_length, len_eq_length]
  simp only [get_eq h']
  by_cases hlen : row.iter.length = other.iter.length
  · simp [hlen]
  · simp [hlen]

/-! ## Mutations -/

theorem foldl_insert_get (entries : List (K × V)) (hnodup : (entries.map Prod.fst).Nodup)
    (map : Std.HashMap K V) (key : K) :
    (entries.foldl (fun map e => map.insert e.1 e.2) map)[key]? =
      ((entries.find? fun e => e.1 = key).map Prod.snd).or map[key]? := by
  induction entries generalizing map with
  | nil => rfl
  | cons e entries ih =>
      obtain ⟨hhead, htail⟩ := List.nodup_cons.mp hnodup
      rw [List.foldl_cons, ih htail, Std.HashMap.getElem?_insert, List.find?_cons]
      by_cases hkey : e.1 = key
      · have hfind : (entries.find? fun e => e.1 = key) = none := by
          rw [List.find?_eq_none]
          intro f hf
          have hne : f.1 ≠ key := by
            intro heq
            exact hhead (List.mem_map.mpr ⟨f, hf, heq.trans hkey.symm⟩)
          simpa using hne
        simp [hfind, hkey]
      · simp [hkey]

theorem promoted_represents {entries : List (K × V)} (h : Listing m entries) :
    (large (entries.foldl (fun map e => map.insert e.1 e.2) ∅)).Represents m := by
  have hmap := Represents.of_hashMap
    (entries.foldl (fun map e => map.insert e.1 e.2) (∅ : Std.HashMap K V))
  have heq : (fun key => (entries.foldl (fun map e => map.insert e.1 e.2)
      (∅ : Std.HashMap K V))[key]?) = m := by
    funext key
    rw [foldl_insert_get entries h.nodup, h.find, Std.HashMap.getElem?_empty, Option.or_none]
  rwa [heq] at hmap

theorem large_insert {entries : Std.HashMap K V} (h : (large entries).Represents m) (key : K)
    (value : V) :
    (large (entries.insert key value)).Represents (Function.update m key (some value)) := by
  have hmap := Represents.of_hashMap (entries.insert key value)
  have heq : (fun k => (entries.insert key value)[k]?) = Function.update m key (some value) := by
    funext k
    rw [Std.HashMap.getElem?_insert, h.large_get, Function.update_apply]
    simp only [beq_iff_eq, @eq_comm _ key k]
  rwa [heq] at hmap

omit [Hashable K] in
/-- The keys alone decide whether a vector is sorted. -/
theorem sorted_of_keys {entries : List (K × V)} {W : Type} {others : List (K × W)}
    (h : entries.Pairwise fun a b => a.1 < b.1)
    (hkeys : others.map Prod.fst = entries.map Prod.fst) :
    others.Pairwise fun a b => a.1 < b.1 := by
  have hpairs : (entries.map Prod.fst).Pairwise (· < ·) := List.pairwise_map.mpr h
  rw [← hkeys] at hpairs
  exact List.pairwise_map.mp hpairs

theorem inline_insert {entries : List (K × V)} (h : (inline entries).Represents m) (key : K)
    (value : V) :
    ((inline entries).insert key value).1 = m key ∧
      ((inline entries).insert key value).2.Represents (Function.update m key (some value)) := by
  rw [insert]
  cases hreplace : replaceEntry key value entries with
  | some r =>
      obtain ⟨previous, entries'⟩ := r
      obtain ⟨rest, hold, hnew⟩ := replaceEntry_some hreplace
      obtain ⟨hsome, hlists⟩ := h.lists.replace hold hnew
      refine ⟨hsome.symm, ?_, hlists⟩
      rw [Shape, replaceEntry_length hreplace]
      exact h.shape
  | none =>
      have hnone : m key = none := h.lists.none_of_forall_ne (replaceEntry_none hreplace)
      simp only
      split_ifs with hsize
      · refine ⟨hnone.symm, ?_, h.lists.insert_new hnone value (List.perm_append_singleton _ _)⟩
        rw [Shape, List.length_append, List.length_singleton]
        exact hsize
      · have hmap := promoted_represents h.lists
        exact ⟨hmap.large_get key, large_insert hmap key value⟩

theorem sorted_insert {entries : List (K × V)} (h : (sorted entries).Represents m) (key : K)
    (value : V) :
    ((sorted entries).insert key value).1 = m key ∧
      ((sorted entries).insert key value).2.Represents (Function.update m key (some value)) := by
  have hshape : entries.Pairwise fun a b => a.1 < b.1 := h.shape
  rw [insert]
  cases hsearch : binary_search_by_key key entries with
  | ok index =>
      obtain ⟨before, v, after, rfl, rfl⟩ := binary_search_ok hsearch
      simp only
      rw [getElem?_middle, set_middle]
      obtain ⟨hsome, hlists⟩ := h.lists.replace List.perm_middle
        (List.perm_middle : (before ++ (key, value) :: after).Perm _)
      exact ⟨hsome.symm, sorted_of_keys hshape (by simp), hlists⟩
  | error index =>
      obtain ⟨before, after, rfl, rfl, hbefore, hafter⟩ := binary_search_error hshape hsearch
      have hnone : m key = none := by
        apply h.lists.none_of_forall_ne
        intro e he
        cases List.mem_append.mp he with
        | inl hmem => exact (hbefore e hmem).ne
        | inr hmem => exact (hafter e hmem).ne'
      simp only
      rw [insertIdx_middle]
      exact ⟨hnone.symm, pairwise_middle hshape hbefore hafter,
        h.lists.insert_new hnone value List.perm_middle⟩

theorem insert_spec (h : row.Represents m) (key : K) (value : V) :
    (row.insert key value).1 = m key ∧
      (row.insert key value).2.Represents (Function.update m key (some value)) := by
  cases row with
  | inline entries => exact inline_insert h key value
  | sorted entries => exact sorted_insert h key value
  | large entries => exact ⟨h.large_get key, large_insert h key value⟩

theorem remove_absent (h : row.Represents m) {key : K} (hnone : m key = none) :
    row.Represents (Function.update m key none) := by
  rwa [← hnone, Function.update_eq_self]

theorem remove_spec (h : row.Represents m) (key : K) :
    (row.remove key).1 = m key ∧
      (row.remove key).2.Represents (Function.update m key none) := by
  cases row with
  | inline entries =>
      rw [remove]
      cases hfind : entries.findIdx? fun e => e.1 = key with
      | none =>
          rw [List.findIdx?_eq_none_iff] at hfind
          have hne : ∀ e ∈ entries, e.1 ≠ key := by simpa using hfind
          have hnone : m key = none := h.lists.none_of_forall_ne hne
          exact ⟨hnone.symm, remove_absent h hnone⟩
      | some position =>
          obtain ⟨hlt, hkey, -⟩ := List.findIdx?_eq_some_iff_getElem.mp hfind
          have hget : entries[position]? = some (key, entries[position].2) := by
            rw [List.getElem?_eq_getElem hlt, ← of_decide_eq_true hkey]
          simp only
          rw [hget]
          have hperm := swapRemove_perm hget
          obtain ⟨hsome, hlists⟩ := h.lists.erase hperm
          refine ⟨hsome.symm, ?_, hlists⟩
          have hlength := hperm.length_eq
          have hshape : entries.length ≤ INLINE_ROW_CAPACITY := h.shape
          rw [List.length_cons] at hlength
          rw [Shape]
          omega
  | sorted entries =>
      have hshape : entries.Pairwise fun a b => a.1 < b.1 := h.shape
      rw [remove]
      cases hsearch : binary_search_by_key key entries with
      | ok position =>
          obtain ⟨before, v, after, rfl, rfl⟩ := binary_search_ok hsearch
          simp only
          rw [getElem?_middle, eraseIdx_middle]
          obtain ⟨hsome, hlists⟩ := h.lists.erase List.perm_middle
          refine ⟨hsome.symm, ?_, hlists⟩
          exact hshape.sublist ((List.sublist_cons_self _ after).append_left before)
      | error position =>
          have hnone : m key = none := by
            rw [← get_eq h, get, hsearch]
          exact ⟨hnone.symm, remove_absent h hnone⟩
  | large entries =>
      refine ⟨h.large_get key, ?_⟩
      have hmap := Represents.of_hashMap (entries.erase key)
      have heq : (fun k => (entries.erase key)[k]?) = Function.update m key none := by
        funext k
        rw [Std.HashMap.getElem?_erase, h.large_get, Function.update_apply]
        simp only [beq_iff_eq, @eq_comm _ key k]
      rwa [heq] at hmap

theorem for_each_value_mut_represents (h : row.Represents m) (f : V → V) :
    (row.for_each_value_mut f).Represents fun k => (m k).map f := by
  cases row with
  | inline entries =>
      refine ⟨?_, h.lists.map_values f⟩
      rw [for_each_value_mut, Shape, List.length_map]
      exact h.shape
  | sorted entries => exact ⟨sorted_of_keys h.shape (by simp), h.lists.map_values f⟩
  | large entries =>
      have hmap := Represents.of_hashMap (entries.map fun _ => f)
      have heq : (fun k => (entries.map fun _ => f)[k]?) = fun k => (m k).map f := by
        funext k
        rw [Std.HashMap.getElem?_map, h.large_get]
      rwa [heq] at hmap

omit [Hashable K] in
theorem modify_middle_represents {before after : List (K × V)} {key : K} {v : V} (f : V → V)
    (h : Listing m (before ++ (key, v) :: after)) :
    Listing (Function.update m key ((m key).map f)) (before ++ (key, f v) :: after) := by
  obtain ⟨hsome, hlists⟩ := h.replace List.perm_middle
    (List.perm_middle : (before ++ (key, f v) :: after).Perm _)
  rwa [hsome, Option.map_some]

omit [Hashable K] in
theorem update_map_of_none {key : K} (hnone : m key = none) (f : V → V) :
    Function.update m key ((m key).map f) = m := by
  rw [hnone, Option.map_none, ← hnone, Function.update_eq_self]

theorem get_mut_represents (h : row.Represents m) (key : K) (f : V → V) :
    (row.get_mut key f).Represents (Function.update m key ((m key).map f)) := by
  cases row with
  | inline entries =>
      rw [get_mut]
      cases hfind : entries.findIdx? fun e => e.1 = key with
      | none =>
          rw [List.findIdx?_eq_none_iff] at hfind
          have hne : ∀ e ∈ entries, e.1 ≠ key := by simpa using hfind
          have hnone : m key = none := h.lists.none_of_forall_ne hne
          rwa [update_map_of_none hnone]
      | some position =>
          obtain ⟨hlt, hkey, -⟩ := List.findIdx?_eq_some_iff_getElem.mp hfind
          have hget : entries[position]? = some (key, entries[position].2) := by
            rw [List.getElem?_eq_getElem hlt, ← of_decide_eq_true hkey]
          obtain ⟨before, after, heq, rfl⟩ := split_at_index hget
          simp only
          generalize entries[before.length].2 = v at heq
          subst heq
          rw [modify_middle]
          refine ⟨?_, modify_middle_represents f h.lists⟩
          have hshape := h.shape
          rw [Shape, List.length_append, List.length_cons] at hshape ⊢
          exact hshape
  | sorted entries =>
      have hshape : entries.Pairwise fun a b => a.1 < b.1 := h.shape
      rw [get_mut]
      cases hsearch : binary_search_by_key key entries with
      | ok position =>
          obtain ⟨before, v, after, rfl, rfl⟩ := binary_search_ok hsearch
          simp only
          rw [modify_middle]
          exact ⟨sorted_of_keys hshape (by simp), modify_middle_represents f h.lists⟩
      | error position =>
          have hnone : m key = none := by
            rw [← get_eq h, get, hsearch]
          simp only
          rwa [update_map_of_none hnone]
  | large entries =>
      have hmap := Represents.of_hashMap (entries.modify key f)
      have heq : (fun k => (entries.modify key f)[k]?) =
          Function.update m key ((m key).map f) := by
        funext k
        rw [Std.HashMap.getElem?_modify, Function.update_apply, h.large_get, h.large_get]
        simp only [beq_iff_eq, @eq_comm _ key k]
      rwa [heq] at hmap

/-- The map that inserting the entries one after the other leaves. -/
def insertAll {A : Type} (m : K → Option A) (entries : List (K × A)) : K → Option A :=
  entries.foldl (fun m e => Function.update m e.1 (some e.2)) m

theorem foldl_insert_represents (h : row.Represents m) (entries : List (K × V)) :
    (entries.foldl (fun row e => (row.insert e.1 e.2).2) row).Represents (insertAll m entries) := by
  induction entries generalizing row m with
  | nil => exact h
  | cons e entries ih => exact ih (insert_spec h e.1 e.2).2

theorem from_iter_represents (entries : List (K × V)) :
    (from_iter entries).Represents (insertAll (fun _ => none) entries) :=
  foldl_insert_represents default_represents entries

end SparseRow

end GlrMask
