import GlrMask.SparseRowSpec
import GlrMask.ActionRow

/-!
# Action rows represent finite maps

A row that operations have produced represents the map that the same operations make of
the empty map. Lookups, lengths, key sets, equality and the entries that an iteration
yields are those of the map; only the order of the iteration belongs to the row.
-/

namespace GlrMask

namespace ActionRow

variable {A : Type} {m : ℕ → Option A}

/-! ## Slots -/

/-- The slots of the entries before the loop's position. -/
structure Slotted (slots : List ℕ) (eof_slot : ℕ) (entries : List (ℕ × A)) : Prop where
  nodup : (entries.map Prod.fst).Nodup
  absent : ∀ key, slotOf slots eof_slot key = ABSENT → key ∉ entries.map Prod.fst
  present : ∀ key, slotOf slots eof_slot key ≠ ABSENT →
    ∃ a, entries[slotOf slots eof_slot key]? = some (key, a)

theorem Slotted.push {slots slots' : List ℕ} {eof_slot eof_slot' terminal : ℕ}
    {entries : List (ℕ × A)} (h : Slotted slots eof_slot entries)
    (hlength : entries.length < ABSENT) (hfree : slotOf slots eof_slot terminal = ABSENT)
    (hnew : slotOf slots' eof_slot' terminal = entries.length)
    (hother : ∀ key, key ≠ terminal → slotOf slots' eof_slot' key = slotOf slots eof_slot key)
    (a : A) : Slotted slots' eof_slot' (entries ++ [(terminal, a)]) where
  nodup := by
    rw [List.map_append, List.nodup_append]
    refine ⟨h.nodup, List.nodup_singleton _, ?_⟩
    intro key hkey other hother heq
    rw [heq, List.mem_singleton.mp hother] at hkey
    exact h.absent terminal hfree hkey
  absent key hslot := by
    have hne : key ≠ terminal := by
      intro heq
      rw [heq, hnew] at hslot
      omega
    rw [hother key hne] at hslot
    simpa [hne] using h.absent key hslot
  present key hslot := by
    by_cases hkey : key = terminal
    · subst hkey
      rw [hnew]
      exact ⟨a, getElem?_middle entries [] _⟩
    · rw [hother key hkey] at hslot ⊢
      obtain ⟨b, hget⟩ := h.present key hslot
      exact ⟨b, (List.getElem?_append_left (List.getElem?_eq_some_iff.mp hget).1).trans hget⟩

theorem indexSlots_slotted {rest : List (ℕ × A)} {slots slots' : List ℕ} {eof_slot eof_slot' : ℕ}
    {entries : List (ℕ × A)} (h : Slotted slots eof_slot entries)
    (hlength : entries.length + rest.length < ABSENT)
    (hrange : ∀ e ∈ rest, e.1 ≠ EOF → e.1 < slots.length)
    (hresult : indexSlots rest entries.length slots eof_slot = some (slots', eof_slot')) :
    Slotted slots' eof_slot' (entries ++ rest) := by
  induction rest generalizing slots eof_slot entries with
  | nil =>
      cases hresult
      rwa [List.append_nil]
  | cons e rest ih =>
      obtain ⟨terminal, a⟩ := e
      rw [List.length_cons] at hlength
      have hsmall : entries.length < ABSENT := by omega
      have hslot : entries.length % 256 = entries.length := by
        apply Nat.mod_eq_of_lt
        unfold ABSENT at hsmall
        omega
      have hsplit : entries ++ (terminal, a) :: rest = (entries ++ [(terminal, a)]) ++ rest := by simp
      have hnext : entries.length + 1 = (entries ++ [(terminal, a)]).length := by simp
      rw [indexSlots, hslot] at hresult
      rw [hsplit]
      split_ifs at hresult with heof hused hused
      · subst heof
        have hfree : slotOf slots eof_slot EOF = ABSENT := by
          rw [slotOf, if_pos rfl]
          exact not_not.mp hused
        have hpush : Slotted slots entries.length (entries ++ [(EOF, a)]) := by
          apply h.push hsmall hfree
          · rw [slotOf, if_pos rfl]
          · intro key hkey
            rw [slotOf, slotOf, if_neg hkey, if_neg hkey]
        rw [hnext] at hresult
        refine ih hpush (by simp; omega) ?_ hresult
        exact fun e he => hrange e (List.mem_cons_of_mem _ he)
      · have hterminal : terminal < slots.length := hrange _ List.mem_cons_self heof
        have hfree : slotOf slots eof_slot terminal = ABSENT := by
          rw [slotOf, if_neg heof]
          exact not_not.mp hused
        have hpush : Slotted (slots.set terminal entries.length) eof_slot
            (entries ++ [(terminal, a)]) := by
          apply h.push hsmall hfree
          · rw [slotOf, if_neg heof, List.getD_eq_getElem?_getD, List.getElem?_set_self hterminal,
              Option.getD_some]
          · intro key hkey
            rw [slotOf, slotOf, List.getD_eq_getElem?_getD, List.getD_eq_getElem?_getD,
              List.getElem?_set_ne (Ne.symm hkey)]
        rw [hnext] at hresult
        refine ih hpush (by simp; omega) ?_ hresult
        intro e he hne
        rw [List.length_set]
        exact hrange e (List.mem_cons_of_mem _ he) hne

theorem slotted_initial (size : ℕ) :
    Slotted (List.replicate size ABSENT) ABSENT ([] : List (ℕ × A)) where
  nodup := List.nodup_nil
  absent := by simp
  present key hslot := by
    refine absurd ?_ hslot
    rw [slotOf, List.getD_eq_getElem?_getD, List.getElem?_replicate]
    split_ifs <;> rfl

/-! ## The map that a row represents -/

/-- The map of a default row: the exceptions over the default, on its terminals only. -/
def effective (action : A) (e : ℕ → Option (Option A)) (num_terminals : ℕ) : ℕ → Option A :=
  fun key => if num_terminals ≤ key then none else exceptional action (e key)

def Represents (row : ActionRow A) (m : ℕ → Option A) : Prop :=
  match row with
  | sparse row => row.Represents m
  | indexed slots eof_slot entries => Slotted slots eof_slot entries ∧ Listing m entries
  | default action exceptions num_terminals =>
      ∃ e, exceptions.Represents e ∧ (∀ key, (e key).isSome → key < num_terminals) ∧
        m = effective action e num_terminals

theorem empty_represents : (empty : ActionRow A).Represents fun _ => none :=
  SparseRow.default_represents

theorem from_iter_represents (entries : List (ℕ × A)) :
    (from_iter entries).Represents (SparseRow.insertAll (fun _ => none) entries) :=
  SparseRow.from_iter_represents entries

/-- Entries with distinct keys list what inserting them leaves. -/
theorem listing_insertAll {entries : List (ℕ × A)} (hnodup : (entries.map Prod.fst).Nodup) :
    Listing (SparseRow.insertAll (fun _ => none) entries) entries := by
  induction entries using List.reverseRecOn with
  | nil => exact Listing.nil
  | append_singleton entries e ih =>
      rw [List.map_append, List.nodup_append] at hnodup
      obtain ⟨hentries, -, hcross⟩ := hnodup
      have hlisting := ih hentries
      have hnone : SparseRow.insertAll (fun _ => none) entries e.1 = none := by
        apply hlisting.none_of_forall_ne
        intro f hf
        exact hcross f.1 (List.mem_map_of_mem hf) e.1 (by simp)
      rw [SparseRow.insertAll, List.foldl_append]
      exact hlisting.insert_new hnone e.2 (List.perm_append_singleton _ _)

theorem from_indexed_entries_represents (entries : List (ℕ × A)) :
    (from_indexed_entries entries).Represents (SparseRow.insertAll (fun _ => none) entries) := by
  unfold from_indexed_entries
  split_ifs with hsize
  · exact from_iter_represents entries
  · split
    · exact from_iter_represents entries
    · rename_i max_regular hmax
      split_ifs with hlarge
      · exact from_iter_represents entries
      · split
        · exact from_iter_represents entries
        · rename_i slots eof_slot hindex
          have hlength : entries.length < ABSENT := by omega
          have hslotted := indexSlots_slotted (slotted_initial (max_regular + 1))
            (by simpa using hlength) ?_ hindex
          · exact ⟨hslotted, listing_insertAll hslotted.nodup⟩
          · intro e he hne
            rw [List.length_replicate]
            have hle := (List.max?_eq_some_iff.mp hmax).2 e.1
              (List.mem_filter.mpr ⟨List.mem_map_of_mem he, by simpa using hne⟩)
            omega

/-! ## Expansion -/

theorem expandDefault_represents {action : A} {exceptions : SparseRow ℕ (Option A)}
    {e : ℕ → Option (Option A)} (h : exceptions.Represents e) (num_terminals : ℕ) :
    (expandDefault action exceptions num_terminals).Represents
      (effective action e num_terminals) := by
  induction num_terminals with
  | zero => exact SparseRow.default_represents
  | succ n ih =>
      rw [expandDefault, List.range_succ, List.foldl_append, List.foldl_cons, List.foldl_nil]
      rw [expandDefault] at ih
      rw [SparseRow.get_eq h]
      cases hvalue : exceptional action (e n) with
      | some a =>
          have hmap : effective action e (n + 1) =
              Function.update (effective action e n) n (some a) := by
            funext key
            rw [Function.update_apply]
            split_ifs with hkey
            · subst hkey
              rw [effective, if_neg (by omega), hvalue]
            · unfold effective
              grind
          rw [hmap]
          exact (SparseRow.insert_spec ih n a).2
      | none =>
          have hmap : effective action e (n + 1) = effective action e n := by
            funext key
            unfold effective
            grind
          rw [hmap]
          exact ih

theorem expanded_represents {row : ActionRow A} (h : row.Represents m) :
    row.expanded.Represents m := by
  cases row with
  | sparse row => exact h
  | default action exceptions num_terminals =>
      obtain ⟨e, hexceptions, -, rfl⟩ := h
      exact expandDefault_represents hexceptions num_terminals
  | indexed slots eof_slot entries =>
      obtain ⟨hslotted, hlisting⟩ := h
      rw [hlisting.unique (listing_insertAll hslotted.nodup)]
      exact SparseRow.foldl_insert_represents
        (SparseRow.with_expected_len_represents entries.length) entries

/-! ## Queries -/

theorem get_eq {row : ActionRow A} (h : row.Represents m) (key : ℕ) : row.get key = m key := by
  cases row with
  | sparse row => exact SparseRow.get_eq h key
  | default action exceptions num_terminals =>
      obtain ⟨e, hexceptions, -, rfl⟩ := h
      rw [get, SparseRow.get_eq hexceptions]
      rfl
  | indexed slots eof_slot entries =>
      obtain ⟨hslotted, hlisting⟩ := h
      rw [get]
      split_ifs with hslot
      · obtain ⟨a, hget⟩ := hslotted.present key hslot
        rw [hget, Option.map_some]
        exact ((hlisting.mem_iff key a).mp (List.mem_of_getElem? hget)).symm
      · have habsent := hslotted.absent key (not_not.mp hslot)
        rw [hlisting.keys_iff, Option.not_isSome_iff_eq_none] at habsent
        exact habsent.symm

theorem default_iter_listing (action : A) {exceptions : SparseRow ℕ (Option A)}
    {e : ℕ → Option (Option A)} (h : exceptions.Represents e) (num_terminals : ℕ) :
    Listing (effective action e num_terminals)
      (default action exceptions num_terminals).iter where
  nodup := by
    have hkeys : ∀ l : List ℕ, ((l.filterMap fun terminal =>
        (exceptional action (exceptions.get terminal)).map fun a => (terminal, a)).map
          Prod.fst).Sublist l := by
      intro l
      induction l with
      | nil => exact .slnil
      | cons key l ih =>
          rw [List.filterMap_cons]
          cases exceptional action (exceptions.get key) with
          | none => exact ih.cons key
          | some a => exact ih.cons_cons key
    exact List.nodup_range.sublist (hkeys _)
  mem_iff key a := by
    rw [iter, List.mem_filterMap]
    simp only [SparseRow.get_eq h, List.mem_range, Option.map_eq_some_iff, effective]
    grind

/-- A default row yields its terminals in increasing order. -/
theorem default_iter_sorted (action : A) (exceptions : SparseRow ℕ (Option A))
    (num_terminals : ℕ) :
    (default action exceptions num_terminals).iter.Pairwise fun a b => a.1 < b.1 := by
  rw [iter, List.pairwise_filterMap]
  apply List.pairwise_lt_range.imp
  intro a b hlt x hx y hy
  obtain ⟨_, -, rfl⟩ := Option.map_eq_some_iff.mp hx
  obtain ⟨_, -, rfl⟩ := Option.map_eq_some_iff.mp hy
  exact hlt

theorem iter_listing {row : ActionRow A} (h : row.Represents m) : Listing m row.iter := by
  cases row with
  | sparse row => exact h.lists
  | default action exceptions num_terminals =>
      obtain ⟨e, hexceptions, -, rfl⟩ := h
      exact default_iter_listing action hexceptions num_terminals
  | indexed slots eof_slot entries => exact h.2

/-- The null exceptions are the terminals of the row that have no action. -/
theorem null_exceptions {exceptions : SparseRow ℕ (Option A)} {e : ℕ → Option (Option A)}
    (h : exceptions.Represents e) {num_terminals : ℕ}
    (hrange : ∀ key, (e key).isSome → key < num_terminals) :
    (exceptions.values.filter Option.isNone).length =
      ((List.range num_terminals).filter fun key => (e key).any Option.isNone).length := by
  have hvalues : (exceptions.values.filter Option.isNone).length =
      ((exceptions.iter.filter fun entry => entry.2.isNone).map Prod.fst).length := by
    rw [SparseRow.values, List.filter_map, List.length_map, List.length_map]
    rfl
  rw [hvalues]
  apply List.Perm.length_eq
  apply (List.perm_ext_iff_of_nodup ?_ (List.nodup_range.filter _)).mpr
  · intro key
    simp only [List.mem_map, List.mem_filter, List.mem_range, Option.isNone_iff_eq_none,
      Option.any_eq_true]
    constructor
    · intro hmem
      obtain ⟨entry, ⟨hentry, hnone⟩, rfl⟩ := hmem
      have hsome := (h.lists.mem_iff entry.1 entry.2).mp hentry
      rw [hnone] at hsome
      exact ⟨hrange entry.1 (by rw [hsome]; rfl), none, hsome, rfl⟩
    · intro hmem
      obtain ⟨-, exception, hsome, rfl⟩ := hmem
      exact ⟨(key, none), ⟨(h.lists.mem_iff key none).mpr hsome, rfl⟩, rfl⟩
  · exact h.lists.nodup.sublist ((List.filter_sublist).map Prod.fst)

theorem len_eq_length {row : ActionRow A} (h : row.Represents m) :
    row.len = row.iter.length := by
  cases row with
  | sparse row => exact SparseRow.len_eq_length row
  | default action exceptions num_terminals =>
      obtain ⟨e, hexceptions, hrange, -⟩ := h
      rw [len, null_exceptions hexceptions hrange, iter, List.length_filterMap_eq_countP,
        ← List.countP_eq_length_filter]
      have hsplit := @List.length_eq_countP_add_countP _ (fun key => (e key).any Option.isNone)
        (List.range num_terminals)
      have hpresent : (List.range num_terminals).countP (fun key =>
          ((exceptional action (exceptions.get key)).map fun a => (key, a)).isSome) =
          (List.range num_terminals).countP fun key => ¬(e key).any Option.isNone := by
        apply List.countP_congr
        intro key _
        rw [SparseRow.get_eq hexceptions, Option.isSome_map]
        cases e key with
        | none => simp [exceptional]
        | some exception => cases exception <;> simp [exceptional]
      rw [List.length_range] at hsplit
      rw [hpresent]
      omega
  | indexed slots eof_slot entries => rfl

theorem eq_iff [DecidableEq A] {row other : ActionRow A} {m' : ℕ → Option A}
    (h : row.Represents m) (h' : other.Represents m') : row.eq other = true ↔ m = m' := by
  rw [← (iter_listing h).eq_iff (iter_listing h'), eq, len_eq_length h, len_eq_length h']
  simp only [get_eq h']
  by_cases hlen : row.iter.length = other.iter.length
  · simp [hlen]
  · simp [hlen]

/-! ## Mutations -/

theorem insert_expanded_spec {row : ActionRow A} (h : row.Represents m) (key : ℕ) (value : A) :
    (row.insert_expanded key value).1 = m key ∧
      (row.insert_expanded key value).2.Represents (Function.update m key (some value)) :=
  SparseRow.insert_spec (expanded_represents h) key value

theorem remove_expanded_spec {row : ActionRow A} (h : row.Represents m) (key : ℕ) :
    (row.remove_expanded key).1 = m key ∧
      (row.remove_expanded key).2.Represents (Function.update m key none) :=
  SparseRow.remove_spec (expanded_represents h) key

/-- Another exception for one terminal is another action for that terminal. -/
theorem default_update {action : A} {exceptions : SparseRow ℕ (Option A)}
    {e : ℕ → Option (Option A)} {num_terminals key : ℕ} {exception : Option (Option A)}
    (h : exceptions.Represents (Function.update e key exception))
    (hrange : ∀ k, (e k).isSome → k < num_terminals) (hkey : key < num_terminals) :
    (default action exceptions num_terminals).Represents (Function.update
      (effective action e num_terminals) key (exceptional action exception)) := by
  refine ⟨_, h, ?_, ?_⟩
  · intro k hk
    rw [Function.update_apply] at hk
    split_ifs at hk with heq
    · exact heq ▸ hkey
    · exact hrange k hk
  · funext k
    rw [effective, Function.update_apply, Function.update_apply]
    split_ifs with heq hle
    · omega
    · rfl
    · rw [effective, if_pos ‹_›]
    · rw [effective, if_neg ‹_›]

theorem effective_of_lt {action : A} {e : ℕ → Option (Option A)} {num_terminals key : ℕ}
    (hkey : ¬num_terminals ≤ key) :
    effective action e num_terminals key = exceptional action (e key) := if_neg hkey

theorem insert_spec [DecidableEq A] {row : ActionRow A} (h : row.Represents m) (key : ℕ)
    (value : A) :
    (row.insert key value).1 = m key ∧
      (row.insert key value).2.Represents (Function.update m key (some value)) := by
  cases row with
  | sparse row => exact insert_expanded_spec h key value
  | indexed slots eof_slot entries => exact insert_expanded_spec h key value
  | default action exceptions num_terminals =>
      rw [insert]
      split_ifs with hkey hvalue
      · exact insert_expanded_spec h key value
      · obtain ⟨e, hexceptions, hrange, rfl⟩ := h
        subst hvalue
        rw [effective_of_lt hkey, SparseRow.get_eq hexceptions]
        exact ⟨rfl, default_update (SparseRow.remove_spec hexceptions key).2 hrange (by omega)⟩
      · obtain ⟨e, hexceptions, hrange, rfl⟩ := h
        rw [effective_of_lt hkey, SparseRow.get_eq hexceptions]
        exact ⟨rfl, default_update (SparseRow.insert_spec hexceptions key (some value)).2 hrange
          (by omega)⟩

theorem remove_spec {row : ActionRow A} (h : row.Represents m) (key : ℕ) :
    (row.remove key).1 = m key ∧
      (row.remove key).2.Represents (Function.update m key none) := by
  cases row with
  | sparse row => exact remove_expanded_spec h key
  | indexed slots eof_slot entries => exact remove_expanded_spec h key
  | default action exceptions num_terminals =>
      obtain ⟨e, hexceptions, hrange, rfl⟩ := h
      have hremove := SparseRow.remove_spec hexceptions key
      have hnull := (SparseRow.insert_spec hexceptions key none).2
      rw [remove]
      split_ifs with hkey
      · have hnone : e key = none := by
          rw [← Option.not_isSome_iff_eq_none]
          intro hsome
          exact absurd (hrange key hsome) (by omega)
        have hmap : effective action e num_terminals key = none := if_pos hkey
        simp only
        rw [hremove.1, hnone, hmap]
        refine ⟨rfl, Function.update e key none, hremove.2, ?_, ?_⟩
        · rw [← hnone, Function.update_eq_self]
          exact hrange
        · rw [← hnone, ← hmap, Function.update_eq_self, Function.update_eq_self]
      · have hlt : key < num_terminals := by omega
        rw [effective_of_lt hkey, SparseRow.get_eq hexceptions]
        cases hvalue : e key with
        | none => exact ⟨rfl, default_update hnull hrange hlt⟩
        | some exception =>
            cases exception with
            | some removed => exact ⟨rfl, default_update hnull hrange hlt⟩
            | none =>
                -- the terminal is a null exception already
                refine ⟨rfl, e, hexceptions, hrange, ?_⟩
                have hmap : effective action e num_terminals key = none := by
                  rw [effective_of_lt hkey, hvalue]
                  rfl
                rw [← hmap, Function.update_eq_self]

theorem get_mut_represents {row : ActionRow A} (h : row.Represents m) (key : ℕ) (f : A → A) :
    (row.get_mut key f).Represents (Function.update m key ((m key).map f)) :=
  SparseRow.get_mut_represents (expanded_represents h) key f

theorem for_each_value_mut_represents {row : ActionRow A} (h : row.Represents m) (f : A → A) :
    (row.for_each_value_mut f).Represents fun key => (m key).map f :=
  SparseRow.for_each_value_mut_represents (expanded_represents h) f

theorem expand_runtime_rows_to_sparse_represents {row : ActionRow A} (h : row.Represents m) :
    row.expand_runtime_rows_to_sparse.Represents m := expanded_represents h

/-! ## Default compression -/

theorem lt_of_countActions [DecidableEq A] {num_terminals : ℕ} {entries : List (ℕ × A)}
    {counts : List (A × ℕ)} (h : countActions num_terminals entries = some counts) :
    ∀ e ∈ entries, e.1 < num_terminals := by
  have hfold : ∀ (entries : List (ℕ × A)) (start counts : List (A × ℕ)),
      entries.foldlM (fun counts e =>
        if num_terminals ≤ e.1 then none else some (countAction e.2 counts)) start =
          some counts → ∀ e ∈ entries, e.1 < num_terminals := by
    intro entries
    induction entries with
    | nil => simp
    | cons e entries ih =>
        intro start counts hcounts f hf
        rw [List.foldlM_cons] at hcounts
        obtain ⟨next, hnext, hrest⟩ := Option.bind_eq_some_iff.mp hcounts
        split_ifs at hnext with hlt
        cases List.mem_cons.mp hf with
        | inl heq =>
            rw [heq]
            omega
        | inr hmem => exact ih next counts hrest f hmem
  exact hfold entries [] counts h

/-- The exceptions that leave exactly the row's actions on the first terminals. -/
def exceptionOf [DecidableEq A] (m : ℕ → Option A) (action : A) (num_terminals : ℕ) :
    ℕ → Option (Option A) :=
  fun key =>
    if num_terminals ≤ key then none
    else if m key = some action then none else some (m key)

theorem exceptionOf_succ [DecidableEq A] (m : ℕ → Option A) (action : A) (n : ℕ) :
    exceptionOf m action (n + 1) =
      if m n = some action then exceptionOf m action n
      else Function.update (exceptionOf m action n) n (some (m n)) := by
  funext key
  by_cases haction : m n = some action
  · rw [if_pos haction]
    unfold exceptionOf
    grind
  · rw [if_neg haction, Function.update_apply]
    unfold exceptionOf
    grind

theorem exceptionsFrom_represents [DecidableEq A] {row : SparseRow ℕ A} (h : row.Represents m)
    (action : A) (num_terminals : ℕ) :
    (exceptionsFrom row action num_terminals).Represents
      (exceptionOf m action num_terminals) := by
  induction num_terminals with
  | zero => exact SparseRow.default_represents
  | succ n ih =>
      rw [exceptionsFrom, List.range_succ, List.foldl_append, List.foldl_cons, List.foldl_nil,
        SparseRow.get_eq h, exceptionOf_succ]
      rw [exceptionsFrom] at ih
      cases hvalue : m n with
      | none =>
          rw [if_neg (by simp)]
          exact (SparseRow.insert_spec ih n none).2
      | some a =>
          simp only [Option.some_inj]
          split_ifs with haction
          · exact ih
          · exact (SparseRow.insert_spec ih n (some a)).2

theorem compressSparse_represents [Runtime] [DecidableEq A] {row : SparseRow ℕ A}
    (h : row.Represents m) (num_terminals : ℕ) :
    (compressSparse row num_terminals).Represents m := by
  unfold compressSparse
  split
  · exact h
  simp only
  split
  · exact h
  split
  · exact h
  rename_i counts hcounts
  split
  · exact h
  split
  · exact h
  rename_i action count _
  split
  · exact h
  refine ⟨_, exceptionsFrom_represents h action num_terminals, ?_, ?_⟩
  · intro key hkey
    unfold exceptionOf at hkey
    grind
  · funext key
    unfold effective exceptionOf
    split_ifs with hkey haction
    · -- the multiplicities were counted, so no entry lies beyond the terminals
      apply h.lists.none_of_forall_ne
      intro e he heq
      have hlt := lt_of_countActions hcounts e he
      omega
    · rw [haction]
      rfl
    · rfl

theorem compress_default_represents [Runtime] [DecidableEq A] {row : ActionRow A}
    (h : row.Represents m) (num_terminals : ℕ) :
    (row.compress_default num_terminals).Represents m := by
  cases row with
  | default action exceptions num_terminals => exact h
  | sparse row => exact compressSparse_represents (expanded_represents h) num_terminals
  | indexed slots eof_slot entries =>
      exact compressSparse_represents (expanded_represents h) num_terminals

end ActionRow

end GlrMask
