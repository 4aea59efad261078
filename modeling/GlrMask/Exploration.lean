import GlrMask.Fuel

/-!
# Numbering keys as they are discovered

A table numbers keys and keeps a row for each. A key that is not numbered yet gets
the next number and joins the worklist; when it is taken from there, its row is
filled and linked to the numbers of its successors. In the end every numbered key
has a full row, and different keys have different numbers.
-/

namespace Exploration

variable {K A R : Type*}

/-- Rows by number, the number of each key, and the keys whose rows are still to be filled. -/
structure Table (K R : Type*) where
  rows : List R
  ids : List (K × ℕ)
  worklist : List (ℕ × K)

def Table.edit (table : Table K R) (id : ℕ) (f : R → R) : Table K R :=
  { table with rows := table.rows.modify id f }

/-- The number of a key. -/
def Table.number [DecidableEq K] (table : Table K R) (key : K) : Option ℕ := table.ids.lookup key

section Operations

variable [DecidableEq K] [Inhabited R]

def get_or_create (table : Table K R) (key : K) : Table K R × ℕ :=
  match table.number key with
  | some existing => (table, existing)
  | none =>
      let id := table.rows.length
      (⟨table.rows ++ [default], (key, id) :: table.ids, table.worklist ++ [(id, key)]⟩, id)

def start_table (key : K) : Table K R := ⟨[default], [(key, 0)], [(0, key)]⟩

/-- Link a row to the number of a key. -/
def link_key (link : A → ℕ → R → R) (id : ℕ) (table : Table K R) (e : A × K) : Table K R :=
  (get_or_create table e.2).1.edit id (link e.1 (get_or_create table e.2).2)

/-- Fill the row of a key that was taken from the worklist. -/
def visit (next : K → List (A × K)) (opened : K → R → R) (link : A → ℕ → R → R)
    (table : Table K R) (id : ℕ) (key : K) : Table K R :=
  (next key).foldl (link_key link id) (table.edit id (opened key))

end Operations

/-! ## Numbers

The keys are listed by their numbers. -/

/-- Entries of a worklist for keys that are numbered from a start. -/
def entries (start : ℕ) (keys : List K) : List (ℕ × K) := (keys.zipIdx start).map Prod.swap

theorem entries_append (start : ℕ) (new new' : List K) :
    entries start (new ++ new') = entries start new ++ entries (start + new.length) new' := by
  rw [entries, List.zipIdx_append, List.map_append]
  rfl

section Numbers

variable [DecidableEq K]

/-- The keys have the numbers of the rows. -/
structure Keyed (table : Table K R) (keys : List K) : Prop where
  nodup : keys.Nodup
  length : table.rows.length = keys.length
  number : ∀ k i, table.number k = some i ↔ keys[i]? = some k

variable {table : Table K R} {keys : List K} {key : K}

theorem Keyed.idxOf (h : Keyed table keys) (hkey : key ∈ keys) :
    table.number key = some (keys.idxOf key) := by
  rw [h.number]
  exact List.getElem?_idxOf hkey

theorem Keyed.mem_iff (h : Keyed table keys) : key ∈ keys ↔ (table.number key).isSome := by
  constructor
  · intro hkey
    rw [h.idxOf hkey, Option.isSome_some]
  · intro hsome
    obtain ⟨i, hi⟩ := Option.isSome_iff_exists.mp hsome
    exact List.mem_of_getElem? ((h.number key i).mp hi)

theorem Keyed.edit (h : Keyed table keys) (id : ℕ) (f : R → R) : Keyed (table.edit id f) keys :=
  ⟨h.nodup, (List.length_modify ..).trans h.length, h.number⟩

variable [Inhabited R]

/-- A key has a number afterwards, which is new unless it had one before. -/
theorem get_or_create_spec (h : Keyed table keys) (key : K) :
    ∃ new : List K, Keyed (get_or_create table key).1 (keys ++ new) ∧
      (get_or_create table key).1.rows = table.rows ++ List.replicate new.length default ∧
      (get_or_create table key).1.worklist = table.worklist ++ entries keys.length new ∧
      (get_or_create table key).2 = (keys ++ new).idxOf key ∧ key ∈ keys ++ new ∧
      ∀ k ∈ new, k = key := by
  by_cases hkey : key ∈ keys
  · refine ⟨[], ?_⟩
    rw [get_or_create, h.idxOf hkey]
    simp only [List.append_nil, List.length_nil, List.replicate_zero, entries, List.zipIdx_nil,
      List.map_nil]
    exact ⟨h, trivial, trivial, trivial, hkey, fun k hk => absurd hk List.not_mem_nil⟩
  · have hnone : table.number key = none := by
      rw [← Option.not_isSome_iff_eq_none, ← h.mem_iff]
      exact hkey
    refine ⟨[key], ?_⟩
    rw [get_or_create, hnone]
    refine ⟨⟨?_, ?_, ?_⟩, rfl, ?_, ?_, by simp, by simp⟩
    · rw [List.nodup_append]
      refine ⟨h.nodup, List.nodup_singleton key, ?_⟩
      intro k hk k' hk' he
      rw [he, List.mem_singleton.mp hk'] at hk
      exact hkey hk
    · simp [h.length]
    · intro k i
      unfold Table.number
      rw [List.lookup_cons]
      by_cases hk : k = key
      · subst hk
        rw [beq_self_eq_true, h.length]
        constructor
        · intro he
          cases he
          rw [List.getElem?_concat_length]
        · intro hget
          obtain hlt | hge := lt_or_ge i keys.length
          · rw [List.getElem?_append_left hlt] at hget
            exact absurd (List.mem_of_getElem? hget) hkey
          · have hlt := (List.getElem?_eq_some_iff.mp hget).1
            rw [List.length_append, List.length_singleton] at hlt
            exact congrArg some (by omega)
      · rw [beq_false_of_ne hk]
        have hold := h.number k i
        unfold Table.number at hold
        dsimp only
        rw [hold]
        constructor
        · intro hget
          rw [List.getElem?_append_left (List.getElem?_eq_some_iff.mp hget).1, hget]
        · intro hget
          obtain hlt | hge := lt_or_ge i keys.length
          · rwa [List.getElem?_append_left hlt] at hget
          · rw [List.getElem?_append_right hge] at hget
            exact absurd (List.mem_singleton.mp (List.mem_of_getElem? hget)) hk
    · simp [entries, h.length]
    · simp [List.idxOf_append_of_notMem hkey, h.length]

/-- Linking a row to some keys. -/
theorem link_keys_spec (link : A → ℕ → R → R) {id : ℕ} (successors : List (A × K))
    (h : Keyed table keys) (hid : id < keys.length) :
    ∃ new : List K, Keyed (successors.foldl (link_key link id) table) (keys ++ new) ∧
      (∀ i, i < keys.length → (successors.foldl (link_key link id) table).rows[i]? =
        (table.rows[i]?).map fun row => if id = i then
          successors.foldl (fun row e => link e.1 ((keys ++ new).idxOf e.2) row) row else row) ∧
      (∀ i, keys.length ≤ i → i < (keys ++ new).length →
        (successors.foldl (link_key link id) table).rows[i]? = some default) ∧
      (successors.foldl (link_key link id) table).worklist =
        table.worklist ++ entries keys.length new ∧
      (∀ e ∈ successors, e.2 ∈ keys ++ new) ∧ ∀ k ∈ new, ∃ e ∈ successors, e.2 = k := by
  induction successors generalizing table keys with
  | nil =>
      refine ⟨[], ?_⟩
      simp only [List.append_nil, List.foldl_nil, entries, List.zipIdx_nil, List.map_nil, ite_self]
      refine ⟨h, fun i _ => by simp, ?_, trivial, ?_, ?_⟩
      · intro i hle hlt
        omega
      · intro e he
        cases he
      · intro k hk
        cases hk
  | cons e successors ih =>
      obtain ⟨new, hkeyed, hrows, hworklist, hnumber, hmem, hnew⟩ := get_or_create_spec h e.2
      have hlink : ∀ i : ℕ, (link_key link id table e).rows[i]? =
          ((table.rows ++ List.replicate new.length default)[i]?).map fun row =>
            if id = i then link e.1 ((keys ++ new).idxOf e.2) row else row := by
        intro i
        rw [link_key, Table.edit, hrows, hnumber, List.getElem?_modify]
        rfl
      have hlinked : Keyed (link_key link id table e) (keys ++ new) := hkeyed.edit id _
      obtain ⟨new', hkeyed', hrows', hdefault, hworklist', hmem', hnew'⟩ := ih hlinked (by
        rw [List.length_append]
        omega)
      refine ⟨new ++ new', ?_⟩
      rw [List.foldl_cons, ← List.append_assoc]
      refine ⟨hkeyed', ?_, ?_, ?_, ?_, ?_⟩
      · intro i hi
        rw [hrows' i (by rw [List.length_append]; omega)]
        rw [hlink, List.getElem?_append_left (h.length ▸ hi), Option.map_map]
        congr 1
        funext row
        simp only [Function.comp_apply]
        split_ifs with he
        · rw [List.foldl_cons, List.idxOf_append_of_mem hmem]
        · rfl
      · intro i hle hlt
        obtain hold | hge := lt_or_ge i (keys ++ new).length
        · rw [hrows' i hold]
          have hne : id ≠ i := by omega
          rw [hlink, List.getElem?_append_right (h.length ▸ hle)]
          have hlt' : i - table.rows.length < new.length := by
            rw [List.length_append] at hold
            rw [h.length]
            omega
          rw [List.getElem?_replicate_of_lt hlt', Option.map_some, Option.map_some, if_neg hne,
            if_neg hne]
        · exact hdefault i hge hlt
      · rw [hworklist', entries_append, List.length_append]
        change (get_or_create table e.2).1.worklist ++ _ = _
        rw [hworklist, List.append_assoc]
      · intro e' he'
        obtain rfl | he' := List.mem_cons.mp he'
        · exact List.mem_append_left _ hmem
        · exact hmem' e' he'
      · intro k hk
        obtain hk | hk := List.mem_append.mp hk
        · exact ⟨e, List.mem_cons_self, (hnew k hk).symm⟩
        · obtain ⟨e', he', hke⟩ := hnew' k hk
          exact ⟨e', List.mem_cons_of_mem _ he', hke⟩

end Numbers

/-! ## Runs -/

section Runs

variable [DecidableEq K] [Inhabited R] (next : K → List (A × K)) (opened : K → R → R)
  (link : A → ℕ → R → R)

/-- The full row of a key. -/
def fullRow (keys : List K) (k : K) : R :=
  (next k).foldl (fun row e => link e.1 (keys.idxOf e.2) row) (opened k default)

/-- A key that is found from another one. -/
def Successor (k k' : K) : Prop := ∃ a, (a, k') ∈ next k

/-- The first keys have full rows, and the others are on the worklist. -/
structure Exploring (start : K) (table : Table K R) (keys : List K) (done : ℕ) : Prop where
  keyed : Keyed table keys
  done_le : done ≤ keys.length
  worklist : table.worklist = entries done (keys.drop done)
  full : ∀ (i : ℕ) k, i < done → keys[i]? = some k →
    table.rows[i]? = some (fullRow next opened link keys k)
  successors : ∀ (i : ℕ) k, i < done → keys[i]? = some k → ∀ e ∈ next k, e.2 ∈ keys
  empty : ∀ i, done ≤ i → i < keys.length → table.rows[i]? = some default
  first : keys[0]? = some start
  reached : ∀ k ∈ keys, Relation.ReflTransGen (Successor next) start k

variable {next opened link} {start : K} {table : Table K R} {keys : List K} {done : ℕ}

theorem exploring_start : Exploring next opened link start (start_table start) [start] 0 := by
  refine ⟨⟨List.nodup_singleton start, rfl, ?_⟩, Nat.zero_le _, rfl, ?_, ?_, ?_, rfl, ?_⟩
  · intro k i
    unfold Table.number start_table
    rw [List.lookup_cons]
    by_cases hk : k = start
    · subst hk
      rw [beq_self_eq_true]
      cases i with
      | zero => simp
      | succ i => simp
    · rw [beq_false_of_ne hk]
      cases i with
      | zero => simp [Ne.symm hk]
      | succ i => simp
  · intro i k hi
    exact absurd hi (Nat.not_lt_zero i)
  · intro i k hi
    exact absurd hi (Nat.not_lt_zero i)
  · intro i _ hi
    obtain rfl : i = 0 := Nat.lt_one_iff.mp hi
    rfl
  · intro k hk
    rw [List.mem_singleton.mp hk]

theorem fullRow_append {k : K} (h : ∀ e ∈ next k, e.2 ∈ keys) (new : List K) :
    fullRow next opened link (keys ++ new) k = fullRow next opened link keys k := by
  unfold fullRow
  apply List.foldl_ext
  intro row e he
  rw [List.idxOf_append_of_mem (h e he)]

/-- A visit fills the row of the next key. -/
theorem Exploring.visit (h : Exploring next opened link start table keys done) {id : ℕ} {key : K}
    {rest : List (ℕ × K)} (hworklist : table.worklist = (id, key) :: rest) :
    keys[done]? = some key ∧ table.number key = some id ∧ ∃ new, Exploring next opened link start
      (visit next opened link { table with worklist := rest } id key) (keys ++ new) (done + 1) := by
  have hdrop := h.worklist.symm.trans hworklist
  have hlt : done < keys.length := by
    by_contra hge
    rw [List.drop_of_length_le (not_lt.mp hge)] at hdrop
    cases hdrop
  rw [List.drop_eq_getElem_cons hlt] at hdrop
  obtain ⟨hhead, hrest⟩ := List.cons.inj hdrop
  obtain ⟨hid, hkey⟩ := Prod.mk.inj hhead
  have hget : keys[done]? = some key := hkey ▸ List.getElem?_eq_getElem hlt
  obtain rfl : done = id := hid
  refine ⟨hget, (h.keyed.number key done).mpr hget, ?_⟩
  have hpopped : Keyed { table with worklist := rest } keys :=
    ⟨h.keyed.nodup, h.keyed.length, h.keyed.number⟩
  have hedited := hpopped.edit done (opened key)
  obtain ⟨new, hkeyed, hrows, hdefault, hlist, hmem, hnew⟩ :=
    link_keys_spec link (next key) hedited hlt
  have hedit : ∀ i : ℕ, (Table.edit { table with worklist := rest } done (opened key)).rows[i]? =
      (table.rows[i]?).map fun row => if done = i then opened key row else row := by
    intro i
    rw [Table.edit, List.getElem?_modify]
    rfl
  have hkeys : ∀ (i : ℕ) k, i < done + 1 → (keys ++ new)[i]? = some k →
      i < keys.length ∧ keys[i]? = some k := by
    intro i k hi hk
    have hilt : i < keys.length := by omega
    exact ⟨hilt, (List.getElem?_append_left hilt).symm.trans hk⟩
  refine ⟨new, hkeyed, ?_, ?_, ?_, ?_, ?_, ?_, ?_⟩
  · rw [List.length_append]
    omega
  · rw [Exploration.visit, hlist, List.drop_append_of_le_length hlt, entries_append,
      List.length_drop]
    change rest ++ _ = _
    rw [← hrest, show done + 1 + (keys.length - (done + 1)) = keys.length by omega]
    rfl
  · intro i k hi hk
    obtain ⟨hilt, hk⟩ := hkeys i k hi hk
    rw [Exploration.visit, hrows i hilt, hedit]
    obtain hlower | rfl := Nat.lt_succ_iff_lt_or_eq.mp hi
    · have hne : done ≠ i := by omega
      rw [h.full i k hlower hk, Option.map_some, Option.map_some, if_neg hne, if_neg hne,
        fullRow_append (h.successors i k hlower hk)]
    · obtain rfl : key = k := Option.some.inj (hget.symm.trans hk)
      rw [h.empty i le_rfl hilt, Option.map_some, Option.map_some, if_pos rfl, if_pos rfl]
      rfl
  · intro i k hi hk e he
    obtain ⟨hilt, hk⟩ := hkeys i k hi hk
    obtain hlower | rfl := Nat.lt_succ_iff_lt_or_eq.mp hi
    · exact List.mem_append_left _ (h.successors i k hlower hk e he)
    · obtain rfl : key = k := Option.some.inj (hget.symm.trans hk)
      exact hmem e he
  · intro i hle hi
    obtain hilt | hge := lt_or_ge i keys.length
    · have hne : done ≠ i := by omega
      rw [Exploration.visit, hrows i hilt, hedit, h.empty i (by omega) hilt, Option.map_some,
        Option.map_some, if_neg hne, if_neg hne]
    · exact hdefault i hge hi
  · rw [List.getElem?_append_left (by omega)]
    exact h.first
  · intro k hk
    obtain hk | hk := List.mem_append.mp hk
    · exact h.reached k hk
    · obtain ⟨e, he, rfl⟩ := hnew k hk
      exact (h.reached key (List.mem_of_getElem? hget)).tail ⟨e.1, he⟩

/-- All keys have full rows. -/
abbrev Explored (next : K → List (A × K)) (opened : K → R → R) (link : A → ℕ → R → R) (start : K)
    (table : Table K R) (keys : List K) : Prop :=
  Exploring next opened link start table keys keys.length

theorem Exploring.explored (h : Exploring next opened link start table keys done)
    (hworklist : table.worklist = []) : Explored next opened link start table keys := by
  have hlength : done = keys.length := by
    have hdrop := congrArg List.length (h.worklist.symm.trans hworklist)
    simp only [entries, List.length_map, List.length_zipIdx, List.length_drop, List.length_nil] at hdrop
    have := h.done_le
    omega
  rw [Explored, ← hlength]
  exact h

theorem Exploring.length_worklist (h : Exploring next opened link start table keys done) :
    table.worklist.length + done = table.rows.length := by
  rw [h.worklist, h.keyed.length, entries, List.length_map, List.length_zipIdx, List.length_drop]
  have := h.done_le
  omega

section Loop

open GlrMask

variable {σ : Type*} (table_of : σ → Table K R) (ok : σ → Prop) {step : σ → Option (Option σ)}
  {U : Finset K}

/-- A loop whose steps visit the next key explores all keys, when they are in a finite set. -/
theorem explore_yields (hclosed : ∀ k ∈ U, ∀ e ∈ next k, e.2 ∈ U)
    (hstop : ∀ s, ok s → (table_of s).worklist = [] → step s = some none)
    (hvisit : ∀ s id key rest, ok s → (table_of s).worklist = (id, key) :: rest → key ∈ U →
      (table_of s).number key = some id →
      ∃ s', step s = some (some s') ∧ ok s' ∧
        table_of s' = visit next opened link { table_of s with worklist := rest } id key)
    {s : σ} (hs : ok s) (hstart : table_of s = start_table start) (hU : start ∈ U) :
    ∃ s', Yields (fun fuel => loop (fun _ => step) fuel s) s' ∧ ok s' ∧
      ∃ keys, Explored next opened link start (table_of s') keys ∧ ∀ k ∈ keys, k ∈ U := by
  have hmem : ∀ k, Relation.ReflTransGen (Successor next) start k → k ∈ U := by
    intro k hk
    induction hk with
    | refl => exact hU
    | tail _ hstep ih =>
        obtain ⟨a, ha⟩ := hstep
        exact hclosed _ ih _ ha
  have hstep : ∀ s, (ok s ∧ ∃ keys done, Exploring next opened link start (table_of s) keys done) →
      Yields (fun _ => step s) none ∨ ∃ s', Yields (fun _ => step s) (some s') ∧
        (ok s' ∧ ∃ keys done, Exploring next opened link start (table_of s') keys done) ∧
        U.card + (table_of s').worklist.length - (table_of s').rows.length <
          U.card + (table_of s).worklist.length - (table_of s).rows.length := by
    intro s hI
    obtain ⟨hok, keys, done, hexploring⟩ := hI
    cases hworklist : (table_of s).worklist with
    | nil =>
        left
        rw [hstop s hok hworklist]
        exact Yields.const none
    | cons entry rest =>
        right
        obtain ⟨id, key⟩ := entry
        obtain ⟨hkey, hnumber, new, hnext⟩ := hexploring.visit hworklist
        have hU' := hmem _ (hexploring.reached _ (List.mem_of_getElem? hkey))
        obtain ⟨s', hs', hok', htable⟩ := hvisit s id key rest hok hworklist hU' hnumber
        rw [← htable] at hnext
        refine ⟨s', ?_, ⟨hok', _, _, hnext⟩, ?_⟩
        · rw [hs']
          exact Yields.const (some s')
        · -- one more row is full, and there are no more rows than keys
          have hlt := (List.getElem?_eq_some_iff.mp hkey).1
          have hlength := hexploring.length_worklist
          have hlength' := hnext.length_worklist
          have hcard : keys.length ≤ U.card := by
            rw [← List.toFinset_card_of_nodup hexploring.keyed.nodup]
            exact Finset.card_le_card fun k hk =>
              hmem k (hexploring.reached k (List.mem_toFinset.mp hk))
          have hrows := hexploring.keyed.length
          rw [hworklist] at hlength
          omega
  obtain ⟨s', hy, ⟨hok, keys, done, hexploring⟩, hend⟩ := loop_yields
    (measure fun s => U.card + (table_of s).worklist.length - (table_of s).rows.length).wf hstep
    ⟨hs, [start], 0, hstart ▸ exploring_start⟩
  refine ⟨s', hy, hok, keys, ?_, fun k hk => hmem k (hexploring.reached k hk)⟩
  apply hexploring.explored
  cases hworklist : (table_of s').worklist with
  | nil => rfl
  | cons entry rest =>
      obtain ⟨id, key⟩ := entry
      obtain ⟨hkey, hnumber, -⟩ := hexploring.visit hworklist
      obtain ⟨s'', hs'', -⟩ := hvisit s' id key rest hok hworklist
        (hmem _ (hexploring.reached _ (List.mem_of_getElem? hkey))) hnumber
      obtain ⟨enough, henough⟩ := hend
      have hnone := henough enough le_rfl
      rw [hs''] at hnone
      cases hnone

end Loop

end Runs

end Exploration
