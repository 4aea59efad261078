import GlrMask.BoundaryWeights
import GlrMask.SortedMap

/-!
# Derived rows

A derived row gives each target at most one weight. Finished rows are stored
either as vectors or packed into one 64-bit handle, which describes an empty
row, a single entry or a span of a shared vector.
-/

namespace GlrMask

/-- The entries of the hash map are kept in target order, the order in which finished rows are
sorted before anything but their length is read. -/
inductive FastBoundaryDerivedRow
  | empty
  | one (target weight : ℕ)
  | many (entries : SortedMap ℕ ℕ)

namespace FastBoundaryDerivedRow

def merge (row : FastBoundaryDerivedRow) (target add : ℕ) (interner : FastBoundaryWeightInterner) :
    FastBoundaryDerivedRow × FastBoundaryWeightInterner :=
  if add = 0 then (row, interner)
  else match row with
    | empty => (one target add, interner)
    | one existing_target existing =>
        if existing_target = target then
          let merged := interner.union existing add
          (one existing_target merged.1, merged.2)
        else (many ((SortedMap.empty.insert existing_target existing).insert target add), interner)
    | many entries =>
        match entries.get target with
        | none => (many (entries.insert target add), interner)
        | some existing =>
            let merged := interner.union existing add
            (many (entries.insert target merged.1), merged.2)

def get (row : FastBoundaryDerivedRow) (target : ℕ) : ℕ :=
  match row with
  | empty => 0
  | one existing_target weight => if existing_target = target then weight else 0
  | many entries => (entries.get target).getD 0

def into_entries : FastBoundaryDerivedRow → List (ℕ × ℕ)
  | empty => []
  | one target weight => [(target, weight)]
  | many entries => entries.entries

def len (row : FastBoundaryDerivedRow) : ℕ := row.into_entries.length

/-- The weight of a target, if the row has one. -/
def weight? (row : FastBoundaryDerivedRow) (target : ℕ) : Option ℕ :=
  SortedMap.lookupEntry row.into_entries target

theorem into_entries_sorted (row : FastBoundaryDerivedRow) :
    row.into_entries.Pairwise fun a b => a.1 < b.1 := by
  cases row with
  | empty => exact List.Pairwise.nil
  | one => exact List.pairwise_singleton _ _
  | many entries => exact entries.sorted

theorem weight?_eq_some_iff {row : FastBoundaryDerivedRow} {target weight : ℕ} :
    row.weight? target = some weight ↔ (target, weight) ∈ row.into_entries :=
  ⟨SortedMap.lookupEntry_eq_some, SortedMap.lookupEntry_of_mem row.into_entries_sorted⟩

theorem get_eq (row : FastBoundaryDerivedRow) (target : ℕ) :
    row.get target = (row.weight? target).getD 0 := by
  cases row with
  | empty => rfl
  | one existing_target weight =>
      simp only [get, weight?, into_entries, SortedMap.lookupEntry]
      split_ifs <;> rfl
  | many entries => rfl

/-- What merging does to the weight of every target. -/
theorem weight?_merge (row : FastBoundaryDerivedRow) (target : ℕ) {add : ℕ} (hadd : add ≠ 0)
    (interner : FastBoundaryWeightInterner) (key : ℕ) :
    (row.merge target add interner).1.weight? key =
      if target = key then
        some (match row.weight? target with
          | none => add
          | some existing => (interner.union existing add).1)
      else row.weight? key := by
  unfold merge
  rw [if_neg hadd]
  cases row with
  | empty => rfl
  | one existing_target existing =>
      by_cases he : existing_target = target
      · subst he
        simp only [weight?, into_entries, SortedMap.lookupEntry, if_true]
        split_ifs <;> rfl
      · dsimp only
        rw [if_neg he]
        have hget : ((SortedMap.empty.insert existing_target existing).insert target add).get key =
            if target = key then some add
            else if existing_target = key then some existing else none := by
          rw [SortedMap.get_insert, SortedMap.get_insert, SortedMap.get_empty]
        change SortedMap.get _ key = _
        rw [hget]
        simp only [weight?, into_entries, SortedMap.lookupEntry, if_neg he]
  | many entries =>
      dsimp only
      have hold : (many entries).weight? target = entries.get target := rfl
      rw [hold]
      cases entries.get target with
      | none => exact SortedMap.get_insert entries target key add
      | some existing => exact SortedMap.get_insert entries target key _

theorem merge_interner (row : FastBoundaryDerivedRow) (target : ℕ) {add : ℕ} (hadd : add ≠ 0)
    (interner : FastBoundaryWeightInterner) :
    (row.merge target add interner).2 =
      match row.weight? target with
      | none => interner
      | some existing => (interner.union existing add).2 := by
  unfold merge
  rw [if_neg hadd]
  cases row with
  | empty => rfl
  | one existing_target existing =>
      by_cases he : existing_target = target
      · simp [weight?, into_entries, SortedMap.lookupEntry, he]
      · simp [weight?, into_entries, SortedMap.lookupEntry, he]
  | many entries =>
      dsimp only
      have hold : (many entries).weight? target = entries.get target := rfl
      rw [hold]
      cases entries.get target <;> rfl

end FastBoundaryDerivedRow

/-! ## What a row means -/

/-- The entries give exactly the points of every target, and every target is allowed. -/
structure Lists (interner : FastBoundaryWeightInterner) (allowed : ℕ → Prop)
    (entries : List (ℕ × ℕ)) (points : ℕ → Set (ℕ × ℕ)) : Prop where
  allowed : ∀ e ∈ entries, allowed e.1
  means : ∀ e ∈ entries, interner.Means e.2 (points e.1)
  nonzero : interner.failed = false → ∀ e ∈ entries, e.2 ≠ 0
  complete : interner.failed = false → ∀ target, (points target).Nonempty →
    ∃ weight, (target, weight) ∈ entries

section

variable {interner after : FastBoundaryWeightInterner} {allowed : ℕ → Prop}
  {entries : List (ℕ × ℕ)} {points points' : ℕ → Set (ℕ × ℕ)} {row : FastBoundaryDerivedRow}
  {target add : ℕ} {more : Set (ℕ × ℕ)}

theorem Lists.later (h : Lists interner allowed entries points) (hafter : interner.Extends after) :
    Lists after allowed entries points :=
  ⟨h.allowed, fun e he => (h.means e he).later hafter, fun hf => h.nonzero (hafter.failed hf),
    fun hf => h.complete (hafter.failed hf)⟩

theorem Lists.congr (h : Lists interner allowed entries points)
    (he : interner.failed = false → ∀ target, points target = points' target) :
    Lists interner allowed entries points' := by
  apply Lists.mk h.allowed
  · intro e hmem
    exact (h.means e hmem).congr fun hf => he hf e.1
  · exact h.nonzero
  · intro hf target hne
    exact h.complete hf target (he hf target ▸ hne)

theorem Lists.weaken {allowed' : ℕ → Prop} (h : Lists interner allowed entries points)
    (ha : ∀ target, allowed target → allowed' target) : Lists interner allowed' entries points :=
  ⟨fun e he => ha _ (h.allowed e he), h.means, h.nonzero, h.complete⟩

theorem Lists.nil (allowed : ℕ → Prop) (hempty : ∀ target, points target = ∅) :
    Lists interner allowed [] points := by
  apply Lists.mk
  · simp
  · simp
  · simp
  · intro _ target hne
    rw [hempty] at hne
    exact absurd hne Set.not_nonempty_empty

/-- Merging adds the points of the new weight to those of its target. -/
structure Merged (before : FastBoundaryWeightInterner) (allowed : ℕ → Prop)
    (result : FastBoundaryDerivedRow × FastBoundaryWeightInterner) (points : ℕ → Set (ℕ × ℕ)) :
    Prop where
  sound : result.2.Sound
  keeps : before.Extends result.2
  lists : Lists result.2 allowed result.1.into_entries points

theorem union_ne_zero (h : interner.Sound) {left right : ℕ} {s t : Set (ℕ × ℕ)}
    (hl : interner.Means left s) (hr : interner.Means right t) (hne : right ≠ 0)
    (hf : (interner.union left right).2.failed = false) : (interner.union left right).1 ≠ 0 := by
  have hres := FastBoundaryWeightInterner.union_means h hl hr
  intro hzero
  have hempty : s ∪ t = ∅ := by
    rw [← hres.means hf, hzero]
    exact hres.sound.den_zero
  apply hne
  apply (h.den_eq_empty_iff hr.valid).mp
  rw [hr.den (hres.keeps.failed hf)]
  exact (Set.union_empty_iff.mp hempty).2

theorem merge_spec (h : interner.Sound) (hrow : Lists interner allowed row.into_entries points)
    (hadd : interner.Means add more) (htarget : add ≠ 0 → allowed target) :
    Merged interner allowed (row.merge target add interner)
      (fun key => points key ∪ {p | key = target ∧ p ∈ more}) := by
  by_cases hzero : add = 0
  · subst hzero
    rw [show row.merge target 0 interner = (row, interner) from if_pos rfl]
    refine ⟨h, FastBoundaryWeightInterner.Extends.refl interner, hrow.congr fun hf key => ?_⟩
    have hempty : more = ∅ := (hadd.den hf).symm.trans h.den_zero
    simp [hempty]
  have hweight := row.weight?_merge target hzero interner
  have hinterner := row.merge_interner target hzero interner
  generalize row.merge target add interner = result at hweight hinterner
  obtain ⟨row', after⟩ := result
  dsimp only at hweight hinterner
  have hsame : ∀ key, key ≠ target →
      points key ∪ {p | key = target ∧ p ∈ more} = points key := fun key hkey => by
    simp [hkey]
  have hself : points target ∪ {p | target = target ∧ p ∈ more} = points target ∪ more := by simp
  -- The interner grows at most by the new weight of the target.
  obtain ⟨hsound, hkeeps, weight, hself', hmeans, hne⟩ : after.Sound ∧ interner.Extends after ∧
      ∃ weight, row'.weight? target = some weight ∧ after.Means weight (points target ∪ more) ∧
        (after.failed = false → weight ≠ 0) := by
    have hat := hweight target
    rw [if_pos rfl] at hat
    cases hold : row.weight? target with
    | none =>
        rw [hold] at hat hinterner
        subst hinterner
        refine ⟨h, FastBoundaryWeightInterner.Extends.refl _, add, hat, ?_, fun _ => hzero⟩
        apply hadd.congr
        intro hf
        have hnone : points target = ∅ := by
          apply Set.not_nonempty_iff_eq_empty.mp
          intro hp
          obtain ⟨weight, hmem⟩ := hrow.complete hf target hp
          rw [← FastBoundaryDerivedRow.weight?_eq_some_iff, hold] at hmem
          cases hmem
        rw [hnone, Set.empty_union]
    | some existing =>
        rw [hold] at hat hinterner
        subst hinterner
        have hexisting := hrow.means _ (FastBoundaryDerivedRow.weight?_eq_some_iff.mp hold)
        have hres := FastBoundaryWeightInterner.union_means h hexisting hadd
        exact ⟨hres.sound, hres.keeps, _, hat, hres.means_self,
          union_ne_zero h hexisting hadd hzero⟩
  refine ⟨hsound, hkeeps, ?_⟩
  have hcases : ∀ e ∈ row'.into_entries,
      e = (target, weight) ∨ e.1 ≠ target ∧ e ∈ row.into_entries := by
    rintro ⟨key, w⟩ he
    have hw := FastBoundaryDerivedRow.weight?_eq_some_iff.mpr he
    by_cases hkey : key = target
    · subst hkey
      rw [hself'] at hw
      exact Or.inl (by rw [Option.some.inj hw])
    · rw [hweight, if_neg (Ne.symm hkey)] at hw
      exact Or.inr ⟨hkey, FastBoundaryDerivedRow.weight?_eq_some_iff.mp hw⟩
  apply Lists.mk
  · intro e he
    rcases hcases e he with rfl | ⟨-, hmem⟩
    · exact htarget hzero
    · exact hrow.allowed e hmem
  · intro e he
    rcases hcases e he with rfl | ⟨hkey, hmem⟩
    · rw [hself]
      exact hmeans
    · rw [hsame _ hkey]
      exact (hrow.means e hmem).later hkeeps
  · intro hf e he
    rcases hcases e he with rfl | ⟨-, hmem⟩
    · exact hne hf
    · exact hrow.nonzero (hkeeps.failed hf) e hmem
  · intro hf key hp
    by_cases hkey : key = target
    · subst hkey
      exact ⟨weight, FastBoundaryDerivedRow.weight?_eq_some_iff.mp hself'⟩
    · rw [hsame key hkey] at hp
      obtain ⟨w, hmem⟩ := hrow.complete (hkeeps.failed hf) key hp
      refine ⟨w, FastBoundaryDerivedRow.weight?_eq_some_iff.mp ?_⟩
      rw [hweight, if_neg (Ne.symm hkey)]
      exact FastBoundaryDerivedRow.weight?_eq_some_iff.mpr hmem

end

/-! ## Stored rows -/

/-- Storage for finished rows. -/
class ResultRows (Rows : Type) where
  Handle : Type
  EMPTY : Handle
  new : Rows
  push : Rows → FastBoundaryDerivedRow → Option (Handle × Rows)
  row_len : Rows → Handle → ℕ
  pair : Rows → Handle → ℕ → ℕ × ℕ

/-- The pairs of a stored row, in the order in which a caller reads them. -/
def ResultRows.pairs {Rows : Type} [ResultRows Rows] (rows : Rows) (handle : Handle Rows) :
    List (ℕ × ℕ) :=
  (List.range (row_len rows handle)).map (pair rows handle)

open ResultRows in
/-- A storage that gives back what was pushed, however much is pushed later. -/
class LawfulResultRows (Rows : Type) [ResultRows Rows] where
  Stored : Rows → Handle Rows → List (ℕ × ℕ) → Prop
  stored_empty : Stored new EMPTY []
  pairs_eq : ∀ {rows : Rows} {handle entries}, Stored rows handle entries →
    pairs rows handle = entries
  push_stored : ∀ {rows after : Rows} {row handle}, push rows row = some (handle, after) →
    Stored after handle row.into_entries
  push_keeps : ∀ {rows after : Rows} {row handle old entries},
    push rows row = some (handle, after) → Stored rows old entries → Stored after old entries

structure VectorRows where
  rows : List (List (ℕ × ℕ))

namespace VectorRows

def push (self : VectorRows) (row : FastBoundaryDerivedRow) : Option (ℕ × VectorRows) :=
  some (self.rows.length, ⟨self.rows ++ [row.into_entries]⟩)

def row_len (self : VectorRows) (id : ℕ) : ℕ := ((self.rows[id]?).getD []).length

def pair (self : VectorRows) (id index : ℕ) : ℕ × ℕ :=
  (((self.rows[id]?).getD [])[index]?).getD (0, 0)

instance : ResultRows VectorRows where
  Handle := ℕ
  EMPTY := (0 : ℕ)
  new := ⟨[[]]⟩
  push := push
  row_len := row_len
  pair := pair

instance : LawfulResultRows VectorRows where
  Stored rows (id : ℕ) entries := rows.rows[id]? = some entries
  stored_empty := rfl
  pairs_eq {rows handle entries} h := by
    have hlen : rows.row_len handle = entries.length := by
      rw [row_len, h]
      rfl
    change (List.range (rows.row_len handle)).map (rows.pair handle) = entries
    apply List.ext_getElem
    · rw [List.length_map, List.length_range, hlen]
    · intro i hi hi'
      rw [List.getElem_map, List.getElem_range, pair, h, Option.getD_some,
        List.getElem?_eq_getElem hi', Option.getD_some]
  push_stored {rows after row handle} h := by
    obtain ⟨rfl, rfl⟩ := Prod.mk.inj (Option.some.inj h)
    change (rows.rows ++ [row.into_entries])[rows.rows.length]? = some row.into_entries
    simp
  push_keeps {rows after row handle old entries} h hold := by
    obtain ⟨rfl, rfl⟩ := Prod.mk.inj (Option.some.inj h)
    exact (List.getElem?_append_left (List.getElem?_eq_some_iff.mp hold).1).trans hold

end VectorRows

/-- A 64-bit handle: zero, a target and its nonzero weight, or a tagged length and offset. -/
abbrev PackedHandle := ℕ

namespace PackedHandle

def MULTI : ℕ := 2 ^ 63

def MAX_PAIRS : ℕ := 4000000

/-- Targets and weights are 32-bit words, so only the weight zero has to be refused besides
targets that reach the tag bit. -/
def singleton (target weight : ℕ) : Option PackedHandle :=
  if 2 ^ 31 ≤ target ∨ weight = 0 ∨ 2 ^ 32 ≤ weight then none
  else some (target * 2 ^ 32 + weight)

def span (start len limit : ℕ) : Option PackedHandle :=
  if ¬(2 ≤ len ∧ len < 2 ^ 31) ∨ usizeMax < start + len ∨ min limit MAX_PAIRS < start + len then none
  else if 2 ^ 32 ≤ start then none
  else some (MULTI + len * 2 ^ 32 + start)

def len (handle : PackedHandle) : ℕ :=
  if MULTI ≤ handle then handle / 2 ^ 32 % 2 ^ 31 else if handle ≠ 0 then 1 else 0

end PackedHandle

structure PackedRows where
  entries : List (ℕ × ℕ)
  pair_limit : ℕ

namespace PackedRows

open PackedHandle

def push (self : PackedRows) (row : FastBoundaryDerivedRow) :
    Option (PackedHandle × PackedRows) :=
  match row with
  | .empty => some (0, self)
  | .one target weight => (singleton target weight).map fun handle => (handle, self)
  | .many entries =>
      match entries.entries with
      | [] => some (0, self)
      | [e] => (singleton e.1 e.2).map fun handle => (handle, self)
      | _ =>
          (span self.entries.length entries.entries.length self.pair_limit).map fun handle =>
            (handle, ⟨self.entries ++ entries.entries, self.pair_limit⟩)

def pair (self : PackedRows) (handle : PackedHandle) (index : ℕ) : ℕ × ℕ :=
  if MULTI ≤ handle then (self.entries[handle % 2 ^ 32 + index]?).getD (0, 0)
  else (handle / 2 ^ 32, handle % 2 ^ 32)

instance : ResultRows PackedRows where
  Handle := PackedHandle
  EMPTY := (0 : ℕ)
  new := ⟨[], MAX_PAIRS⟩
  push := push
  row_len := fun _ handle => len handle
  pair := pair

/-- The three kinds of handle. -/
inductive Stored (rows : PackedRows) : PackedHandle → List (ℕ × ℕ) → Prop
  | empty : Stored rows 0 []
  | singleton (target weight : ℕ) (htarget : target < 2 ^ 31) (hzero : 0 < weight)
      (hweight : weight < 2 ^ 32) : Stored rows (target * 2 ^ 32 + weight) [(target, weight)]
  | span (start : ℕ) (entries : List (ℕ × ℕ)) (hlen : entries.length < 2 ^ 31)
      (hstart : start < 2 ^ 32)
      (hentries : ∀ i, i < entries.length → rows.entries[start + i]? = entries[i]?) :
      Stored rows (MULTI + entries.length * 2 ^ 32 + start) entries

theorem stored_of_singleton {rows : PackedRows} {target weight : ℕ} {handle : PackedHandle}
    (h : PackedHandle.singleton target weight = some handle) :
    Stored rows handle [(target, weight)] := by
  unfold PackedHandle.singleton at h
  split_ifs at h with hbad
  obtain rfl := Option.some.inj h
  push Not at hbad
  exact Stored.singleton target weight hbad.1 (Nat.pos_of_ne_zero hbad.2.1) hbad.2.2

theorem span_eq_some {start len limit : ℕ} {handle : PackedHandle}
    (h : PackedHandle.span start len limit = some handle) :
    len < 2 ^ 31 ∧ start < 2 ^ 32 ∧ handle = MULTI + len * 2 ^ 32 + start := by
  unfold PackedHandle.span at h
  split_ifs at h with hbad hstart
  push Not at hbad
  exact ⟨hbad.1.2, not_le.mp hstart, (Option.some.inj h).symm⟩

theorem Stored.pairs_eq {rows : PackedRows} {handle : PackedHandle} {entries : List (ℕ × ℕ)}
    (h : Stored rows handle entries) : (List.range (len handle)).map (rows.pair handle) = entries := by
  cases h with
  | empty => rfl
  | singleton target weight htarget hzero hweight =>
      have hmulti : ¬MULTI ≤ target * 2 ^ 32 + weight := by
        unfold MULTI
        omega
      have hlen : len (target * 2 ^ 32 + weight) = 1 := by
        rw [len, if_neg hmulti, if_pos (show target * 2 ^ 32 + weight ≠ 0 by omega)]
      rw [hlen, List.range_one, List.map_singleton, pair, if_neg hmulti]
      congr 2 <;> omega
  | span start entries hlen hstart hentries =>
      have hmulti : MULTI ≤ MULTI + entries.length * 2 ^ 32 + start := by omega
      have hlen : len (MULTI + entries.length * 2 ^ 32 + start) = entries.length := by
        rw [len, if_pos hmulti]
        unfold MULTI
        omega
      have hoffset : (MULTI + entries.length * 2 ^ 32 + start) % 2 ^ 32 = start := by
        unfold MULTI
        omega
      rw [hlen]
      apply List.ext_getElem
      · rw [List.length_map, List.length_range]
      · intro i hi hi'
        rw [List.getElem_map, List.getElem_range, pair, if_pos hmulti, hoffset, hentries i hi',
          List.getElem?_eq_getElem hi', Option.getD_some]

theorem Stored.append {rows : PackedRows} {handle : PackedHandle} {entries : List (ℕ × ℕ)}
    (h : Stored rows handle entries) (more : List (ℕ × ℕ)) :
    Stored ⟨rows.entries ++ more, rows.pair_limit⟩ handle entries := by
  cases h with
  | empty => exact Stored.empty
  | singleton target weight htarget hzero hweight =>
      exact Stored.singleton target weight htarget hzero hweight
  | span start entries hlen hstart hentries =>
      apply Stored.span start entries hlen hstart
      intro i hi
      have hget := hentries i hi
      rw [List.getElem?_eq_getElem hi] at hget ⊢
      exact (List.getElem?_append_left (List.getElem?_eq_some_iff.mp hget).1).trans hget

/-- A push stores the entries and at most appends to the shared vector. -/
theorem push_spec {rows after : PackedRows} {row : FastBoundaryDerivedRow} {handle : PackedHandle}
    (h : rows.push row = some (handle, after)) : Stored after handle row.into_entries ∧
      ∃ more, after = ⟨rows.entries ++ more, rows.pair_limit⟩ := by
  have hsame : rows = ⟨rows.entries ++ [], rows.pair_limit⟩ := by rw [List.append_nil]
  cases row with
  | empty =>
      obtain ⟨rfl, rfl⟩ := Prod.mk.inj (Option.some.inj h)
      exact ⟨Stored.empty, [], hsame⟩
  | one target weight =>
      obtain ⟨found, hfound, he⟩ := Option.map_eq_some_iff.mp h
      obtain ⟨rfl, rfl⟩ := Prod.mk.inj he
      exact ⟨stored_of_singleton hfound, [], hsame⟩
  | many entries =>
      simp only [push] at h
      change Stored after handle entries.entries ∧ _
      split at h
      · rename_i hnil
        obtain ⟨rfl, rfl⟩ := Prod.mk.inj (Option.some.inj h)
        rw [hnil]
        exact ⟨Stored.empty, [], hsame⟩
      · rename_i e hsingle
        obtain ⟨found, hfound, he⟩ := Option.map_eq_some_iff.mp h
        obtain ⟨rfl, rfl⟩ := Prod.mk.inj he
        rw [hsingle]
        exact ⟨stored_of_singleton hfound, [], hsame⟩
      · obtain ⟨found, hfound, he⟩ := Option.map_eq_some_iff.mp h
        obtain ⟨rfl, rfl⟩ := Prod.mk.inj he
        obtain ⟨hlen, hstart, rfl⟩ := span_eq_some hfound
        refine ⟨Stored.span _ _ hlen hstart fun i hi => ?_, _, rfl⟩
        rw [List.getElem?_append_right (Nat.le_add_right _ _), Nat.add_sub_cancel_left]

instance : LawfulResultRows PackedRows where
  Stored := Stored
  stored_empty := Stored.empty
  pairs_eq := Stored.pairs_eq
  push_stored h := (push_spec h).1
  push_keeps {rows after row handle old entries} h hold := by
    obtain ⟨-, more, rfl⟩ := push_spec h
    exact hold.append more

end PackedRows

end GlrMask
