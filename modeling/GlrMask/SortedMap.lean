import Mathlib.Data.List.Sort
import Mathlib.Order.Basic
import Mathlib.Tactic

/-!
# Ordered maps

A finite map as a list of entries with strictly increasing keys. Two maps with
the same lookup function are equal, and the entries are listed in key order.
-/

namespace GlrMask

variable {K V W : Type*} [LinearOrder K]

/-- A finite map with its entries in strictly increasing key order. -/
@[ext] structure SortedMap (K V : Type*) [LinearOrder K] where
  entries : List (K × V)
  sorted : entries.Pairwise (fun a b => a.1 < b.1)

namespace SortedMap

instance [DecidableEq V] : DecidableEq (SortedMap K V) := fun a b =>
  decidable_of_iff (a.entries = b.entries) SortedMap.ext_iff.symm

def lookupEntry : List (K × V) → K → Option V
  | [], _ => none
  | e :: l, k => if e.1 = k then some e.2 else lookupEntry l k

/-- Put an entry in its place, replacing the entry of an equal key. -/
def insertEntry (k : K) (v : V) : List (K × V) → List (K × V)
  | [] => [(k, v)]
  | e :: l =>
      if k < e.1 then (k, v) :: e :: l
      else if k = e.1 then (k, v) :: l
      else e :: insertEntry k v l

theorem lookupEntry_eq_some {l : List (K × V)} {k : K} {v : V}
    (h : lookupEntry l k = some v) : (k, v) ∈ l := by
  induction l with
  | nil => simp [lookupEntry] at h
  | cons e l ih =>
      simp only [lookupEntry] at h
      split_ifs at h with he
      · obtain rfl := Option.some.inj h
        subst he
        exact List.mem_cons_self
      · exact List.mem_cons_of_mem _ (ih h)

theorem lookupEntry_of_mem {l : List (K × V)} (hl : l.Pairwise (fun a b => a.1 < b.1)) {k : K}
    {v : V} (h : (k, v) ∈ l) : lookupEntry l k = some v := by
  induction l with
  | nil => simp at h
  | cons e l ih =>
      simp only [lookupEntry]
      rcases List.mem_cons.mp h with rfl | hmem
      · rw [if_pos rfl]
      · have hlt : e.1 < k := List.rel_of_pairwise_cons hl hmem
        rw [if_neg hlt.ne, ih hl.tail hmem]

theorem mem_insertEntry {k : K} {v : V} {l : List (K × V)} {e : K × V}
    (h : e ∈ insertEntry k v l) : e = (k, v) ∨ e ∈ l := by
  induction l with
  | nil => simpa [insertEntry] using h
  | cons f l ih =>
      simp only [insertEntry] at h
      split_ifs at h with hlt heq
      · simpa using h
      · rcases List.mem_cons.mp h with h | h
        · exact Or.inl h
        · exact Or.inr (List.mem_cons_of_mem _ h)
      · rcases List.mem_cons.mp h with rfl | h
        · exact Or.inr List.mem_cons_self
        · rcases ih h with h | h
          · exact Or.inl h
          · exact Or.inr (List.mem_cons_of_mem _ h)

theorem insertEntry_sorted {l : List (K × V)} (hl : l.Pairwise (fun a b => a.1 < b.1)) (k : K)
    (v : V) : (insertEntry k v l).Pairwise (fun a b => a.1 < b.1) := by
  induction l with
  | nil => simp [insertEntry]
  | cons e l ih =>
      simp only [insertEntry]
      split_ifs with hlt heq
      · apply List.pairwise_cons.mpr ⟨?_, hl⟩
        intro f hf
        rcases List.mem_cons.mp hf with rfl | hf
        · exact hlt
        · exact hlt.trans (List.rel_of_pairwise_cons hl hf)
      · apply List.pairwise_cons.mpr ⟨?_, hl.tail⟩
        intro f hf
        rw [heq]
        exact List.rel_of_pairwise_cons hl hf
      · apply List.pairwise_cons.mpr ⟨?_, ih hl.tail⟩
        intro f hf
        rcases mem_insertEntry hf with rfl | hf
        · exact lt_of_le_of_ne (not_lt.mp hlt) (Ne.symm heq)
        · exact List.rel_of_pairwise_cons hl hf

theorem lookupEntry_insertEntry (k k' : K) (v : V) (l : List (K × V)) :
    lookupEntry (insertEntry k v l) k' = if k = k' then some v else lookupEntry l k' := by
  induction l with
  | nil => rfl
  | cons e l ih =>
      simp only [insertEntry]
      split_ifs with hlt heq hk
      all_goals simp_all [lookupEntry]
      grind

theorem lookupEntry_concat {l : List (K × V)} {k : K} (h : ∀ e ∈ l, e.1 ≠ k) (v : V) (k' : K) :
    lookupEntry (l ++ [(k, v)]) k' = if k = k' then some v else lookupEntry l k' := by
  induction l with
  | nil => rfl
  | cons e l ih =>
      rw [List.cons_append, lookupEntry, lookupEntry, ih fun e he => h e (List.mem_cons_of_mem _ he)]
      split_ifs with he hk
      · exact absurd (he.trans hk.symm) (h e List.mem_cons_self)
      all_goals rfl

/-! ## The operations -/

def empty : SortedMap K V := ⟨[], List.Pairwise.nil⟩

instance : Inhabited (SortedMap K V) := ⟨empty⟩

def get (m : SortedMap K V) (k : K) : Option V := lookupEntry m.entries k

def insert (m : SortedMap K V) (k : K) (v : V) : SortedMap K V :=
  ⟨insertEntry k v m.entries, insertEntry_sorted m.sorted k v⟩

def keys (m : SortedMap K V) : List K := m.entries.map Prod.fst

def values (m : SortedMap K V) : List V := m.entries.map Prod.snd

/-- The last entry of a key wins. -/
def ofList (l : List (K × V)) : SortedMap K V := l.foldl (fun m e => m.insert e.1 e.2) empty

def mapValues (f : V → W) (m : SortedMap K V) : SortedMap K W :=
  ⟨m.entries.map fun e => (e.1, f e.2), List.pairwise_map.mpr m.sorted⟩

def filter (p : K × V → Bool) (m : SortedMap K V) : SortedMap K V :=
  ⟨m.entries.filter p, m.sorted.filter p⟩

theorem filterMapEntries_sorted (f : V → Option W) {l : List (K × V)}
    (h : l.Pairwise fun a b => a.1 < b.1) :
    (l.filterMap fun e => (f e.2).map (Prod.mk e.1)).Pairwise fun a b => a.1 < b.1 := by
  apply List.Pairwise.filterMap _ _ h
  intro a a' hlt b hb b' hb'
  obtain ⟨w, -, rfl⟩ := Option.map_eq_some_iff.mp hb
  obtain ⟨w', -, rfl⟩ := Option.map_eq_some_iff.mp hb'
  exact hlt

/-- Replace the values, and drop the entries whose value has no image. -/
def filterMapValues (f : V → Option W) (m : SortedMap K V) : SortedMap K W :=
  ⟨m.entries.filterMap fun e => (f e.2).map (Prod.mk e.1), filterMapEntries_sorted f m.sorted⟩

variable {m : SortedMap K V} {k k' : K} {v : V}

@[simp] theorem get_empty (k : K) : (empty : SortedMap K V).get k = none := rfl

@[simp] theorem entries_empty : (empty : SortedMap K V).entries = [] := rfl

theorem get_eq_some_iff : m.get k = some v ↔ (k, v) ∈ m.entries :=
  ⟨lookupEntry_eq_some, lookupEntry_of_mem m.sorted⟩

theorem get_insert (m : SortedMap K V) (k k' : K) (v : V) :
    (m.insert k v).get k' = if k = k' then some v else m.get k' :=
  lookupEntry_insertEntry k k' v m.entries

theorem mem_keys_iff : k ∈ m.keys ↔ ∃ v, m.get k = some v := by
  simp only [keys, List.mem_map, Prod.exists, exists_and_right, exists_eq_right]
  exact exists_congr fun v => get_eq_some_iff.symm

theorem get_eq_none_iff : m.get k = none ↔ k ∉ m.keys := by
  rw [mem_keys_iff, not_exists]
  cases m.get k <;> simp

theorem keys_sorted (m : SortedMap K V) : m.keys.Pairwise (· < ·) := by
  rw [keys, List.pairwise_map]
  exact m.sorted

theorem get_mapValues (f : V → W) (m : SortedMap K V) (k : K) :
    (m.mapValues f).get k = (m.get k).map f := by
  obtain ⟨l, hl⟩ := m
  induction l with
  | nil => rfl
  | cons e l ih =>
      have htl := ih hl.tail
      simp only [get, mapValues] at htl
      simp only [get, mapValues, List.map_cons, lookupEntry, htl]
      split_ifs <;> rfl

theorem get_filterMapValues (f : V → Option W) (m : SortedMap K V) (k : K) :
    (m.filterMapValues f).get k = (m.get k).bind f := by
  obtain ⟨l, hl⟩ := m
  unfold get filterMapValues
  dsimp only
  induction l with
  | nil => rfl
  | cons e l ih =>
      rw [List.filterMap_cons]
      by_cases hk : e.1 = k
      · rw [lookupEntry, if_pos hk, Option.bind_some]
        cases hf : f e.2 with
        | none =>
            -- no later entry has this key
            refine (ih hl.tail).trans ?_
            cases hget : lookupEntry l k with
            | none => rfl
            | some v =>
                have hlt := List.rel_of_pairwise_cons hl (lookupEntry_eq_some hget)
                rw [hk] at hlt
                exact absurd hlt (lt_irrefl k)
        | some w =>
            simp only [Option.map_some]
            rw [lookupEntry, if_pos hk]
      · rw [lookupEntry, if_neg hk, ← ih hl.tail]
        cases hf : f e.2 with
        | none => rfl
        | some w =>
            simp only [Option.map_some]
            rw [lookupEntry, if_neg hk]

theorem values_filterMapValues (f : V → Option W) (m : SortedMap K V) :
    (m.filterMapValues f).values = m.values.filterMap f := by
  rw [values, values, filterMapValues, List.map_filterMap, List.filterMap_map]
  congr 1
  funext e
  rw [Option.map_map, Function.comp_apply]
  exact Option.map_id'

/-- Maps with the same lookup function are equal. -/
theorem ext_get {m m' : SortedMap K V} (h : ∀ k, m.get k = m'.get k) : m = m' := by
  have hmem : ∀ e, e ∈ m.entries ↔ e ∈ m'.entries := fun e => by
    rw [← get_eq_some_iff, ← get_eq_some_iff, h]
  have hnodup : ∀ n : SortedMap K V, n.entries.Nodup := fun n =>
    n.sorted.imp fun hlt heq => hlt.ne (congrArg Prod.fst heq)
  have hperm : m.entries.Perm m'.entries :=
    (List.perm_ext_iff_of_nodup (hnodup m) (hnodup m')).mpr hmem
  apply SortedMap.ext
  apply hperm.eq_of_pairwise _ m.sorted m'.sorted
  intro a b _ _ hab hba
  exact absurd (hab.trans hba) (lt_irrefl _)

/-! ## Leaving out keys -/

def remove (m : SortedMap K V) (k : K) : SortedMap K V := m.filter fun e => e.1 ≠ k

theorem get_remove (k' : K) : (m.remove k).get k' = if k = k' then none else m.get k' := by
  apply Option.ext
  intro w
  rw [get_eq_some_iff, remove, filter, List.mem_filter, ← get_eq_some_iff]
  by_cases hk : k = k'
  · simp [hk]
  · simp [hk, Ne.symm hk]

/-- An entry, and what is left without its key. -/
theorem entries_perm_remove (h : m.get k = some v) :
    m.entries.Perm ((k, v) :: (m.remove k).entries) := by
  have hnodup : ∀ n : SortedMap K V, n.entries.Nodup := fun n =>
    n.sorted.imp fun hlt heq => hlt.ne (congrArg Prod.fst heq)
  rw [List.perm_ext_iff_of_nodup (hnodup m)]
  · intro e
    rw [List.mem_cons, ← get_eq_some_iff, ← get_eq_some_iff, get_remove]
    obtain ⟨k', w⟩ := e
    by_cases hk : k = k'
    · subst hk
      simp [h, eq_comm]
    · simp [hk, Ne.symm hk]
  · apply List.nodup_cons.mpr
    refine ⟨?_, hnodup _⟩
    rw [← get_eq_some_iff, get_remove, if_pos rfl]
    simp

theorem entries_insert_perm_remove (m : SortedMap K V) (k : K) (v : V) :
    (m.insert k v).entries.Perm ((k, v) :: (m.remove k).entries) := by
  have hremove : (m.insert k v).remove k = m.remove k := by
    apply ext_get
    intro k'
    rw [get_remove, get_remove, get_insert]
    split_ifs <;> rfl
  rw [← hremove]
  apply entries_perm_remove
  rw [get_insert, if_pos rfl]

/-- Some of the keys, with other values. -/
def restrict (m : SortedMap K V) (entries : List (K × V))
    (h : (entries.map Prod.fst).Sublist (m.entries.map Prod.fst)) : SortedMap K V :=
  ⟨entries, List.pairwise_map.mp (m.keys_sorted.sublist h)⟩

/-! ## Lists of entries -/

/-- The map of a list without repeated keys finds what the list has. -/
theorem get_ofList {l : List (K × V)} (h : (l.map Prod.fst).Nodup) (k : K) :
    (ofList l).get k = lookupEntry l k := by
  suffices hfold : ∀ (l : List (K × V)) (m : SortedMap K V), (l.map Prod.fst).Nodup →
      (l.foldl (fun m e => m.insert e.1 e.2) m).get k = (lookupEntry l k).or (m.get k) by
    rw [ofList, hfold l empty h, get_empty, Option.or_none]
  intro l
  induction l with
  | nil => exact fun _ _ => rfl
  | cons e l ih =>
      intro m hnodup
      obtain ⟨hnew, hrest⟩ := List.nodup_cons.mp hnodup
      rw [List.foldl_cons, ih _ hrest, get_insert, lookupEntry]
      split_ifs with hk
      · have hnone : lookupEntry l k = none := by
          cases hl : lookupEntry l k with
          | none => rfl
          | some v =>
              exact absurd (List.mem_map_of_mem (lookupEntry_eq_some hl)) (hk ▸ hnew)
        rw [hnone]
        rfl
      · rfl

theorem mem_ofList {l : List (K × V)} {e : K × V} (h : e ∈ (ofList l).entries) : e ∈ l := by
  suffices hfold : ∀ (l : List (K × V)) (m : SortedMap K V),
      e ∈ (l.foldl (fun m e => m.insert e.1 e.2) m).entries → e ∈ l ∨ e ∈ m.entries by
    obtain h | h := hfold l empty h
    · exact h
    · cases h
  intro l
  induction l with
  | nil => exact fun _ h => Or.inr h
  | cons f l ih =>
      intro m h
      obtain h | h := ih _ h
      · exact Or.inl (List.mem_cons_of_mem _ h)
      · obtain rfl | h := mem_insertEntry h
        · exact Or.inl List.mem_cons_self
        · exact Or.inr h

theorem lookupEntry_filter {l : List (K × V)} {k : K} {p : V → Bool}
    (h : (l.map Prod.fst).Nodup) :
    lookupEntry (l.filter fun e => p e.2) k = (lookupEntry l k).filter p := by
  induction l with
  | nil => rfl
  | cons e l ih =>
      obtain ⟨hnew, hrest⟩ := List.nodup_cons.mp h
      rw [List.filter_cons, lookupEntry]
      by_cases hk : e.1 = k
      · have hnone : lookupEntry l k = none := by
          cases hl : lookupEntry l k with
          | none => rfl
          | some v =>
              exact absurd (List.mem_map_of_mem (lookupEntry_eq_some hl)) (hk ▸ hnew)
        rw [if_pos hk]
        cases hp : p e.2 with
        | true => simp [lookupEntry, hk, hp, Option.filter]
        | false => simp [ih hrest, hnone, hp, Option.filter]
      · rw [if_neg hk, ← ih hrest]
        cases hp : p e.2 with
        | true => simp [lookupEntry, hk]
        | false => simp

/-- Merge two lists of entries in key order; `f` joins the values of a key of both. -/
def mergeEntries (f : V → V → V) : List (K × V) → List (K × V) → List (K × V)
  | [], right => right
  | l :: left, [] => l :: left
  | l :: left, r :: right =>
      if l.1 < r.1 then l :: mergeEntries f left (r :: right)
      else if r.1 < l.1 then r :: mergeEntries f (l :: left) right
      else (l.1, f l.2 r.2) :: mergeEntries f left right
termination_by left right => left.length + right.length

/-- The values of a key of either list. -/
def joinValues (f : V → V → V) : Option V → Option V → Option V
  | some a, some b => some (f a b)
  | a, b => a.or b

theorem mem_mergeEntries {f : V → V → V} {left right : List (K × V)} {e : K × V}
    (h : e ∈ mergeEntries f left right) :
    e ∈ left ∨ e ∈ right ∨ ∃ a b, (e.1, a) ∈ left ∧ (e.1, b) ∈ right ∧ e.2 = f a b := by
  fun_induction mergeEntries f left right with
  | case1 right => exact Or.inr (Or.inl h)
  | case2 l left => exact Or.inl h
  | case3 l left r right hlt ih =>
      obtain rfl | h := List.mem_cons.mp h
      · exact Or.inl List.mem_cons_self
      · obtain h | h | ⟨a, b, ha, hb, he⟩ := ih h
        · exact Or.inl (List.mem_cons_of_mem _ h)
        · exact Or.inr (Or.inl h)
        · exact Or.inr (Or.inr ⟨a, b, List.mem_cons_of_mem _ ha, hb, he⟩)
  | case4 l left r right hlt hgt ih =>
      obtain rfl | h := List.mem_cons.mp h
      · exact Or.inr (Or.inl List.mem_cons_self)
      · obtain h | h | ⟨a, b, ha, hb, he⟩ := ih h
        · exact Or.inl h
        · exact Or.inr (Or.inl (List.mem_cons_of_mem _ h))
        · exact Or.inr (Or.inr ⟨a, b, ha, List.mem_cons_of_mem _ hb, he⟩)
  | case5 l left r right hlt hgt ih =>
      have hkey : l.1 = r.1 := le_antisymm (not_lt.mp hgt) (not_lt.mp hlt)
      obtain rfl | h := List.mem_cons.mp h
      · refine Or.inr (Or.inr ⟨l.2, r.2, List.mem_cons_self, ?_, rfl⟩)
        rw [hkey]
        exact List.mem_cons_self
      · obtain h | h | ⟨a, b, ha, hb, he⟩ := ih h
        · exact Or.inl (List.mem_cons_of_mem _ h)
        · exact Or.inr (Or.inl (List.mem_cons_of_mem _ h))
        · exact Or.inr (Or.inr ⟨a, b, List.mem_cons_of_mem _ ha, List.mem_cons_of_mem _ hb, he⟩)

theorem not_mem_of_lookupEntry {l : List (K × V)} {k : K} (h : lookupEntry l k = none) :
    k ∉ l.map Prod.fst := by
  induction l with
  | nil => exact List.not_mem_nil
  | cons e l ih =>
      rw [lookupEntry] at h
      split_ifs at h with he
      rw [List.map_cons, List.mem_cons, not_or]
      exact ⟨Ne.symm he, ih h⟩

theorem lookupEntry_of_lt {l : List (K × V)} {k : K} (h : ∀ e ∈ l, k < e.1) :
    lookupEntry l k = none := by
  cases hl : lookupEntry l k with
  | none => rfl
  | some v => exact absurd (h _ (lookupEntry_eq_some hl)) (lt_irrefl k)

theorem mergeEntries_sorted {f : V → V → V} {left right : List (K × V)}
    (hl : left.Pairwise fun a b => a.1 < b.1) (hr : right.Pairwise fun a b => a.1 < b.1) :
    (mergeEntries f left right).Pairwise fun a b => a.1 < b.1 := by
  fun_induction mergeEntries f left right with
  | case1 right => exact hr
  | case2 l left => exact hl
  | case3 l left r right hlt ih =>
      obtain ⟨hleft, hrest⟩ := List.pairwise_cons.mp hl
      refine List.pairwise_cons.mpr ⟨fun e he => ?_, ih hrest hr⟩
      have hright : ∀ e ∈ r :: right, l.1 < e.1 := by
        intro e he
        obtain rfl | he := List.mem_cons.mp he
        · exact hlt
        · exact hlt.trans (List.rel_of_pairwise_cons hr he)
      obtain he | he | ⟨a, -, ha, -, -⟩ := mem_mergeEntries he
      · exact hleft e he
      · exact hright e he
      · exact hleft (e.1, a) ha
  | case4 l left r right hlt hgt ih =>
      obtain ⟨hright, hrest⟩ := List.pairwise_cons.mp hr
      refine List.pairwise_cons.mpr ⟨fun e he => ?_, ih hl hrest⟩
      have hleft : ∀ e ∈ l :: left, r.1 < e.1 := by
        intro e he
        obtain rfl | he := List.mem_cons.mp he
        · exact hgt
        · exact hgt.trans (List.rel_of_pairwise_cons hl he)
      obtain he | he | ⟨a, -, ha, -, -⟩ := mem_mergeEntries he
      · exact hleft e he
      · exact hright e he
      · exact hleft (e.1, a) ha
  | case5 l left r right hlt hgt ih =>
      have hkey : l.1 = r.1 := le_antisymm (not_lt.mp hgt) (not_lt.mp hlt)
      obtain ⟨hleft, hl⟩ := List.pairwise_cons.mp hl
      obtain ⟨hright, hr⟩ := List.pairwise_cons.mp hr
      refine List.pairwise_cons.mpr ⟨fun e he => ?_, ih hl hr⟩
      obtain he | he | ⟨a, -, ha, -, -⟩ := mem_mergeEntries he
      · exact hleft e he
      · exact hkey ▸ hright e he
      · exact hleft (e.1, a) ha

theorem lookupEntry_cons (e : K × V) (l : List (K × V)) (k : K) :
    lookupEntry (e :: l) k = if e.1 = k then some e.2 else lookupEntry l k := rfl

theorem lookupEntry_mergeEntries {f : V → V → V} {left right : List (K × V)}
    (hl : left.Pairwise fun a b => a.1 < b.1) (hr : right.Pairwise fun a b => a.1 < b.1) (k : K) :
    lookupEntry (mergeEntries f left right) k =
      joinValues f (lookupEntry left k) (lookupEntry right k) := by
  fun_induction mergeEntries f left right with
  | case1 right => cases hright : lookupEntry right k <;> rfl
  | case2 l left => cases hleft : lookupEntry (l :: left) k <;> rfl
  | case3 l left r right hlt ih =>
      rw [lookupEntry_cons l, lookupEntry_cons l, ih hl.tail hr]
      split_ifs with hk
      · have hnone : lookupEntry (r :: right) k = none := by
          apply lookupEntry_of_lt
          intro e he
          obtain rfl | he := List.mem_cons.mp he
          · exact hk ▸ hlt
          · exact hk ▸ hlt.trans (List.rel_of_pairwise_cons hr he)
        rw [hnone]
        rfl
      · rfl
  | case4 l left r right hlt hgt ih =>
      rw [lookupEntry_cons r, lookupEntry_cons r, ih hl hr.tail]
      split_ifs with hk
      · have hnone : lookupEntry (l :: left) k = none := by
          apply lookupEntry_of_lt
          intro e he
          obtain rfl | he := List.mem_cons.mp he
          · exact hk ▸ hgt
          · exact hk ▸ hgt.trans (List.rel_of_pairwise_cons hl he)
        rw [hnone]
        rfl
      · rfl
  | case5 l left r right hlt hgt ih =>
      have hkey : l.1 = r.1 := le_antisymm (not_lt.mp hgt) (not_lt.mp hlt)
      rw [lookupEntry_cons, lookupEntry_cons l, lookupEntry_cons r, ih hl.tail hr.tail, ← hkey]
      split_ifs <;> rfl

end SortedMap

end GlrMask
