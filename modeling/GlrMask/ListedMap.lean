import Mathlib.Data.List.Nodup
import Mathlib.Data.Set.Card
import Mathlib.Tactic

/-!
# Lists of the entries of a finite map

A partial function is listed by a list that has each of its entries once, in some
order. The updates of the function have their counterparts on the list, and a list
determines the function, its number of keys and its equality with another one.
-/

namespace GlrMask

variable {K V W : Type*}

/-- The list has exactly the entries of the partial function, each key once. -/
structure Listing (m : K → Option V) (l : List (K × V)) : Prop where
  nodup : (l.map Prod.fst).Nodup
  mem_iff : ∀ k v, (k, v) ∈ l ↔ m k = some v

namespace Listing

variable {m m' : K → Option V} {l l' : List (K × V)}

theorem nil : Listing (fun _ : K => (none : Option V)) [] := ⟨List.nodup_nil, by simp⟩

theorem of_perm (h : Listing m l) (hperm : l'.Perm l) : Listing m l' where
  nodup := (hperm.map Prod.fst).nodup_iff.mpr h.nodup
  mem_iff k v := hperm.mem_iff.trans (h.mem_iff k v)

theorem none_of_forall_ne (h : Listing m l) {k : K} (hk : ∀ e ∈ l, e.1 ≠ k) : m k = none := by
  rw [Option.eq_none_iff_forall_ne_some]
  intro v hv
  exact hk (k, v) ((h.mem_iff k v).mpr hv) rfl

theorem perm (h : Listing m l) (h' : Listing m l') : l.Perm l' := by
  apply (List.perm_ext_iff_of_nodup h.nodup.of_map h'.nodup.of_map).mpr
  intro e
  exact (h.mem_iff e.1 e.2).trans (h'.mem_iff e.1 e.2).symm

theorem unique (h : Listing m l) (h' : Listing m' l) : m = m' := by
  funext k
  apply Option.ext
  intro v
  exact (h.mem_iff k v).symm.trans (h'.mem_iff k v)

theorem keys_iff (h : Listing m l) (k : K) : k ∈ l.map Prod.fst ↔ (m k).isSome := by
  rw [Option.isSome_iff_exists]
  simp [h.mem_iff]

theorem length_eq (h : Listing m l) : l.length = {k | (m k).isSome}.ncard := by
  classical
  have hset : {k | (m k).isSome} = ((l.map Prod.fst).toFinset : Set K) := by
    ext k
    rw [List.coe_toFinset]
    exact (h.keys_iff k).symm
  rw [hset, Set.ncard_coe_finset, List.toFinset_card_of_nodup h.nodup, List.length_map]

/-- Two listed functions agree when there are as many entries and all of one are in the other. -/
theorem eq_iff (h : Listing m l) (h' : Listing m' l') :
    (l.length = l'.length ∧ ∀ e ∈ l, m' e.1 = some e.2) ↔ m = m' := by
  constructor
  · intro hall
    obtain ⟨hlength, hall⟩ := hall
    have hsub : l ⊆ l' := fun e he => (h'.mem_iff e.1 e.2).mpr (hall e he)
    have hperm := (List.subperm_of_subset h.nodup.of_map hsub).perm_of_length_le hlength.ge
    exact h.unique (h'.of_perm hperm)
  · intro heq
    subst heq
    exact ⟨(h.perm h').length_eq, fun e he => (h.mem_iff e.1 e.2).mp he⟩

theorem map_values (h : Listing m l) (f : V → W) :
    Listing (fun k => (m k).map f) (l.map fun e => (e.1, f e.2)) where
  nodup := by
    rw [List.map_map]
    exact h.nodup
  mem_iff k w := by
    rw [List.mem_map, Option.map_eq_some_iff]
    constructor
    · intro hmem
      obtain ⟨e, he, heq⟩ := hmem
      cases heq
      exact ⟨e.2, (h.mem_iff e.1 e.2).mp he, rfl⟩
    · intro hsome
      obtain ⟨v, hv, rfl⟩ := hsome
      exact ⟨(k, v), (h.mem_iff k v).mpr hv, rfl⟩

variable [DecidableEq K]

theorem cons (h : Listing m l) {k : K} (hk : m k = none) (v : V) :
    Listing (Function.update m k (some v)) ((k, v) :: l) where
  nodup := by
    rw [List.map_cons, List.nodup_cons]
    refine ⟨?_, h.nodup⟩
    intro hmem
    rw [h.keys_iff, hk] at hmem
    cases hmem
  mem_iff j w := by
    rw [List.mem_cons, h.mem_iff, Function.update_apply]
    split_ifs with hj
    · subst hj
      simp [hk, eq_comm]
    · simp [hj]

/-- Any arrangement of the old entries and a new one. -/
theorem insert_new (h : Listing m l) {k : K} (hk : m k = none) (v : V)
    (hperm : l'.Perm ((k, v) :: l)) : Listing (Function.update m k (some v)) l' :=
  (h.cons hk v).of_perm hperm

theorem tail {e : K × V} (h : Listing m (e :: l)) : Listing (Function.update m e.1 none) l where
  nodup := h.nodup.of_cons
  mem_iff j w := by
    rw [Function.update_apply]
    split_ifs with hj
    · subst hj
      refine iff_of_false ?_ (by simp)
      intro hmem
      exact (List.nodup_cons.mp h.nodup).1 (List.mem_map.mpr ⟨(e.1, w), hmem, rfl⟩)
    · rw [← h.mem_iff, List.mem_cons, or_iff_right]
      intro heq
      exact hj (congrArg Prod.fst heq)

/-- Any arrangement of the entries without the one of a key. -/
theorem erase (h : Listing m l) {k : K} {v : V} (hperm : l.Perm ((k, v) :: l')) :
    m k = some v ∧ Listing (Function.update m k none) l' := by
  have hcons : Listing m ((k, v) :: l') := h.of_perm hperm.symm
  exact ⟨(hcons.mem_iff k v).mp List.mem_cons_self, hcons.tail⟩

/-- Any arrangement of the entries with another value for one key. -/
theorem replace (h : Listing m l) {k : K} {v w : V} {rest : List (K × V)}
    (hold : l.Perm ((k, v) :: rest)) (hnew : l'.Perm ((k, w) :: rest)) :
    m k = some v ∧ Listing (Function.update m k (some w)) l' := by
  obtain ⟨hsome, hrest⟩ := h.erase hold
  have hnone : Function.update m k none k = none := Function.update_self k none m
  refine ⟨hsome, ?_⟩
  have hlists := hrest.insert_new hnone w hnew
  rwa [Function.update_idem] at hlists

theorem find (h : Listing m l) (k : K) :
    (l.find? fun e => e.1 = k).map Prod.snd = m k := by
  cases hfind : l.find? fun e => e.1 = k with
  | none =>
      rw [List.find?_eq_none] at hfind
      exact (h.none_of_forall_ne (by simpa using hfind)).symm
  | some e =>
      have hkey : e.1 = k := by simpa using List.find?_some hfind
      rw [← hkey]
      exact ((h.mem_iff e.1 e.2).mp (List.mem_of_find?_eq_some hfind)).symm

end Listing

end GlrMask
