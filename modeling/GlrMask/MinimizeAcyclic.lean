import GlrMask.DepthFirst
import GlrMask.Interning
import GlrMask.MinimalDfa

/-!
# Minimization of acyclic automata

The states are classified in post-order by their signatures: acceptance, and the
classes of the targets that are not dead. A rejecting state without live targets is
dead and left out. An automaton without equivalent or dead states is only renumbered,
and a minimised automaton keeps its numbering.
-/

namespace GlrMask

open Interning DepthFirst

namespace DFA

def compute_is_acyclic (self : DFA) : Bool := allReleased self.targets self.states.length

end DFA

namespace MinimizeAcyclic

variable (dfa : DFA)

structure StateSignature where
  is_accepting : Bool
  transitions : List (Label × ℕ)
deriving DecidableEq

def DEAD_CLASS : ℕ := 0

def dead_signature : StateSignature := ⟨false, []⟩

def reverse_topological_order (fuel : ℕ) : Option (List ℕ) :=
  postorder dfa.targets dfa.states.length dfa.start_state fuel

def class_of (class_of_state : List ℕ) (state : ℕ) : ℕ := class_of_state.getD state DEAD_CLASS

def live_class (class_of_state : List ℕ) (target : ℕ) : Option ℕ :=
  let target_class := class_of class_of_state target
  if target_class ≠ DEAD_CLASS then some target_class else none

def state_signature (class_of_state : List ℕ) (state_id : ℕ) : StateSignature where
  is_accepting := dfa.is_accepting state_id
  transitions := ((dfa.transitions state_id).filterMapValues (live_class class_of_state)).entries

/-- The signatures by class, the class of every state, and the first state of every class. -/
structure Classes where
  signature_to_class : List StateSignature
  class_of_state : List ℕ
  class_representatives : List (Option ℕ)

def classify (s : Classes) (state_id : ℕ) : Classes :=
  let signature := state_signature dfa s.class_of_state state_id
  let (signature_to_class, class_id) := intern s.signature_to_class signature
  { signature_to_class
    class_of_state := s.class_of_state.set state_id class_id
    class_representatives :=
      if signature ∈ s.signature_to_class then s.class_representatives
      else s.class_representatives ++ [some state_id] }

def initial_classes : Classes where
  signature_to_class := [dead_signature]
  class_of_state := List.replicate dfa.states.length DEAD_CLASS
  class_representatives := [none]

/-- The new state of a class takes over the transitions to live targets. -/
def minimized_state (class_of_state : List ℕ) (repr_state_id : ℕ) : DFAState where
  is_accepting := dfa.is_accepting repr_state_id
  transitions := (dfa.transitions repr_state_id).filterMapValues fun target =>
    let target_class := class_of class_of_state target
    if target_class = DEAD_CLASS then none else some (target_class - 1)

/-- `none` is a panic on a class without a representative. -/
def build_minimized_acyclic_dfa (s : Classes) : Option DFA :=
  if class_of s.class_of_state dfa.start_state = DEAD_CLASS then some DFA.new
  else do
    let states ← (s.class_representatives.drop 1).mapM fun representative =>
      representative.map (minimized_state dfa s.class_of_state)
    some ⟨states, class_of s.class_of_state dfa.start_state - 1⟩

def minimize_acyclic_unchecked (fuel : ℕ) : Option DFA :=
  if dfa.states = [] then some dfa
  else
    (reverse_topological_order dfa fuel).bind fun topo =>
      build_minimized_acyclic_dfa dfa (topo.foldl (classify dfa) (initial_classes dfa))

/-- `none` is the failed assertion on a cyclic automaton, or out of fuel. -/
def minimize_acyclic (fuel : ℕ) : Option DFA :=
  if dfa.compute_is_acyclic then minimize_acyclic_unchecked dfa fuel else none

/-! ## Renumbering -/

/-- A state that was not reached has no new state. -/
structure AcyclicDfaReindex where
  old_states_in_new_order : List ℕ
  new_state_of_old : List (Option ℕ)
  start_state : Option ℕ

def reindex_minimized_acyclic_order (fuel : ℕ) : Option AcyclicDfaReindex :=
  if dfa.states = [] then some ⟨[], [], some 0⟩
  else
    (reverse_topological_order dfa fuel).map fun topo =>
      let state_map := topo.zipIdx.foldl (fun state_map e => state_map.set e.1 (some e.2))
        (List.replicate dfa.states.length none)
      ⟨topo, state_map, state_map.getD dfa.start_state none⟩

def reindexed_state (reindex : AcyclicDfaReindex) (old_state : ℕ) : DFAState where
  is_accepting := dfa.is_accepting old_state
  transitions := (dfa.transitions old_state).filterMapValues fun target =>
    reindex.new_state_of_old.getD target none

def reindex_minimized_acyclic_dfa (fuel : ℕ) : Option DFA :=
  (reindex_minimized_acyclic_order dfa fuel).bind fun reindex =>
    if reindex.old_states_in_new_order = [] then some dfa
    else reindex.start_state.map fun start_state =>
      ⟨reindex.old_states_in_new_order.map (reindexed_state dfa reindex), start_state⟩

/-! ## Classes -/

variable {dfa} {c c' : List ℕ}

theorem enters_of_next {s t : ℕ} {label : Label} (h : dfa.next s label = some t)
    (hlt : t < dfa.states.length) : Enters dfa.targets dfa.states.length s t :=
  ⟨DFA.mem_targets.mpr ⟨label, h⟩, hlt⟩

theorem get_signature (s : ℕ) (label : Label) :
    ((dfa.transitions s).filterMapValues (live_class c)).get label =
      (dfa.next s label).bind (live_class c) := by
  rw [SortedMap.get_filterMapValues, DFA.next_eq]

theorem state_signature_eq_iff {s t : ℕ} : state_signature dfa c s = state_signature dfa c' t ↔
    dfa.is_accepting s = dfa.is_accepting t ∧
      ∀ label, (dfa.next s label).bind (live_class c) = (dfa.next t label).bind (live_class c') := by
  rw [state_signature, state_signature, StateSignature.mk.injEq, ← SortedMap.ext_iff]
  apply and_congr_right
  intro _
  simp only [← get_signature]
  exact ⟨fun h label => h ▸ rfl, SortedMap.ext_get⟩

theorem live_class_eq_some {t k : ℕ} : live_class c t = some k ↔ class_of c t = k ∧ k ≠ 0 := by
  unfold live_class DEAD_CLASS
  dsimp only
  split_ifs with h
  · rw [Option.some.injEq]
    exact ⟨fun he => ⟨he, he ▸ h⟩, fun he => he.1⟩
  · rw [not_not] at h
    simp only [h, false_iff, not_and, not_not]
    exact fun he => he.symm

theorem live_class_eq_none {t : ℕ} : live_class c t = none ↔ class_of c t = 0 := by
  unfold live_class DEAD_CLASS
  dsimp only
  split_ifs with h
  · simp only [h]
  · simpa using h

/-- A signature depends on the classes of the targets only. -/
theorem state_signature_congr {s : ℕ}
    (h : ∀ label t, dfa.next s label = some t → class_of c t = class_of c' t) :
    state_signature dfa c s = state_signature dfa c' s := by
  rw [state_signature_eq_iff]
  refine ⟨rfl, ?_⟩
  intro label
  cases hnext : dfa.next s label with
  | none => rfl
  | some t =>
      rw [Option.bind_some, Option.bind_some, live_class, live_class, h label t hnext]

theorem class_of_set {s t k : ℕ} (hs : s < c.length) :
    class_of (c.set s k) t = if t = s then k else class_of c t := by
  rw [class_of, class_of, List.getD_eq_getElem?_getD, List.getD_eq_getElem?_getD]
  split_ifs with he
  · rw [he, List.getElem?_set_self hs, Option.getD_some]
  · rw [List.getElem?_set_ne (Ne.symm he)]

/-- The classes of the states that were classified, with the first state of every class. -/
structure Classified (dfa : DFA) (done reps : List ℕ) (s : Classes) : Prop where
  length : s.class_of_state.length = dfa.states.length
  outside : ∀ t, t ∉ done → class_of s.class_of_state t = 0
  table : s.signature_to_class =
    dead_signature :: reps.map (state_signature dfa s.class_of_state)
  nodup : s.signature_to_class.Nodup
  representatives : s.class_representatives = none :: reps.map some
  sublist : reps.Sublist done
  inside : ∀ t ∈ done, state_signature dfa s.class_of_state t ∈ s.signature_to_class ∧
    class_of s.class_of_state t =
      s.signature_to_class.idxOf (state_signature dfa s.class_of_state t)
  /-- The targets of the first state of a class have smaller classes. -/
  smaller : ∀ (k : ℕ) r, reps[k]? = some r → ∀ label t, dfa.next r label = some t →
    class_of s.class_of_state t ≤ k
  /-- When a class occurs, all smaller ones have occurred. -/
  growth : ∀ l₁ x l₂, done = l₁ ++ x :: l₂ → ∀ j, 1 ≤ j → j < class_of s.class_of_state x →
    ∃ t ∈ l₁, class_of s.class_of_state t = j

theorem classified_initial : Classified dfa [] [] (initial_classes dfa) where
  length := List.length_replicate
  outside t _ := by
    rw [class_of, initial_classes, List.getD_eq_getElem?_getD, List.getElem?_replicate]
    split_ifs <;> rfl
  table := rfl
  nodup := List.nodup_singleton _
  representatives := rfl
  sublist := List.Sublist.refl []
  inside t ht := by cases ht
  smaller k r hr := by cases hr
  growth l₁ x l₂ he := by
    have hlength := congrArg List.length he
    simp at hlength

/-- The class of a state that was classified is smaller than the number of classes. -/
theorem Classified.class_lt {done reps : List ℕ} {s : Classes} (h : Classified dfa done reps s)
    (t : ℕ) : class_of s.class_of_state t < reps.length + 1 := by
  by_cases ht : t ∈ done
  · obtain ⟨hmem, he⟩ := h.inside t ht
    rw [he]
    have hlt := List.idxOf_lt_length_of_mem hmem
    have hlength := congrArg List.length h.table
    rw [List.length_cons, List.length_map] at hlength
    omega
  · rw [h.outside t ht]
    omega

/-- The classification of the next state in post-order. -/
theorem Classified.classify {done reps : List ℕ} {s : Classes} (h : Classified dfa done reps s)
    {x : ℕ} (hpost : PostOrder dfa.targets dfa.states.length (done ++ [x])) :
    ∃ reps', Classified dfa (done ++ [x]) reps' (classify dfa s x) := by
  have hx : x < dfa.states.length := hpost.lt x (List.mem_append_right _ (List.mem_singleton_self x))
  have hnew : x ∉ done := by
    intro hc
    exact (List.nodup_append.mp hpost.nodup).2.2 x hc x (List.mem_singleton_self x) rfl
  have htargets : ∀ t ∈ done ++ [x], ∀ label u, dfa.next t label = some u → u ≠ x := by
    intro t ht label u hnext he
    subst he
    obtain ⟨l₁, l₂, hsplit⟩ := List.append_of_mem ht
    have hmem := hpost.closed l₁ t l₂ hsplit u (enters_of_next hnext hx)
    -- the last node of the order does not come before another one
    have hnodup := hpost.nodup
    obtain rfl | ⟨l₂, y, rfl⟩ := List.eq_nil_or_concat l₂
    · obtain ⟨rfl, -⟩ := List.append_inj' hsplit rfl
      exact hnew hmem
    · rw [List.concat_eq_append, ← List.cons_append, ← List.append_assoc] at hsplit
      obtain ⟨rfl, -⟩ := List.append_inj' hsplit rfl
      exact hnew (List.mem_append_left _ hmem)
  obtain ⟨id, hid⟩ : ∃ id, (intern s.signature_to_class
      (state_signature dfa s.class_of_state x)).2 = id := ⟨_, rfl⟩
  have hclass : ∀ t, class_of (MinimizeAcyclic.classify dfa s x).class_of_state t =
      if t = x then id else class_of s.class_of_state t := by
    intro t
    rw [← hid]
    exact class_of_set (h.length.symm ▸ hx)
  have hold : ∀ t, t ≠ x → class_of (MinimizeAcyclic.classify dfa s x).class_of_state t =
      class_of s.class_of_state t := by
    intro t ht
    rw [hclass, if_neg ht]
  have hself : class_of (MinimizeAcyclic.classify dfa s x).class_of_state x = id := by
    rw [hclass, if_pos rfl]
  have hne : ∀ t ∈ done, t ≠ x := by
    intro t ht he
    exact hnew (he ▸ ht)
  have hsig : ∀ t ∈ done ++ [x],
      state_signature dfa (MinimizeAcyclic.classify dfa s x).class_of_state t =
        state_signature dfa s.class_of_state t := by
    intro t ht
    apply state_signature_congr
    intro label u hnext
    exact hold u (htargets t ht label u hnext)
  have hreps : reps.map (state_signature dfa (MinimizeAcyclic.classify dfa s x).class_of_state) =
      reps.map (state_signature dfa s.class_of_state) := by
    apply List.map_congr_left
    intro r hr
    exact hsig r (List.mem_append_left _ (h.sublist.subset hr))
  have hlength : (MinimizeAcyclic.classify dfa s x).class_of_state.length = dfa.states.length :=
    List.length_set.trans h.length
  have houtside : ∀ t, t ∉ done ++ [x] →
      class_of (MinimizeAcyclic.classify dfa s x).class_of_state t = 0 := by
    intro t ht
    rw [List.mem_append, List.mem_singleton, not_or] at ht
    rw [hold t ht.2, h.outside t ht.1]
  have hsmaller : ∀ (k : ℕ) r, reps[k]? = some r → ∀ label t, dfa.next r label = some t →
      class_of (MinimizeAcyclic.classify dfa s x).class_of_state t ≤ k := by
    intro k r hr label t hnext
    have hmem := List.mem_append_left [x] (h.sublist.subset (List.mem_of_getElem? hr))
    rw [hold t (htargets r hmem label t hnext)]
    exact h.smaller k r hr label t hnext
  have hgrowth : (∀ j, 1 ≤ j → j < id → j < reps.length + 1) →
      ∀ l₁ y l₂, done ++ [x] = l₁ ++ y :: l₂ → ∀ j, 1 ≤ j →
        j < class_of (MinimizeAcyclic.classify dfa s x).class_of_state y →
        ∃ t ∈ l₁, class_of (MinimizeAcyclic.classify dfa s x).class_of_state t = j := by
    intro hbound l₁ y l₂ he j hj hlt
    obtain rfl | ⟨l₂, z, rfl⟩ := List.eq_nil_or_concat l₂
    · obtain ⟨rfl, hy⟩ := List.append_inj' he rfl
      obtain rfl := List.singleton_inj.mp hy
      rw [hself] at hlt
      -- the class is in the table, and its first state was classified
      obtain ⟨k, rfl⟩ : ∃ k, j = k + 1 := ⟨j - 1, by omega⟩
      have hk : k < reps.length := by
        have := hbound (k + 1) hj hlt
        omega
      have hr : reps[k] ∈ done := h.sublist.subset (List.getElem_mem hk)
      refine ⟨reps[k], hr, ?_⟩
      rw [hold _ (hne _ hr), (h.inside _ hr).2]
      have hget : s.signature_to_class[k + 1]? =
          some (state_signature dfa s.class_of_state reps[k]) := by
        rw [h.table, List.getElem?_cons_succ, List.getElem?_map, List.getElem?_eq_getElem hk,
          Option.map_some]
      obtain ⟨hklt, hkget⟩ := List.getElem?_eq_some_iff.mp hget
      rw [← hkget]
      exact h.nodup.idxOf_getElem (k + 1) hklt
    · rw [List.concat_eq_append, ← List.cons_append, ← List.append_assoc] at he
      obtain ⟨rfl, -⟩ := List.append_inj' he rfl
      rw [hold y (hne y (List.mem_append_right _ List.mem_cons_self))] at hlt
      obtain ⟨t, ht, hj⟩ := h.growth l₁ y l₂ rfl j hj hlt
      exact ⟨t, ht, (hold t (hne t (List.mem_append_left _ ht))).trans hj⟩
  by_cases hmem : state_signature dfa s.class_of_state x ∈ s.signature_to_class
  · have hintern : intern s.signature_to_class (state_signature dfa s.class_of_state x) =
        (s.signature_to_class,
          s.signature_to_class.idxOf (state_signature dfa s.class_of_state x)) := if_pos hmem
    rw [hintern] at hid
    have htable : (MinimizeAcyclic.classify dfa s x).signature_to_class = s.signature_to_class := by
      rw [MinimizeAcyclic.classify, hintern]
    have hlt := List.idxOf_lt_length_of_mem hmem
    rw [h.table, List.length_cons, List.length_map, ← h.table] at hlt
    refine ⟨reps, hlength, houtside, ?_, ?_, ?_, ?_, ?_, hsmaller, hgrowth ?_⟩
    · rw [htable, hreps, h.table]
    · rw [htable]
      exact h.nodup
    · exact (if_pos hmem).trans h.representatives
    · exact h.sublist.trans (List.sublist_append_left done [x])
    · intro t ht
      rw [hsig t ht, htable]
      obtain ht | ht := List.mem_append.mp ht
      · rw [hold t (hne t ht)]
        exact h.inside t ht
      · rw [List.mem_singleton.mp ht, hself]
        exact ⟨hmem, hid.symm⟩
    · intro j _ hj
      omega
  · have hintern : intern s.signature_to_class (state_signature dfa s.class_of_state x) =
        (s.signature_to_class ++ [state_signature dfa s.class_of_state x],
          s.signature_to_class.length) := if_neg hmem
    rw [hintern] at hid
    have htable : (MinimizeAcyclic.classify dfa s x).signature_to_class =
        s.signature_to_class ++ [state_signature dfa s.class_of_state x] := by
      rw [MinimizeAcyclic.classify, hintern]
    have hsize : s.signature_to_class.length = reps.length + 1 := by
      rw [h.table, List.length_cons, List.length_map]
    have hxmem : x ∈ done ++ [x] := List.mem_append_right _ (List.mem_singleton_self x)
    refine ⟨reps ++ [x], hlength, houtside, ?_, ?_, ?_, ?_, ?_, ?_, hgrowth ?_⟩
    · rw [htable, List.map_append, hreps, List.map_singleton, hsig x hxmem, h.table]
      rfl
    · rw [htable, List.nodup_append]
      refine ⟨h.nodup, List.nodup_singleton _, ?_⟩
      intro t ht u hu he
      exact hmem (List.mem_singleton.mp hu ▸ he ▸ ht)
    · refine (if_neg hmem).trans ?_
      rw [h.representatives, List.map_append]
      rfl
    · exact h.sublist.append (List.Sublist.refl [x])
    · intro t ht
      rw [hsig t ht, htable]
      obtain ht | ht := List.mem_append.mp ht
      · obtain ⟨hin, he⟩ := h.inside t ht
        rw [hold t (hne t ht), List.idxOf_append_of_mem hin]
        exact ⟨List.mem_append_left _ hin, he⟩
      · rw [List.mem_singleton.mp ht, hself, List.idxOf_append_of_notMem hmem,
          List.idxOf_cons_self, Nat.add_zero]
        exact ⟨List.mem_append_right _ (List.mem_singleton_self _), hid.symm⟩
    · intro k r hr label t hnext
      obtain hlt | hge := lt_or_ge k reps.length
      · rw [List.getElem?_append_left hlt] at hr
        exact hsmaller k r hr label t hnext
      · have hlt := (List.getElem?_eq_some_iff.mp hr).1
        rw [List.length_append, List.length_singleton] at hlt
        obtain rfl : k = reps.length := by omega
        rw [List.getElem?_concat_length] at hr
        obtain rfl := Option.some.inj hr
        rw [hold t (htargets x hxmem label t hnext)]
        exact Nat.lt_succ_iff.mp (h.class_lt t)
    · intro j _ hj
      omega

theorem classified_foldl {done reps rest : List ℕ} {s : Classes} (h : Classified dfa done reps s)
    (hpost : PostOrder dfa.targets dfa.states.length (done ++ rest)) :
    ∃ reps, Classified dfa (done ++ rest) reps (rest.foldl (MinimizeAcyclic.classify dfa) s) := by
  induction rest generalizing done reps s with
  | nil =>
      rw [List.append_nil]
      exact ⟨reps, h⟩
  | cons x rest ih =>
      rw [← List.singleton_append, ← List.append_assoc] at hpost ⊢
      obtain ⟨reps', h'⟩ := h.classify hpost.of_append
      exact ih h' hpost

/-! ## Dead classes and equivalent states -/

section Classified

variable {topo reps : List ℕ} {s : Classes} {rank : ℕ → ℕ}

theorem Classified.class_eq_iff (h : Classified dfa topo reps s) {t u : ℕ} (ht : t ∈ topo)
    (hu : u ∈ topo) : class_of s.class_of_state t = class_of s.class_of_state u ↔
      state_signature dfa s.class_of_state t = state_signature dfa s.class_of_state u := by
  rw [(h.inside t ht).2, (h.inside u hu).2]
  exact List.idxOf_inj (h.inside t ht).1

theorem Classified.class_zero_iff (h : Classified dfa topo reps s) {t : ℕ} (ht : t ∈ topo) :
    class_of s.class_of_state t = 0 ↔
      state_signature dfa s.class_of_state t = dead_signature := by
  rw [(h.inside t ht).2, h.table]
  constructor
  · intro hzero
    by_contra hne
    rw [List.idxOf_cons_ne _ (Ne.symm hne)] at hzero
    cases hzero
  · intro he
    rw [he]
    exact List.idxOf_cons_self

/-- The representative of a class has the signature of the states of the class. -/
theorem Classified.representative (h : Classified dfa topo reps s) {t k : ℕ} (ht : t ∈ topo)
    (hk : class_of s.class_of_state t = k + 1) : ∃ r, reps[k]? = some r ∧ r ∈ topo ∧
      state_signature dfa s.class_of_state r = state_signature dfa s.class_of_state t := by
  obtain ⟨hmem, he⟩ := h.inside t ht
  have hget := List.getElem?_idxOf hmem
  rw [← he, hk, h.table, List.getElem?_cons_succ, List.getElem?_map, Option.map_eq_some_iff] at hget
  obtain ⟨r, hr, hsig⟩ := hget
  exact ⟨r, hr, h.sublist.subset (List.mem_of_getElem? hr), hsig⟩

theorem Classified.class_of_representative (h : Classified dfa topo reps s) {k r : ℕ}
    (hr : reps[k]? = some r) : r ∈ topo ∧ class_of s.class_of_state r = k + 1 := by
  have hmem := h.sublist.subset (List.mem_of_getElem? hr)
  refine ⟨hmem, ?_⟩
  have hget : s.signature_to_class[k + 1]? = some (state_signature dfa s.class_of_state r) := by
    rw [h.table, List.getElem?_cons_succ, List.getElem?_map, hr, Option.map_some]
  obtain ⟨hlt, hkey⟩ := List.getElem?_eq_some_iff.mp hget
  rw [(h.inside r hmem).2, ← hkey]
  exact h.nodup.idxOf_getElem (k + 1) hlt

/-- Signatures tell the classes of the live targets. -/
theorem live_target_of_signature {t u t' : ℕ} {label : Label}
    (hsig : state_signature dfa c t = state_signature dfa c t')
    (hnext : dfa.next t label = some u) (hlive : class_of c u ≠ 0) :
    ∃ u', dfa.next t' label = some u' ∧ class_of c u' = class_of c u := by
  have he := (state_signature_eq_iff.mp hsig).2 label
  have hsome : live_class c u = some (class_of c u) := live_class_eq_some.mpr ⟨rfl, hlive⟩
  rw [hnext, Option.bind_some, hsome, eq_comm, Option.bind_eq_some_iff] at he
  obtain ⟨u', hnext', hu'⟩ := he
  exact ⟨u', hnext', (live_class_eq_some.mp hu').1⟩

theorem dead_signature_iff {t : ℕ} : state_signature dfa c t = dead_signature ↔
    dfa.is_accepting t = false ∧ ∀ label u, dfa.next t label = some u → class_of c u = 0 := by
  have hempty : dead_signature = ⟨false, (SortedMap.empty : SortedMap Label ℕ).entries⟩ := rfl
  rw [hempty, state_signature, StateSignature.mk.injEq, ← SortedMap.ext_iff]
  apply and_congr_right
  intro _
  constructor
  · intro he label u hnext
    have hget : ((dfa.transitions t).filterMapValues (live_class c)).get label =
        (dfa.next t label).bind (live_class c) := get_signature t label
    rw [he, hnext, SortedMap.get_empty, Option.bind_some, eq_comm] at hget
    exact live_class_eq_none.mp hget
  · intro hall
    apply SortedMap.ext_get
    intro label
    rw [get_signature, SortedMap.get_empty]
    cases hnext : dfa.next t label with
    | none => rfl
    | some u => exact live_class_eq_none.mpr (hall label u hnext)

/-- Exactly the live states have a class of their own. -/
theorem Classified.live_iff (h : Classified dfa topo reps s)
    (hpost : PostOrder dfa.targets dfa.states.length topo)
    (hrank : Ranked dfa.targets dfa.states.length rank) {t : ℕ} (ht : t ∈ topo) :
    dfa.Live t ↔ class_of s.class_of_state t ≠ 0 := by
  induction hk : rank t using Nat.strong_induction_on generalizing t with
  | _ k ih =>
  have hlower : ∀ label u, dfa.next t label = some u → u < dfa.states.length →
      u ∈ topo ∧ rank u < k := by
    intro label u hnext hlt
    have henters := enters_of_next hnext hlt
    exact ⟨hpost.mem ht henters, hk ▸ Ranked.enters hrank (hpost.lt t ht) henters⟩
  rw [ne_eq, h.class_zero_iff ht, dead_signature_iff]
  constructor
  · intro hlive hdead
    obtain ⟨word, hword⟩ := hlive
    cases word with
    | nil =>
        rw [PartialSystem.accepts_nil] at hword
        exact absurd (hdead.1.symm.trans hword) Bool.false_ne_true
    | cons label word =>
        cases hnext : dfa.next t label with
        | none =>
            rw [DFA.plain_accepts_cons_none hnext] at hword
            cases hword
        | some u =>
            rw [DFA.plain_accepts_cons hnext] at hword
            obtain ⟨hu, hlt⟩ := hlower label u hnext (DFA.lt_of_plain_accepts hword)
            exact (ih (rank u) hlt hu rfl).mp ⟨word, hword⟩ (hdead.2 label u hnext)
  · intro hne
    by_cases hacc : dfa.is_accepting t = true
    · exact ⟨[], hacc⟩
    · rw [Bool.not_eq_true] at hacc
      have hsome : ∃ label u, dfa.next t label = some u ∧ class_of s.class_of_state u ≠ 0 := by
        by_contra hnot
        push Not at hnot
        exact hne ⟨hacc, hnot⟩
      obtain ⟨label, u, hnext, hu⟩ := hsome
      have hlt : u < dfa.states.length := by
        by_contra hge
        exact hu (h.outside u fun hmem => hge (hpost.lt u hmem))
      obtain ⟨hmem, hrk⟩ := hlower label u hnext hlt
      obtain ⟨word, hword⟩ := (ih (rank u) hrk hmem rfl).mpr hu
      exact ⟨label :: word, (DFA.plain_accepts_cons hnext word).trans hword⟩

/-- Only states that were listed have a class of their own. -/
theorem Classified.mem_of_class (h : Classified dfa topo reps s) {t : ℕ}
    (ht : class_of s.class_of_state t ≠ 0) : t ∈ topo := by
  by_contra hnot
  exact ht (h.outside t hnot)

/-- A live target of a state has a counterpart for every state with the same words. -/
theorem Classified.live_target (h : Classified dfa topo reps s)
    (hpost : PostOrder dfa.targets dfa.states.length topo)
    (hrank : Ranked dfa.targets dfa.states.length rank) {t u w : ℕ} {label : Label} (hu : u ∈ topo)
    (hsame : ∀ word, dfa.plain.accepts t word = dfa.plain.accepts u word)
    (hnext : dfa.next t label = some w) (hw : class_of s.class_of_state w ≠ 0) :
    ∃ v, dfa.next u label = some v ∧ class_of s.class_of_state v ≠ 0 ∧
      ∀ word, dfa.plain.accepts w word = dfa.plain.accepts v word := by
  obtain ⟨word, hword⟩ := (h.live_iff hpost hrank (h.mem_of_class hw)).mpr hw
  rw [← DFA.plain_accepts_cons hnext, hsame] at hword
  cases hnext' : dfa.next u label with
  | none =>
      rw [DFA.plain_accepts_cons_none hnext'] at hword
      cases hword
  | some v =>
      rw [DFA.plain_accepts_cons hnext'] at hword
      have hv := hpost.mem hu (enters_of_next hnext' (DFA.lt_of_plain_accepts hword))
      refine ⟨v, rfl, (h.live_iff hpost hrank hv).mp ⟨word, hword⟩, ?_⟩
      intro word
      rw [← DFA.plain_accepts_cons hnext, hsame, DFA.plain_accepts_cons hnext']

/-- States with the same residual language are in one class. -/
theorem Classified.class_eq_of_accepts (h : Classified dfa topo reps s)
    (hpost : PostOrder dfa.targets dfa.states.length topo)
    (hrank : Ranked dfa.targets dfa.states.length rank) {t u : ℕ} (ht : t ∈ topo) (hu : u ∈ topo)
    (hsame : ∀ word, dfa.plain.accepts t word = dfa.plain.accepts u word) :
    class_of s.class_of_state t = class_of s.class_of_state u := by
  induction hk : rank t using Nat.strong_induction_on generalizing t u with
  | _ k ih =>
  rw [h.class_eq_iff ht hu, state_signature_eq_iff]
  refine ⟨hsame [], ?_⟩
  intro label
  have hclass : ∀ w v, dfa.next t label = some w → class_of s.class_of_state w ≠ 0 →
      class_of s.class_of_state v ≠ 0 →
      (∀ word, dfa.plain.accepts w word = dfa.plain.accepts v word) →
      class_of s.class_of_state w = class_of s.class_of_state v := by
    intro w v hnext hw hv hwv
    have hmem := h.mem_of_class hw
    have hlower := Ranked.enters hrank (hpost.lt t ht) (enters_of_next hnext (hpost.lt w hmem))
    exact ih (rank w) (hk ▸ hlower) hmem (h.mem_of_class hv) hwv rfl
  apply Option.ext
  intro j
  rw [Option.bind_eq_some_iff, Option.bind_eq_some_iff]
  constructor
  · intro hex
    obtain ⟨w, hnext, hj⟩ := hex
    obtain ⟨hwj, hj⟩ := live_class_eq_some.mp hj
    obtain ⟨v, hnext', hv, hwv⟩ := h.live_target hpost hrank hu hsame hnext (hwj ▸ hj)
    refine ⟨v, hnext', live_class_eq_some.mpr ⟨?_, hj⟩⟩
    rw [← hclass w v hnext (hwj ▸ hj) hv hwv, hwj]
  · intro hex
    obtain ⟨v, hnext, hj⟩ := hex
    obtain ⟨hvj, hj⟩ := live_class_eq_some.mp hj
    obtain ⟨w, hnext', hw, hvw⟩ := h.live_target hpost hrank ht (fun word => (hsame word).symm) hnext
      (hvj ▸ hj)
    refine ⟨w, hnext', live_class_eq_some.mpr ⟨?_, hj⟩⟩
    rw [hclass w v hnext' hw (hvj ▸ hj) fun word => (hvw word).symm, hvj]

/-- The live targets of a state have smaller classes than the state. -/
theorem Classified.target_lt (h : Classified dfa topo reps s) {t u : ℕ} {label : Label}
    (ht : t ∈ topo) (hnext : dfa.next t label = some u) (hu : class_of s.class_of_state u ≠ 0) :
    class_of s.class_of_state u < class_of s.class_of_state t := by
  have hne : class_of s.class_of_state t ≠ 0 := by
    rw [ne_eq, h.class_zero_iff ht, dead_signature_iff]
    intro hdead
    exact hu (hdead.2 label u hnext)
  obtain ⟨k, hk⟩ := Nat.exists_eq_succ_of_ne_zero hne
  obtain ⟨r, hr, -, hsig⟩ := h.representative ht hk
  obtain ⟨u', hnext', he⟩ := live_target_of_signature hsig.symm hnext hu
  have hle := h.smaller k r hr label u' hnext'
  omega

/-! ## The minimised automaton -/

/-- The state of a live target in the minimised automaton. -/
def newTarget (c : List ℕ) (target : ℕ) : Option ℕ := (live_class c target).map (· - 1)

theorem minimized_state_transitions (t : ℕ) : (minimized_state dfa c t).transitions =
    (dfa.transitions t).filterMapValues (newTarget c) := by
  have htarget : ∀ u, (if class_of c u = DEAD_CLASS then none else some (class_of c u - 1)) =
      newTarget c u := by
    intro u
    rw [newTarget, live_class]
    by_cases hu : class_of c u = DEAD_CLASS
    · rw [if_pos hu, if_neg (not_not.mpr hu), Option.map_none]
    · rw [if_neg hu, if_pos hu, Option.map_some]
  exact congrArg (fun f => (dfa.transitions t).filterMapValues f) (funext htarget)

theorem get_minimized_state (t : ℕ) (label : Label) :
    (minimized_state dfa c t).transitions.get label =
      ((dfa.next t label).bind (live_class c)).map (· - 1) := by
  rw [minimized_state_transitions, SortedMap.get_filterMapValues, ← DFA.next_eq]
  cases dfa.next t label with
  | none => rfl
  | some u => rfl

/-- The states of a class give one row. -/
theorem minimized_state_congr {t u : ℕ}
    (hsig : state_signature dfa c t = state_signature dfa c u) :
    minimized_state dfa c t = minimized_state dfa c u := by
  obtain ⟨hacc, hnext⟩ := state_signature_eq_iff.mp hsig
  have htransitions : (minimized_state dfa c t).transitions = (minimized_state dfa c u).transitions := by
    apply SortedMap.ext_get
    intro label
    rw [get_minimized_state, get_minimized_state, hnext]
  exact congrArg₂ DFAState.mk hacc htransitions

/-- One state for every class that is not dead. -/
def minimizedOf (dfa : DFA) (s : Classes) (reps : List ℕ) : DFA :=
  ⟨reps.map (minimized_state dfa s.class_of_state),
    class_of s.class_of_state dfa.start_state - 1⟩

theorem Classified.build_eq (h : Classified dfa topo reps s) :
    build_minimized_acyclic_dfa dfa s =
      if class_of s.class_of_state dfa.start_state = 0 then some DFA.new
      else some (minimizedOf dfa s reps) := by
  have hstates : (s.class_representatives.drop 1).mapM (fun representative =>
      representative.map (minimized_state dfa s.class_of_state)) =
        some (reps.map (minimized_state dfa s.class_of_state)) := by
    rw [h.representatives, List.drop_one, List.tail_cons]
    clear h
    induction reps with
    | nil => rfl
    | cons r reps ih =>
        rw [List.map_cons, List.mapM_cons, ih]
        rfl
  rw [build_minimized_acyclic_dfa, hstates]
  rfl

theorem Classified.row (h : Classified dfa topo reps s) {t : ℕ} (ht : t ∈ topo)
    (hlive : class_of s.class_of_state t ≠ 0) :
    (minimizedOf dfa s reps).states[class_of s.class_of_state t - 1]? =
      some (minimized_state dfa s.class_of_state t) := by
  obtain ⟨k, hk⟩ := Nat.exists_eq_succ_of_ne_zero hlive
  obtain ⟨r, hr, -, hsig⟩ := h.representative ht hk
  rw [hk, Nat.succ_sub_one, minimizedOf, List.getElem?_map, hr, Option.map_some,
    minimized_state_congr hsig]

theorem Classified.next (h : Classified dfa topo reps s) {t : ℕ} (ht : t ∈ topo)
    (hlive : class_of s.class_of_state t ≠ 0) (label : Label) :
    (minimizedOf dfa s reps).next (class_of s.class_of_state t - 1) label =
      ((dfa.next t label).bind (live_class s.class_of_state)).map (· - 1) := by
  rw [DFA.next, h.row ht hlive, Option.bind_some, get_minimized_state]

/-- The class of a live state accepts what the state accepts. -/
theorem Classified.accepts (h : Classified dfa topo reps s)
    (hpost : PostOrder dfa.targets dfa.states.length topo)
    (hrank : Ranked dfa.targets dfa.states.length rank) {t : ℕ}
    (hlive : class_of s.class_of_state t ≠ 0) (word : List Label) :
    (minimizedOf dfa s reps).plain.accepts (class_of s.class_of_state t - 1) word =
      dfa.plain.accepts t word := by
  induction word generalizing t with
  | nil => exact DFA.is_accepting_eq (h.row (h.mem_of_class hlive) hlive)
  | cons label word ih =>
      have ht := h.mem_of_class hlive
      have hstep := h.next ht hlive label
      cases hnext : dfa.next t label with
      | none =>
          rw [hnext, Option.bind_none, Option.map_none] at hstep
          rw [DFA.plain_accepts_cons_none hnext, DFA.plain_accepts_cons_none hstep]
      | some u =>
          rw [hnext, Option.bind_some] at hstep
          rw [DFA.plain_accepts_cons hnext]
          by_cases hu : class_of s.class_of_state u = 0
          · rw [live_class_eq_none.mpr hu, Option.map_none] at hstep
            rw [DFA.plain_accepts_cons_none hstep]
            -- a dead state accepts nothing
            symm
            by_contra hacc
            rw [Bool.not_eq_false] at hacc
            have hmem := hpost.mem ht (enters_of_next hnext (DFA.lt_of_plain_accepts hacc))
            exact (h.live_iff hpost hrank hmem).mp ⟨word, hacc⟩ hu
          · rw [live_class_eq_some.mpr ⟨rfl, hu⟩, Option.map_some] at hstep
            rw [DFA.plain_accepts_cons hstep, ih hu]

theorem Classified.lt_minimized (h : Classified dfa topo reps s) {t : ℕ}
    (hlive : class_of s.class_of_state t ≠ 0) :
    class_of s.class_of_state t - 1 < (minimizedOf dfa s reps).states.length := by
  have hlt := h.class_lt t
  rw [minimizedOf, List.length_map]
  omega

/-- The class of a live state that is listed is reached. -/
theorem Classified.reachable (h : Classified dfa topo reps s)
    (hpost : PostOrder dfa.targets dfa.states.length topo) {t : ℕ}
    (hstart : dfa.start_state ∈ topo)
    (ht : Relation.ReflTransGen (Enters dfa.targets dfa.states.length) dfa.start_state t)
    (hlive : class_of s.class_of_state t ≠ 0) :
    (minimizedOf dfa s reps).Reachable (class_of s.class_of_state t - 1) := by
  have hmem : ∀ t, Relation.ReflTransGen (Enters dfa.targets dfa.states.length) dfa.start_state t →
      t ∈ topo := by
    intro t ht
    induction ht with
    | refl => exact hstart
    | tail _ hstep ih => exact hpost.mem ih hstep
  induction ht with
  | refl => exact DFA.Reachable.start (h.lt_minimized hlive)
  | @tail u v hpath hstep ih =>
      obtain ⟨label, hnext⟩ := DFA.mem_targets.mp hstep.1
      have hlt := h.target_lt (hmem u hpath) hnext hlive
      have hsource : class_of s.class_of_state u ≠ 0 := by omega
      have hrow := h.next (hmem u hpath) hsource label
      rw [hnext, Option.bind_some, live_class_eq_some.mpr ⟨rfl, hlive⟩, Option.map_some] at hrow
      exact (ih hsource).next hrow (h.lt_minimized hlive)

/-- All states are reachable and live, and no two accept the same words. -/
structure Irreducible (dfa : DFA) : Prop where
  reachable : ∀ t < dfa.states.length, dfa.Reachable t
  live : ∀ t < dfa.states.length, dfa.Live t
  distinct : ∀ t < dfa.states.length, ∀ u < dfa.states.length,
    (∀ word, dfa.plain.accepts t word = dfa.plain.accepts u word) → t = u

/-- The order lists what the start reaches, and nothing else. -/
structure Listed (dfa : DFA) (topo : List ℕ) : Prop where
  postOrder : PostOrder dfa.targets dfa.states.length topo
  start : dfa.start_state ∈ topo
  descends : ∀ t ∈ topo,
    Relation.ReflTransGen (Enters dfa.targets dfa.states.length) dfa.start_state t

/-- The minimised automaton has no dead states and no two equivalent ones. -/
theorem Classified.irreducible (h : Classified dfa topo reps s) (htopo : Listed dfa topo)
    (hrank : Ranked dfa.targets dfa.states.length rank) :
    Irreducible (minimizedOf dfa s reps) := by
  have hrep : ∀ i < (minimizedOf dfa s reps).states.length, ∃ r ∈ topo,
      class_of s.class_of_state r ≠ 0 ∧ class_of s.class_of_state r - 1 = i := by
    intro i hi
    rw [minimizedOf, List.length_map] at hi
    obtain ⟨hmem, hclass⟩ := h.class_of_representative (List.getElem?_eq_getElem hi)
    exact ⟨reps[i], hmem, by omega, by omega⟩
  refine ⟨?_, ?_, ?_⟩
  · intro i hi
    obtain ⟨r, hr, hne, rfl⟩ := hrep i hi
    exact h.reachable htopo.postOrder htopo.start (htopo.descends r hr) hne
  · intro i hi
    obtain ⟨r, hr, hne, rfl⟩ := hrep i hi
    obtain ⟨word, hword⟩ := (h.live_iff htopo.postOrder hrank hr).mpr hne
    exact ⟨word, (h.accepts htopo.postOrder hrank hne word).trans hword⟩
  · intro i hi j hj hsame
    obtain ⟨r, hr, hne, rfl⟩ := hrep i hi
    obtain ⟨r', hr', hne', rfl⟩ := hrep j hj
    rw [h.class_eq_of_accepts htopo.postOrder hrank hr hr' fun word => by
      rw [← h.accepts htopo.postOrder hrank hne, hsame, h.accepts htopo.postOrder hrank hne']]

theorem Irreducible.fewest {result : DFA} (h : Irreducible result)
    (hlang : ∀ word, result.accepts_word word = dfa.accepts_word word) : DFA.Fewest dfa result :=
  DFA.fewest_of_residuals hlang h.reachable h.live h.distinct

end Classified

/-- An automaton that is acyclic and whose start state exists is listed and classified. -/
theorem listed_classified (hacyclic : dfa.compute_is_acyclic = true)
    (hstart : dfa.start_state < dfa.states.length) : ∃ rank topo reps,
      Ranked dfa.targets dfa.states.length rank ∧ Listed dfa topo ∧
      topo = walk dfa.targets dfa.states.length (rank dfa.start_state + 1) [] dfa.start_state ∧
      Yields (reverse_topological_order dfa) topo ∧
      Classified dfa topo reps (topo.foldl (classify dfa) (initial_classes dfa)) := by
  obtain ⟨rank, hrank⟩ := (allReleased_iff _ _).mp hacyclic
  obtain ⟨topo, hwalk, hvisits⟩ := walk_spec hrank hstart (Nat.lt_succ_self _) postOrder_nil
  rw [List.nil_append] at hwalk
  have hpost := hvisits.postOrder
  have hmem := hvisits.listed
  rw [List.nil_append] at hpost hmem
  obtain ⟨reps, hclassified⟩ := classified_foldl classified_initial hpost
  refine ⟨rank, topo, reps, hrank, ⟨hpost, hmem, hvisits.descends⟩, hwalk.symm, ?_, hclassified⟩
  rw [← hwalk]
  exact postorder_yields hrank hstart

theorem minimize_acyclic_yields {topo reps : List ℕ} (hacyclic : dfa.compute_is_acyclic = true)
    (hstart : dfa.start_state < dfa.states.length)
    (horder : Yields (reverse_topological_order dfa) topo)
    (h : Classified dfa topo reps (topo.foldl (classify dfa) (initial_classes dfa))) :
    Yields (minimize_acyclic dfa)
      (if class_of (topo.foldl (classify dfa) (initial_classes dfa)).class_of_state
          dfa.start_state = 0 then DFA.new
        else minimizedOf dfa (topo.foldl (classify dfa) (initial_classes dfa)) reps) := by
  have hstates : dfa.states ≠ [] := by
    intro he
    rw [he] at hstart
    exact absurd hstart (Nat.not_lt_zero _)
  unfold minimize_acyclic minimize_acyclic_unchecked
  simp only [hacyclic, if_true, if_neg hstates]
  apply horder.bind (g := fun _ topo =>
    build_minimized_acyclic_dfa dfa (topo.foldl (classify dfa) (initial_classes dfa)))
  rw [h.build_eq]
  split_ifs with hdead
  · exact Yields.const DFA.new
  · exact Yields.const _

end MinimizeAcyclic

end GlrMask
