import GlrMask.Exploration
import GlrMask.Nfa

/-!
# Unweighted automata without a default label

A word is accepted along explicit edges only. A missing edge, and an edge to a
state that does not exist, reject. An automaton whose rows were filled by an
exploration accepts from the number of a key what the key accepts.
-/

namespace GlrMask

namespace DFA

/-- Follow an explicit edge. -/
def next (self : DFA) (state : ℕ) (label : Label) : Option ℕ :=
  (self.states[state]?).bind fun row => row.transitions.get label

def plain (self : DFA) : PartialSystem ℕ Label where
  step := self.next
  accepting := self.is_accepting

def accepts_word (self : DFA) (word : List Label) : Bool :=
  self.plain.accepts self.start_state word

/-- The start state, if there are states at all, and the targets of all edges are states. -/
structure InRange (dfa : DFA) : Prop where
  start : dfa.states ≠ [] → dfa.start_state < dfa.states.length
  targets : ∀ state label target, dfa.next state label = some target → target < dfa.states.length

variable {self : DFA}

/-- Only existing states accept a word. -/
theorem lt_of_plain_accepts {state : ℕ} {word : List Label}
    (h : self.plain.accepts state word = true) : state < self.states.length := by
  by_contra hge
  have hnone : self.states[state]? = none := List.getElem?_eq_none (not_lt.mp hge)
  cases word with
  | nil =>
      simp [plain, is_accepting, hnone] at h
  | cons label word =>
      rw [PartialSystem.accepts_cons] at h
      simp [plain, next, hnone] at h

theorem plain_accepts_of_empty (h : self.states = []) (state : ℕ) (word : List Label) :
    self.plain.accepts state word = false := by
  by_contra hacc
  have hlt := lt_of_plain_accepts (Bool.not_eq_false _ ▸ hacc)
  rw [h] at hlt
  exact absurd hlt (Nat.not_lt_zero _)

theorem new_accepts_word (word : List Label) : new.accepts_word word = false := by
  cases word with
  | nil => rfl
  | cons label word =>
      rw [accepts_word, PartialSystem.accepts_cons]
      rfl

end DFA

/-! ## Automata that are built by an exploration -/

namespace DFAState

def link (label : Label) (target : ℕ) (row : DFAState) : DFAState :=
  { row with transitions := row.transitions.insert label target }

def mark (accepting : Bool) (row : DFAState) : DFAState := { row with is_accepting := accepting }

end DFAState

section Explored

open Exploration

variable {K : Type*} [DecidableEq K]

/-- Keys as the states of a system. -/
def keySystem (next : K → List (Label × K)) (accepting : K → Bool) : PartialSystem K Label where
  step k label := (next k).lookup label
  accepting := accepting

/-- A row that is linked to the numbers of some keys. -/
def DFAState.linked (number : K → ℕ) (successors : List (Label × K)) (row : DFAState) : DFAState :=
  successors.foldl (fun row e => link e.1 (number e.2) row) row

omit [DecidableEq K] in
theorem linked_is_accepting (number : K → ℕ) (successors : List (Label × K)) (row : DFAState) :
    (row.linked number successors).is_accepting = row.is_accepting := by
  induction successors generalizing row with
  | nil => rfl
  | cons e successors ih => exact ih (DFAState.link e.1 (number e.2) row)

omit [DecidableEq K] in
theorem get_linked (number : K → ℕ) {successors : List (Label × K)}
    (h : (successors.map Prod.fst).Nodup) (row : DFAState) (label : Label) :
    (row.linked number successors).transitions.get label =
      ((successors.lookup label).map number).or (row.transitions.get label) := by
  induction successors generalizing row with
  | nil => rfl
  | cons e successors ih =>
      rw [List.map_cons, List.nodup_cons] at h
      have hrest := ih h.2 (DFAState.link e.1 (number e.2) row)
      rw [DFAState.link, SortedMap.get_insert] at hrest
      rw [List.lookup_cons]
      refine hrest.trans ?_
      by_cases he : e.1 = label
      · have hnone : successors.lookup label = none := by
          rw [List.lookup_eq_none_iff]
          intro e' he'
          rw [bne_iff_ne]
          intro hlabel
          exact h.1 (he ▸ hlabel ▸ List.mem_map_of_mem he')
        rw [hnone, if_pos he, he, beq_self_eq_true]
        rfl
      · rw [if_neg he, beq_false_of_ne (Ne.symm he)]

theorem mem_of_lookup {C V : Type*} [BEq C] [LawfulBEq C] {l : List (C × V)} {label : C} {v : V}
    (h : l.lookup label = some v) : (label, v) ∈ l := by
  obtain ⟨l₁, l₂, he, -⟩ := List.lookup_eq_some_iff.mp h
  rw [he]
  exact List.mem_append_right _ List.mem_cons_self

theorem lookup_of_mem {C V : Type*} [BEq C] [LawfulBEq C] {l : List (C × V)}
    (h : (l.map Prod.fst).Nodup) {label : C} {v : V} (hmem : (label, v) ∈ l) : l.lookup label = some v := by
  obtain ⟨v', hv'⟩ : ∃ v', l.lookup label = some v' := by
    rw [← Option.isSome_iff_exists, List.lookup_isSome_iff]
    exact ⟨(label, v), hmem, beq_self_eq_true label⟩
  have he := List.inj_on_of_nodup_map h hmem (mem_of_lookup hv') rfl
  rw [hv', (Prod.mk.inj he).2]

variable {next : K → List (Label × K)} {accepting : K → Bool} {opened : K → DFAState → DFAState}
  {start : K} {table : Table K DFAState} {keys : List K}

section Rows

variable (h : Explored next opened DFAState.link start table keys)
  (hlabels : ∀ k ∈ keys, ((next k).map Prod.fst).Nodup)
  (hopened : ∀ k ∈ keys, opened k default = ⟨accepting k, SortedMap.empty⟩)
include h hlabels hopened

/-- The number of a key steps to the numbers that the key steps to. -/
theorem explored_step (start_state : ℕ) (i : ℕ) (k : K) (label : Label) (hk : keys[i]? = some k) :
    Option.Rel (fun (i : ℕ) k => keys[i]? = some k) ((DFA.mk table.rows start_state).plain.step i label)
      ((keySystem next accepting).step k label) := by
  have hmem := List.mem_of_getElem? hk
  have hlt := (List.getElem?_eq_some_iff.mp hk).1
  have hrow := h.full i k hlt hk
  rw [fullRow, hopened k hmem] at hrow
  change table.rows[i]? = some (DFAState.linked keys.idxOf (next k) _) at hrow
  simp only [DFA.plain, DFA.next, hrow, keySystem, Option.bind_some,
    get_linked keys.idxOf (hlabels k hmem), SortedMap.get_empty, Option.or_none]
  cases hlookup : (next k).lookup label with
  | none => exact Option.Rel.none
  | some k' =>
      have hk' : k' ∈ keys := h.successors i k hlt hk (label, k') (mem_of_lookup hlookup)
      exact Option.Rel.some (List.getElem?_idxOf hk')

/-- The number of a key accepts what the key accepts. -/
theorem explored_accepts {i : ℕ} {k : K} (hk : keys[i]? = some k) (start_state : ℕ)
    (word : List Label) : (DFA.mk table.rows start_state).plain.accepts i word =
      (keySystem next accepting).accepts k word := by
  apply PartialSystem.accepts_eq_of_related (r := fun i k => keys[i]? = some k) _
    (explored_step h hlabels hopened start_state) hk
  intro i k hk
  have hrow := h.full i k (List.getElem?_eq_some_iff.mp hk).1 hk
  rw [fullRow, hopened k (List.mem_of_getElem? hk)] at hrow
  change table.rows[i]? = some (DFAState.linked keys.idxOf (next k) _) at hrow
  simp only [DFA.plain, DFA.is_accepting, hrow, linked_is_accepting, keySystem]

/-- Every number is reached by a word, which leads to its key. -/
theorem explored_reached {i : ℕ} {k : K} (hk : keys[i]? = some k) (start_state : ℕ) :
    ∃ word, (DFA.mk table.rows start_state).plain.run 0 word = some i ∧
      (keySystem next accepting).run start word = some k := by
  obtain ⟨-, word, hword⟩ :
      k ∈ keys ∧ ∃ word, (keySystem next accepting).run start word = some k := by
    have hreached := h.reached k (List.mem_of_getElem? hk)
    clear hk
    induction hreached with
    | refl => exact ⟨List.mem_of_getElem? h.first, [], rfl⟩
    | tail _ hstep ih =>
        obtain ⟨hmem, word, hword⟩ := ih
        obtain ⟨label, hlabel⟩ := hstep
        obtain ⟨i, hi⟩ := List.mem_iff_getElem?.mp hmem
        refine ⟨h.successors i _ (List.getElem?_eq_some_iff.mp hi).1 hi _ hlabel, word ++ [label], ?_⟩
        rw [PartialSystem.run_append, hword, Option.bind_some]
        have hstep := lookup_of_mem (hlabels _ hmem) hlabel
        simp [PartialSystem.run, keySystem, hstep]
  refine ⟨word, ?_, hword⟩
  have hrun := PartialSystem.run_rel (explored_step h hlabels hopened start_state) h.first word
  rw [hword] at hrun
  cases hrel : (DFA.mk table.rows start_state).plain.run 0 word with
  | none =>
      rw [hrel] at hrun
      cases hrun
  | some j =>
      rw [hrel] at hrun
      cases hrun with
      | some hj =>
          -- a key has one number only
          have hnumber := (h.keyed.number k i).mpr hk
          rw [(h.keyed.number k j).mpr hj] at hnumber
          exact hnumber

end Rows

end Explored

end GlrMask
