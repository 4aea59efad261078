import GlrMask.LexerExpr
import GlrMask.RangeMapJoin
import GlrMask.StackSearch

/-!
# Scanning with a tokenizer

A tokenizer reads bytes from a set of states that is closed under epsilon transitions. Its
physical states have rows; the states behind them belong to virtual runtimes, which have no
epsilon transitions. What a state may still match after more bytes is recorded with it.
-/

namespace GlrMask

structure TokenizerRows where
  num_states : ℕ
  start_state : ℕ
  step : ℕ → Byte → Option ℕ
  epsilon_targets : ℕ → List ℕ
  matched_terminals : ℕ → Finset ℕ
  possible_future_terminals : ℕ → Finset ℕ

namespace TokenizerRows

variable (T : TokenizerRows)

/-- The bytes on a path of byte and epsilon transitions. -/
inductive Reads : ℕ → List Byte → ℕ → Prop
  | done (state : ℕ) : Reads state [] state
  | byte {state next last : ℕ} {b : Byte} {w : List Byte} (hstep : T.step state b = some next)
      (hrest : Reads next w last) : Reads state (b :: w) last
  | epsilon {state next last : ℕ} {w : List Byte} (hstep : next ∈ T.epsilon_targets state)
      (hrest : Reads next w last) : Reads state w last

/-- A terminal is matched on a word from some of the states. -/
def Matches (states : List ℕ) (w : List Byte) (terminal : ℕ) : Prop :=
  ∃ state ∈ states, ∃ last, T.Reads state w last ∧ terminal ∈ T.matched_terminals last

end TokenizerRows

/-- Only physical states have epsilon transitions, and the recorded futures of a state
cover everything that can be matched after one or more bytes. -/
structure Tokenizer extends TokenizerRows where
  epsilon_lt : ∀ {state target}, target ∈ epsilon_targets state →
    state < num_states ∧ target < num_states
  futures : ∀ {state w terminal}, w ≠ [] → toTokenizerRows.Matches [state] w terminal →
    terminal ∈ possible_future_terminals state

namespace Tokenizer

variable (T : Tokenizer)

def transitions_from (state : ℕ) : List (Byte × ℕ) :=
  (List.finRange 256).filterMap fun byte => (T.step state byte).map fun target => (byte, target)

/-- The row of a state; `u32::MAX` stands for no transition. -/
def transition_row (state : ℕ) : Byte → Option ℕ := fun byte => T.step state byte

def self_loop_bytes (state : ℕ) : U8Set :=
  (T.transitions_from state).foldl
    (fun bytes edge => if edge.2 = state then insert edge.1 bytes else bytes) ∅

def state_has_epsilon_transitions (state : ℕ) : Bool := !(T.epsilon_targets state).isEmpty

def has_epsilon_transitions : Bool :=
  (List.range T.num_states).any fun state => T.state_has_epsilon_transitions state

def is_end (state : ℕ) : Bool := (T.possible_future_terminals state).card == 0

/-- The closure, sorted. -/
def epsilon_closure_states (roots : List ℕ) : List ℕ :=
  if roots.all fun state => !T.state_has_epsilon_transitions state then sortDedup roots
  else
    sortDedup (roots.filter (T.num_states ≤ ·) ++
      StackSearch.collect T.epsilon_targets (Finset.range T.num_states) roots)

/-- The targets of a byte from the closure, closed again. -/
def stepClosure (states : List ℕ) (byte : Byte) : List ℕ :=
  let targets := (T.epsilon_closure_states states).filterMap fun state => T.step state byte
  if targets.isEmpty then [] else T.epsilon_closure_states (sortDedup targets)

def step_all (states : List ℕ) (byte : Byte) : List ℕ :=
  match states with
  | [state] =>
      if T.state_has_epsilon_transitions state then T.stepClosure [state] byte
      else
        match T.step state byte with
        | none => []
        | some target =>
            if T.state_has_epsilon_transitions target then T.stepClosure [state] byte else [target]
  | states => T.stepClosure states byte

def deterministic_dispatch_roots : Option (List ℕ) :=
  let roots := T.epsilon_targets T.start_state
  if roots.length < 2 || !(T.transitions_from T.start_state).isEmpty then none
  else if roots.any fun root => T.state_has_epsilon_transitions root then none
  else some roots

/-- No state that bytes reach from a dispatch root has an epsilon transition. -/
def has_scalar_deterministic_dispatch : Bool :=
  match T.deterministic_dispatch_roots with
  | none => false
  | some roots =>
      StackSearch.allReached (fun state => (T.transitions_from state).map Prod.snd)
        (Finset.range T.num_states) (fun state => !T.state_has_epsilon_transitions state) ∅
        roots.reverse

def scanBytes : List Byte → List ℕ → List ℕ
  | [], states => states
  | byte :: input, states =>
      let states := T.step_all states byte
      if states.isEmpty then states else scanBytes input states

def execute_from_state_end_only (input : List Byte) (start : ℕ) : List ℕ :=
  T.scanBytes input
    (if !input.isEmpty && start == T.start_state then
      T.deterministic_dispatch_roots.getD (T.epsilon_closure_states [start])
    else T.epsilon_closure_states [start])

end Tokenizer

/-! ## Reading -/

namespace TokenizerRows

variable {T : TokenizerRows} {q m p : ℕ} {u w : List Byte}

theorem Reads.append (h : T.Reads q u m) (h' : T.Reads m w p) : T.Reads q (u ++ w) p := by
  induction h with
  | done => exact h'
  | byte hstep _ ih => exact Reads.byte hstep (ih h')
  | epsilon hstep _ ih => exact Reads.epsilon hstep (ih h')

theorem reads_append_iff : T.Reads q (u ++ w) p ↔ ∃ m, T.Reads q u m ∧ T.Reads m w p := by
  constructor
  · intro h
    generalize hv : u ++ w = v at h
    induction h generalizing u with
    | done state =>
        obtain ⟨rfl, rfl⟩ := List.append_eq_nil_iff.mp hv
        exact ⟨state, Reads.done state, Reads.done state⟩
    | @byte state next last b v hstep hrest ih =>
        cases u with
        | nil =>
            rw [List.nil_append] at hv
            rw [hv]
            exact ⟨state, Reads.done state, Reads.byte hstep hrest⟩
        | cons a u =>
            rw [List.cons_append, List.cons.injEq] at hv
            obtain ⟨rfl, hv⟩ := hv
            obtain ⟨m, hm, hlast⟩ := ih hv
            exact ⟨m, Reads.byte hstep hm, hlast⟩
    | epsilon hstep _ ih =>
        obtain ⟨m, hm, hlast⟩ := ih hv
        exact ⟨m, Reads.epsilon hstep hm, hlast⟩
  · intro h
    obtain ⟨m, hm, hlast⟩ := h
    exact hm.append hlast

theorem reads_nil_iff :
    T.Reads q [] p ↔ Relation.ReflTransGen (fun s t => t ∈ T.epsilon_targets s) q p := by
  constructor
  · intro h
    generalize hv : ([] : List Byte) = v at h
    induction h with
    | done => exact Relation.ReflTransGen.refl
    | byte => cases hv
    | epsilon hstep _ ih => exact (ih hv).head hstep
  · intro h
    induction h using Relation.ReflTransGen.head_induction_on with
    | refl => exact Reads.done _
    | head hstep _ ih => exact Reads.epsilon hstep ih

theorem reads_singleton_iff {b : Byte} : T.Reads q [b] p ↔
    ∃ m t, T.Reads q [] m ∧ T.step m b = some t ∧ T.Reads t [] p := by
  constructor
  · intro h
    generalize hv : [b] = v at h
    induction h with
    | done => cases hv
    | @byte state next last b' w hstep hrest _ =>
        rw [List.cons.injEq] at hv
        obtain ⟨rfl, rfl⟩ := hv
        exact ⟨state, next, Reads.done state, hstep, hrest⟩
    | epsilon hstep _ ih =>
        obtain ⟨m, t, hm, ht, hlast⟩ := ih hv
        exact ⟨m, t, Reads.epsilon hstep hm, ht, hlast⟩
  · intro h
    obtain ⟨m, t, hm, ht, hlast⟩ := h
    exact hm.append (Reads.byte ht hlast)

theorem matches_iff_singleton {states : List ℕ} {terminal : ℕ} :
    T.Matches states w terminal ↔ ∃ state ∈ states, T.Matches [state] w terminal := by
  simp only [Matches, List.mem_singleton, exists_eq_left]

end TokenizerRows

namespace Tokenizer

open TokenizerRows

variable {T : Tokenizer} {states : List ℕ} {p : ℕ}

theorem not_has_epsilon {state : ℕ} (h : T.state_has_epsilon_transitions state = false) :
    T.epsilon_targets state = [] := by
  simpa [state_has_epsilon_transitions] using h

/-- A state without epsilon transitions is left by bytes only. -/
theorem eq_of_reads_nil {state : ℕ} (h : T.epsilon_targets state = [])
    (hreads : T.Reads state [] p) : p = state := by
  rcases (reads_nil_iff.mp hreads).cases_head with heq | ⟨next, hstep, -⟩
  · exact heq.symm
  · rw [h] at hstep
    exact absurd hstep List.not_mem_nil

theorem mem_epsilon_closure_states :
    p ∈ T.epsilon_closure_states states ↔ ∃ state ∈ states, T.Reads state [] p := by
  unfold epsilon_closure_states
  split_ifs with hflat
  · rw [mem_sortDedup]
    constructor
    · intro hp
      exact ⟨p, hp, Reads.done p⟩
    · intro h
      obtain ⟨state, hstate, hreads⟩ := h
      have hnone := List.all_eq_true.mp hflat state hstate
      rw [eq_of_reads_nil (not_has_epsilon (by simpa using hnone)) hreads]
      exact hstate
  · rw [mem_sortDedup, List.mem_append, List.mem_filter, StackSearch.mem_collect]
    have hgen : ∀ {state}, Relation.ReflTransGen (fun s t => t ∈ T.epsilon_targets s) state p ↔
        Relation.ReflTransGen (StackSearch.Step T.epsilon_targets (Finset.range T.num_states))
          state p := by
      intro state
      constructor
      · intro h
        exact Relation.ReflTransGen.mono
          (fun s t ht => ⟨ht, Finset.mem_range.mpr (T.epsilon_lt ht).2⟩) _ _ h
      · intro h
        exact Relation.ReflTransGen.mono (fun s t ht => ht.1) _ _ h
    constructor
    · intro h
      rcases h with ⟨hp, -⟩ | ⟨state, hstate, -, hreach⟩
      · exact ⟨p, hp, Reads.done p⟩
      · exact ⟨state, hstate, reads_nil_iff.mpr (hgen.mpr hreach)⟩
    · intro h
      obtain ⟨state, hstate, hreads⟩ := h
      rcases Nat.lt_or_ge state T.num_states with hlt | hge
      · exact Or.inr ⟨state, hstate, Finset.mem_range.mpr hlt, hgen.mp (reads_nil_iff.mp hreads)⟩
      · left
        have hnone : T.epsilon_targets state = [] := by
          rw [List.eq_nil_iff_forall_not_mem]
          intro target htarget
          exact absurd (T.epsilon_lt htarget).1 (not_lt.mpr hge)
        rw [eq_of_reads_nil hnone hreads]
        exact ⟨hstate, decide_eq_true hge⟩

theorem mem_stepClosure {byte : Byte} :
    p ∈ T.stepClosure states byte ↔ ∃ state ∈ states, T.Reads state [byte] p := by
  have htargets : (∃ t ∈ (T.epsilon_closure_states states).filterMap (fun s => T.step s byte),
      T.Reads t [] p) ↔ ∃ state ∈ states, T.Reads state [byte] p := by
    constructor
    · intro h
      obtain ⟨t, ht, hreads⟩ := h
      obtain ⟨m, hm, hstep⟩ := List.mem_filterMap.mp ht
      obtain ⟨state, hstate, hclosure⟩ := mem_epsilon_closure_states.mp hm
      exact ⟨state, hstate, reads_singleton_iff.mpr ⟨m, t, hclosure, hstep, hreads⟩⟩
    · intro h
      obtain ⟨state, hstate, hreads⟩ := h
      obtain ⟨m, t, hclosure, hstep, hlast⟩ := reads_singleton_iff.mp hreads
      have hm := mem_epsilon_closure_states.mpr ⟨state, hstate, hclosure⟩
      exact ⟨t, List.mem_filterMap.mpr ⟨m, hm, hstep⟩, hlast⟩
  rw [← htargets]
  unfold stepClosure
  simp only
  split_ifs with hempty
  · rw [List.isEmpty_iff.mp hempty]
    simp
  · rw [mem_epsilon_closure_states]
    simp only [mem_sortDedup]

theorem mem_step_all {byte : Byte} :
    p ∈ T.step_all states byte ↔ ∃ state ∈ states, T.Reads state [byte] p := by
  unfold step_all
  split
  · rename_i state
    split_ifs with hepsilon
    · exact mem_stepClosure
    · have hnone := not_has_epsilon (Bool.eq_false_iff.mpr hepsilon)
      split
      · rename_i hstep
        simp only [List.not_mem_nil, List.mem_singleton, exists_eq_left, false_iff]
        intro hreads
        obtain ⟨m, t, hm, ht, -⟩ := reads_singleton_iff.mp hreads
        rw [eq_of_reads_nil hnone hm, hstep] at ht
        cases ht
      · rename_i target hstep
        split_ifs with htarget
        · exact mem_stepClosure
        · simp only [List.mem_singleton, exists_eq_left]
          constructor
          · intro hp
            rw [hp]
            exact Reads.byte hstep (Reads.done _)
          · intro hreads
            obtain ⟨m, t, hm, ht, hlast⟩ := reads_singleton_iff.mp hreads
            rw [eq_of_reads_nil hnone hm, hstep] at ht
            cases ht
            exact eq_of_reads_nil (not_has_epsilon (Bool.eq_false_iff.mpr htarget)) hlast
  · exact mem_stepClosure

end Tokenizer

end GlrMask
