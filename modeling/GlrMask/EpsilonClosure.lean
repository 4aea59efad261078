import GlrMask.Nfa

/-!
# Epsilon closures with reusable marks

A state is marked with the epoch of the closure that it was found in. An epoch is
a 32-bit number; when it wraps, all marks are cleared. Whatever the marks of the
earlier closures, a closure holds exactly the states in range that are reached
along epsilon edges.
-/

namespace GlrMask

namespace NFA

/-- The epsilon edges of a state. -/
def epsilons_of (self : NFA) (state : ℕ) : List ℕ :=
  ((self.states[state]?).map fun data => data.epsilons).getD []

/-- A state is reached along epsilon edges between states in range. -/
def EpsilonReaches (self : NFA) : ℕ → ℕ → Prop :=
  Relation.ReflTransGen fun s t => t ∈ self.epsilons_of s ∧ t < self.states.length

end NFA

structure ClosureScratch where
  marks : List ℕ
  epoch : ℕ

/-! ## Sorted lists without repetitions -/

section Sorted

variable {α : Type*} [LinearOrder α]

abbrev Increasing (l : List α) : Prop := l.Pairwise (· < ·)

theorem Increasing.nodup {l : List α} (h : Increasing l) : l.Nodup := h.imp fun hlt => ne_of_lt hlt

theorem increasing_insertionSort {l : List α} (h : l.Nodup) : Increasing (l.insertionSort (· ≤ ·)) := by
  have hnodup := (List.perm_insertionSort (· ≤ ·) l).nodup_iff.mpr h
  exact ((List.pairwise_insertionSort (· ≤ ·) l).and hnodup).imp fun hab => lt_of_le_of_ne hab.1 hab.2

/-- Such lists with the same members are equal. -/
theorem increasing_ext {l l' : List α} (h : Increasing l) (h' : Increasing l')
    (hmem : ∀ i, i ∈ l ↔ i ∈ l') : l = l' := by
  have hperm : l.Perm l' := (List.perm_ext_iff_of_nodup h.nodup h'.nodup).mpr hmem
  apply hperm.eq_of_pairwise _ h h'
  intro a b _ _ hab hba
  exact absurd (hab.trans hba) (lt_irrefl _)

end Sorted

/-! ## Scratch -/

namespace ClosureScratch

def new (num_states : ℕ) : ClosureScratch := ⟨List.replicate num_states 0, 0⟩

def next_epoch (self : ClosureScratch) : ClosureScratch :=
  let epoch := (self.epoch + 1) % 2 ^ 32
  if epoch = 0 then ⟨List.replicate self.marks.length 0, 1⟩ else ⟨self.marks, epoch⟩

/-- The marks with the buffers that are cleared for each closure; the stack's top comes first. -/
structure Marking where
  marks : List ℕ
  stack : List ℕ
  touched : List ℕ

def mark (epoch : ℕ) (s : Marking) (state : ℕ) : Marking :=
  if s.marks.length ≤ state ∨ s.marks[state]? = some epoch then s
  else ⟨s.marks.set state epoch, state :: s.stack, s.touched ++ [state]⟩

/-- What a closure has still to do. -/
def Marking.size (epoch : ℕ) (s : Marking) : ℕ :=
  s.marks.countP (fun m => decide (m ≠ epoch)) + s.stack.length

theorem size_mark (epoch : ℕ) (s : Marking) (state : ℕ) :
    (mark epoch s state).size epoch = s.size epoch := by
  unfold mark
  split_ifs with h
  · rfl
  · rw [not_or, not_le] at h
    obtain ⟨hlt, hne⟩ := h
    have hget := List.getElem?_eq_getElem hlt
    have hmark : s.marks[state] ≠ epoch := fun he => hne (hget.trans (congrArg some he))
    have hpos : 0 < s.marks.countP fun m => decide (m ≠ epoch) :=
      List.countP_pos_iff.mpr ⟨s.marks[state], List.getElem_mem hlt, decide_eq_true hmark⟩
    unfold Marking.size
    dsimp only
    rw [List.countP_set hlt, List.length_cons, if_pos (decide_eq_true hmark),
      if_neg (by simp)]
    omega

theorem size_foldl_mark (epoch : ℕ) (states : List ℕ) (s : Marking) :
    (states.foldl (mark epoch) s).size epoch = s.size epoch := by
  induction states generalizing s with
  | nil => rfl
  | cons state states ih => rw [List.foldl_cons, ih, size_mark]

def closure_loop (nfa : NFA) (epoch : ℕ) (s : Marking) : Marking :=
  match _hstack : s.stack with
  | [] => s
  | state :: stack =>
      closure_loop nfa epoch ((nfa.epsilons_of state).foldl (mark epoch) { s with stack })
termination_by s.size epoch
decreasing_by
  rw [size_foldl_mark]
  unfold Marking.size
  rw [_hstack, List.length_cons]
  exact Nat.lt_succ_self _

/-- The sorted closure of some states. -/
def epsilon_closure (self : ClosureScratch) (nfa : NFA) (seeds : List ℕ) :
    List ℕ × ClosureScratch :=
  let next := self.next_epoch
  let s := closure_loop nfa next.epoch (seeds.foldl (mark next.epoch) ⟨next.marks, [], []⟩)
  (s.touched.insertionSort (· ≤ ·), ⟨s.marks, next.epoch⟩)

/-! ## Marks -/

/-- Marks of the states, none of a later epoch. -/
structure Valid (nfa : NFA) (scratch : ClosureScratch) : Prop where
  length : scratch.marks.length = nfa.states.length
  le : ∀ m ∈ scratch.marks, m ≤ scratch.epoch
  lt : scratch.epoch < 2 ^ 32

variable {nfa : NFA} {epoch : ℕ}

theorem valid_new (nfa : NFA) : (new nfa.states.length).Valid nfa := by
  refine ⟨List.length_replicate, ?_, Nat.two_pow_pos 32⟩
  intro m hm
  exact (List.mem_replicate.mp hm).2.le

/-- No state is marked with the next epoch. -/
theorem next_epoch_spec {scratch : ClosureScratch} (h : scratch.Valid nfa) :
    scratch.next_epoch.Valid nfa ∧ ∀ m ∈ scratch.next_epoch.marks, m ≠ scratch.next_epoch.epoch := by
  unfold next_epoch
  dsimp only
  split_ifs with hwrap
  · refine ⟨⟨List.length_replicate.trans h.length, ?_, Nat.one_lt_two_pow (by decide)⟩, ?_⟩
    · intro m hm
      rw [(List.mem_replicate.mp hm).2]
      exact Nat.zero_le 1
    · intro m hm
      rw [(List.mem_replicate.mp hm).2]
      exact Nat.zero_ne_one
  · have hepoch : (scratch.epoch + 1) % 2 ^ 32 = scratch.epoch + 1 := by
      obtain hlt | hge := Nat.lt_or_ge (scratch.epoch + 1) (2 ^ 32)
      · exact Nat.mod_eq_of_lt hlt
      · have he : scratch.epoch + 1 = 2 ^ 32 := le_antisymm h.lt hge
        rw [he, Nat.mod_self] at hwrap
        exact absurd rfl hwrap
    refine ⟨⟨h.length, ?_, Nat.mod_lt _ (Nat.two_pow_pos 32)⟩, ?_⟩
    · intro m hm
      rw [hepoch]
      exact (h.le m hm).trans (Nat.le_succ _)
    · intro m hm
      rw [hepoch]
      exact (Nat.lt_succ_of_le (h.le m hm)).ne

/-- The touched states are those that are marked, and the stack holds some of them. -/
structure Touched (nfa : NFA) (epoch : ℕ) (s : Marking) : Prop where
  length : s.marks.length = nfa.states.length
  le : ∀ m ∈ s.marks, m ≤ epoch
  nodup : s.touched.Nodup
  marked : ∀ i, i ∈ s.touched ↔ s.marks[i]? = some epoch
  stack : ∀ i ∈ s.stack, i ∈ s.touched

/-- Marking a state touches it, if it is in range, and puts it on the stack if it is new. -/
theorem mark_spec {s : Marking} (h : Touched nfa epoch s) (state : ℕ) :
    Touched nfa epoch (mark epoch s state) ∧
      (∀ i, i ∈ (mark epoch s state).touched ↔
        i ∈ s.touched ∨ i = state ∧ i < nfa.states.length) ∧
      (∀ i, i ∈ (mark epoch s state).stack ↔ i ∈ s.stack ∨
        i ∈ (mark epoch s state).touched ∧ i ∉ s.touched) := by
  unfold mark
  split_ifs with hskip
  · refine ⟨h, ?_, ?_⟩
    · intro i
      refine ⟨Or.inl, ?_⟩
      intro hor
      obtain hi | ⟨rfl, hlt⟩ := hor
      · exact hi
      · obtain hle | hmarked := hskip
        · rw [h.length] at hle
          exact absurd hlt (not_lt.mpr hle)
        · exact (h.marked i).mpr hmarked
    · intro i
      refine ⟨Or.inl, ?_⟩
      intro hor
      obtain hi | ⟨hi, hni⟩ := hor
      · exact hi
      · exact absurd hi hni
  · rw [not_or, not_le] at hskip
    obtain ⟨hlt, hne⟩ := hskip
    have hnew : state ∉ s.touched := fun hc => hne ((h.marked state).mp hc)
    have hlt' : state < nfa.states.length := h.length ▸ hlt
    refine ⟨⟨?_, ?_, ?_, ?_, ?_⟩, ?_, ?_⟩
    · exact (List.length_set).trans h.length
    · intro m hm
      obtain hm | rfl := List.mem_or_eq_of_mem_set hm
      · exact h.le m hm
      · exact le_rfl
    · rw [List.nodup_append]
      refine ⟨h.nodup, List.nodup_singleton state, ?_⟩
      intro i hi j hj he
      rw [he, List.mem_singleton.mp hj] at hi
      exact hnew hi
    · intro i
      rw [List.mem_append, List.mem_singleton]
      by_cases hi : state = i
      · subst hi
        simp [List.getElem?_set_self hlt]
      · rw [List.getElem?_set_ne hi, h.marked]
        simp [Ne.symm hi]
    · intro i hi
      rw [List.mem_append, List.mem_singleton]
      obtain rfl | hi := List.mem_cons.mp hi
      · exact Or.inr rfl
      · exact Or.inl (h.stack i hi)
    · intro i
      rw [List.mem_append, List.mem_singleton]
      constructor
      · intro hor
        obtain hi | rfl := hor
        · exact Or.inl hi
        · exact Or.inr ⟨rfl, hlt'⟩
      · intro hor
        obtain hi | hi := hor
        · exact Or.inl hi
        · exact Or.inr hi.1
    · intro i
      rw [List.mem_append, List.mem_singleton, List.mem_cons]
      constructor
      · intro hor
        obtain rfl | hi := hor
        · exact Or.inr ⟨Or.inr rfl, hnew⟩
        · exact Or.inl hi
      · intro hor
        obtain hi | ⟨hi | rfl, hni⟩ := hor
        · exact Or.inr hi
        · exact absurd hi hni
        · exact Or.inl rfl

theorem foldl_mark_spec {s : Marking} (h : Touched nfa epoch s) (states : List ℕ) :
    Touched nfa epoch (states.foldl (mark epoch) s) ∧
      (∀ i, i ∈ (states.foldl (mark epoch) s).touched ↔
        i ∈ s.touched ∨ i ∈ states ∧ i < nfa.states.length) ∧
      (∀ i, i ∈ (states.foldl (mark epoch) s).stack ↔ i ∈ s.stack ∨
        i ∈ (states.foldl (mark epoch) s).touched ∧ i ∉ s.touched) := by
  induction states generalizing s with
  | nil =>
      refine ⟨h, fun i => by simp, fun i => ?_⟩
      refine ⟨Or.inl, ?_⟩
      intro hor
      obtain hi | ⟨hi, hni⟩ := hor
      · exact hi
      · exact absurd hi hni
  | cons state states ih =>
      obtain ⟨hmark, htouched, hstack⟩ := mark_spec h state
      obtain ⟨hrest, htouched', hstack'⟩ := ih hmark
      rw [List.foldl_cons]
      refine ⟨hrest, ?_, ?_⟩
      · intro i
        rw [htouched', htouched, List.mem_cons, or_and_right, or_assoc]
      · intro i
        rw [hstack', hstack, htouched', htouched]
        tauto

/-! ## Closures -/

/-- The touched states are found from the seeds, and hold the epsilon successors of those that left
the stack. -/
structure Closing (nfa : NFA) (epoch : ℕ) (seeds : List ℕ) (s : Marking) : Prop where
  touched : Touched nfa epoch s
  seeded : ∀ seed ∈ seeds, seed < nfa.states.length → seed ∈ s.touched
  sound : ∀ i ∈ s.touched, ∃ seed ∈ seeds, seed < nfa.states.length ∧ nfa.EpsilonReaches seed i
  closed : ∀ i ∈ s.touched, i ∉ s.stack → ∀ t ∈ nfa.epsilons_of i, t < nfa.states.length →
    t ∈ s.touched

theorem closing_loop {seeds : List ℕ} {s : Marking} (h : Closing nfa epoch seeds s) :
    Closing nfa epoch seeds (closure_loop nfa epoch s) ∧ (closure_loop nfa epoch s).stack = [] := by
  fun_induction closure_loop nfa epoch s with
  | case1 s hstack => exact ⟨h, hstack⟩
  | case2 s state stack hstack ih =>
      apply ih
      have hstate : state ∈ s.touched := h.touched.stack state (hstack ▸ List.mem_cons_self)
      have hpopped : Touched nfa epoch { s with stack } :=
        ⟨h.touched.length, h.touched.le, h.touched.nodup, h.touched.marked,
          fun i hi => h.touched.stack i (hstack ▸ List.mem_cons_of_mem _ hi)⟩
      obtain ⟨htouched, hmem, hmem_stack⟩ := foldl_mark_spec hpopped (nfa.epsilons_of state)
      refine ⟨htouched, ?_, ?_, ?_⟩
      · intro seed hseed hlt
        exact (hmem seed).mpr (Or.inl (h.seeded seed hseed hlt))
      · intro i hi
        obtain hi | ⟨hi, hlt⟩ := (hmem i).mp hi
        · exact h.sound i hi
        · obtain ⟨seed, hseed, hseedlt, hreach⟩ := h.sound state hstate
          exact ⟨seed, hseed, hseedlt, hreach.tail ⟨hi, hlt⟩⟩
      · intro i hi hni t ht hlt
        rw [hmem_stack, not_or, not_and_not_right] at hni
        have hold : i ∈ s.touched := hni.2 hi
        by_cases he : i = state
        · exact (hmem t).mpr (Or.inr ⟨he ▸ ht, hlt⟩)
        · have hnot : i ∉ s.stack := by
            rw [hstack, List.mem_cons, not_or]
            exact ⟨he, hni.1⟩
          exact (hmem t).mpr (Or.inl (h.closed i hold hnot t ht hlt))

/-- A closure holds what the seeds in range reach along epsilon edges, whatever was marked before. -/
theorem epsilon_closure_spec {scratch : ClosureScratch} (h : scratch.Valid nfa) (seeds : List ℕ) :
    (scratch.epsilon_closure nfa seeds).2.Valid nfa ∧
      Increasing (scratch.epsilon_closure nfa seeds).1 ∧
      ∀ i, i ∈ (scratch.epsilon_closure nfa seeds).1 ↔
        ∃ seed ∈ seeds, seed < nfa.states.length ∧ nfa.EpsilonReaches seed i := by
  obtain ⟨hvalid, hunmarked⟩ := next_epoch_spec h
  have hstart : Touched nfa scratch.next_epoch.epoch ⟨scratch.next_epoch.marks, [], []⟩ := by
    refine ⟨hvalid.length, hvalid.le, List.nodup_nil, ?_, fun i hi => hi⟩
    intro i
    refine ⟨fun hi => absurd hi List.not_mem_nil, ?_⟩
    intro hmark
    exact absurd rfl (hunmarked _ (List.mem_of_getElem? hmark))
  obtain ⟨htouched, hmem, hmem_stack⟩ := foldl_mark_spec hstart seeds
  have hclosing : Closing nfa scratch.next_epoch.epoch seeds
      (seeds.foldl (mark scratch.next_epoch.epoch) ⟨scratch.next_epoch.marks, [], []⟩) := by
    refine ⟨htouched, ?_, ?_, ?_⟩
    · intro seed hseed hlt
      exact (hmem seed).mpr (Or.inr ⟨hseed, hlt⟩)
    · intro i hi
      obtain hi | ⟨hi, hlt⟩ := (hmem i).mp hi
      · cases hi
      · exact ⟨i, hi, hlt, Relation.ReflTransGen.refl⟩
    · intro i hi hni
      rw [hmem_stack, not_or, not_and_not_right] at hni
      exact absurd (hni.2 hi) List.not_mem_nil
  obtain ⟨hclosed, hempty⟩ := closing_loop hclosing
  unfold epsilon_closure
  dsimp only
  refine ⟨⟨hclosed.touched.length, hclosed.touched.le, hvalid.lt⟩, ?_, ?_⟩
  · exact increasing_insertionSort hclosed.touched.nodup
  · intro i
    rw [(List.perm_insertionSort _ _).mem_iff]
    refine ⟨hclosed.sound i, ?_⟩
    intro hex
    obtain ⟨seed, hseed, hlt, hreach⟩ := hex
    induction hreach with
    | refl => exact hclosed.seeded seed hseed hlt
    | tail _ hedge ih => 
        apply hclosed.closed _ ih _ _ hedge.1 hedge.2
        rw [hempty]
        exact List.not_mem_nil

end ClosureScratch

end GlrMask
