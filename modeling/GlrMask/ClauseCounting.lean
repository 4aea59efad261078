import Mathlib.Data.Finset.Card
import Mathlib.Tactic

/-!
# Forward chaining by counters

Every clause counts its premises that are still to come. An element that is derived is queued,
and when it is popped, each of its occurrences among the premises takes one off the counter of
its clause. A clause whose counter gets to zero derives its conclusion.
-/

namespace GlrMask

namespace ClauseCounting

variable {α : Type*} [DecidableEq α]

structure Clause (α : Type*) where
  premises : List α
  conclusion : α
deriving DecidableEq

/-- The elements that the clauses derive. -/
inductive Derives (clauses : List (Clause α)) : α → Prop
  | apply {clause : Clause α} : clause ∈ clauses → (∀ x ∈ clause.premises, Derives clauses x) →
      Derives clauses clause.conclusion

structure Counting (α : Type*) where
  remaining : List ℕ
  derived : Finset α
  queue : List α

namespace Counting

def conclude (s : Counting α) (x : α) : Counting α :=
  if x ∈ s.derived then s else { s with derived := insert x s.derived, queue := s.queue ++ [x] }

/-- Take one off the counter of a clause. -/
def discharge (clauses : List (Clause α)) (s : Counting α) (i : ℕ) : Counting α :=
  match clauses[i]?, s.remaining[i]? with
  | some clause, some (left + 1) =>
      if left = 0 then { s with remaining := s.remaining.set i left }.conclude clause.conclusion
      else { s with remaining := s.remaining.set i left }
  | _, _ => s

end Counting

variable (clauses : List (Clause α))

def premiseCount (x : α) (i : ℕ) : ℕ := (clauses[i]?.map fun clause => clause.premises.count x).getD 0

/-- The clauses with the element among their premises, as often as it occurs there. -/
def dependents (x : α) : List ℕ :=
  (List.range clauses.length).flatMap fun i => List.replicate (premiseCount clauses x i) i

def start : Counting α :=
  (clauses.filter (·.premises = [])).foldl (fun s clause => s.conclude clause.conclusion)
    ⟨clauses.map (·.premises.length), ∅, []⟩

def conclusions : Finset α := (clauses.map Clause.conclusion).toFinset

def size (s : Counting α) : ℕ := (conclusions clauses \ s.derived).card + s.queue.length

variable {clauses}

theorem mem_conclusions {clause : Clause α} (h : clause ∈ clauses) :
    clause.conclusion ∈ conclusions clauses := by
  rw [conclusions, List.mem_toFinset]
  exact List.mem_map_of_mem h

theorem size_conclude {x : α} (hx : x ∈ conclusions clauses) (s : Counting α) :
    size clauses (s.conclude x) = size clauses s := by
  unfold Counting.conclude
  split_ifs with hmem
  · rfl
  · have hsdiff : conclusions clauses \ insert x s.derived =
        (conclusions clauses \ s.derived).erase x := by
      rw [Finset.sdiff_insert]
    have hin : x ∈ conclusions clauses \ s.derived := Finset.mem_sdiff.mpr ⟨hx, hmem⟩
    have hcard := Finset.card_erase_add_one hin
    unfold size
    dsimp only
    rw [hsdiff, List.length_append, List.length_singleton]
    omega

theorem size_discharge (s : Counting α) (i : ℕ) :
    size clauses (s.discharge clauses i) = size clauses s := by
  unfold Counting.discharge
  split
  · rename_i clause left hclause hleft
    split_ifs
    · exact size_conclude (mem_conclusions (List.mem_of_getElem? hclause)) _
    · rfl
  · rfl

theorem size_foldl (rest : List ℕ) (s : Counting α) :
    size clauses (rest.foldl (Counting.discharge clauses) s) = size clauses s := by
  induction rest generalizing s with
  | nil => rfl
  | cons i rest ih => rw [List.foldl_cons, ih, size_discharge]

variable (clauses)

/-- Pop elements until the queue is empty. -/
def countFrom (s : Counting α) : Finset α :=
  match _hqueue : s.queue with
  | [] => s.derived
  | x :: queue =>
      countFrom ((dependents clauses x).foldl (Counting.discharge clauses) { s with queue := queue })
termination_by size clauses s
decreasing_by
  rw [size_foldl]
  unfold size
  rw [_hqueue, List.length_cons]
  exact Nat.lt_succ_self _

/-- Everything that the clauses derive. -/
def derivable : Finset α := countFrom clauses (start clauses)

variable {clauses}

theorem count_dependents (x : α) (i : ℕ) : (dependents clauses x).count i = premiseCount clauses x i := by
  have hrange : ∀ n, ((List.range n).flatMap fun i => List.replicate (premiseCount clauses x i) i).count i =
      if i < n then premiseCount clauses x i else 0 := by
    intro n
    induction n with
    | zero => simp
    | succ n ih =>
        rw [List.range_succ, List.flatMap_append, List.count_append, ih]
        simp only [List.flatMap_cons, List.flatMap_nil, List.append_nil, List.count_replicate]
        by_cases hn : n = i
        · subst hn
          simp
        · have hiff : i < n + 1 ↔ i < n := by omega
          simp [hn, hiff]
  rw [dependents, hrange]
  split_ifs with hi
  · rfl
  · rw [premiseCount, List.getElem?_eq_none (by omega)]
    rfl

/-- The derived elements are popped or queued. -/
structure Queued (clauses : List (Clause α)) (popped : Finset α) (s : Counting α) : Prop where
  sound : ∀ x ∈ s.derived, Derives clauses x
  queued : ∀ x, x ∈ s.derived ↔ x ∈ popped ∨ x ∈ s.queue
  waiting : ∀ x ∈ s.queue, x ∉ popped
  nodup : s.queue.Nodup

/-- The counters count the premises that are not popped, and the occurrences still to be
discharged. -/
structure Counted (clauses : List (Clause α)) (popped : Finset α) (rest : List ℕ) (s : Counting α) : Prop
    extends Queued clauses popped s where
  remaining : ∀ (i : ℕ) (clause : Clause α), clauses[i]? = some clause →
    s.remaining[i]? = some (clause.premises.countP (· ∉ popped) + rest.count i)
  concluded : ∀ (i : ℕ) (clause : Clause α), clauses[i]? = some clause → s.remaining[i]? = some 0 →
    clause.conclusion ∈ s.derived

variable {popped : Finset α} {rest : List ℕ} {s : Counting α}

theorem derived_subset_conclude (s : Counting α) (x : α) : s.derived ⊆ (s.conclude x).derived := by
  unfold Counting.conclude
  split_ifs
  · exact Finset.Subset.refl _
  · exact Finset.subset_insert _ _

theorem mem_derived_conclude (s : Counting α) (x : α) : x ∈ (s.conclude x).derived := by
  unfold Counting.conclude
  split_ifs with h
  · exact h
  · exact Finset.mem_insert_self _ _

theorem remaining_conclude (s : Counting α) (x : α) : (s.conclude x).remaining = s.remaining := by
  unfold Counting.conclude
  split_ifs <;> rfl

theorem Queued.conclude {x : α} (h : Queued clauses popped s) (hx : Derives clauses x) :
    Queued clauses popped (s.conclude x) := by
  unfold Counting.conclude
  split_ifs with hmem
  · exact h
  · constructor
    · intro y hy
      obtain rfl | hy := Finset.mem_insert.mp hy
      · exact hx
      · exact h.sound y hy
    · intro y
      rw [Finset.mem_insert, h.queued y, List.mem_append, List.mem_singleton]
      tauto
    · intro y hy hpopped
      obtain hy | hy := List.mem_append.mp hy
      · exact h.waiting y hy hpopped
      · rw [List.mem_singleton.mp hy] at hpopped
        exact hmem ((h.queued x).mpr (Or.inl hpopped))
    · refine List.nodup_append.mpr ⟨h.nodup, List.nodup_singleton x, ?_⟩
      intro y hy z hz
      rw [List.mem_singleton.mp hz]
      rintro rfl
      exact hmem ((h.queued y).mpr (Or.inr hy))

theorem foldl_conclude (todo : List (Clause α)) {s : Counting α} (h : Queued clauses popped s)
    (htodo : ∀ clause ∈ todo, clause ∈ clauses ∧ clause.premises = []) :
    Queued clauses popped (todo.foldl (fun s clause => s.conclude clause.conclusion) s) ∧
      (todo.foldl (fun s clause => s.conclude clause.conclusion) s).remaining = s.remaining ∧
      s.derived ⊆ (todo.foldl (fun s clause => s.conclude clause.conclusion) s).derived ∧
      ∀ clause ∈ todo, clause.conclusion ∈
        (todo.foldl (fun s clause => s.conclude clause.conclusion) s).derived := by
  induction todo generalizing s with
  | nil => exact ⟨h, rfl, Finset.Subset.refl _, fun clause hclause => absurd hclause List.not_mem_nil⟩
  | cons clause todo ih =>
      obtain ⟨hmem, hnil⟩ := htodo clause List.mem_cons_self
      have hderives : Derives clauses clause.conclusion := Derives.apply hmem (by simp [hnil])
      obtain ⟨hqueued, hremaining, hsub, hdone⟩ :=
        ih (h.conclude hderives) fun c hc => htodo c (List.mem_cons_of_mem _ hc)
      refine ⟨hqueued, hremaining.trans (remaining_conclude _ _),
        (derived_subset_conclude _ _).trans hsub, ?_⟩
      intro c hc
      obtain rfl | hc := List.mem_cons.mp hc
      · exact hsub (mem_derived_conclude _ _)
      · exact hdone c hc

theorem counted_start : Counted clauses ∅ [] (start clauses) := by
  have hempty : Queued clauses ∅ ⟨clauses.map (·.premises.length), ∅, []⟩ :=
    ⟨by simp, by simp, by simp, List.nodup_nil⟩
  obtain ⟨hqueued, hremaining, -, hdone⟩ := foldl_conclude (clauses.filter (·.premises = []))
    hempty fun clause hclause => by simpa using hclause
  have hcount : ∀ (i : ℕ) (clause : Clause α), clauses[i]? = some clause →
      (start clauses).remaining[i]? = some clause.premises.length := by
    intro i clause hclause
    rw [start, hremaining, List.getElem?_map, hclause, Option.map_some]
  refine ⟨hqueued, ?_, ?_⟩
  · intro i clause hclause
    have hall : clause.premises.countP (· ∉ (∅ : Finset α)) = clause.premises.length := by
      rw [List.countP_eq_length]
      simp
    rw [hcount i clause hclause, hall, List.count_nil, Nat.add_zero]
  · intro i clause hclause hzero
    rw [hcount i clause hclause, Option.some.injEq, List.length_eq_zero_iff] at hzero
    apply hdone
    rw [List.mem_filter]
    exact ⟨List.mem_of_getElem? hclause, decide_eq_true hzero⟩

theorem Counted.discharge {i : ℕ} (h : Counted clauses popped (i :: rest) s) :
    Counted clauses popped rest (s.discharge clauses i) := by
  have hother : ∀ (j : ℕ) (clause : Clause α), clauses[j]? = some clause → j ≠ i →
      s.remaining[j]? = some (clause.premises.countP (· ∉ popped) + rest.count j) := by
    intro j clause hj hne
    rw [h.remaining j clause hj, List.count_cons_of_ne hne.symm]
  unfold Counting.discharge
  cases hclause : clauses[i]? with
  | none =>
      refine ⟨h.toQueued, ?_, h.concluded⟩
      intro j clause hj
      apply hother j clause hj
      rintro rfl
      rw [hclause] at hj
      cases hj
  | some clause =>
      have hleft := h.remaining i clause hclause
      rw [List.count_cons_self, ← Nat.add_assoc] at hleft
      rw [hleft]
      dsimp only
      have hlt : i < s.remaining.length := (List.getElem?_eq_some_iff.mp hleft).1
      have hremaining : ∀ (j : ℕ) (c : Clause α), clauses[j]? = some c →
          (s.remaining.set i (clause.premises.countP (· ∉ popped) + rest.count i))[j]? =
            some (c.premises.countP (· ∉ popped) + rest.count j) := by
        intro j c hj
        by_cases hne : j = i
        · subst hne
          obtain rfl := Option.some.inj (hclause.symm.trans hj)
          rw [List.getElem?_set_self hlt]
        · rw [List.getElem?_set_ne (Ne.symm hne)]
          exact hother j c hj hne
      have hconcluded : ∀ (j : ℕ) (c : Clause α), clauses[j]? = some c →
          (s.remaining.set i (clause.premises.countP (· ∉ popped) + rest.count i))[j]? = some 0 →
          clause.premises.countP (· ∉ popped) + rest.count i = 0 ∧ c = clause ∨
            c.conclusion ∈ s.derived := by
        intro j c hj hzero
        by_cases hne : j = i
        · subst hne
          rw [List.getElem?_set_self hlt] at hzero
          exact Or.inl ⟨Option.some.inj hzero, Option.some.inj (hj.symm.trans hclause)⟩
        · rw [List.getElem?_set_ne (Ne.symm hne)] at hzero
          exact Or.inr (h.concluded j c hj hzero)
      split_ifs with hzero
      · have hunmet : clause.premises.countP (· ∉ popped) = 0 := by omega
        have hderives : Derives clauses clause.conclusion := by
          refine Derives.apply (List.mem_of_getElem? hclause) ?_
          intro x hx
          have hpopped := List.countP_eq_zero.mp hunmet x hx
          rw [decide_eq_true_eq, not_not] at hpopped
          exact h.sound x ((h.queued x).mpr (Or.inl hpopped))
        refine ⟨Queued.conclude ⟨h.sound, h.queued, h.waiting, h.nodup⟩ hderives, ?_, ?_⟩
        · rwa [remaining_conclude]
        · intro j c hj hz
          rw [remaining_conclude] at hz
          obtain ⟨-, rfl⟩ | hmem := hconcluded j c hj hz
          · exact mem_derived_conclude _ _
          · exact derived_subset_conclude _ _ hmem
      · refine ⟨⟨h.sound, h.queued, h.waiting, h.nodup⟩, hremaining, ?_⟩
        intro j c hj hz
        obtain ⟨hz, -⟩ | hmem := hconcluded j c hj hz
        · exact absurd hz hzero
        · exact hmem

theorem Counted.foldl (h : Counted clauses popped rest s) :
    Counted clauses popped [] (rest.foldl (Counting.discharge clauses) s) := by
  induction rest generalizing s with
  | nil => exact h
  | cons i rest ih => exact ih h.discharge

/-- An element that is popped makes its occurrences wait to be discharged. -/
theorem Counted.pop {x : α} {queue : List α} (h : Counted clauses popped [] s)
    (hqueue : s.queue = x :: queue) :
    Counted clauses (insert x popped) (dependents clauses x) { s with queue := queue } := by
  have hwaiting := h.waiting
  have hnodup := h.nodup
  rw [hqueue] at hwaiting hnodup
  have hx : x ∉ popped := hwaiting x List.mem_cons_self
  refine ⟨⟨h.sound, ?_, ?_, hnodup.of_cons⟩, ?_, h.concluded⟩
  rotate_left 2
  · intro i clause hclause
    have hcount : clause.premises.countP (· ∉ popped) =
        clause.premises.countP (· ∉ insert x popped) + clause.premises.count x := by
      generalize clause.premises = premises
      induction premises with
      | nil => rfl
      | cons y premises ih =>
          simp only [List.countP_cons, List.count_cons, ih]
          by_cases hy : y = x
          · subst hy
            simp [hx]
            omega
          · by_cases hp : y ∈ popped <;> simp [hy, hp]
            omega
    rw [count_dependents, premiseCount, hclause, Option.map_some, Option.getD_some, ← hcount]
    simpa using h.remaining i clause hclause
  · intro y
    rw [h.queued y, hqueue, List.mem_cons, Finset.mem_insert]
    tauto
  · intro y hy hpopped
    obtain rfl | hpopped := Finset.mem_insert.mp hpopped
    · exact (List.nodup_cons.mp hnodup).1 hy
    · exact hwaiting y (List.mem_cons_of_mem _ hy) hpopped

theorem countFrom_spec (h : Counted clauses popped [] s) (x : α) :
    x ∈ countFrom clauses s ↔ Derives clauses x := by
  induction s using countFrom.induct clauses generalizing popped with
  | case1 s hqueue =>
      rw [countFrom]
      split
      · refine ⟨h.sound x, ?_⟩
        intro hx
        induction hx with
        | @apply clause hmem _ ih =>
            obtain ⟨i, hi⟩ := List.mem_iff_getElem?.mp hmem
            apply h.concluded i clause hi
            rw [h.remaining i clause hi]
            have hunmet : clause.premises.countP (· ∉ popped) = 0 := by
              rw [List.countP_eq_zero]
              intro y hy
              rw [decide_eq_true_eq, not_not]
              exact ((h.queued y).mp (ih y hy)).resolve_right (by rw [hqueue]; exact List.not_mem_nil)
            rw [hunmet, List.count_nil]
      · rename_i hcons
        rw [hqueue] at hcons
        cases hcons
  | case2 s y queue hqueue ih =>
      rw [countFrom]
      split
      · rename_i hnil
        rw [hqueue] at hnil
        cases hnil
      · rename_i y' queue' hcons
        obtain ⟨rfl, rfl⟩ := List.cons.inj (hqueue.symm.trans hcons)
        exact ih (h.pop hqueue).foldl

/-- Counting finds exactly what the clauses derive. -/
theorem mem_derivable (x : α) : x ∈ derivable clauses ↔ Derives clauses x :=
  countFrom_spec counted_start x

end ClauseCounting

end GlrMask
