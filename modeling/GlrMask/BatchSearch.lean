import Mathlib.Data.Set.Card
import Mathlib.Data.Finset.Card
import Mathlib.Tactic

/-!
# Breadth-first search by batches of states

A batch is a set of states that were discovered together, on one word. Batches
are expanded in the order of their discovery. What is discovered twice may be
left out of the later batch, and a batch need not be listed state by state.
-/

namespace GlrMask

variable {S A : Type*}

abbrev Batch (S A : Type*) := Set S × List A

/-- A word leads from a state to a state. -/
inductive Path (next : S → A → S → Prop) (s : S) : List A → S → Prop
  | nil : Path next s [] s
  | snoc {t u : S} {w : List A} {a : A} : Path next s w t → next t a u →
      Path next s (w ++ [a]) u

theorem Path.cons {next : S → A → S → Prop} {s t u : S} {w : List A} {a : A} (h : next s a t)
    (hw : Path next t w u) : Path next s (a :: w) u := by
  induction hw with
  | nil => exact Path.snoc Path.nil h
  | snoc _ hstep ih => exact ih.snoc hstep

/-- The batches before the queue are done: no state in them was what is searched for, and
their successors are listed, on words that are longer by one letter at most. -/
structure BatchSearch (next : S → A → S → Prop) (found : S → Prop) (start : Set S)
    (done queue : List (Batch S A)) : Prop where
  reached : ∀ b ∈ done ++ queue, ∀ x ∈ b.1, ∃ s ∈ start, Path next s b.2 x
  sorted : (done ++ queue).Pairwise fun b c => b.2.length ≤ c.2.length
  near : queue.Pairwise fun b c => c.2.length ≤ b.2.length + 1
  failed : ∀ b ∈ done, ∀ x ∈ b.1, ¬ found x
  started : ∀ s ∈ start, ∃ b ∈ done ++ queue, s ∈ b.1 ∧ b.2 = []
  closed : ∀ b ∈ done, ∀ x ∈ b.1, ∀ a y, next x a y →
    ∃ c ∈ done ++ queue, y ∈ c.1 ∧ c.2.length ≤ b.2.length + 1

/-- The states that a list of batches mentions. -/
def mentioned (batches : List (Batch S A)) : Set S := {x | ∃ b ∈ batches, x ∈ b.1}

@[simp] theorem mentioned_append (l m : List (Batch S A)) :
    mentioned (l ++ m) = mentioned l ∪ mentioned m := by
  ext x
  simp only [mentioned, List.mem_append, Set.mem_ofPred_eq, Set.mem_union, or_and_right, exists_or]

variable {next : S → A → S → Prop} {found : S → Prop} {start : Set S}
  {done queue fresh : List (Batch S A)} {head : Batch S A}

theorem batchSearch_start : BatchSearch next found start [] [(start, [])] where
  reached b hb x hx := by
    rw [List.nil_append, List.mem_singleton] at hb
    subst hb
    exact ⟨x, hx, Path.nil⟩
  sorted := List.pairwise_singleton _ _
  near := List.pairwise_singleton _ _
  failed b hb := absurd hb List.not_mem_nil
  started s hs := ⟨(start, []), by simp, hs, rfl⟩
  closed b hb := absurd hb List.not_mem_nil

namespace BatchSearch

/-- Every path ends in a batch that is done or leads past the queue. -/
theorem cover (h : BatchSearch next found start done queue) {s t : S} {w : List A}
    (hs : s ∈ start) (hw : Path next s w t) :
    (∃ b ∈ done, t ∈ b.1 ∧ b.2.length ≤ w.length) ∨ ∃ b ∈ queue, b.2.length ≤ w.length := by
  induction hw with
  | nil =>
      obtain ⟨b, hb, hmem, hnil⟩ := h.started s hs
      have hlen : b.2.length ≤ ([] : List A).length := by rw [hnil]
      rcases List.mem_append.mp hb with hb | hb
      · exact Or.inl ⟨b, hb, hmem, hlen⟩
      · exact Or.inr ⟨b, hb, hlen⟩
  | snoc _ hstep ih =>
      rw [List.length_append, List.length_singleton]
      rcases ih with ⟨b, hb, hmem, hlen⟩ | ⟨b, hb, hlen⟩
      · obtain ⟨c, hc, hmem', hlen'⟩ := h.closed b hb _ hmem _ _ hstep
        rcases List.mem_append.mp hc with hc | hc
        · exact Or.inl ⟨c, hc, hmem', by omega⟩
        · exact Or.inr ⟨c, hc, by omega⟩
      · exact Or.inr ⟨b, hb, by omega⟩

/-- Once the queue is empty nothing that can be reached is what is searched for. -/
theorem not_found (h : BatchSearch next found start done []) {s t : S} {w : List A}
    (hs : s ∈ start) (hw : Path next s w t) : ¬ found t := by
  rcases h.cover hs hw with ⟨b, hb, hmem, -⟩ | ⟨b, hb, -⟩
  · exact h.failed b hb t hmem
  · exact absurd hb List.not_mem_nil

/-- No word shorter than that of the first batch in the queue leads to a state that is
searched for. -/
theorem head_shortest (h : BatchSearch next found start done (head :: queue)) {s t : S}
    {w : List A} (hs : s ∈ start) (hw : Path next s w t) (ht : found t) :
    head.2.length ≤ w.length := by
  rcases h.cover hs hw with ⟨b, hb, hmem, -⟩ | ⟨b, hb, hlen⟩
  · exact absurd ht (h.failed b hb t hmem)
  · rcases List.mem_cons.mp hb with rfl | hb
    · exact hlen
    · have hsorted := (List.pairwise_append.mp h.sorted).2.1
      exact (List.rel_of_pairwise_cons hsorted hb).trans hlen

/-- Batches that may be appended when a batch is expanded: successors of its states, on its
word and one more letter, which together with the states listed before contain every
successor. -/
structure Expands (next : S → A → S → Prop) (listed : Set S) (head : Batch S A)
    (fresh : List (Batch S A)) : Prop where
  reached : ∀ b ∈ fresh, ∃ a, b.2 = head.2 ++ [a] ∧ ∀ y ∈ b.1, ∃ x ∈ head.1, next x a y
  complete : ∀ x ∈ head.1, ∀ a y, next x a y → y ∈ listed ∪ mentioned fresh

theorem Expands.length {listed : Set S} (h : Expands next listed head fresh) {b : Batch S A}
    (hb : b ∈ fresh) : b.2.length = head.2.length + 1 := by
  obtain ⟨a, hword, -⟩ := h.reached b hb
  rw [hword, List.length_append, List.length_singleton]

theorem pop (h : BatchSearch next found start done (head :: queue))
    (hfound : ∀ x ∈ head.1, ¬ found x)
    (hfresh : Expands next (mentioned (done ++ head :: queue)) head fresh) :
    BatchSearch next found start (done ++ [head]) (queue ++ fresh) := by
  have hsplit : done ++ [head] ++ (queue ++ fresh) = (done ++ head :: queue) ++ fresh := by simp
  have hhead : head ∈ done ++ head :: queue := by simp
  have hle : ∀ b ∈ done ++ head :: queue, b.2.length ≤ head.2.length + 1 := by
    intro b hb
    rcases List.mem_append.mp hb with hb | hb
    · have := (List.pairwise_append.mp h.sorted).2.2 b hb head List.mem_cons_self
      omega
    · rcases List.mem_cons.mp hb with rfl | hb
      · omega
      · exact List.rel_of_pairwise_cons h.near hb
  have hge : ∀ b ∈ queue, head.2.length ≤ b.2.length := fun b hb =>
    List.rel_of_pairwise_cons (List.pairwise_append.mp h.sorted).2.1 hb
  constructor
  · intro b hb x hx
    rw [hsplit] at hb
    rcases List.mem_append.mp hb with hb | hb
    · exact h.reached b hb x hx
    · obtain ⟨a, hword, hmem⟩ := hfresh.reached b hb
      obtain ⟨y, hy, hstep⟩ := hmem x hx
      obtain ⟨s, hs, hpath⟩ := h.reached head hhead y hy
      rw [hword]
      exact ⟨s, hs, hpath.snoc hstep⟩
  · rw [hsplit]
    apply List.pairwise_append.mpr
    refine ⟨h.sorted, List.pairwise_of_forall_mem_list fun b hb c hc => ?_, fun b hb c hc => ?_⟩
    · rw [hfresh.length hb, hfresh.length hc]
    · rw [hfresh.length hc]
      exact hle b hb
  · apply List.pairwise_append.mpr
    refine ⟨h.near.tail, List.pairwise_of_forall_mem_list fun b hb c hc => ?_, fun b hb c hc => ?_⟩
    · rw [hfresh.length hb, hfresh.length hc]
      omega
    · have := hge b hb
      rw [hfresh.length hc]
      omega
  · intro b hb x hx
    rcases List.mem_append.mp hb with hb | hb
    · exact h.failed b hb x hx
    · obtain rfl := List.mem_singleton.mp hb
      exact hfound x hx
  · intro s hs
    obtain ⟨b, hb, hmem⟩ := h.started s hs
    exact ⟨b, hsplit ▸ List.mem_append_left _ hb, hmem⟩
  · intro b hb x hx a y hstep
    rw [hsplit]
    rcases List.mem_append.mp hb with hb | hb
    · obtain ⟨c, hc, hmem⟩ := h.closed b hb x hx a y hstep
      exact ⟨c, List.mem_append_left _ hc, hmem⟩
    · obtain rfl := List.mem_singleton.mp hb
      rcases hfresh.complete x hx a y hstep with ⟨c, hc, hmem⟩ | ⟨c, hc, hmem⟩
      · exact ⟨c, List.mem_append_left _ hc, hmem, hle c hc⟩
      · exact ⟨c, List.mem_append_right _ hc, hmem, (hfresh.length hc).le⟩

end BatchSearch

/-! ## Termination

Within a finite set a search by batches ends when every batch brings something new. -/

/-- What is left to expand at most: the batches in the queue and the states not listed. -/
noncomputable def outstanding (within listed : Set S) (queued : ℕ) : ℕ :=
  queued + (within \ listed).ncard

theorem outstanding_add {within listed new : Set S} (hfin : within.Finite)
    (hnew : (new ∩ (within \ listed)).Nonempty) (queued : ℕ) :
    outstanding within (listed ∪ new) (queued + 1) ≤ outstanding within listed queued := by
  have hlt : (within \ (listed ∪ new)).ncard < (within \ listed).ncard := by
    apply Set.ncard_lt_ncard _ (hfin.subset Set.sdiff_subset)
    refine ⟨Set.sdiff_subset_sdiff_right Set.subset_union_left, fun hsub => ?_⟩
    obtain ⟨x, hx, hmem⟩ := hnew
    exact (hsub hmem).2 (Or.inr hx)
  simp only [outstanding]
  omega

end GlrMask
