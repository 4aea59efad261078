import Mathlib.Data.Set.Finite.Lattice
import Mathlib.Tactic

/-!
# Breadth-first search for a shortest word

States are explored in the order in which they are discovered, each with the
word that discovered it. The first state that passes the test is reported with
its word, and no shorter word leads to a state that passes.
-/

namespace GlrMask

variable {S A : Type*} [DecidableEq S] (next : S → List (A × S)) (found : S → Bool)

/-- The successors of a state that were not seen before, with their words. -/
def expand (word : List A) : List (A × S) → List S → List S × List (S × List A)
  | [], seen => (seen, [])
  | (a, u) :: successors, seen =>
      if u ∈ seen then expand word successors seen
      else
        let rest := expand word successors (u :: seen)
        (rest.1, (u, word ++ [a]) :: rest.2)

/-- The outer `none` is a search that was given too little fuel. -/
def search : ℕ → List S → List (S × List A) → Option (Option (List A))
  | 0, _, _ => none
  | _ + 1, _, [] => some none
  | fuel + 1, seen, (s, word) :: queue =>
      if found s then some (some word)
      else
        let expanded := expand word (next s) seen
        search fuel expanded.1 (queue ++ expanded.2)

inductive Reaches : S → List A → S → Prop
  | nil (s : S) : Reaches s [] s
  | cons {s u t : S} {a : A} {w : List A} : (a, u) ∈ next s → Reaches u w t → Reaches s (a :: w) t

variable {next found}

omit [DecidableEq S] in
theorem Reaches.append {s t u : S} {v w : List A} (h : Reaches next s v t)
    (h' : Reaches next t w u) : Reaches next s (v ++ w) u := by
  induction h with
  | nil => exact h'
  | cons hmem _ ih => exact Reaches.cons hmem (ih h')

omit [DecidableEq S] in
theorem Reaches.snoc {s t u : S} {w : List A} {a : A} (h : Reaches next s w t)
    (ha : (a, u) ∈ next t) : Reaches next s (w ++ [a]) u :=
  h.append (Reaches.cons ha (Reaches.nil u))

/-! ## One expansion -/

theorem expand_seen {word : List A} {successors : List (A × S)} {seen : List S} {x : S} :
    x ∈ (expand word successors seen).1 ↔ x ∈ seen ∨ ∃ a, (a, x) ∈ successors := by
  induction successors generalizing seen with
  | nil => simp [expand]
  | cons e successors ih =>
      obtain ⟨a, u⟩ := e
      simp only [expand]
      split_ifs with hu
      · rw [ih]
        constructor
        · rintro (h | ⟨b, h⟩)
          · exact Or.inl h
          · exact Or.inr ⟨b, List.mem_cons_of_mem _ h⟩
        · rintro (h | ⟨b, h⟩)
          · exact Or.inl h
          · rcases List.mem_cons.mp h with h | h
            · exact Or.inl ((Prod.mk.inj h).2 ▸ hu)
            · exact Or.inr ⟨b, h⟩
      · simp only [ih, List.mem_cons]
        constructor
        · rintro ((rfl | h) | ⟨b, h⟩)
          · exact Or.inr ⟨a, Or.inl rfl⟩
          · exact Or.inl h
          · exact Or.inr ⟨b, Or.inr h⟩
        · rintro (h | ⟨b, h | h⟩)
          · exact Or.inl (Or.inr h)
          · exact Or.inl (Or.inl (Prod.mk.inj h).2)
          · exact Or.inr ⟨b, h⟩

theorem mem_expand_queue {word : List A} {successors : List (A × S)} {seen : List S}
    {x : S × List A} (h : x ∈ (expand word successors seen).2) :
    x.1 ∉ seen ∧ ∃ a, (a, x.1) ∈ successors ∧ x.2 = word ++ [a] := by
  induction successors generalizing seen with
  | nil => simp [expand] at h
  | cons e successors ih =>
      obtain ⟨a, u⟩ := e
      simp only [expand] at h
      split_ifs at h with hu
      · obtain ⟨hns, b, hb, hw⟩ := ih h
        exact ⟨hns, b, List.mem_cons_of_mem _ hb, hw⟩
      · rcases List.mem_cons.mp h with rfl | h
        · exact ⟨hu, a, List.mem_cons_self, rfl⟩
        · obtain ⟨hns, b, hb, hw⟩ := ih h
          exact ⟨fun hx => hns (List.mem_cons_of_mem _ hx), b, List.mem_cons_of_mem _ hb, hw⟩

theorem expand_complete (word : List A) {successors : List (A × S)} {seen : List S} {x : S}
    (hx : x ∉ seen) {a : A} (h : (a, x) ∈ successors) :
    ∃ b, (x, word ++ [b]) ∈ (expand word successors seen).2 := by
  induction successors generalizing seen with
  | nil => simp at h
  | cons e successors ih =>
      obtain ⟨c, u⟩ := e
      simp only [expand]
      split_ifs with hu
      · rcases List.mem_cons.mp h with he | h
        · exact absurd ((Prod.mk.inj he).2 ▸ hu) hx
        · exact ih hx h
      · by_cases hxu : x = u
        · exact ⟨c, by rw [hxu]; exact List.mem_cons_self⟩
        · obtain ⟨b, hb⟩ := @ih (u :: seen) (by simp [hxu, hx])
            ((List.mem_cons.mp h).resolve_left fun he => hxu (Prod.mk.inj he).2)
          exact ⟨b, List.mem_cons_of_mem _ hb⟩

/-- Every successor is discovered once. -/
theorem expand_length (word : List A) (successors : List (A × S)) {seen : List S}
    (h : seen.Nodup) :
    (expand word successors seen).1.Nodup ∧
      (expand word successors seen).1.length =
        seen.length + (expand word successors seen).2.length := by
  induction successors generalizing seen with
  | nil => exact ⟨h, rfl⟩
  | cons e successors ih =>
      obtain ⟨a, u⟩ := e
      simp only [expand]
      split_ifs with hu
      · exact ih h
      · obtain ⟨hnd, hlen⟩ := @ih (u :: seen) (List.nodup_cons.mpr ⟨hu, h⟩)
        refine ⟨hnd, ?_⟩
        rw [hlen, List.length_cons, List.length_cons]
        omega

/-! ## The search invariant

`popped` holds the states that left the queue and did not pass. Every word from
the start either ends in such a state, or goes through a queued state on a word
that is at least as short. -/

structure Searching (next : S → List (A × S)) (found : S → Bool) (start : S) (popped : Set S)
    (seen : List S) (queue : List (S × List A)) : Prop where
  seen : ∀ x, x ∈ seen ↔ x ∈ popped ∨ ∃ w, (x, w) ∈ queue
  queued : ∀ x ∈ queue, Reaches next start x.2 x.1
  sorted : queue.Pairwise (fun x y => x.2.length ≤ y.2.length ∧ y.2.length ≤ x.2.length + 1)
  failed : ∀ x ∈ popped, found x = false
  short : ∀ x ∈ popped, ∃ w, Reaches next start w x ∧ ∀ y ∈ queue, w.length ≤ y.2.length
  cover : ∀ w t, Reaches next start w t → t ∈ popped ∨ ∃ x ∈ queue, ∃ v,
    Reaches next x.1 v t ∧ x.2.length + v.length ≤ w.length

omit [DecidableEq S] in
theorem searching_start (start : S) :
    Searching next found start ∅ [start] [(start, [])] where
  seen x := by simp
  queued x hx := by
    rw [List.mem_singleton.mp hx]
    exact Reaches.nil start
  sorted := List.pairwise_singleton _ _
  failed x hx := absurd hx (Set.notMem_empty x)
  short x hx := absurd hx (Set.notMem_empty x)
  cover w t h := Or.inr ⟨(start, []), List.mem_cons_self, w, h, by simp⟩

section Pop

variable {start s : S} {word : List A} {popped : Set S} {seen : List S}
  {queue : List (S × List A)}

/-- Words from the popped state lead through the queue that is left behind. -/
theorem Searching.cover_pop (h : Searching next found start popped seen ((s, word) :: queue))
    (v : List A) (t : S) (hv : Reaches next s v t) :
    t ∈ insert s popped ∨ ∃ x ∈ queue ++ (expand word (next s) seen).2, ∃ v',
      Reaches next x.1 v' t ∧ x.2.length + v'.length ≤ word.length + v.length := by
  induction hn : v.length using Nat.strong_induction_on generalizing v t with
  | _ n ih =>
  cases hv with
  | nil => exact Or.inl (Set.mem_insert _ _)
  | @cons _ u _ a v hmem hrest =>
      rw [List.length_cons] at hn
      by_cases hu : u ∈ seen
      swap
      · obtain ⟨b, hb⟩ := expand_complete word hu hmem
        exact Or.inr ⟨_, List.mem_append_right _ hb, v, hrest, by simp; omega⟩
      rcases (h.seen u).mp hu with hpop | ⟨w, hw⟩
      · -- `u` was popped before, on a word no longer than the current one.
        obtain ⟨w, hw, hle⟩ := h.short u hpop
        have hlen : w.length ≤ word.length := hle (s, word) List.mem_cons_self
        rcases h.cover _ _ (hw.append hrest) with ht | ⟨x, hx, v', hv', hle'⟩
        · exact Or.inl (Set.mem_insert_of_mem _ ht)
        · rw [List.length_append] at hle'
          rcases List.mem_cons.mp hx with rfl | hx
          · simp only at hle'
            rcases ih v'.length (by omega) v' t hv' rfl with ht | ⟨y, hy, v'', hv'', hle''⟩
            · exact Or.inl ht
            · exact Or.inr ⟨y, hy, v'', hv'', by omega⟩
          · exact Or.inr ⟨x, List.mem_append_left _ hx, v', hv', by omega⟩
      · rcases List.mem_cons.mp hw with he | hw
        · obtain ⟨rfl, rfl⟩ := Prod.mk.inj he
          rcases ih v.length (by omega) v t hrest rfl with ht | ⟨y, hy, v', hv', hle⟩
          · exact Or.inl ht
          · exact Or.inr ⟨y, hy, v', hv', by omega⟩
        · have hle := (List.rel_of_pairwise_cons h.sorted hw).2
          simp only at hle
          exact Or.inr ⟨(u, w), List.mem_append_left _ hw, v, hrest, by simp only; omega⟩

theorem Searching.pop (h : Searching next found start popped seen ((s, word) :: queue))
    (hs : found s = false) :
    Searching next found start (insert s popped) (expand word (next s) seen).1
      (queue ++ (expand word (next s) seen).2) := by
  have hword : Reaches next start word s := h.queued (s, word) List.mem_cons_self
  have hnew : ∀ y ∈ (expand word (next s) seen).2, y.2.length = word.length + 1 :=
    fun y hy => by
      obtain ⟨-, a, -, hw⟩ := mem_expand_queue hy
      rw [hw, List.length_append, List.length_singleton]
  have hold : ∀ y ∈ queue, word.length ≤ y.2.length ∧ y.2.length ≤ word.length + 1 :=
    fun y hy => List.rel_of_pairwise_cons h.sorted hy
  constructor
  · intro x
    rw [expand_seen, h.seen]
    constructor
    · rintro ((hx | ⟨w, hw⟩) | ⟨a, ha⟩)
      · exact Or.inl (Set.mem_insert_of_mem _ hx)
      · rcases List.mem_cons.mp hw with he | hw
        · exact Or.inl (Set.mem_insert_iff.mpr (Or.inl (Prod.mk.inj he).1))
        · exact Or.inr ⟨w, List.mem_append_left _ hw⟩
      · by_cases hx : x ∈ seen
        · rcases (h.seen x).mp hx with hx | ⟨w, hw⟩
          · exact Or.inl (Set.mem_insert_of_mem _ hx)
          · rcases List.mem_cons.mp hw with he | hw
            · exact Or.inl (Set.mem_insert_iff.mpr (Or.inl (Prod.mk.inj he).1))
            · exact Or.inr ⟨w, List.mem_append_left _ hw⟩
        · obtain ⟨b, hb⟩ := expand_complete word hx ha
          exact Or.inr ⟨_, List.mem_append_right _ hb⟩
    · rintro (hx | ⟨w, hw⟩)
      · rcases Set.mem_insert_iff.mp hx with rfl | hx
        · exact Or.inl (Or.inr ⟨word, List.mem_cons_self⟩)
        · exact Or.inl (Or.inl hx)
      · rcases List.mem_append.mp hw with hw | hw
        · exact Or.inl (Or.inr ⟨w, List.mem_cons_of_mem _ hw⟩)
        · obtain ⟨-, a, ha, -⟩ := mem_expand_queue hw
          exact Or.inr ⟨a, ha⟩
  · intro x hx
    rcases List.mem_append.mp hx with hx | hx
    · exact h.queued x (List.mem_cons_of_mem _ hx)
    · obtain ⟨-, a, ha, hw⟩ := mem_expand_queue hx
      rw [hw]
      exact hword.snoc ha
  · apply List.pairwise_append.mpr
    refine ⟨h.sorted.tail, ?_, fun x hx y hy => ?_⟩
    · apply List.pairwise_of_forall_mem_list
      intro x hx y hy
      rw [hnew x hx, hnew y hy]
      omega
    · have := hold x hx
      rw [hnew y hy]
      omega
  · intro x hx
    rcases Set.mem_insert_iff.mp hx with rfl | hx
    · exact hs
    · exact h.failed x hx
  · intro x hx
    have hle : ∀ y ∈ queue ++ (expand word (next s) seen).2, word.length ≤ y.2.length :=
      fun y hy => by
        rcases List.mem_append.mp hy with hy | hy
        · exact (hold y hy).1
        · rw [hnew y hy]
          omega
    rcases Set.mem_insert_iff.mp hx with rfl | hx
    · exact ⟨word, hword, hle⟩
    · obtain ⟨w, hw, hshort⟩ := h.short x hx
      refine ⟨w, hw, fun y hy => ?_⟩
      exact (hshort (s, word) List.mem_cons_self).trans (hle y hy)
  · intro w t hw
    rcases h.cover w t hw with ht | ⟨x, hx, v, hv, hle⟩
    · exact Or.inl (Set.mem_insert_of_mem _ ht)
    · rcases List.mem_cons.mp hx with rfl | hx
      · rcases h.cover_pop v t hv with ht | ⟨y, hy, v', hv', hle'⟩
        · exact Or.inl ht
        · exact Or.inr ⟨y, hy, v', hv', hle'.trans hle⟩
      · exact Or.inr ⟨x, List.mem_append_left _ hx, v, hv, hle⟩

end Pop

/-! ## The result of a search -/

theorem search_spec {start : S} {fuel : ℕ} {popped : Set S} {seen : List S}
    {queue : List (S × List A)} (h : Searching next found start popped seen queue)
    {result : Option (List A)} (hr : search next found fuel seen queue = some result) :
    (result = none → ∀ w t, Reaches next start w t → found t = false) ∧
      ∀ w, result = some w → (∃ t, Reaches next start w t ∧ found t = true) ∧
        ∀ w' t, Reaches next start w' t → found t = true → w.length ≤ w'.length := by
  induction fuel generalizing popped seen queue with
  | zero => simp [search] at hr
  | succ fuel ih =>
      cases queue with
      | nil =>
          obtain rfl := Option.some.inj hr
          refine ⟨fun _ w t hw => ?_, fun w he => by cases he⟩
          rcases h.cover w t hw with ht | ⟨x, hx, -⟩
          · exact h.failed t ht
          · simp at hx
      | cons e queue =>
          obtain ⟨s, word⟩ := e
          simp only [search] at hr
          split_ifs at hr with hs
          · obtain rfl := Option.some.inj hr
            refine ⟨fun he => (by cases he), fun w he => ?_⟩
            obtain rfl := Option.some.inj he
            refine ⟨⟨s, h.queued (s, word) List.mem_cons_self, hs⟩, fun w' t hw ht => ?_⟩
            rcases h.cover w' t hw with hp | ⟨x, hx, v, -, hle⟩
            · rw [h.failed t hp] at ht
              cases ht
            · rcases List.mem_cons.mp hx with rfl | hx
              · exact (Nat.le_add_right _ _).trans hle
              · have := (List.rel_of_pairwise_cons h.sorted hx).1
                simp only at this
                omega
          · exact ih (h.pop (by simpa using hs)) hr

/-- Within a finite set that is closed under successors the search ends. -/
theorem search_terminates {U : Finset S} (hU : ∀ x ∈ U, ∀ e ∈ next x, e.2 ∈ U) {fuel : ℕ}
    {seen : List S} {queue : List (S × List A)} (hnd : seen.Nodup) (hseen : ∀ x ∈ seen, x ∈ U)
    (hqueue : ∀ x ∈ queue, x.1 ∈ U) (hfuel : queue.length + U.card < fuel + seen.length) :
    ∃ result, search next found fuel seen queue = some result := by
  have hle : seen.length ≤ U.card := by
    rw [← List.toFinset_card_of_nodup hnd]
    exact Finset.card_le_card fun x hx => hseen x (List.mem_toFinset.mp hx)
  induction fuel generalizing seen queue with
  | zero => omega
  | succ fuel ih =>
      cases queue with
      | nil => exact ⟨none, rfl⟩
      | cons e queue =>
          obtain ⟨s, word⟩ := e
          simp only [search]
          split_ifs with hs
          · exact ⟨some word, rfl⟩
          · obtain ⟨hnd', hlen⟩ := expand_length word (next s) hnd
            have hsU : s ∈ U := hqueue (s, word) List.mem_cons_self
            have hseen' : ∀ x ∈ (expand word (next s) seen).1, x ∈ U := fun x hx => by
              rcases expand_seen.mp hx with hx | ⟨a, ha⟩
              · exact hseen x hx
              · exact hU s hsU (a, x) ha
            apply ih hnd' hseen'
            · intro x hx
              rcases List.mem_append.mp hx with hx | hx
              · exact hqueue x (List.mem_cons_of_mem _ hx)
              · obtain ⟨-, a, ha, -⟩ := mem_expand_queue hx
                exact hU s hsU (a, x.1) ha
            · rw [List.length_append, hlen]
              rw [List.length_cons] at hfuel
              omega
            · rw [← List.toFinset_card_of_nodup hnd']
              exact Finset.card_le_card fun x hx => hseen' x (List.mem_toFinset.mp hx)

omit [DecidableEq S] in
/-- A rank that decreases along successors bounds what a state reaches. -/
theorem finite_reachable {rank : S → ℕ} (hrank : ∀ s, ∀ e ∈ next s, rank e.2 < rank s) (s : S) :
    {t | ∃ w, Reaches next s w t}.Finite := by
  induction hn : rank s using Nat.strong_induction_on generalizing s with
  | _ n ih =>
  have hsub : {t | ∃ w, Reaches next s w t} ⊆
      insert s (⋃ e ∈ {e | e ∈ next s}, {t | ∃ w, Reaches next e.2 w t}) := by
    rintro t ⟨w, hw⟩
    cases hw with
    | nil => exact Set.mem_insert _ _
    | @cons _ u _ a w hmem hrest =>
        apply Set.mem_insert_of_mem
        simp only [Set.mem_iUnion]
        exact ⟨(a, u), hmem, w, hrest⟩
  apply Set.Finite.subset _ hsub
  apply Set.Finite.insert
  apply Set.Finite.biUnion (List.finite_toSet (next s))
  intro e he
  exact ih (rank e.2) (hn ▸ hrank s e he) e.2 rfl

/-- From some amount of fuel on, a search over a ranked system gives one and the same result,
which is the shortest word to a state that passes. -/
theorem search_ranked {rank : S → ℕ} (hrank : ∀ s, ∀ e ∈ next s, rank e.2 < rank s) (start : S) :
    ∃ enough, ∀ fuel ≥ enough, ∃ result,
      search next found fuel [start] [(start, [])] = some result ∧
      (result = none ↔ ∀ w t, Reaches next start w t → found t = false) ∧
      ∀ w, result = some w → (∃ t, Reaches next start w t ∧ found t = true) ∧
        ∀ w' t, Reaches next start w' t → found t = true → w.length ≤ w'.length := by
  obtain ⟨U, hU⟩ := (finite_reachable hrank start).exists_finset
  have hstart : start ∈ U := (hU start).mpr ⟨[], Reaches.nil start⟩
  have hclosed : ∀ x ∈ U, ∀ e ∈ next x, e.2 ∈ U := fun x hx e he => by
    obtain ⟨w, hw⟩ := (hU x).mp hx
    exact (hU e.2).mpr ⟨_, hw.snoc (a := e.1) he⟩
  refine ⟨U.card + 1, fun fuel hfuel => ?_⟩
  obtain ⟨result, hr⟩ := @search_terminates S A _ next found U hclosed fuel [start] [(start, [])]
    (by simp) (by simpa using hstart) (by simpa using hstart) (by simp; omega)
  obtain ⟨hnone, hsome⟩ := search_spec (searching_start start) hr
  refine ⟨result, hr, ⟨hnone, fun h => ?_⟩, hsome⟩
  cases result with
  | none => rfl
  | some w =>
      obtain ⟨⟨t, ht, hf⟩, -⟩ := hsome w rfl
      rw [h w t ht] at hf
      cases hf

end GlrMask
