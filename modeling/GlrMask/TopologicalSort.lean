import Mathlib.Algebra.BigOperators.Group.Finset.Basic
import Mathlib.Algebra.Order.BigOperators.Group.Finset
import Mathlib.Data.Finset.Max
import Mathlib.Tactic

/-!
# Topological sorting by in-degrees

The nodes `0, …, n - 1` of a multigraph are released one by one as soon as no
edge from an unreleased node enters them. All of them are released exactly when
the graph has a numbering that decreases along every edge.
-/

namespace GlrMask

variable (succ : ℕ → List ℕ) (n : ℕ)

def indegrees : List ℕ :=
  ((List.range n).flatMap succ).foldl (fun degrees target => degrees.modify target (· + 1))
    (List.replicate n 0)

/-- Remove one edge into `target`, which joins the queue with its last edge. -/
def release (state : List ℕ × List ℕ) (target : ℕ) : List ℕ × List ℕ :=
  match state.1[target]? with
  | some (degree + 1) =>
      (state.1.set target degree, if degree = 0 then state.2 ++ [target] else state.2)
  | _ => state

theorem release_measure (state : List ℕ × List ℕ) (target : ℕ) :
    (release state target).1.countP (0 < ·) + (release state target).2.length =
      state.1.countP (0 < ·) + state.2.length := by
  unfold release
  split
  · rename_i degree h
    obtain ⟨hlt, hget⟩ := List.getElem?_eq_some_iff.mp h
    have hcount := List.countP_set (p := fun x : ℕ => decide (0 < x)) (a := degree) hlt
    have hpos : 0 < state.1.countP (0 < ·) := by
      apply List.countP_pos_iff.mpr
      exact ⟨state.1[target], List.getElem_mem hlt, by simp [hget]⟩
    rw [hget] at hcount
    split_ifs with hz
    · subst hz
      simp only [List.length_append, List.length_singleton]
      simp at hcount
      omega
    · simp [show 0 < degree by omega] at hcount
      simp only
      omega
  · rfl

theorem foldl_release_measure (targets : List ℕ) (state : List ℕ × List ℕ) :
    (targets.foldl release state).1.countP (0 < ·) + (targets.foldl release state).2.length =
      state.1.countP (0 < ·) + state.2.length := by
  induction targets generalizing state with
  | nil => rfl
  | cons t targets ih => rw [List.foldl_cons, ih, release_measure]

/-- Pop nodes until the queue is empty, and list them behind `order`. -/
def releaseLoop (degrees queue order : List ℕ) : List ℕ :=
  match queue with
  | [] => order
  | node :: queue =>
      let state := (succ node).foldl release (degrees, queue)
      releaseLoop state.1 state.2 (order ++ [node])
termination_by degrees.countP (0 < ·) + queue.length
decreasing_by
  have h := foldl_release_measure (succ node) (degrees, queue)
  simp only [List.length_cons] at h ⊢
  omega

/-- The nodes in the order of their release. -/
def releaseOrder : List ℕ :=
  releaseLoop succ (indegrees succ n)
    ((List.range n).filter fun node => (indegrees succ n)[node]? = some 0) []

/-- Whether every node is released. -/
def allReleased : Bool := (releaseOrder succ n).length = n

/-- A numbering of the nodes that decreases along every edge. -/
def Ranked (rank : ℕ → ℕ) : Prop := ∀ i < n, ∀ t ∈ succ i, t < n → rank t < rank i

/-! ## In-degrees -/

theorem foldl_modify_getElem? (targets degrees : List ℕ) (t : ℕ) :
    (targets.foldl (fun degrees target => degrees.modify target (· + 1)) degrees)[t]? =
      (degrees[t]?).map (· + targets.count t) := by
  induction targets generalizing degrees with
  | nil => simp
  | cons u targets ih =>
      rw [List.foldl_cons, ih, List.getElem?_modify, List.count_cons]
      by_cases h : u = t
      · subst h
        cases degrees[u]? with
        | none => rfl
        | some d => simp; omega
      · simp [h]

theorem count_flatMap_range (t : ℕ) :
    ((List.range n).flatMap succ).count t = ∑ i ∈ Finset.range n, (succ i).count t := by
  induction n with
  | zero => simp
  | succ n ih =>
      rw [List.range_succ, List.flatMap_append, List.count_append, ih, Finset.sum_range_succ]
      simp

theorem indegrees_getElem? {t : ℕ} (ht : t < n) :
    (indegrees succ n)[t]? = some (∑ i ∈ Finset.range n, (succ i).count t) := by
  rw [indegrees, foldl_modify_getElem?, List.getElem?_replicate, if_pos ht, Option.map_some,
    count_flatMap_range, zero_add]

/-- The degrees count the edges from the unreleased nodes `U`, and the queue lists the
unreleased nodes without such an edge. -/
structure Releasing (U : Finset ℕ) (degrees queue : List ℕ) : Prop where
  degree : ∀ t < n, degrees[t]? = some (∑ i ∈ U, (succ i).count t)
  length : degrees.length = n
  sub : ∀ x ∈ U, x < n
  nodup : queue.Nodup
  queue : ∀ x, x ∈ queue ↔ x ∈ U ∧ ∑ i ∈ U, (succ i).count x = 0
  released : ∀ x < n, x ∉ U → ∑ i ∈ U, (succ i).count x = 0

/-- What removing the edges to `targets` does when `rest` counts the other edges. -/
theorem foldl_release_spec {rest : ℕ → ℕ} (targets : List ℕ) {degrees queue : List ℕ}
    (hlen : degrees.length = n)
    (hdeg : ∀ t < n, degrees[t]? = some (targets.count t + rest t))
    (hnd : queue.Nodup) (hq : ∀ t ∈ queue, targets.count t + rest t = 0) :
    (targets.foldl release (degrees, queue)).1.length = n ∧
      (∀ t < n, (targets.foldl release (degrees, queue)).1[t]? = some (rest t)) ∧
      (targets.foldl release (degrees, queue)).2.Nodup ∧
      ∀ t, t ∈ (targets.foldl release (degrees, queue)).2 ↔
        t ∈ queue ∨ t < n ∧ t ∈ targets ∧ rest t = 0 := by
  induction targets generalizing degrees queue with
  | nil => exact ⟨hlen, fun t ht => by simpa using hdeg t ht, hnd, fun t => by simp⟩
  | cons u targets ih =>
      rw [List.foldl_cons]
      by_cases hu : u < n
      swap
      · have hnone : degrees[u]? = none := List.getElem?_eq_none (by omega)
        have hstep : release (degrees, queue) u = (degrees, queue) := by
          simp [release, hnone]
        have hne : ∀ t, t < n → (u :: targets).count t = targets.count t := fun t ht => by
          rw [List.count_cons, if_neg (by simp; omega), add_zero]
        rw [hstep]
        obtain ⟨h₁, h₂, h₃, h₄⟩ := ih hlen (fun t ht => by rw [hdeg t ht, hne t ht]) hnd
          (fun t ht => by
            have := hq t ht
            rw [List.count_cons] at this
            omega)
        refine ⟨h₁, h₂, h₃, fun t => (h₄ t).trans ?_⟩
        have : t < n → (t ∈ u :: targets ↔ t ∈ targets) := fun ht => by
          simp only [List.mem_cons, or_iff_right_iff_imp]
          omega
        tauto
      · have hcount : (u :: targets).count u + rest u = targets.count u + rest u + 1 := by
          rw [List.count_cons_self]
          omega
        have hget : degrees[u]? = some (targets.count u + rest u + 1) := by
          rw [hdeg u hu, hcount]
        have hstep : release (degrees, queue) u = (degrees.set u (targets.count u + rest u),
            if targets.count u + rest u = 0 then queue ++ [u] else queue) := by
          simp only [release, hget]
        have hnew : u ∉ queue := fun hmem => by
          have := hq u hmem
          omega
        rw [hstep]
        have hdeg' : ∀ t < n, (degrees.set u (targets.count u + rest u))[t]? =
            some (targets.count t + rest t) := fun t ht => by
          rw [List.getElem?_set]
          by_cases he : u = t
          · subst he
            simp [hlen, hu]
          · rw [if_neg he, hdeg t ht, List.count_cons_of_ne he]
        have hq' : ∀ t ∈ queue, targets.count t + rest t = 0 := fun t ht => by
          have := hq t ht
          rw [List.count_cons] at this
          omega
        by_cases hz : targets.count u + rest u = 0
        · rw [if_pos hz]
          obtain ⟨h₁, h₂, h₃, h₄⟩ := @ih (degrees.set u (targets.count u + rest u)) (queue ++ [u])
            (by simpa using hlen) hdeg'
            (List.nodup_append.mpr ⟨hnd, by simp, fun a ha b hb => by
              rw [List.mem_singleton.mp hb]
              exact fun he => hnew (he ▸ ha)⟩) (fun t ht => by
              rcases List.mem_append.mp ht with ht | ht
              · exact hq' t ht
              · rwa [List.mem_singleton.mp ht])
          refine ⟨h₁, h₂, h₃, fun t => (h₄ t).trans ?_⟩
          have hut : u ∉ targets := List.count_eq_zero.mp (by omega)
          have hur : rest u = 0 := by omega
          by_cases he : t = u
          · subst he
            simp [hu, hur]
          · simp [he]
        · rw [if_neg hz]
          obtain ⟨h₁, h₂, h₃, h₄⟩ := @ih (degrees.set u (targets.count u + rest u)) queue
            (by simpa using hlen) hdeg' hnd hq'
          refine ⟨h₁, h₂, h₃, fun t => (h₄ t).trans ?_⟩
          by_cases he : t = u
          · subst he
            have : rest t = 0 → t ∈ targets := fun hr => by
              by_contra hmem
              exact hz (by rw [List.count_eq_zero.mpr hmem, hr])
            simp only [List.mem_cons, true_or, true_and]
            tauto
          · simp [he]

/-! ## Releasing the nodes -/

theorem Releasing.pop {U : Finset ℕ} {degrees queue : List ℕ} {s : ℕ}
    (h : Releasing succ n U degrees (s :: queue)) :
    Releasing succ n (U.erase s) ((succ s).foldl release (degrees, queue)).1
      ((succ s).foldl release (degrees, queue)).2 := by
  have hs : s ∈ U := ((h.queue s).mp List.mem_cons_self).1
  have hsum : ∀ t, ∑ i ∈ U, (succ i).count t =
      (succ s).count t + ∑ i ∈ U.erase s, (succ i).count t := fun t =>
    (Finset.add_sum_erase U (fun i => (succ i).count t) hs).symm
  have hzero : ∀ x < n, x ∈ succ s → x ∈ U ∧ x ≠ s := fun x hx hmem => by
    have hpos := List.count_pos_iff.mpr hmem
    constructor
    · by_contra hU
      have hz := h.released x hx hU
      rw [hsum] at hz
      omega
    · rintro rfl
      have hz := ((h.queue x).mp List.mem_cons_self).2
      rw [hsum] at hz
      omega
  have hnd' : queue.Nodup := (List.nodup_cons.mp h.nodup).2
  obtain ⟨hlen, hdeg, hnd, hq⟩ := @foldl_release_spec n
    (fun t => ∑ i ∈ U.erase s, (succ i).count t) (succ s) degrees queue h.length
    (fun t ht => by rw [h.degree t ht, hsum]) hnd'
    (fun t ht => by rw [← hsum]; exact ((h.queue t).mp (List.mem_cons_of_mem _ ht)).2)
  refine ⟨hdeg, hlen, fun x hx => h.sub x (Finset.mem_of_mem_erase hx), hnd, fun x => ?_,
    fun x hx hU => ?_⟩
  · rw [hq, Finset.mem_erase]
    constructor
    · rintro (hx | ⟨hx, hmem, hz⟩)
      · obtain ⟨hxU, hz⟩ := (h.queue x).mp (List.mem_cons_of_mem _ hx)
        rw [hsum] at hz
        exact ⟨⟨fun he => (List.nodup_cons.mp h.nodup).1 (he ▸ hx), hxU⟩, by omega⟩
      · obtain ⟨hxU, hne⟩ := hzero x hx hmem
        exact ⟨⟨hne, hxU⟩, hz⟩
    · rintro ⟨⟨hne, hxU⟩, hz⟩
      by_cases hmem : x ∈ succ s
      · exact Or.inr ⟨h.sub x hxU, hmem, hz⟩
      · left
        have hx : x ∈ s :: queue := (h.queue x).mpr ⟨hxU, by
          rw [hsum, hz, List.count_eq_zero.mpr hmem]⟩
        exact (List.mem_cons.mp hx).resolve_left hne
  · rw [Finset.mem_erase, not_and_or, not_not] at hU
    have hz : ∑ i ∈ U, (succ i).count x = 0 := by
      rcases hU with rfl | hU
      · exact ((h.queue x).mp List.mem_cons_self).2
      · exact h.released x hx hU
    rw [hsum] at hz
    omega

/-- What is released from the nodes `U` on: the nodes `rest`, each after its predecessors, but
not the nodes `U'`, each of which is entered from `U'`. -/
structure Released (U U' : Finset ℕ) (rest : List ℕ) : Prop where
  nodup : rest.Nodup
  mem : ∀ x, x ∈ rest ↔ x ∈ U ∧ x ∉ U'
  before : ∀ l₁ x l₂, rest = l₁ ++ x :: l₂ → ∀ i ∈ U, x ∈ succ i → i ∈ l₁
  stuck : ∀ x ∈ U', ∃ i ∈ U', x ∈ succ i
  rank : U' = ∅ → ∃ rank : ℕ → ℕ, ∀ i ∈ U, ∀ t ∈ succ i, t ∈ U → rank t < rank i

theorem releaseLoop_spec {U : Finset ℕ} {degrees queue : List ℕ} (order : List ℕ)
    (h : Releasing succ n U degrees queue) :
    ∃ U' ⊆ U, ∃ rest, releaseLoop succ degrees queue order = order ++ rest ∧
      Released succ U U' rest := by
  induction degrees, queue, order using releaseLoop.induct succ generalizing U with
  | case1 degrees order =>
      refine ⟨U, Finset.Subset.refl U, [], by rw [releaseLoop, List.append_nil], ?_⟩
      refine ⟨List.nodup_nil, by simp, by simp, fun x hx => ?_, fun he => ?_⟩
      · have hne : ∑ i ∈ U, (succ i).count x ≠ 0 := fun hz => by
          have := (h.queue x).mpr ⟨hx, hz⟩
          simp at this
        obtain ⟨i, hi, hpos⟩ := Finset.exists_ne_zero_of_sum_ne_zero hne
        exact ⟨i, hi, List.count_pos_iff.mp (Nat.pos_of_ne_zero hpos)⟩
      · exact ⟨id, fun i hi => by simp [he] at hi⟩
  | case2 degrees order s queue state =>
      rename_i ih
      have hs : s ∈ U := ((h.queue s).mp List.mem_cons_self).1
      have hz : ∑ i ∈ U, (succ i).count s = 0 := ((h.queue s).mp List.mem_cons_self).2
      have hno : ∀ i ∈ U, s ∉ succ i := fun i hi =>
        List.count_eq_zero.mp (Finset.sum_eq_zero_iff.mp hz i hi)
      obtain ⟨U', hsub, rest, hloop, hrel⟩ := ih h.pop
      have hsU' : s ∉ U' := fun hmem => (Finset.mem_erase.mp (hsub hmem)).1 rfl
      refine ⟨U', hsub.trans (Finset.erase_subset _ _), s :: rest, ?_, ?_⟩
      · rw [releaseLoop]
        exact hloop.trans (List.append_assoc _ _ _)
      constructor
      · apply List.nodup_cons.mpr ⟨?_, hrel.nodup⟩
        exact fun hmem => (Finset.mem_erase.mp ((hrel.mem s).mp hmem).1).1 rfl
      · intro x
        rw [List.mem_cons, hrel.mem, Finset.mem_erase]
        by_cases hxs : x = s
        · simp [hxs, hs, hsU']
        · simp [hxs]
      · intro l₁ x l₂ he i hi hx
        cases l₁ with
        | nil =>
            obtain ⟨rfl, -⟩ := List.cons.inj he
            exact absurd hx (hno i hi)
        | cons y l₁ =>
            obtain ⟨rfl, hrest⟩ := List.cons.inj he
            by_cases his : i = s
            · rw [his]
              exact List.mem_cons_self
            · exact List.mem_cons_of_mem _
                (hrel.before l₁ x l₂ hrest i (Finset.mem_erase.mpr ⟨his, hi⟩) hx)
      · exact hrel.stuck
      · intro he
        obtain ⟨rank, hr⟩ := hrel.rank he
        -- `s` leaves no edge behind it, so it may be numbered above everything it enters.
        refine ⟨fun x => if x = s then ((succ s).map rank).sum + 1 else rank x, ?_⟩
        intro i hi t ht htU
        have hts : t ≠ s := by
          rintro rfl
          exact hno i hi ht
        simp only [if_neg hts]
        by_cases his : i = s
        · subst his
          rw [if_pos rfl]
          have := List.le_sum_of_mem (List.mem_map_of_mem (f := rank) ht)
          omega
        · rw [if_neg his]
          exact hr i (Finset.mem_erase.mpr ⟨his, hi⟩) t ht (Finset.mem_erase.mpr ⟨hts, htU⟩)

theorem releasing_start :
    Releasing succ n (Finset.range n) (indegrees succ n)
      ((List.range n).filter fun node => (indegrees succ n)[node]? = some 0) where
  degree t ht := indegrees_getElem? succ n ht
  length := by
    have hlen : ∀ (l d : List ℕ),
        (l.foldl (fun degrees target => degrees.modify target (· + 1)) d).length = d.length := by
      intro l
      induction l with
      | nil => exact fun d => rfl
      | cons t l ih => exact fun d => by rw [List.foldl_cons, ih, List.length_modify]
    rw [indegrees, hlen, List.length_replicate]
  sub x hx := Finset.mem_range.mp hx
  nodup := List.nodup_range.filter _
  queue x := by
    rw [List.mem_filter, List.mem_range, Finset.mem_range]
    constructor
    · rintro ⟨hx, hd⟩
      rw [indegrees_getElem? succ n hx] at hd
      exact ⟨hx, by simpa using hd⟩
    · rintro ⟨hx, hz⟩
      exact ⟨hx, by rw [indegrees_getElem? succ n hx, hz]; rfl⟩
  released x hx hU := absurd (Finset.mem_range.mpr hx) hU

theorem releaseOrder_spec : ∃ U' ⊆ Finset.range n,
    Released succ (Finset.range n) U' (releaseOrder succ n) ∧
      (allReleased succ n = true ↔ U' = ∅) := by
  obtain ⟨U', hsub, rest, hloop, hrel⟩ := releaseLoop_spec succ n [] (releasing_start succ n)
  rw [List.nil_append] at hloop
  have hcard : rest.length + U'.card = n := by
    have hfin : rest.toFinset = Finset.range n \ U' := by
      ext x
      rw [List.mem_toFinset, hrel.mem, Finset.mem_sdiff]
    rw [← List.toFinset_card_of_nodup hrel.nodup, hfin, Finset.card_sdiff_add_card_eq_card hsub,
      Finset.card_range]
  have horder : releaseOrder succ n = rest := hloop
  refine ⟨U', hsub, horder ▸ hrel, ?_⟩
  rw [allReleased, decide_eq_true_iff, horder, ← Finset.card_eq_zero]
  omega

/-- All nodes are released exactly when the graph can be numbered. -/
theorem allReleased_iff : allReleased succ n = true ↔ ∃ rank, Ranked succ n rank := by
  obtain ⟨U', hsub, hrel, hempty⟩ := releaseOrder_spec succ n
  rw [hempty]
  constructor
  · intro he
    obtain ⟨rank, hr⟩ := hrel.rank he
    exact ⟨rank, fun i hi t ht htn => hr i (Finset.mem_range.mpr hi) t ht (Finset.mem_range.mpr htn)⟩
  · rintro ⟨rank, hr⟩
    by_contra hne
    obtain ⟨x, hx, hmax⟩ := Finset.exists_max_image U' rank (Finset.nonempty_iff_ne_empty.mpr hne)
    obtain ⟨i, hi, hmem⟩ := hrel.stuck x hx
    have := hr i (Finset.mem_range.mp (hsub hi)) x hmem (Finset.mem_range.mp (hsub hx))
    have := hmax i hi
    omega

/-- When all nodes are released, every node comes after the nodes with an edge to it. -/
theorem releaseOrder_before (h : allReleased succ n = true) :
    (∀ x, x ∈ releaseOrder succ n ↔ x < n) ∧
      ∀ l₁ x l₂, releaseOrder succ n = l₁ ++ x :: l₂ → ∀ i < n, x ∈ succ i → i ∈ l₁ := by
  obtain ⟨U', -, hrel, hempty⟩ := releaseOrder_spec succ n
  obtain rfl := hempty.mp h
  refine ⟨fun x => ?_, fun l₁ x l₂ he i hi => hrel.before l₁ x l₂ he i (Finset.mem_range.mpr hi)⟩
  rw [hrel.mem, Finset.mem_range]
  simp

theorem releaseOrder_nodup : (releaseOrder succ n).Nodup := by
  obtain ⟨U', -, hrel, -⟩ := releaseOrder_spec succ n
  exact hrel.nodup

/-- When all nodes are released, every node comes before the nodes that it enters. -/
theorem releaseOrder_after (h : allReleased succ n = true) {l₁ l₂ : List ℕ} {x t : ℕ}
    (he : releaseOrder succ n = l₁ ++ x :: l₂) (ht : t ∈ succ x) (hn : t < n) : t ∈ l₂ := by
  obtain ⟨hmem, hbefore⟩ := releaseOrder_before succ n h
  have hx : x < n := (hmem x).mp (he ▸ by simp)
  have hx₁ : x ∉ l₁ := by
    have hnodup := releaseOrder_nodup succ n
    rw [he] at hnodup
    exact fun hmem => (List.nodup_append.mp hnodup).2.2 x hmem x List.mem_cons_self rfl
  have htmem := (hmem t).mpr hn
  rw [he] at htmem
  obtain ht₁ | ht₂ := List.mem_append.mp htmem
  · obtain ⟨a, b, rfl⟩ := List.append_of_mem ht₁
    rw [List.append_assoc] at he
    exact absurd (List.mem_append_left _ (hbefore a t _ he x hx ht)) hx₁
  · obtain rfl | ht₂ := List.mem_cons.mp ht₂
    · exact absurd (hbefore l₁ t l₂ he t hx ht) hx₁
    · exact ht₂

end GlrMask
