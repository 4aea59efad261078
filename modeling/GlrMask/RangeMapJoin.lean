import GlrMask.RangeMapOps

/-!
# Joining range maps

Between two neighbouring boundaries of a family of runs every lookup is
constant. A join of two range maps lists these windows with the value each
side takes there.
-/

namespace GlrMask

variable {M : ℕ} {V A B C : Type*}

/-! ## Windows between neighbouring boundaries -/

/-- The first key of every run, and the first key behind it. -/
def cutPoints (l : List (Run V)) : List ℕ := l.flatMap fun r => [r.lo, r.hi + 1]

def sortDedup (l : List ℕ) : List ℕ := (l.insertionSort (· ≤ ·)).dedup

def windows (l : List ℕ) : List (ℕ × ℕ) := l.zip l.tail

@[simp] theorem mem_sortDedup {l : List ℕ} {x : ℕ} : x ∈ sortDedup l ↔ x ∈ l := by
  simp [sortDedup]

theorem sortDedup_sorted (l : List ℕ) : (sortDedup l).Pairwise (· < ·) := by
  have hle : (sortDedup l).Pairwise (· ≤ ·) :=
    (List.pairwise_insertionSort (· ≤ ·) l).sublist (List.dedup_sublist _)
  have hne : (sortDedup l).Pairwise (· ≠ ·) := List.nodup_dedup _
  exact hle.imp₂ (fun a b hab hn => lt_of_le_of_ne hab hn) hne

theorem windows_cons_cons (a b : ℕ) (l : List ℕ) :
    windows (a :: b :: l) = (a, b) :: windows (b :: l) := rfl

theorem mem_of_mem_windows {l : List ℕ} {c c' : ℕ} (h : (c, c') ∈ windows l) :
    c ∈ l ∧ c' ∈ l :=
  ⟨(List.of_mem_zip h).1, List.mem_of_mem_tail (List.of_mem_zip h).2⟩

/-- A window is nonempty and holds no boundary except its own first key. -/
theorem windows_gap {l : List ℕ} (hl : l.Pairwise (· < ·)) {c c' : ℕ}
    (h : (c, c') ∈ windows l) : c < c' ∧ ∀ x ∈ l, x ≤ c ∨ c' ≤ x := by
  induction l with
  | nil => simp [windows] at h
  | cons a l ih =>
      cases l with
      | nil => simp [windows] at h
      | cons b l =>
          rw [windows_cons_cons] at h
          rcases List.mem_cons.mp h with he | htl
          · obtain ⟨rfl, rfl⟩ := Prod.mk.inj he
            refine ⟨List.rel_of_pairwise_cons hl List.mem_cons_self, fun x hx => ?_⟩
            rcases List.mem_cons.mp hx with rfl | hx
            · exact Or.inl le_rfl
            · rcases List.mem_cons.mp hx with rfl | hx
              · exact Or.inr le_rfl
              · exact Or.inr (List.rel_of_pairwise_cons hl.tail hx).le
          · obtain ⟨hlt, hgap⟩ := ih hl.tail htl
            refine ⟨hlt, fun x hx => ?_⟩
            rcases List.mem_cons.mp hx with rfl | hx
            · exact Or.inl (List.rel_of_pairwise_cons hl (mem_of_mem_windows htl).1).le
            · exact hgap x hx

/-- A key between two boundaries lies in some window. -/
theorem exists_window {l : List ℕ} {x y k : ℕ}
    (hx : x ∈ l) (hxk : x ≤ k) (hy : y ∈ l) (hky : k < y) (hl : l.Pairwise (· < ·)) :
    ∃ c c', (c, c') ∈ windows l ∧ c ≤ k ∧ k < c' := by
  induction l generalizing x with
  | nil => simp at hx
  | cons a l ih =>
      cases l with
      | nil =>
          simp only [List.mem_singleton] at hx hy
          omega
      | cons b l =>
          by_cases hbk : b ≤ k
          · have hyl : y ∈ b :: l := by
              rcases List.mem_cons.mp hy with rfl | hy
              · have := List.rel_of_pairwise_cons hl (List.mem_cons_self (a := b))
                omega
              · exact hy
            obtain ⟨c, c', hmem, hc⟩ := ih List.mem_cons_self hbk hyl hl.tail
            exact ⟨c, c', List.mem_cons_of_mem _ hmem, hc⟩
          · refine ⟨a, b, List.mem_cons_self, ?_, by omega⟩
            rcases List.mem_cons.mp hx with rfl | hx
            · exact hxk
            · rcases List.mem_cons.mp hx with rfl | hx
              · omega
              · have := List.rel_of_pairwise_cons hl.tail hx
                omega

theorem windows_pairwise {l : List ℕ} (hl : l.Pairwise (· < ·)) :
    (windows l).Pairwise (fun p q => p.2 ≤ q.1) := by
  induction l with
  | nil => simp [windows]
  | cons a l ih =>
      cases l with
      | nil => simp [windows]
      | cons b l =>
          rw [windows_cons_cons]
          refine List.pairwise_cons.mpr ⟨fun q hq => ?_, ih hl.tail⟩
          rcases List.mem_cons.mp (mem_of_mem_windows hq).1 with he | hmem
          · exact he.ge
          · exact (List.rel_of_pairwise_cons hl.tail hmem).le

/-- Without a boundary in between, two keys are looked up alike. -/
theorem lookupRuns_eq_of_no_cut {l : List (Run V)} {c k : ℕ} (hck : c ≤ k)
    (h : ∀ x ∈ cutPoints l, x ≤ c ∨ k < x) : lookupRuns l k = lookupRuns l c := by
  induction l with
  | nil => rfl
  | cons r l ih =>
      have hlo := h r.lo (by simp [cutPoints])
      have hhi := h (r.hi + 1) (by simp [cutPoints])
      have hcov : r.Covers k ↔ r.Covers c := by
        simp only [Run.Covers]
        omega
      have htail := ih fun x hx => h x (by
        simp only [cutPoints, List.flatMap_cons, List.mem_append] at hx ⊢
        exact Or.inr hx)
      simp only [lookupRuns_cons, hcov, htail]

theorem lo_mem_cutPoints {l : List (Run V)} {r : Run V} (hr : r ∈ l) : r.lo ∈ cutPoints l :=
  List.mem_flatMap.mpr ⟨r, hr, by simp⟩

theorem succ_hi_mem_cutPoints {l : List (Run V)} {r : Run V} (hr : r ∈ l) :
    r.hi + 1 ∈ cutPoints l :=
  List.mem_flatMap.mpr ⟨r, hr, by simp⟩

/-! ## Runs cut at a list of boundaries -/

/-- The windows of `cs` on which `g` has a value at the first key. -/
def windowRuns (cs : List ℕ) (g : ℕ → Option V) : List (Run V) :=
  (windows cs).filterMap fun w => (g w.1).map (Run.mk w.1 (w.2 - 1))

theorem mem_windowRuns {cs : List ℕ} {g : ℕ → Option V} {r : Run V}
    (h : r ∈ windowRuns cs g) : ∃ w ∈ windows cs, g w.1 = some r.val ∧ r.lo = w.1 ∧ r.hi = w.2 - 1 := by
  obtain ⟨w, hw, he⟩ := List.mem_filterMap.mp h
  obtain ⟨v, hv, rfl⟩ := Option.map_eq_some_iff.mp he
  exact ⟨w, hw, hv, rfl, rfl⟩

theorem windowRuns_ordered {cs : List ℕ} (hcs : cs.Pairwise (· < ·)) (g : ℕ → Option V) :
    Ordered (windowRuns cs g) := by
  constructor
  · intro r hr
    obtain ⟨w, hw, -, hlo, hhi⟩ := mem_windowRuns hr
    have := (windows_gap hcs hw).1
    omega
  · rw [windowRuns, List.pairwise_filterMap]
    refine (windows_pairwise hcs).imp_of_mem fun {v w} hv hw hvw r hr s hs => ?_
    obtain ⟨x, -, rfl⟩ := Option.map_eq_some_iff.mp hr
    obtain ⟨y, -, rfl⟩ := Option.map_eq_some_iff.mp hs
    have := (windows_gap hcs hv).1
    change v.2 - 1 < w.1
    omega

/-- A function that is constant on every window is looked up in its window runs. -/
theorem lookupRuns_windowRuns {cs : List ℕ} (hcs : cs.Pairwise (· < ·)) {g : ℕ → Option V}
    (hconst : ∀ w ∈ windows cs, ∀ k, w.1 ≤ k → k < w.2 → g k = g w.1)
    (hout : ∀ k, g k ≠ none → ∃ w ∈ windows cs, w.1 ≤ k ∧ k < w.2) (k : ℕ) :
    lookupRuns (windowRuns cs g) k = g k := by
  cases he : lookupRuns (windowRuns cs g) k with
  | some v =>
      obtain ⟨r, hr, hc, rfl⟩ := exists_run_of_lookupRuns he
      obtain ⟨w, hw, hg, hlo, hhi⟩ := mem_windowRuns hr
      have := (windows_gap hcs hw).1
      rw [hconst w hw k (hlo ▸ hc.1) (by have := hc.2; omega), hg]
  | none =>
      by_contra hne
      obtain ⟨w, hw, hlo, hhi⟩ := hout k (Ne.symm hne)
      obtain ⟨v, hv⟩ := Option.ne_none_iff_exists'.mp (Ne.symm hne)
      have hmem : ⟨w.1, w.2 - 1, v⟩ ∈ windowRuns cs g :=
        List.mem_filterMap.mpr ⟨w, hw, by rw [← hconst w hw k hlo hhi, hv]; rfl⟩
      refine lookupRuns_eq_none_iff.mp he _ hmem ⟨hlo, ?_⟩
      change k ≤ w.2 - 1
      omega

theorem exists_window_of_run {l : List ℕ} (hl : l.Pairwise (· < ·)) {r : Run V} {k : ℕ}
    (hlo : r.lo ∈ l) (hhi : r.hi + 1 ∈ l) (hc : r.Covers k) :
    ∃ w ∈ windows l, w.1 ≤ k ∧ k < w.2 := by
  obtain ⟨c, c', hw, hk⟩ := exists_window hlo hc.1 hhi (by have := hc.2; omega) hl
  exact ⟨(c, c'), hw, hk⟩

/-- Inside a window of boundaries that include a list's own, its lookup is constant. -/
theorem lookupRuns_eq_on_window {l : List (Run V)} {cs : List ℕ} (hcs : cs.Pairwise (· < ·))
    (hcut : ∀ x ∈ cutPoints l, x ∈ cs) {w : ℕ × ℕ} (hw : w ∈ windows cs) {k : ℕ}
    (hlo : w.1 ≤ k) (hhi : k < w.2) : lookupRuns l k = lookupRuns l w.1 := by
  refine lookupRuns_eq_of_no_cut hlo fun x hx => ?_
  rcases (windows_gap hcs hw).2 x (hcut x hx) with h | h
  · exact Or.inl h
  · exact Or.inr (by omega)

/-! ## The full join of two range maps -/

/-- A run of keys on which both sides of a join are constant. -/
structure Piece (A B : Type*) where
  lo : ℕ
  hi : ℕ
  left : Option A
  right : Option B

namespace RangeMap

def boundaries (a : RangeMap M A) (b : RangeMap M B) : List ℕ :=
  sortDedup (cutPoints a.runs ++ cutPoints b.runs)

/-- The window's values, unless neither side has one. -/
def pieceAt (a : RangeMap M A) (b : RangeMap M B) (w : ℕ × ℕ) : Option (Piece A B) :=
  if (a.get w.1).isNone && (b.get w.1).isNone then none
  else some ⟨w.1, w.2 - 1, a.get w.1, b.get w.1⟩

/-- Every key range covered by either side, with both sides' values on it. -/
def fullJoin (a : RangeMap M A) (b : RangeMap M B) : List (Piece A B) :=
  (windows (boundaries a b)).filterMap (pieceAt a b)

variable {a : RangeMap M A} {b : RangeMap M B}

theorem get_eq_on_window {w : ℕ × ℕ} (hw : w ∈ windows (boundaries a b)) {k : ℕ}
    (hlo : w.1 ≤ k) (hhi : k < w.2) : a.get k = a.get w.1 ∧ b.get k = b.get w.1 :=
  ⟨lookupRuns_eq_on_window (sortDedup_sorted _)
      (fun _ hx => mem_sortDedup.mpr (List.mem_append_left _ hx)) hw hlo hhi,
    lookupRuns_eq_on_window (sortDedup_sorted _)
      (fun _ hx => mem_sortDedup.mpr (List.mem_append_right _ hx)) hw hlo hhi⟩

theorem pieceAt_eq_some {w : ℕ × ℕ} {p : Piece A B} (h : pieceAt a b w = some p) :
    (a.get w.1 ≠ none ∨ b.get w.1 ≠ none) ∧ p = ⟨w.1, w.2 - 1, a.get w.1, b.get w.1⟩ := by
  unfold pieceAt at h
  split_ifs at h with hn
  refine ⟨?_, (Option.some.inj h).symm⟩
  by_contra hcon
  simp_all

/-- On each piece of a join both sides are constant, and at least one is defined. -/
theorem fullJoin_sound {p : Piece A B} (hp : p ∈ fullJoin a b) :
    p.lo ≤ p.hi ∧ p.hi ≤ M ∧ (p.left ≠ none ∨ p.right ≠ none) ∧
      ∀ k, p.lo ≤ k → k ≤ p.hi → a.get k = p.left ∧ b.get k = p.right := by
  obtain ⟨w, hw, he⟩ := List.mem_filterMap.mp hp
  obtain ⟨hdef, rfl⟩ := pieceAt_eq_some he
  have hlt := (windows_gap (sortDedup_sorted _) hw).1
  have hconst : ∀ k, w.1 ≤ k → k ≤ w.2 - 1 → a.get k = a.get w.1 ∧ b.get k = b.get w.1 :=
    fun k hlo hhi => get_eq_on_window hw hlo (by omega)
  refine ⟨by change w.1 ≤ w.2 - 1; omega, ?_, hdef, hconst⟩
  obtain ⟨hl, hr⟩ := hconst (w.2 - 1) (by omega) le_rfl
  rcases hdef with hd | hd
  · obtain ⟨v, hv⟩ := Option.ne_none_iff_exists'.mp hd
    exact le_of_get (hl.trans hv)
  · obtain ⟨v, hv⟩ := Option.ne_none_iff_exists'.mp hd
    exact le_of_get (hr.trans hv)

/-- Every key either side maps lies in a piece. -/
theorem fullJoin_complete {k : ℕ} (h : a.get k ≠ none ∨ b.get k ≠ none) :
    ∃ p ∈ fullJoin a b, p.lo ≤ k ∧ k ≤ p.hi := by
  have hw : ∃ w ∈ windows (boundaries a b), w.1 ≤ k ∧ k < w.2 := by
    rcases h with h | h
    · obtain ⟨v, hv⟩ := Option.ne_none_iff_exists'.mp h
      obtain ⟨r, hr, hc, -⟩ := exists_run_of_get hv
      exact exists_window_of_run (sortDedup_sorted _)
        (mem_sortDedup.mpr (List.mem_append_left _ (lo_mem_cutPoints hr)))
        (mem_sortDedup.mpr (List.mem_append_left _ (succ_hi_mem_cutPoints hr))) hc
    · obtain ⟨v, hv⟩ := Option.ne_none_iff_exists'.mp h
      obtain ⟨r, hr, hc, -⟩ := exists_run_of_get hv
      exact exists_window_of_run (sortDedup_sorted _)
        (mem_sortDedup.mpr (List.mem_append_right _ (lo_mem_cutPoints hr)))
        (mem_sortDedup.mpr (List.mem_append_right _ (succ_hi_mem_cutPoints hr))) hc
  obtain ⟨w, hw, hlo, hhi⟩ := hw
  obtain ⟨hl, hr⟩ := get_eq_on_window hw hlo hhi
  refine ⟨⟨w.1, w.2 - 1, a.get w.1, b.get w.1⟩, List.mem_filterMap.mpr ⟨w, hw, ?_⟩, hlo, ?_⟩
  · rw [pieceAt, if_neg]
    rw [hl, hr] at h
    simpa [Option.isNone_iff_eq_none, ← not_and_or] using h
  · change k ≤ w.2 - 1
    omega

theorem fullJoin_pairwise : (fullJoin a b).Pairwise (fun p q => p.hi < q.lo) := by
  rw [fullJoin, List.pairwise_filterMap]
  refine (windows_pairwise (sortDedup_sorted _)).imp_of_mem fun {v w} hv hw hvw p hp q hq => ?_
  obtain ⟨-, rfl⟩ := pieceAt_eq_some hp
  obtain ⟨-, rfl⟩ := pieceAt_eq_some hq
  have := (windows_gap (sortDedup_sorted _) hv).1
  change v.2 - 1 < w.1
  omega

end RangeMap

end GlrMask
