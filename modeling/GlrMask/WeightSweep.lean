import Mathlib.Data.List.TakeWhile
import Mathlib.Data.Multiset.AddSub
import Mathlib.Data.Multiset.Filter
import GlrMask.WeightUnion

/-!
# Sweeping over many entries

The entries of several weight maps may overlap. A sweep cuts the keys at the
boundaries of all entries and lists, window by window, the values of the entries
that are active there. A short list is scanned again for every window. A long
list keeps its active values from one boundary to the next.
-/

namespace GlrMask

open RangeSet RangeMap CompactRangeBuilder

variable {α : Type}

/-- Windows in key order that cover exactly the entries, each with the values active there. -/
structure Sweeps (entries : List (Run α)) (sweep : List (Run (List α))) : Prop where
  ordered : Ordered sweep
  active : ∀ w ∈ sweep, ∀ k, w.Covers k → ∀ a, a ∈ w.val ↔ ∃ e ∈ entries, e.Covers k ∧ e.val = a
  covers : ∀ e ∈ entries, ∀ k, e.Covers k → ∃ w ∈ sweep, w.Covers k
  bounded : ∀ w ∈ sweep, ∃ e ∈ entries, w.hi ≤ e.hi

section Definitions

variable [DecidableEq α] [Runtime]

/-! ## Scanning for every window -/

/-- The values active on a window, of start-sorted entries that may reach it. -/
def scanActive (entries : List (Run α)) (interval_start interval_end : ℕ) : List α :=
  Runtime.reorder ((((entries.takeWhile fun e => e.lo ≤ interval_start).filter
    fun e => interval_end ≤ e.hi).map Run.val).dedup)

/-- Entries that end before a window are skipped for good. -/
def rescanLoop : List (Run α) → List (ℕ × ℕ) → List (Run (List α))
  | _, [] => []
  | entries, window :: windows =>
      let entries := entries.dropWhile fun e => e.hi < window.1
      ⟨window.1, window.2 - 1, scanActive entries window.1 (window.2 - 1)⟩ ::
        rescanLoop entries windows

def rescanWindows (entries : List (Run α)) : List (Run (List α)) :=
  rescanLoop entries (windows (sortDedup (cutPoints entries)))

/-! ## Keeping the active values -/

def nextBoundary (starts : List (Run α)) (ends : List (ℕ × α)) : Option ℕ :=
  match starts.head?, ends.head? with
  | some start, some stop => some (min start.lo stop.1)
  | some start, none => some start.lo
  | none, some stop => some stop.1
  | none, none => none

/-- `active` lists the values of all active entries, so that a value occurs once for each. -/
def sweepLoop : ℕ → List (Run α) → List (ℕ × α) → List α → List (Run (List α))
  | 0, _, _, _ => []
  | fuel + 1, starts, ends, active =>
      match nextBoundary starts ends with
      | none => []
      | some boundary =>
          let active := (ends.takeWhile fun stop => stop.1 = boundary).foldl
            (fun active stop => active.erase stop.2) active
          let ends := ends.dropWhile fun stop => stop.1 = boundary
          let active := active ++ (starts.takeWhile fun start => start.lo = boundary).map Run.val
          let starts := starts.dropWhile fun start => start.lo = boundary
          match nextBoundary starts ends with
          | none => []
          | some next_boundary =>
              ⟨boundary, next_boundary - 1, Runtime.reorder active.dedup⟩ ::
                sweepLoop fuel starts ends active

/-- Every pass handles a start or an end, so their number is enough fuel. -/
def incrementalWindows (entries : List (Run α)) : List (Run (List α)) :=
  let end_events := (entries.map fun e => (e.hi + 1, e.val)).insertionSort fun a b => a.1 ≤ b.1
  sweepLoop (entries.length + end_events.length) entries end_events []

end Definitions

variable {entries : List (Run α)}

/-! ## The windows of the rescan -/

section Rescan

variable [DecidableEq α] [Runtime]

theorem mem_scanActive {starting : List (Run α)}
    (hs : starting.Pairwise (fun a b => a.lo ≤ b.lo)) {i j : ℕ} {a : α} :
    a ∈ scanActive starting i j ↔ ∃ e ∈ starting, e.lo ≤ i ∧ j ≤ e.hi ∧ e.val = a := by
  have htake : ∀ e, e ∈ starting.takeWhile (fun e => e.lo ≤ i) ↔ e ∈ starting ∧ e.lo ≤ i := by
    intro e
    induction starting with
    | nil => simp
    | cons f l ih =>
        rw [List.takeWhile_cons]
        by_cases hf : f.lo ≤ i
        · simp only [decide_eq_true hf, if_true, List.mem_cons, ih hs.tail]
          constructor
          · rintro (rfl | ⟨he, hle⟩)
            · exact ⟨Or.inl rfl, hf⟩
            · exact ⟨Or.inr he, hle⟩
          · rintro ⟨rfl | he, hle⟩
            · exact Or.inl rfl
            · exact Or.inr ⟨he, hle⟩
        · simp only [decide_eq_false hf, Bool.false_eq_true, if_false, List.not_mem_nil, false_iff,
            List.mem_cons, not_and]
          rintro (rfl | he)
          · exact hf
          · have := List.rel_of_pairwise_cons hs he
            omega
  rw [scanActive, (Runtime.reorder_perm _).mem_iff, List.mem_dedup, List.mem_map]
  simp only [List.mem_filter, htake, decide_eq_true_eq]
  constructor
  · rintro ⟨e, ⟨⟨he, hlo⟩, hhi⟩, ha⟩
    exact ⟨e, he, hlo, hhi, ha⟩
  · rintro ⟨e, he, hlo, hhi, ha⟩
    exact ⟨e, ⟨⟨he, hlo⟩, hhi⟩, ha⟩

theorem rescanLoop_bounds (starting : List (Run α)) (ws : List (ℕ × ℕ)) :
    (rescanLoop starting ws).map (fun r => (r.lo, r.hi)) = ws.map fun w => (w.1, w.2 - 1) := by
  induction ws generalizing starting with
  | nil => rfl
  | cons w ws ih => rw [rescanLoop, List.map_cons, List.map_cons, ih]

/-- Skipping entries for good loses nothing that a later window needs. -/
theorem rescanLoop_active {starting : List (Run α)} {ws : List (ℕ × ℕ)}
    (hsub : ∀ e ∈ starting, e ∈ entries)
    (hsorted : starting.Pairwise (fun a b => a.lo ≤ b.lo))
    (hskip : ∀ e ∈ entries, e ∈ starting ∨ ∀ w ∈ ws, e.hi < w.1)
    (hws : ∀ w ∈ ws, w.1 < w.2) (hasc : ws.Pairwise (fun v w => v.1 ≤ w.1)) :
    ∀ r ∈ rescanLoop starting ws, ∀ a, a ∈ r.val ↔
      ∃ e ∈ entries, e.lo ≤ r.lo ∧ r.hi ≤ e.hi ∧ e.val = a := by
  induction ws generalizing starting with
  | nil => simp [rescanLoop]
  | cons w ws ih =>
      have hdrop : ∀ e ∈ starting, e ∈ starting.dropWhile (fun e => e.hi < w.1) ∨ e.hi < w.1 := by
        intro e he
        rw [← List.takeWhile_append_dropWhile (p := fun e : Run α => e.hi < w.1) (l := starting)] at he
        rcases List.mem_append.mp he with he | he
        · have hlt := List.mem_takeWhile_imp he
          exact Or.inr (of_decide_eq_true hlt)
        · exact Or.inl he
      have hsub' : ∀ e ∈ starting.dropWhile (fun e => e.hi < w.1), e ∈ entries := fun e he =>
        hsub e ((List.dropWhile_sublist _).mem he)
      have hsorted' := hsorted.sublist (List.dropWhile_sublist fun e : Run α => e.hi < w.1)
      have hw := hws w List.mem_cons_self
      intro r hr a
      rcases List.mem_cons.mp hr with rfl | hr
      · rw [mem_scanActive hsorted']
        constructor
        · rintro ⟨e, he, h⟩
          exact ⟨e, hsub' e he, h⟩
        · rintro ⟨e, he, hlo, hhi, ha⟩
          refine ⟨e, ?_, hlo, hhi, ha⟩
          rcases hskip e he with he' | hskip'
          · apply (hdrop e he').resolve_right
            change w.2 - 1 ≤ e.hi at hhi
            omega
          · have := hskip' w List.mem_cons_self
            change w.2 - 1 ≤ e.hi at hhi
            omega
      · apply @ih (starting.dropWhile fun e => e.hi < w.1) hsub' hsorted' _ _ hasc.tail r hr
        · intro e he
          rcases hskip e he with he' | hskip'
          · rcases hdrop e he' with he' | hlt
            · exact Or.inl he'
            · exact Or.inr fun v hv => hlt.trans_le (List.rel_of_pairwise_cons hasc hv)
          · exact Or.inr fun v hv => hskip' v (List.mem_cons_of_mem _ hv)
        · exact fun v hv => hws v (List.mem_cons_of_mem _ hv)

theorem rescanWindows_sweeps (hle : ∀ e ∈ entries, e.lo ≤ e.hi)
    (hsorted : entries.Pairwise (fun a b => a.lo ≤ b.lo)) :
    Sweeps entries (rescanWindows entries) := by
  have hcs := sortDedup_sorted (cutPoints entries)
  have hpair := windows_pairwise hcs
  have hgap : ∀ w ∈ windows (sortDedup (cutPoints entries)), w.1 < w.2 := fun w hw =>
    (windows_gap hcs hw).1
  have hasc : (windows (sortDedup (cutPoints entries))).Pairwise (fun v w => v.1 ≤ w.1) :=
    hpair.imp_of_mem fun {v w} hv _ hle => (hgap v hv).le.trans hle
  have hbounds := rescanLoop_bounds entries (windows (sortDedup (cutPoints entries)))
  have hwindow : ∀ r ∈ rescanWindows entries, ∃ w ∈ windows (sortDedup (cutPoints entries)),
      r.lo = w.1 ∧ r.hi = w.2 - 1 := by
    intro r hr
    have := List.mem_map_of_mem (f := fun r : Run (List α) => (r.lo, r.hi)) hr
    rw [rescanWindows, hbounds] at this
    obtain ⟨w, hw, he⟩ := List.mem_map.mp this
    exact ⟨w, hw, (Prod.mk.inj he).1.symm, (Prod.mk.inj he).2.symm⟩
  constructor
  · constructor
    · intro r hr
      obtain ⟨w, hw, hlo, hhi⟩ := hwindow r hr
      have := hgap w hw
      omega
    · have hmap : ((rescanWindows entries).map fun r => (r.lo, r.hi)).Pairwise
          (fun p q => p.2 < q.1) := by
        rw [rescanWindows, hbounds, List.pairwise_map]
        exact hpair.imp_of_mem fun {v w} hv _ hle => by
          have := hgap v hv
          change v.2 - 1 < w.1
          omega
      exact List.pairwise_map.mp hmap
  · intro r hr k hk a
    obtain ⟨w, hw, hlo, hhi⟩ := hwindow r hr
    rw [rescanLoop_active (fun e he => he) hsorted (fun e he => Or.inl he) hgap hasc r hr a]
    apply exists_congr
    intro e
    apply and_congr_right
    intro he
    rw [← and_assoc]
    apply and_congr_left
    intro _
    -- No boundary of `e` lies inside the window.
    have h₁ := (windows_gap hcs hw).2 e.lo (mem_sortDedup.mpr (lo_mem_cutPoints he))
    have h₂ := (windows_gap hcs hw).2 (e.hi + 1) (mem_sortDedup.mpr (succ_hi_mem_cutPoints he))
    have := hgap w hw
    simp only [Run.Covers] at hk ⊢
    omega
  · intro e he k hk
    obtain ⟨w, hw, hlo, hhi⟩ := exists_window_of_run hcs
      (mem_sortDedup.mpr (lo_mem_cutPoints he)) (mem_sortDedup.mpr (succ_hi_mem_cutPoints he)) hk
    have hmem : (w.1, w.2 - 1) ∈ (rescanWindows entries).map fun r => (r.lo, r.hi) := by
      rw [rescanWindows, hbounds]
      exact List.mem_map_of_mem (f := fun w : ℕ × ℕ => (w.1, w.2 - 1)) hw
    obtain ⟨r, hr, he'⟩ := List.mem_map.mp hmem
    obtain ⟨h₁, h₂⟩ := Prod.mk.inj he'
    refine ⟨r, hr, ?_⟩
    simp only [Run.Covers]
    omega
  · intro r hr
    obtain ⟨w, hw, -, hhi⟩ := hwindow r hr
    obtain ⟨e, he, hmem⟩ := List.mem_flatMap.mp (mem_sortDedup.mp (mem_of_mem_windows hw).2)
    refine ⟨e, he, ?_⟩
    have := hle e he
    simp only [List.mem_cons, List.not_mem_nil, or_false] at hmem
    omega

end Rescan

/-! ## The windows of the incremental sweep -/

/-- In a list sorted by `f`, the elements with the least value come first. -/
theorem takeWhile_dropWhile_least {β : Type*} {f : β → ℕ} {l : List β} {b : ℕ}
    (hl : l.Pairwise (fun x y => f x ≤ f y)) (hb : ∀ x ∈ l, b ≤ f x) :
    (l.takeWhile fun x => f x = b) = l.filter (fun x => f x = b) ∧
      (l.dropWhile fun x => f x = b) = l.filter (fun x => b + 1 ≤ f x) := by
  induction l with
  | nil => exact ⟨rfl, rfl⟩
  | cons x l ih =>
      obtain ⟨htake, hdrop⟩ := ih hl.tail fun y hy => hb y (List.mem_cons_of_mem _ hy)
      have hx := hb x List.mem_cons_self
      by_cases he : f x = b
      · have hlt : ¬ b + 1 ≤ f x := by omega
        simp [he, htake, hdrop]
      · have hlt : b + 1 ≤ f x := by omega
        have hrest : ∀ y ∈ l, b + 1 ≤ f y := fun y hy =>
          hlt.trans (List.rel_of_pairwise_cons hl hy)
        have hnone : l.filter (fun y => f y = b) = [] := by
          apply List.filter_eq_nil_iff.mpr
          intro y hy
          have := hrest y hy
          simp
          omega
        have hall : (x :: l).filter (fun y => b + 1 ≤ f y) = x :: l := by
          apply List.filter_eq_self.mpr
          intro y hy
          rcases List.mem_cons.mp hy with rfl | hy
          · exact decide_eq_true hlt
          · exact decide_eq_true (hrest y hy)
        rw [hall]
        simp [he, hnone]

/-- The boundaries before `bound` were handled: `starts` and `ends` list the events from there
on, and `active` the values of the entries that are active right before it. -/
structure SweepState (entries : List (Run α)) (bound : ℕ) (starts : List (Run α))
    (ends : List (ℕ × α)) (active : List α) : Prop where
  starts_sorted : starts.Pairwise (fun a b => a.lo ≤ b.lo)
  ends_sorted : ends.Pairwise (fun a b => a.1 ≤ b.1)
  starts : (starts : Multiset (Run α)) = (entries : Multiset (Run α)).filter (bound ≤ ·.lo)
  ends : (ends : Multiset (ℕ × α)) = ((entries : Multiset (Run α)).filter
    (fun e => bound ≤ e.hi + 1)).map fun e => (e.hi + 1, e.val)
  active : (active : Multiset α) = ((entries : Multiset (Run α)).filter
    (fun e => e.lo < bound ∧ bound ≤ e.hi + 1)).map Run.val

variable {bound : ℕ} {starts : List (Run α)} {ends : List (ℕ × α)} {active : List α}

theorem SweepState.mem_starts (h : SweepState entries bound starts ends active) {e : Run α} :
    e ∈ starts ↔ e ∈ entries ∧ bound ≤ e.lo := by
  rw [← Multiset.mem_coe, h.starts, Multiset.mem_filter, Multiset.mem_coe]

theorem SweepState.mem_ends (h : SweepState entries bound starts ends active) {stop : ℕ × α} :
    stop ∈ ends ↔ ∃ e ∈ entries, bound ≤ e.hi + 1 ∧ (e.hi + 1, e.val) = stop := by
  rw [← Multiset.mem_coe, h.ends, Multiset.mem_map]
  simp only [Multiset.mem_filter, Multiset.mem_coe, and_assoc]

theorem nextBoundary_le {starts : List (Run α)} {ends : List (ℕ × α)} {b : ℕ}
    (hs : starts.Pairwise (fun a b => a.lo ≤ b.lo)) (he : ends.Pairwise (fun a b => a.1 ≤ b.1))
    (h : nextBoundary starts ends = some b) :
    (∀ e ∈ starts, b ≤ e.lo) ∧ (∀ stop ∈ ends, b ≤ stop.1) ∧
      ((∃ e ∈ starts, e.lo = b) ∨ ∃ stop ∈ ends, stop.1 = b) := by
  cases starts with
  | nil =>
      cases ends with
      | nil => cases h
      | cons stop ends =>
          obtain rfl := Option.some.inj h
          refine ⟨by simp, fun s hs' => ?_, Or.inr ⟨stop, List.mem_cons_self, rfl⟩⟩
          rcases List.mem_cons.mp hs' with rfl | hs'
          · exact le_rfl
          · exact List.rel_of_pairwise_cons he hs'
  | cons start starts =>
      have hstart : ∀ e ∈ start :: starts, start.lo ≤ e.lo := fun e he' => by
        rcases List.mem_cons.mp he' with rfl | he'
        · exact le_rfl
        · exact List.rel_of_pairwise_cons hs he'
      cases ends with
      | nil =>
          obtain rfl := Option.some.inj h
          exact ⟨hstart, by simp, Or.inl ⟨start, List.mem_cons_self, rfl⟩⟩
      | cons stop ends =>
          have hstop : ∀ s ∈ stop :: ends, stop.1 ≤ s.1 := fun s hs' => by
            rcases List.mem_cons.mp hs' with rfl | hs'
            · exact le_rfl
            · exact List.rel_of_pairwise_cons he hs'
          obtain rfl := Option.some.inj h
          refine ⟨fun e he' => (min_le_left _ _).trans (hstart e he'),
            fun s hs' => (min_le_right _ _).trans (hstop s hs'), ?_⟩
          rcases min_choice start.lo stop.1 with hmin | hmin
          · exact Or.inl ⟨start, List.mem_cons_self, hmin.symm⟩
          · exact Or.inr ⟨stop, List.mem_cons_self, hmin.symm⟩

theorem nextBoundary_eq_none {starts : List (Run α)} {ends : List (ℕ × α)} :
    nextBoundary starts ends = none ↔ starts = [] ∧ ends = [] := by
  cases starts <;> cases ends <;> simp [nextBoundary]

theorem foldl_erase_eq_sub [DecidableEq α] (ends : List (ℕ × α)) (active : List α) :
    ((ends.foldl (fun active stop => active.erase stop.2) active : List α) : Multiset α) =
      (active : Multiset α) - ((ends.map Prod.snd : List α) : Multiset α) := by
  rw [Multiset.coe_sub, List.diff_eq_foldl, List.foldl_map]

/-- Handling the events of the next boundary leaves the values active from there on. -/
theorem SweepState.advance [DecidableEq α] (hle : ∀ e ∈ entries, e.lo ≤ e.hi)
    (h : SweepState entries bound starts ends active) {b : ℕ}
    (hnext : nextBoundary starts ends = some b) :
    SweepState entries (b + 1) (starts.dropWhile fun start => start.lo = b)
      (ends.dropWhile fun stop => stop.1 = b)
      ((ends.takeWhile fun stop => stop.1 = b).foldl
          (fun active stop => active.erase stop.2) active ++
        (starts.takeWhile fun start => start.lo = b).map Run.val) := by
  obtain ⟨hs, he, hsome⟩ := nextBoundary_le h.starts_sorted h.ends_sorted hnext
  obtain ⟨htakeS, hdropS⟩ := takeWhile_dropWhile_least h.starts_sorted hs
  obtain ⟨htakeE, hdropE⟩ := takeWhile_dropWhile_least h.ends_sorted he
  -- No event lies between `bound` and `b`.
  have hlo : ∀ e ∈ entries, bound ≤ e.lo → b ≤ e.lo := fun e hmem hb =>
    hs e (h.mem_starts.mpr ⟨hmem, hb⟩)
  have hhi : ∀ e ∈ entries, bound ≤ e.hi + 1 → b ≤ e.hi + 1 := fun e hmem hb =>
    he (e.hi + 1, e.val) (h.mem_ends.mpr ⟨e, hmem, hb, rfl⟩)
  have hbound : bound ≤ b := by
    rcases hsome with ⟨e, hmem, rfl⟩ | ⟨stop, hmem, rfl⟩
    · exact (h.mem_starts.mp hmem).2
    · obtain ⟨e, -, hb, rfl⟩ := h.mem_ends.mp hmem
      exact hb
  have hstarts : ∀ p : Run α → Prop, ∀ [DecidablePred p],
      ((starts.filter fun e => p e : List (Run α)) : Multiset (Run α)) =
        (entries : Multiset (Run α)).filter (fun e => p e ∧ bound ≤ e.lo) := by
    intro p _
    rw [← Multiset.filter_coe, h.starts, Multiset.filter_filter]
  have hends : ∀ p : ℕ → Prop, ∀ [DecidablePred p],
      ((ends.filter fun stop => p stop.1 : List (ℕ × α)) : Multiset (ℕ × α)) =
        ((entries : Multiset (Run α)).filter (fun e => p (e.hi + 1) ∧ bound ≤ e.hi + 1)).map
          fun e => (e.hi + 1, e.val) := by
    intro p _
    rw [← Multiset.filter_coe, h.ends, Multiset.filter_map, Multiset.filter_filter]
    rfl
  constructor
  · exact h.starts_sorted.sublist (List.dropWhile_sublist _)
  · exact h.ends_sorted.sublist (List.dropWhile_sublist _)
  · rw [hdropS, hstarts]
    apply Multiset.filter_congr
    intro e _
    omega
  · rw [hdropE, hends (b + 1 ≤ ·)]
    apply congrArg (Multiset.map _)
    apply Multiset.filter_congr
    intro e _
    omega
  · have hended : (((ends.takeWhile fun stop => stop.1 = b).map Prod.snd : List α) : Multiset α) =
        ((entries : Multiset (Run α)).filter (fun e => e.hi + 1 = b)).map Run.val := by
      rw [htakeE, ← Multiset.map_coe, hends (· = b), Multiset.map_map]
      apply congrArg (Multiset.map _)
      apply Multiset.filter_congr
      intro e _
      omega
    have hstarted : (((starts.takeWhile fun start => start.lo = b).map Run.val : List α) :
        Multiset α) =
        ((entries : Multiset (Run α)).filter (fun e => e.lo = b)).map Run.val := by
      rw [htakeS, ← Multiset.map_coe, hstarts]
      apply congrArg (Multiset.map _)
      apply Multiset.filter_congr
      intro e _
      omega
    have hold : (active : Multiset α) =
        ((entries : Multiset (Run α)).filter (fun e => e.lo < b ∧ b ≤ e.hi)).map Run.val +
          ((entries : Multiset (Run α)).filter (fun e => e.hi + 1 = b)).map Run.val := by
      rw [h.active, ← Multiset.map_add, Multiset.filter_add_filter]
      have hnone : (entries : Multiset (Run α)).filter
          (fun e => (e.lo < b ∧ b ≤ e.hi) ∧ e.hi + 1 = b) = 0 := by
        apply Multiset.filter_eq_nil.mpr
        omega
      rw [hnone, add_zero]
      apply congrArg (Multiset.map _)
      apply Multiset.filter_congr
      intro e hmem
      have h₁ := hlo e hmem
      have h₂ := hhi e hmem
      have h₃ := hle e hmem
      omega
    rw [← Multiset.coe_add, foldl_erase_eq_sub, hended, hstarted, hold, add_tsub_cancel_right,
      ← Multiset.map_add, Multiset.filter_add_filter]
    have hnone : (entries : Multiset (Run α)).filter
        (fun e => (e.lo < b ∧ b ≤ e.hi) ∧ e.lo = b) = 0 := by
      apply Multiset.filter_eq_nil.mpr
      omega
    rw [hnone, add_zero]
    apply congrArg (Multiset.map _)
    apply Multiset.filter_congr
    intro e hmem
    have h₃ := hle e hmem
    omega

/-- The values active after all events before `bound` are those of the entries around it. -/
theorem SweepState.mem_active (h : SweepState entries (bound + 1) starts ends active) {a : α} :
    a ∈ active ↔ ∃ e ∈ entries, e.Covers bound ∧ e.val = a := by
  rw [← Multiset.mem_coe, h.active, Multiset.mem_map]
  apply exists_congr
  intro e
  rw [Multiset.mem_filter, Multiset.mem_coe, and_assoc]
  apply and_congr_right
  intro _
  apply and_congr_left
  intro _
  simp only [Run.Covers]
  omega

/-- Between `bound` and the next boundary no entry starts or ends. -/
theorem SweepState.covers_iff (h : SweepState entries (bound + 1) starts ends active) {b : ℕ}
    (hnext : nextBoundary starts ends = some b) {e : Run α} (he : e ∈ entries) {k : ℕ}
    (hk : bound ≤ k) (hb : k < b) : e.Covers k ↔ e.Covers bound := by
  obtain ⟨hs, hstop, -⟩ := nextBoundary_le h.starts_sorted h.ends_sorted hnext
  have hlo : bound + 1 ≤ e.lo → b ≤ e.lo := fun hle => hs e (h.mem_starts.mpr ⟨he, hle⟩)
  have hhi : bound + 1 ≤ e.hi + 1 → b ≤ e.hi + 1 := fun hle =>
    hstop (e.hi + 1, e.val) (h.mem_ends.mpr ⟨e, he, hle, rfl⟩)
  simp only [Run.Covers]
  omega

/-- Handling a boundary handles an event. -/
theorem SweepState.decreases (h : SweepState entries bound starts ends active) {b : ℕ}
    (hnext : nextBoundary starts ends = some b) :
    (starts.dropWhile fun start => start.lo = b).length +
      (ends.dropWhile fun stop => stop.1 = b).length < starts.length + ends.length := by
  obtain ⟨hs, he, hsome⟩ := nextBoundary_le h.starts_sorted h.ends_sorted hnext
  have hle := (List.dropWhile_sublist (l := starts) fun start => start.lo = b).length_le
  have hle' := (List.dropWhile_sublist (l := ends) fun stop => stop.1 = b).length_le
  rcases hsome with ⟨e, hmem, hb⟩ | ⟨stop, hmem, hb⟩
  · have hlt : (starts.dropWhile fun start => start.lo = b).length < starts.length := by
      rw [(takeWhile_dropWhile_least h.starts_sorted hs).2]
      apply List.length_filter_lt_length_iff_exists.mpr ⟨e, hmem, ?_⟩
      simp [hb]
    omega
  · have hlt : (ends.dropWhile fun stop => stop.1 = b).length < ends.length := by
      rw [(takeWhile_dropWhile_least h.ends_sorted he).2]
      apply List.length_filter_lt_length_iff_exists.mpr ⟨stop, hmem, ?_⟩
      simp [hb]
    omega

section Incremental

variable [DecidableEq α] [Runtime]

/-- The sweep from the next boundary `b` on. -/
theorem sweepLoop_sweeps (hle : ∀ e ∈ entries, e.lo ≤ e.hi) {fuel b : ℕ}
    (h : SweepState entries bound starts ends active) (hnext : nextBoundary starts ends = some b)
    (hfuel : starts.length + ends.length ≤ fuel) :
    Ordered (sweepLoop fuel starts ends active) ∧
      (∀ w ∈ sweepLoop fuel starts ends active, b ≤ w.lo ∧ (∃ e ∈ entries, w.hi ≤ e.hi) ∧
        ∀ k, w.Covers k → ∀ a, a ∈ w.val ↔ ∃ e ∈ entries, e.Covers k ∧ e.val = a) ∧
      ∀ e ∈ entries, ∀ k, b ≤ k → e.Covers k →
        ∃ w ∈ sweepLoop fuel starts ends active, w.Covers k := by
  induction fuel generalizing bound starts ends active b with
  | zero =>
      have := h.decreases hnext
      omega
  | succ fuel ih =>
      have h' := h.advance hle hnext
      have hlt := h.decreases hnext
      simp only [sweepLoop, hnext]
      cases hnext' : nextBoundary (starts.dropWhile fun start => start.lo = b)
          (ends.dropWhile fun stop => stop.1 = b) with
      | none =>
          refine ⟨⟨by simp, List.Pairwise.nil⟩, by simp, fun e he k hk hc => ?_⟩
          have hnil := (nextBoundary_eq_none.mp hnext').2
          have hmem := h'.mem_ends.mpr ⟨e, he, by have := hc.2; omega, rfl⟩
          rw [hnil] at hmem
          exact absurd hmem List.not_mem_nil
      | some b' =>
          obtain ⟨hord, hwin, hcov⟩ := ih h' hnext' (by omega)
          obtain ⟨hs', he', hsome'⟩ := nextBoundary_le h'.starts_sorted h'.ends_sorted hnext'
          obtain ⟨hbb, hlast⟩ : b < b' ∧ ∃ e ∈ entries, b' - 1 ≤ e.hi := by
            rcases hsome' with ⟨e, hmem, rfl⟩ | ⟨stop, hmem, rfl⟩
            · obtain ⟨he, hb⟩ := h'.mem_starts.mp hmem
              have := hle e he
              exact ⟨hb, e, he, by omega⟩
            · obtain ⟨e, he, hb, rfl⟩ := h'.mem_ends.mp hmem
              exact ⟨hb, e, he, by simp⟩
          refine ⟨⟨?_, ?_⟩, ?_, ?_⟩
          · intro w hw
            rcases List.mem_cons.mp hw with rfl | hw
            · change b ≤ b' - 1
              omega
            · exact hord.1 w hw
          · apply List.pairwise_cons.mpr ⟨fun w hw => ?_, hord.2⟩
            have := (hwin w hw).1
            change b' - 1 < w.lo
            omega
          · intro w hw
            rcases List.mem_cons.mp hw with rfl | hw
            · refine ⟨le_rfl, hlast, fun k hk a => ?_⟩
              obtain ⟨hlo, hhi⟩ : b ≤ k ∧ k ≤ b' - 1 := hk
              rw [(Runtime.reorder_perm _).mem_iff, List.mem_dedup, h'.mem_active]
              apply exists_congr
              intro e
              apply and_congr_right
              intro he
              rw [h'.covers_iff hnext' he hlo (by omega)]
            · exact ⟨hbb.le.trans (hwin w hw).1, (hwin w hw).2⟩
          · intro e he k hk hc
            by_cases hkb : k < b'
            · refine ⟨_, List.mem_cons_self, ?_⟩
              change b ≤ k ∧ k ≤ b' - 1
              omega
            · obtain ⟨w, hw, hwc⟩ := hcov e he k (by omega) hc
              exact ⟨w, List.mem_cons_of_mem _ hw, hwc⟩

theorem incrementalWindows_sweeps (hle : ∀ e ∈ entries, e.lo ≤ e.hi)
    (hsorted : entries.Pairwise (fun a b => a.lo ≤ b.lo)) :
    Sweeps entries (incrementalWindows entries) := by
  have htotal : Std.Total (fun a b : ℕ × α => a.1 ≤ b.1) := ⟨fun a b => le_total a.1 b.1⟩
  have htrans : IsTrans (ℕ × α) (fun a b => a.1 ≤ b.1) := ⟨fun a b c => le_trans⟩
  have h : SweepState entries 0 entries
      ((entries.map fun e => (e.hi + 1, e.val)).insertionSort fun a b => a.1 ≤ b.1) [] := by
    refine ⟨hsorted, List.pairwise_insertionSort _ _, ?_, ?_, ?_⟩
    · rw [Multiset.filter_eq_self.mpr fun e _ => Nat.zero_le _]
    · rw [Multiset.filter_eq_self.mpr fun e _ => Nat.zero_le _, Multiset.map_coe]
      exact Multiset.coe_eq_coe.mpr (List.perm_insertionSort _ _)
    · rw [Multiset.filter_eq_nil.mpr fun e _ => by omega]
      rfl
  cases hnext : nextBoundary entries
      ((entries.map fun e => (e.hi + 1, e.val)).insertionSort fun a b => a.1 ≤ b.1) with
  | none =>
      obtain ⟨rfl, -⟩ := nextBoundary_eq_none.mp hnext
      exact ⟨⟨by simp [incrementalWindows, sweepLoop], List.Pairwise.nil⟩,
        by simp [incrementalWindows, sweepLoop], by simp, by simp [incrementalWindows, sweepLoop]⟩
  | some b =>
      obtain ⟨hord, hwin, hcov⟩ := sweepLoop_sweeps hle h hnext le_rfl
      refine ⟨hord, fun w hw => (hwin w hw).2.2, fun e he k hk => ?_,
        fun w hw => (hwin w hw).2.1⟩
      have hb := (nextBoundary_le h.starts_sorted h.ends_sorted hnext).1 e he
      exact hcov e he k (hb.trans hk.1) hk

end Incremental

end GlrMask
