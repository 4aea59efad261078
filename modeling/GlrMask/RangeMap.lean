import Mathlib.Data.List.Sort
import Mathlib.Data.List.Dedup
import Mathlib.Order.Interval.Finset.Nat
import Mathlib.Tactic

/-!
# Canonical range maps over bounded natural keys

A range map stores a finite partial function as sorted, disjoint, inclusive
runs of keys. Touching runs never carry the same value, so two range maps with
the same lookup function are equal. Inserting a run overwrites what it covers.
-/

namespace GlrMask

variable {V : Type*}

/-- The inclusive run `lo..=hi`, every key of which maps to `val`. -/
structure Run (V : Type*) where
  lo : ℕ
  hi : ℕ
  val : V
deriving DecidableEq

namespace Run

def Covers (r : Run V) (k : ℕ) : Prop := r.lo ≤ k ∧ k ≤ r.hi

instance (r : Run V) (k : ℕ) : Decidable (r.Covers k) := inferInstanceAs (Decidable (_ ∧ _))

/-- `r` ends before `s` starts, and the two could not be stored as one run. -/
def Before (r s : Run V) : Prop := r.hi < s.lo ∧ (r.hi + 1 = s.lo → r.val ≠ s.val)

/-- Whether two neighbours touch and agree, so that they are stored as one run. -/
def Touches [DecidableEq V] (r s : Run V) : Prop := r.hi + 1 = s.lo ∧ r.val = s.val

instance [DecidableEq V] (r s : Run V) : Decidable (r.Touches s) :=
  inferInstanceAs (Decidable (_ ∧ _))

end Run

/-- The value of the first run that covers `k`. -/
def lookupRuns : List (Run V) → ℕ → Option V
  | [], _ => none
  | r :: l, k => if r.Covers k then some r.val else lookupRuns l k

@[simp] theorem lookupRuns_nil (k : ℕ) : lookupRuns ([] : List (Run V)) k = none := rfl

theorem lookupRuns_cons (r : Run V) (l : List (Run V)) (k : ℕ) :
    lookupRuns (r :: l) k = if r.Covers k then some r.val else lookupRuns l k := rfl

theorem lookupRuns_append (l l' : List (Run V)) (k : ℕ) :
    lookupRuns (l ++ l') k = (lookupRuns l k).or (lookupRuns l' k) := by
  induction l with
  | nil => simp
  | cons r l ih =>
      rw [List.cons_append, lookupRuns_cons, lookupRuns_cons, ih]
      split <;> simp

theorem lookupRuns_eq_none_iff {l : List (Run V)} {k : ℕ} :
    lookupRuns l k = none ↔ ∀ r ∈ l, ¬ r.Covers k := by
  induction l with
  | nil => simp
  | cons r l ih =>
      rw [lookupRuns_cons]
      split <;> simp_all

theorem exists_run_of_lookupRuns {l : List (Run V)} {k : ℕ} {v : V}
    (h : lookupRuns l k = some v) : ∃ r ∈ l, r.Covers k ∧ r.val = v := by
  induction l with
  | nil => simp at h
  | cons r l ih =>
      rw [lookupRuns_cons] at h
      split_ifs at h with hc
      · exact ⟨r, List.mem_cons_self, hc, Option.some.inj h⟩
      · obtain ⟨s, hs, hcov, hv⟩ := ih h
        exact ⟨s, List.mem_cons_of_mem _ hs, hcov, hv⟩

/-- Runs in key order, each of them nonempty. -/
def Ordered (l : List (Run V)) : Prop :=
  (∀ r ∈ l, r.lo ≤ r.hi) ∧ l.Pairwise (fun r s => r.hi < s.lo)

/-- The stored form: ordered, and no two touching runs agree. -/
def Canonical (l : List (Run V)) : Prop :=
  (∀ r ∈ l, r.lo ≤ r.hi) ∧ l.Pairwise Run.Before

theorem Canonical.ordered {l : List (Run V)} (h : Canonical l) : Ordered l :=
  ⟨h.1, h.2.imp fun hb => hb.1⟩

theorem Canonical.tail {r : Run V} {l : List (Run V)} (h : Canonical (r :: l)) : Canonical l :=
  ⟨fun s hs => h.1 s (List.mem_cons_of_mem _ hs), h.2.tail⟩

theorem Ordered.tail {r : Run V} {l : List (Run V)} (h : Ordered (r :: l)) : Ordered l :=
  ⟨fun s hs => h.1 s (List.mem_cons_of_mem _ hs), h.2.tail⟩

theorem Ordered.lookup_of_mem {l : List (Run V)} (h : Ordered l) {r : Run V} (hr : r ∈ l)
    {k : ℕ} (hk : r.Covers k) : lookupRuns l k = some r.val := by
  induction l with
  | nil => simp at hr
  | cons s l ih =>
      rw [lookupRuns_cons]
      rcases List.mem_cons.mp hr with rfl | hr'
      · rw [if_pos hk]
      · have hlt : s.hi < r.lo := List.rel_of_pairwise_cons h.2 hr'
        rw [if_neg (fun hs => by have := hs.2; have := hk.1; omega), ih h.tail hr']

/-- Past the end of an ordered list's head, only the tail answers. -/
theorem Ordered.lookup_tail_of_le {r : Run V} {l : List (Run V)} (h : Ordered (r :: l))
    {k : ℕ} (hk : k ≤ r.hi) : lookupRuns l k = none := by
  rw [lookupRuns_eq_none_iff]
  intro s hs hc
  have hlt : r.hi < s.lo := List.rel_of_pairwise_cons h.2 hs
  have := hc.1
  omega

/-- The run after a canonical list's head that starts right behind it disagrees with it. -/
theorem Canonical.lookup_succ_ne {r : Run V} {l : List (Run V)} (h : Canonical (r :: l)) :
    lookupRuns l (r.hi + 1) ≠ some r.val := by
  intro he
  obtain ⟨s, hs, hc, hv⟩ := exists_run_of_lookupRuns he
  have hb : r.Before s := List.rel_of_pairwise_cons h.2 hs
  have hlo : r.hi + 1 = s.lo := by have := hb.1; have := hc.1; omega
  exact hb.2 hlo hv.symm

theorem Canonical.lookup_lo {r : Run V} {l : List (Run V)} (h : Canonical (r :: l)) :
    lookupRuns (r :: l) r.lo = some r.val := by
  rw [lookupRuns_cons, if_pos ⟨le_rfl, h.1 r List.mem_cons_self⟩]

theorem Canonical.lookup_before {r : Run V} {l : List (Run V)} (h : Canonical (r :: l))
    {k : ℕ} (hk : k < r.lo) : lookupRuns (r :: l) k = none := by
  rw [lookupRuns_cons, if_neg (fun hc => by have := hc.1; omega)]
  have := h.1 r List.mem_cons_self
  exact h.ordered.lookup_tail_of_le (by omega)

/-- The head of a canonical list is determined by its lookup function. -/
theorem Canonical.head_hi_le {r s : Run V} {l l' : List (Run V)} (h : Canonical (r :: l))
    (hlo : r.lo = s.lo) (hval : r.val = s.val)
    (heq : ∀ k, lookupRuns (r :: l) k = lookupRuns (s :: l') k) : s.hi ≤ r.hi := by
  by_contra hlt
  have hr := h.1 r List.mem_cons_self
  have hc : s.Covers (r.hi + 1) := ⟨by omega, by omega⟩
  have he := heq (r.hi + 1)
  rw [lookupRuns_cons, lookupRuns_cons, if_pos hc,
    if_neg (fun hc => by have := hc.2; omega), ← hval] at he
  exact h.lookup_succ_ne he

/-- Canonical lists with the same lookup function are equal. -/
theorem Canonical.ext {l l' : List (Run V)} (h : Canonical l) (h' : Canonical l')
    (heq : ∀ k, lookupRuns l k = lookupRuns l' k) : l = l' := by
  induction l generalizing l' with
  | nil =>
      cases l' with
      | nil => rfl
      | cons s l' =>
          have he := heq s.lo
          rw [h'.lookup_lo] at he
          simp at he
  | cons r l ih =>
      cases l' with
      | nil =>
          have he := heq r.lo
          rw [h.lookup_lo] at he
          simp at he
      | cons s l' =>
          have hlo : r.lo = s.lo := by
            rcases lt_trichotomy r.lo s.lo with hlt | he | hlt
            · have he := heq r.lo
              rw [h.lookup_lo, h'.lookup_before hlt] at he
              simp at he
            · exact he
            · have he := heq s.lo
              rw [h'.lookup_lo, h.lookup_before hlt] at he
              simp at he
          have hval : r.val = s.val := by
            have he := heq r.lo
            rw [h.lookup_lo, hlo, h'.lookup_lo] at he
            exact Option.some.inj he
          have hhi : r.hi = s.hi := le_antisymm
            (head_hi_le h' hlo.symm hval.symm fun k => (heq k).symm)
            (head_hi_le h hlo hval heq)
          have hrs : r = s := by cases r; cases s; simp_all
          subst hrs
          rw [ih h.tail h'.tail]
          intro k
          by_cases hk : k ≤ r.hi
          · rw [h.ordered.lookup_tail_of_le hk, h'.ordered.lookup_tail_of_le hk]
          · have he := heq k
            rwa [lookupRuns_cons, lookupRuns_cons,
              if_neg (fun hc => hk hc.2), if_neg (fun hc => hk hc.2)] at he

section Coalesce

variable [DecidableEq V]

/-- Put a run in front of stored runs, joining it with the first one where they touch. -/
def glue (r : Run V) : List (Run V) → List (Run V)
  | [] => [r]
  | s :: l => if r.Touches s then ⟨r.lo, s.hi, r.val⟩ :: l else r :: s :: l

theorem glue_cons (r s : Run V) (l : List (Run V)) :
    glue r (s :: l) = if r.Touches s then ⟨r.lo, s.hi, r.val⟩ :: l else r :: s :: l := rfl

def coalesce (l : List (Run V)) : List (Run V) := l.foldr glue []

theorem lookupRuns_glue {r : Run V} {l : List (Run V)} (hr : r.lo ≤ r.hi)
    (hl : ∀ s ∈ l, s.lo ≤ s.hi) (k : ℕ) :
    lookupRuns (glue r l) k = lookupRuns (r :: l) k := by
  cases l with
  | nil => rfl
  | cons s l =>
      have hs := hl s List.mem_cons_self
      rw [glue_cons]
      split_ifs with ht
      · obtain ⟨hlo, hval⟩ := ht
        have hcov : Run.Covers ⟨r.lo, s.hi, r.val⟩ k ↔ r.Covers k ∨ s.Covers k := by
          simp only [Run.Covers]
          omega
        simp only [lookupRuns_cons, hcov, ← hval]
        split_ifs <;> simp_all
      · rfl

theorem glue_canonical {r : Run V} {l : List (Run V)} (hr : r.lo ≤ r.hi)
    (hl : Canonical l) (hlt : ∀ s ∈ l, r.hi < s.lo) : Canonical (glue r l) := by
  cases l with
  | nil => simpa [glue, Canonical] using hr
  | cons s l =>
      have hs := hl.1 s List.mem_cons_self
      have hrs := hlt s List.mem_cons_self
      rw [glue_cons]
      split_ifs with ht
      · refine ⟨?_, List.pairwise_cons.mpr ⟨?_, hl.2.tail⟩⟩
        · intro t hmem
          rcases List.mem_cons.mp hmem with rfl | hmem
          · change r.lo ≤ s.hi
            omega
          · exact hl.1 t (List.mem_cons_of_mem _ hmem)
        · intro t hmem
          have hb : s.Before t := List.rel_of_pairwise_cons hl.2 hmem
          exact ⟨hb.1, fun he => ht.2 ▸ hb.2 he⟩
      · refine ⟨?_, List.pairwise_cons.mpr ⟨?_, hl.2⟩⟩
        · intro t hmem
          rcases List.mem_cons.mp hmem with rfl | hmem
          · exact hr
          · exact hl.1 t hmem
        · intro t hmem
          rcases List.mem_cons.mp hmem with rfl | hmem
          · exact ⟨hrs, fun he hv => ht ⟨he, hv⟩⟩
          · have hb : s.Before t := List.rel_of_pairwise_cons hl.2 hmem
            have := hb.1
            exact ⟨by omega, fun he => by omega⟩

theorem mem_glue {r t : Run V} {l : List (Run V)} (ht : t ∈ glue r l) :
    t.lo = r.lo ∧ (t.hi = r.hi ∨ ∃ s ∈ l, t.hi = s.hi) ∧ t.val = r.val ∨ t ∈ l := by
  cases l with
  | nil => simp_all [glue]
  | cons s l =>
      rw [glue_cons] at ht
      split_ifs at ht
      · rcases List.mem_cons.mp ht with rfl | hmem
        · exact Or.inl ⟨rfl, Or.inr ⟨s, List.mem_cons_self, rfl⟩, rfl⟩
        · exact Or.inr (List.mem_cons_of_mem _ hmem)
      · rcases List.mem_cons.mp ht with rfl | hmem
        · exact Or.inl ⟨rfl, Or.inl rfl, rfl⟩
        · exact Or.inr hmem

/-- Every stored run starts where one of the given runs starts, with its value. -/
theorem mem_coalesce {l : List (Run V)} {t : Run V} (ht : t ∈ coalesce l) :
    (∃ r ∈ l, t.lo = r.lo ∧ t.val = r.val) ∧ ∃ r ∈ l, t.hi = r.hi := by
  induction l generalizing t with
  | nil => simp [coalesce] at ht
  | cons r l ih =>
      rcases mem_glue ht with ⟨hlo, hhi, hval⟩ | hmem
      · refine ⟨⟨r, List.mem_cons_self, hlo, hval⟩, ?_⟩
        rcases hhi with hhi | ⟨s, hs, hhi⟩
        · exact ⟨r, List.mem_cons_self, hhi⟩
        · obtain ⟨u, hu, he⟩ := (ih hs).2
          exact ⟨u, List.mem_cons_of_mem _ hu, hhi.trans he⟩
      · obtain ⟨⟨u, hu, he⟩, w, hw, he'⟩ := ih hmem
        exact ⟨⟨u, List.mem_cons_of_mem _ hu, he⟩, w, List.mem_cons_of_mem _ hw, he'⟩

/-- Coalescing ordered runs gives the stored form of the same partial function. -/
theorem coalesce_spec {l : List (Run V)} (h : Ordered l) :
    Canonical (coalesce l) ∧ ∀ k, lookupRuns (coalesce l) k = lookupRuns l k := by
  induction l with
  | nil => exact ⟨by simp [coalesce, Canonical], fun k => rfl⟩
  | cons r l ih =>
      obtain ⟨hcan, hlook⟩ := ih h.tail
      have hr := h.1 r List.mem_cons_self
      have hlt : ∀ s ∈ coalesce l, r.hi < s.lo := by
        intro s hs
        obtain ⟨t, ht, he, -⟩ := (mem_coalesce hs).1
        exact he ▸ List.rel_of_pairwise_cons h.2 ht
      refine ⟨glue_canonical hr hcan hlt, fun k => ?_⟩
      change lookupRuns (glue r (coalesce l)) k = _
      rw [lookupRuns_glue hr hcan.1, lookupRuns_cons, lookupRuns_cons, hlook]

end Coalesce

end GlrMask
