import GlrMask.FloatMatched

/-!
# When a float range is exact

Between two bounds that are not negative the patterns miss spellings of three kinds:
those that end in a zero after an excluded left bound or an included right bound, and
those whose fraction ends before the first digit that decides. What remains is
`ExactBetween`.
-/

namespace GlrMask

namespace NumericRange

open Regex (Pattern Atom group literal char range)
open Decimal

def InRange (li ri : Bool) (left right v : ℚ) : Prop :=
  (if li then left ≤ v else left < v) ∧ if ri then v ≤ right else v < right

/-- The spellings of a set are those whose value has the property. -/
def ExactSet (s : Set (ℕ × Fraction)) (P : ℚ → Prop) : Prop :=
  ∀ x, x ∈ s ↔ P ((x.1 : ℚ) + tenths x.2)

/-- The bounds that are not negative for which every spelling in between is matched. -/
def ExactBetween (left right : Double) (li ri : Bool) : Prop :=
  li ∧ if left.integer = right.integer then
      ¬ ri ∧ right.fraction.dropLast <+: left.fraction ∧
        (right.fraction.dropLast ≠ left.fraction ∨ left.fraction = [])
    else right.fraction = [] ∨ ¬ ri ∧ right.fraction.length = 1

theorem tenths_pos {f : Fraction} (h : trimmed f ≠ []) : 0 < tenths f :=
  lt_of_le_of_ne (tenths_nonneg f) fun heq => h (trimmed_eq_nil_iff.mpr heq.symm)

theorem tenths_pos_of_trimmed {f : Fraction} (h : trimmed f = f) (hne : f ≠ []) : 0 < tenths f :=
  tenths_pos (by rwa [h])

theorem trimmed_of_cons {d : Fin 10} {f : Fraction} (h : trimmed (d :: f) = d :: f) :
    trimmed f = f := by
  rw [trimmed_cons] at h
  split_ifs at h
  exact (List.cons.inj h).2

theorem atLeast_iff {x : Fraction} (hx : trimmed x = x) (f : Fraction) :
    AtLeast true x f ↔ tenths x ≤ tenths f := by
  induction x generalizing f with
  | nil => exact iff_of_true trivial (tenths_nonneg f)
  | cons x xs ih =>
    cases f with
    | nil =>
      have hpos : 0 < tenths (x :: xs) := tenths_pos_of_trimmed hx (List.cons_ne_nil x xs)
      exact iff_of_false id (not_le.mpr hpos)
    | cons d f =>
      rw [AtLeast, ih (trimmed_of_cons hx)]
      obtain hlt | rfl | hlt := lt_trichotomy x d
      · exact iff_of_true (Or.inl hlt) (tenths_cons_lt_cons hlt _ _).le
      · rw [← not_lt, ← not_lt, tenths_cons_lt_iff]
        simp
      · apply iff_of_false
        · exact not_or.mpr ⟨hlt.not_gt, fun h => hlt.ne h.1⟩
        · exact not_le.mpr (tenths_cons_lt_cons hlt _ _)

theorem atLeast_append (incl : Bool) (x f : Fraction) :
    AtLeast incl x (x ++ f) ↔ AtLeast incl [] f := by
  induction x with
  | nil => rfl
  | cons x xs ih =>
    change x < x ∨ x = x ∧ AtLeast incl xs (xs ++ f) ↔ _
    rw [ih]
    simp

theorem atMost_append (incl : Bool) (x f : Fraction) :
    AtMost incl x (x ++ f) ↔ AtMost incl [] f := by
  induction x with
  | nil => rfl
  | cons x xs ih =>
    change x < x ∨ x = x ∧ AtMost incl xs (xs ++ f) ↔ _
    rw [ih]
    simp

/-- A fraction just above a bound, with a zero at its end. -/
theorem not_atLeast_append (x : Fraction) : ¬ AtLeast false x (x ++ [1, 0]) := by
  rw [atLeast_append]
  exact not_endsNonzero_append_zero [1]

theorem tenths_lt_append (x : Fraction) : tenths x < tenths (x ++ [1, 0]) := by
  have hpos : 0 < tenths [1, 0] := by
    simp only [tenths]
    norm_num
  rw [tenths_append]
  exact lt_add_of_pos_right _ (div_pos hpos (by positivity))

theorem not_atMost_append (x : Fraction) : ¬ AtMost true x (x ++ [0]) := by
  rw [atMost_append]
  intro h
  exact List.cons_ne_nil _ _ h.2

section parts

variable {lf rf : Fraction}

theorem lowerPart_exact_iff (hlf : trimmed lf = lf) (li : Bool) :
    (∀ f, LowerPart .AllowIntegers lf li f ↔
      if li then tenths lf ≤ tenths f else tenths lf < tenths f) ↔ li := by
  unfold LowerPart
  dsimp only
  cases li with
  | true =>
    apply iff_of_true _ rfl
    intro f
    rw [if_pos rfl]
    split_ifs with h
    · exact atLeast_iff hlf f
    · have hnil : lf = [] := not_not.mp (not_or.mp h).1
      rw [hnil]
      exact iff_of_true trivial (tenths_nonneg f)
  | false =>
    apply iff_of_false _ Bool.false_ne_true
    intro h
    have hf := (h (lf ++ [1, 0])).mpr (tenths_lt_append lf)
    rw [if_pos (Or.inr Bool.false_ne_true)] at hf
    exact not_atLeast_append lf hf

theorem upperPart_exact_iff (hrf : trimmed rf = rf) (ri : Bool) :
    (∀ f, UpperPart .AllowIntegers rf ri f ↔
      if ri then tenths f ≤ tenths rf else tenths f < tenths rf) ↔
      rf = [] ∨ ¬ ri ∧ rf.length = 1 := by
  unfold UpperPart
  cases rf with
  | nil =>
    apply iff_of_true _ (Or.inl rfl)
    intro f
    have hzero : tenths f ≤ 0 ↔ ∀ d ∈ f, d = 0 := by
      rw [← tenths_eq_zero_iff]
      exact ⟨fun h => le_antisymm h (tenths_nonneg f), le_of_eq⟩
    cases ri with
    | true =>
      simp only [ne_eq, not_true, false_or, true_and, and_true, if_false, if_true, tenths, hzero]
      constructor
      · intro h
        obtain rfl | h := h
        · exact fun d hd => absurd hd List.not_mem_nil
        · exact h.2
      · intro h
        by_cases hf : f = []
        · exact Or.inl hf
        · exact Or.inr ⟨hf, h⟩
    | false =>
      apply iff_of_false
      · simp
      · exact not_lt.mpr (tenths_nonneg f)
  | cons x xs =>
    have hne : x :: xs ≠ [] := List.cons_ne_nil x xs
    simp only [if_pos hne]
    cases ri with
    | true =>
      apply iff_of_false
      · intro h
        have hf := (h (x :: xs ++ [0])).mpr (tenths_append_zeros (x :: xs) 1).le
        obtain hf | hf := hf
        · exact List.cons_ne_nil _ _ hf.2.1
        · exact not_atMost_append _ hf
      · simp
    | false =>
      cases xs with
      | nil =>
        apply iff_of_true _ (Or.inr ⟨Bool.false_ne_true, rfl⟩)
        intro f
        cases f with
        | nil =>
          apply iff_of_true
          · exact Or.inl ⟨trivial, rfl, Or.inl hne⟩
          · exact tenths_pos_of_trimmed hrf hne
        | cons d f =>
          simp only [AtMost, Bool.false_eq_true, false_and, and_false, or_false, if_false,
            List.cons_ne_nil, false_or]
          obtain hlt | rfl | hlt := lt_trichotomy d x
          · exact iff_of_true hlt (tenths_cons_lt_cons hlt _ _)
          · rw [tenths_cons_lt_iff]
            exact iff_of_false (lt_irrefl _) (not_lt.mpr (tenths_nonneg f))
          · exact iff_of_false hlt.not_gt (tenths_cons_lt_cons hlt _ _).not_gt
      | cons y ys =>
        apply iff_of_false
        · intro h
          have hpos : 0 < tenths (y :: ys) :=
            tenths_pos_of_trimmed (trimmed_of_cons hrf) (List.cons_ne_nil y ys)
          have hf := (h [x]).mpr (tenths_cons_lt_iff.mpr hpos)
          obtain hf | hf := hf
          · exact List.cons_ne_nil _ _ hf.2.1
          · simp [AtMost] at hf
        · simp

end parts

section same

theorem first_difference {ld rd : Fraction} (hlength : ld.length = rd.length)
    (hlt : tenths ld < tenths rd) :
    ∃ q l ld' r rd', ld = q ++ l :: ld' ∧ rd = q ++ r :: rd' ∧ l < r := by
  induction ld generalizing rd with
  | nil =>
    rw [List.length_eq_zero_iff.mp hlength.symm] at hlt
    exact absurd hlt (lt_irrefl _)
  | cons l ld ih =>
    cases rd with
    | nil => cases hlength
    | cons r rd =>
      by_cases hlr : l = r
      · subst hlr
        obtain ⟨q, l', ld', r', rd', rfl, rfl, hless⟩ :=
          ih (Nat.succ_injective hlength) (tenths_cons_lt_iff.mp hlt)
        exact ⟨l :: q, l', ld', r', rd', rfl, rfl, hless⟩
      · exact ⟨[], l, ld, r, rd, rfl, rfl, first_digit_lt hlr hlt⟩

theorem between_append {li ri : Bool} (q ld rd f : Fraction) :
    Between li ri (q ++ ld) (q ++ rd) (q ++ f) ↔ Between li ri ld rd f := by
  induction q with
  | nil => rfl
  | cons c q ih =>
    change (if c = c then c = c ∧ Between li ri (q ++ ld) (q ++ rd) (q ++ f) else _) ↔ _
    rw [if_pos rfl, ih]
    simp

/-- A fraction that ends before the bounds differ is not matched. -/
theorem not_between_of_length_le {li ri : Bool} {q ld rd f : Fraction} (h : f.length ≤ q.length) :
    ¬ Between li ri (q ++ ld) (q ++ rd) f := by
  induction q generalizing f with
  | nil =>
    rw [List.length_eq_zero_iff.mp (Nat.le_zero.mp h)]
    exact Between.ne_nil
  | cons c q ih =>
    cases f with
    | nil => exact Between.ne_nil
    | cons d f =>
      intro hbetween
      change (if c = c then d = c ∧ Between li ri (q ++ ld) (q ++ rd) f else _) at hbetween
      rw [if_pos rfl] at hbetween
      exact ih (Nat.le_of_succ_le_succ h) hbetween.2

theorem between_cons {li ri : Bool} {l r d : Fin 10} {ld rd f : Fraction} (h : l < r) :
    Between li ri (l :: ld) (r :: rd) (d :: f) ↔
      d = l ∧ AtLeast li (trimmed ld) f ∨ l < d ∧ d < r ∨ d = r ∧ AtMost ri (trimmed rd) f := by
  rw [Between, if_neg h.ne]

/-- The values between two fractions. -/
def InFractions (li ri : Bool) (lf rf f : Fraction) : Prop :=
  (if li then tenths lf ≤ tenths f else tenths lf < tenths f) ∧
    if ri then tenths f ≤ tenths rf else tenths f < tenths rf

theorem inFractions_of_lt {li ri : Bool} {lf rf f : Fraction} (hl : tenths lf < tenths f)
    (hr : tenths f < tenths rf) : InFractions li ri lf rf f := by
  constructor
  · split_ifs
    · exact hl.le
    · exact hl
  · split_ifs
    · exact hr.le
    · exact hr

theorem tenths_append_lt_iff {q f g : Fraction} : tenths (q ++ f) < tenths (q ++ g) ↔
    tenths f < tenths g := by
  rw [tenths_append, tenths_append, add_lt_add_iff_left,
    div_lt_div_iff_of_pos_right (by positivity)]

theorem tenths_append_trimmed (q : Fraction) (d : Fin 10) (f : Fraction) :
    tenths (q ++ d :: trimmed f) = tenths (q ++ d :: f) := by
  rw [tenths_append, tenths_append, tenths, tenths, tenths_trimmed]

theorem length_padded (f g : Fraction) : (padded f g).length = max f.length g.length := by
  rw [padded, List.length_append, List.length_replicate]
  omega

theorem trimmed_padded {f : Fraction} (h : trimmed f = f) (g : Fraction) :
    trimmed (padded f g) = f := (trimmed_eq_iff.mpr (tenths_padded f g)).trans h

variable {lf rf q ld rd : Fraction} {l r : Fin 10}

theorem not_exact_of_excluded (hld : padded lf rf = q ++ l :: ld) (hrd : padded rf lf = q ++ r :: rd)
    (hlr : l < r) (ri : Bool) :
    ∃ f, InFractions false ri lf rf f ∧ ¬ SamePart .AllowIntegers lf rf false ri f := by
  refine ⟨q ++ l :: (trimmed ld ++ [1, 0]), inFractions_of_lt ?_ ?_, ?_⟩
  · rw [← tenths_padded lf rf, hld, ← tenths_append_trimmed, tenths_append_lt_iff,
      tenths_cons_lt_iff]
    exact tenths_lt_append _
  · rw [← tenths_padded rf lf, hrd, tenths_append_lt_iff]
    exact tenths_cons_lt_cons hlr _ _
  · rw [SamePart, hld, hrd, between_append, between_cons hlr]
    intro h
    obtain (h | h | h) | h := h
    · exact not_atLeast_append _ h.2
    · exact lt_irrefl _ h.1
    · exact hlr.ne h.1
    · exact List.append_ne_nil_of_right_ne_nil q (List.cons_ne_nil _ _) h.2.2

theorem not_exact_of_included (hld : padded lf rf = q ++ l :: ld) (hrd : padded rf lf = q ++ r :: rd)
    (hlr : l < r) (li : Bool) :
    ∃ f, InFractions li true lf rf f ∧ ¬ SamePart .AllowIntegers lf rf li true f := by
  have hvalue : tenths (q ++ r :: (trimmed rd ++ [0])) = tenths rf := by
    have happend : q ++ r :: (trimmed rd ++ [0]) = (q ++ r :: trimmed rd) ++ List.replicate 1 0 := by
      simp
    rw [happend, tenths_append_zeros, tenths_append_trimmed, ← hrd, tenths_padded]
  have hless : tenths lf < tenths rf := by
    rw [← tenths_padded lf rf, ← tenths_padded rf lf, hld, hrd, tenths_append_lt_iff]
    exact tenths_cons_lt_cons hlr _ _
  refine ⟨q ++ r :: (trimmed rd ++ [0]), ⟨?_, ?_⟩, ?_⟩
  · rw [hvalue]
    split_ifs
    · exact hless.le
    · exact hless
  · rw [if_pos rfl, hvalue]
  · rw [SamePart, hld, hrd, between_append, between_cons hlr]
    intro h
    obtain (h | h | h) | h := h
    · exact hlr.ne' h.1
    · exact lt_irrefl _ h.2
    · exact not_atMost_append _ h.2
    · exact List.append_ne_nil_of_right_ne_nil q (List.cons_ne_nil _ _) h.2.2

theorem not_exact_of_digits (hld : padded lf rf = q ++ l :: ld) (hrd : padded rf lf = q ++ r :: rd)
    (hlr : l < r) (hmore : trimmed rd ≠ []) (li : Bool) :
    ∃ f, InFractions li false lf rf f ∧ ¬ SamePart .AllowIntegers lf rf li false f := by
  refine ⟨q ++ [r], inFractions_of_lt ?_ ?_, ?_⟩
  · rw [← tenths_padded lf rf, hld, tenths_append_lt_iff]
    exact tenths_cons_lt_cons hlr _ _
  · rw [← tenths_padded rf lf, hrd, tenths_append_lt_iff, tenths_cons_lt_iff]
    exact tenths_pos hmore
  · rw [SamePart, hld, hrd, between_append, between_cons hlr]
    intro h
    obtain (h | h | h) | h := h
    · exact hlr.ne' h.1
    · exact lt_irrefl _ h.2
    · exact AtMost.ne_nil hmore h.2
    · exact List.append_ne_nil_of_right_ne_nil q (List.cons_ne_nil _ _) h.2.2

theorem not_exact_of_short (hld : padded lf rf = q ++ l :: ld) (hrd : padded rf lf = q ++ r :: rd)
    (hlr : l < r) (hq : q ≠ []) (hshort : lf.length ≤ q.length) (ri : Bool) :
    ∃ f, InFractions true ri lf rf f ∧ ¬ SamePart .AllowIntegers lf rf true ri f := by
  have hvalue : tenths q = tenths lf := by
    have hprefix : lf <+: q := List.prefix_of_prefix_length_le
      ⟨_, rfl⟩ (hld ▸ List.prefix_append q _) hshort
    obtain ⟨s, rfl⟩ := hprefix
    have hzeros : ∀ d ∈ s, d = 0 := by
      intro d hd
      have hmem : s ++ l :: ld = List.replicate (rf.length - lf.length) 0 := by
        rw [padded, List.append_assoc] at hld
        exact (List.append_cancel_left hld).symm
      exact List.eq_of_mem_replicate (hmem ▸ List.mem_append_left _ hd)
    rw [tenths_append, tenths_eq_zero_iff.mpr hzeros, zero_div, add_zero]
  have hless : tenths lf < tenths rf := by
    rw [← tenths_padded lf rf, ← tenths_padded rf lf, hld, hrd, tenths_append_lt_iff]
    exact tenths_cons_lt_cons hlr _ _
  refine ⟨q, ⟨?_, ?_⟩, ?_⟩
  · rw [if_pos rfl, hvalue]
  · rw [hvalue]
    split_ifs
    · exact hless.le
    · exact hless
  · rw [SamePart, hld, hrd]
    intro h
    obtain h | h := h
    · exact not_between_of_length_le le_rfl h
    · exact hq h.2.2

theorem trimmed_trimmed (f : Fraction) : trimmed (trimmed f) = trimmed f :=
  trimmed_eq_iff.mpr (tenths_trimmed f)

theorem between_cons_exact (hlr : l < r) (hmore : trimmed rd = []) (d : Fin 10) (f : Fraction) :
    Between true false (l :: ld) (r :: rd) (d :: f) ↔
      tenths (l :: ld) ≤ tenths (d :: f) ∧ tenths (d :: f) < tenths (r :: rd) := by
  have hzero : tenths rd = 0 := trimmed_eq_nil_iff.mp hmore
  have hmost : ¬ AtMost false (trimmed rd) f := by
    rw [hmore]
    exact fun h => Bool.false_ne_true h.1
  rw [between_cons hlr, atLeast_iff (trimmed_trimmed ld), tenths_trimmed]
  obtain hdl | rfl | hdl := lt_trichotomy d l
  · apply iff_of_false
    · intro h
      obtain h | h | h := h
      · exact hdl.ne h.1
      · exact hdl.not_gt h.1
      · exact hmost h.2
    · exact fun h => (tenths_cons_lt_cons hdl f ld).not_ge h.1
  · have hright := tenths_cons_lt_cons hlr f rd
    rw [← not_lt, ← not_lt, tenths_cons_lt_iff, and_iff_left hright]
    constructor
    · intro h
      obtain h | h | h := h
      · exact h.2
      · exact absurd h.1 (lt_irrefl _)
      · exact absurd h.2 hmost
    · intro h
      exact Or.inl ⟨rfl, h⟩
  · have hleft := (tenths_cons_lt_cons hdl ld f).le
    rw [and_iff_right hleft]
    obtain hdr | rfl | hdr := lt_trichotomy d r
    · exact iff_of_true (Or.inr (Or.inl ⟨hdl, hdr⟩)) (tenths_cons_lt_cons hdr _ _)
    · rw [tenths_cons_lt_iff, hzero]
      apply iff_of_false _ (not_lt.mpr (tenths_nonneg f))
      intro h
      obtain h | h | h := h
      · exact hdl.ne' h.1
      · exact lt_irrefl _ h.2
      · exact hmost h.2
    · apply iff_of_false _ (tenths_cons_lt_cons hdr _ _).not_gt
      intro h
      obtain h | h | h := h
      · exact hdl.ne' h.1
      · exact hdr.not_gt h.2
      · exact hdr.ne' h.1

theorem between_exact (hlr : l < r) (hmore : trimmed rd = []) (hpos : 0 < tenths (l :: ld))
    (q f : Fraction) :
    Between true false (q ++ l :: ld) (q ++ r :: rd) f ↔
      tenths (q ++ l :: ld) ≤ tenths f ∧ tenths f < tenths (q ++ r :: rd) := by
  induction q generalizing f with
  | nil =>
    cases f with
    | nil => exact iff_of_false Between.ne_nil fun h => hpos.not_ge h.1
    | cons d f => exact between_cons_exact hlr hmore d f
  | cons c q ih =>
    have hlower : 0 < tenths (c :: (q ++ l :: ld)) := by
      have hinner : 0 < tenths (q ++ l :: ld) := by
        rw [tenths_append]
        exact add_pos_of_nonneg_of_pos (tenths_nonneg q) (div_pos hpos (by positivity))
      rw [tenths]
      positivity
    cases f with
    | nil => exact iff_of_false Between.ne_nil fun h => hlower.not_ge h.1
    | cons d f =>
      change (if c = c then d = c ∧ Between true false (q ++ l :: ld) (q ++ r :: rd) f else _) ↔
        tenths (c :: (q ++ l :: ld)) ≤ tenths (d :: f) ∧
          tenths (d :: f) < tenths (c :: (q ++ r :: rd))
      rw [if_pos rfl, ih]
      obtain hlt | rfl | hlt := lt_trichotomy d c
      · exact iff_of_false (fun h => hlt.ne h.1)
          fun h => (tenths_cons_lt_cons hlt _ _).not_ge h.1
      · rw [tenths_cons_lt_iff, and_iff_right rfl, ← not_lt, ← not_lt, tenths_cons_lt_iff]
      · exact iff_of_false (fun h => hlt.ne' h.1)
          fun h => (tenths_cons_lt_cons hlt _ _).not_gt h.2

theorem parsesZero_iff {f : Fraction} (h : fractionNumber f < 10 ^ 17) :
    ParsesZero f ↔ tenths f = 0 := by
  have hvalue : signed_digits (fractionText f) = fractionNumber f := by
    rw [signed_digits_eq fun c hc => isDigit_of_mem_fractionText hc, ofDigitChars_fractionText,
      zero_mul, zero_add]
  have hrange : i64_min ≤ (fractionNumber f : ℤ) ∧ (fractionNumber f : ℤ) ≤ i64_max := by
    rw [i64_min, i64_max]
    omega
  rw [ParsesZero, parse_i64, hvalue, if_pos hrange, Option.getD_some, tenths_eq_number,
    div_eq_zero_iff, or_iff_left (by positivity), Nat.cast_eq_zero, Nat.cast_eq_zero]

theorem trimmed_append_cons (hr : r ≠ 0) (q rd : Fraction) :
    trimmed (q ++ r :: rd) = q ++ r :: trimmed rd := by
  induction q with
  | nil => rw [List.nil_append, List.nil_append, trimmed_cons, if_neg fun h => hr h.2]
  | cons c q ih =>
    have hne : q ++ r :: trimmed rd ≠ [] :=
      List.append_ne_nil_of_right_ne_nil q (List.cons_ne_nil _ _)
    rw [List.cons_append, trimmed_cons, ih, if_neg fun h => hne h.1, List.cons_append]

theorem trimmed_of_append {f : Fraction} (h : trimmed (q ++ f) = q ++ f) : trimmed f = f := by
  induction q with
  | nil => exact h
  | cons c q ih => exact ih (trimmed_of_cons h)

theorem right_eq (hrd : padded rf lf = q ++ r :: rd) (hlr : l < r) (hrf : trimmed rf = rf) :
    rf = q ++ r :: trimmed rd := by
  have hr : r ≠ 0 := ((Fin.zero_le l).trans_lt hlr).ne'
  rw [← trimmed_append_cons hr, ← hrd, trimmed_padded hrf]

/-- With a left bound that is longer than what the bounds share, or with nothing shared. -/
theorem samePart_exact (hld : padded lf rf = q ++ l :: ld) (hrd : padded rf lf = q ++ r :: rd)
    (hlr : l < r) (hmore : trimmed rd = []) (hq : q = [] ∨ q.length < lf.length)
    (hlf : trimmed lf = lf) (hrf : trimmed rf = rf) (hsmall : fractionNumber lf < 10 ^ 17)
    (f : Fraction) :
    SamePart .AllowIntegers lf rf true false f ↔ InFractions true false lf rf f := by
  have hin : InFractions true false lf rf f ↔
      tenths (q ++ l :: ld) ≤ tenths f ∧ tenths f < tenths (q ++ r :: rd) := by
    rw [InFractions, if_pos rfl, if_neg Bool.false_ne_true, ← tenths_padded lf rf,
      ← tenths_padded rf lf, hld, hrd]
  have hshort := right_eq hrd hlr hrf
  rw [hmore] at hshort
  rw [hin]
  unfold SamePart
  by_cases hnil : lf = []
  · have hq0 : q = [] := by
      obtain hq | hq := hq
      · exact hq
      · rw [hnil] at hq
        exact absurd hq (Nat.not_lt_zero _)
    subst hnil hq0 hshort
    obtain ⟨rfl, rfl⟩ := List.cons.inj hld
    have hleft : padded [] ([] ++ [r]) = [0] := rfl
    have hzero : tenths [0] = 0 := tenths_append_zeros [] 1
    have hparses : ParsesZero [0] := (parsesZero_iff (by decide)).mpr hzero
    rw [hrd, hleft]
    change (Between true false [0] (r :: rd) f ∨ _ ∧ ParsesZero [0] ∧ f = []) ↔
      tenths [0] ≤ tenths f ∧ tenths f < tenths (r :: rd)
    cases f with
    | nil =>
      apply iff_of_true (Or.inr ⟨rfl, hparses, rfl⟩)
      have hpos := tenths_cons_lt_cons hlr [] rd
      rw [hzero] at hpos
      exact ⟨hzero.le, hpos⟩
    | cons d f =>
      rw [← between_cons_exact hlr hmore]
      exact or_iff_left fun h => List.cons_ne_nil _ _ h.2.2
  · have hpadded : padded lf rf = lf := by
      have hzero : rf.length - lf.length = 0 := by
        have hpos := List.length_pos_iff.mpr hnil
        rw [hshort, List.length_append, List.length_singleton]
        obtain rfl | hq := hq
        · rw [List.length_nil]
          omega
        · omega
      rw [padded, hzero, List.replicate_zero, List.append_nil]
    have hparses : ¬ ParsesZero (padded lf rf) := by
      rw [hpadded, parsesZero_iff hsmall]
      exact (tenths_pos_of_trimmed hlf hnil).ne'
    have hpos : 0 < tenths (l :: ld) := by
      rw [hpadded] at hld
      rw [hld] at hlf
      exact tenths_pos_of_trimmed (trimmed_of_append hlf) (List.cons_ne_nil l ld)
    rw [hld, hrd, between_exact hlr hmore hpos]
    rw [hld] at hparses
    exact or_iff_left fun h => hparses h.2.1

/-- The part of the condition about bounds with the same integer part. -/
theorem same_condition_iff (hld : padded lf rf = q ++ l :: ld) (hrd : padded rf lf = q ++ r :: rd)
    (hlr : l < r) (hrf : trimmed rf = rf) :
    rf.dropLast <+: lf ∧ (rf.dropLast ≠ lf ∨ lf = []) ↔
      trimmed rd = [] ∧ (q = [] ∨ q.length < lf.length) := by
  have hshort := right_eq hrd hlr hrf
  have hprefix : lf <+: q ++ l :: ld := hld ▸ List.prefix_append lf _
  constructor
  · intro h
    obtain ⟨hdrop, hne⟩ := h
    have hmore : trimmed rd = [] := by
      by_contra hmore
      have hlonger : q ++ [r] <+: rf.dropLast := by
        rw [hshort, List.dropLast_append_cons, List.dropLast_cons_of_ne_nil hmore]
        exact ⟨(trimmed rd).dropLast, by simp⟩
      obtain ⟨s, hs⟩ := hlonger.trans (hdrop.trans hprefix)
      rw [List.append_assoc] at hs
      exact hlr.ne' (List.cons.inj (List.append_cancel_left hs)).1
    rw [hmore] at hshort
    refine ⟨hmore, ?_⟩
    rw [hshort, List.dropLast_concat] at hdrop hne
    obtain hne | hnil := hne
    · right
      exact lt_of_le_of_ne hdrop.length_le fun heq => hne (hdrop.eq_of_length heq)
    · left
      rw [hnil] at hdrop
      exact List.prefix_nil.mp hdrop
  · intro h
    obtain ⟨hmore, hq⟩ := h
    rw [hmore] at hshort
    rw [hshort, List.dropLast_concat]
    obtain rfl | hq := hq
    · exact ⟨List.nil_prefix, (em _).symm.imp_left fun h heq => h heq.symm⟩
    · refine ⟨List.prefix_of_prefix_length_le (List.prefix_append q _) hprefix hq.le, ?_⟩
      exact Or.inl fun heq => hq.ne (congrArg List.length heq)

theorem samePart_exact_iff (hlf : trimmed lf = lf) (hrf : trimmed rf = rf)
    (hsmall : fractionNumber lf < 10 ^ 17) (hlt : tenths lf < tenths rf) (li ri : Bool) :
    (∀ f, SamePart .AllowIntegers lf rf li ri f ↔ InFractions li ri lf rf f) ↔
      li ∧ ¬ ri ∧ rf.dropLast <+: lf ∧ (rf.dropLast ≠ lf ∨ lf = []) := by
  have hlength : (padded lf rf).length = (padded rf lf).length := by
    rw [length_padded, length_padded, max_comm]
  obtain ⟨q, l, ld, r, rd, hld, hrd, hlr⟩ := first_difference hlength
    (by rwa [tenths_padded, tenths_padded])
  rw [same_condition_iff hld hrd hlr hrf]
  cases li with
  | false =>
    apply iff_of_false _ fun h => Bool.false_ne_true h.1
    intro h
    obtain ⟨f, hin, hout⟩ := not_exact_of_excluded hld hrd hlr ri
    exact hout ((h f).mpr hin)
  | true =>
    cases ri with
    | true =>
      apply iff_of_false _ fun h => h.2.1 rfl
      intro h
      obtain ⟨f, hin, hout⟩ := not_exact_of_included hld hrd hlr true
      exact hout ((h f).mpr hin)
    | false =>
      constructor
      · intro h
        refine ⟨rfl, Bool.false_ne_true, ?_, ?_⟩
        · by_contra hmore
          obtain ⟨f, hin, hout⟩ := not_exact_of_digits hld hrd hlr hmore true
          exact hout ((h f).mpr hin)
        · by_contra hq
          obtain ⟨hne, hle⟩ := not_or.mp hq
          obtain ⟨f, hin, hout⟩ := not_exact_of_short hld hrd hlr hne (not_lt.mp hle) false
          exact hout ((h f).mpr hin)
      · intro h
        obtain ⟨-, -, hmore, hq⟩ := h
        exact samePart_exact hld hrd hlr hmore hq hlf hrf hsmall

end same

theorem integer_add_tenths_le_iff {m n : ℕ} {f g : Fraction} :
    (m : ℚ) + tenths f ≤ n + tenths g ↔ m < n ∨ m = n ∧ tenths f ≤ tenths g := by
  rw [← not_lt, integer_add_tenths_lt_iff, ← not_lt]
  by_cases h : m = n
  · simp [h]
  · simp only [h, Ne.symm h, false_and, or_false]
    omega

theorem inRange_iff {left right : Double} {li ri : Bool} (hl : 0 ≤ left.value)
    (hr : 0 ≤ right.value) (n : ℕ) (f : Fraction) :
    InRange li ri left.value right.value ((n : ℚ) + tenths f) ↔
      (left.integer < n ∨ left.integer = n ∧
        if li then tenths left.fraction ≤ tenths f else tenths left.fraction < tenths f) ∧
      (n < right.integer ∨ n = right.integer ∧
        if ri then tenths f ≤ tenths right.fraction else tenths f < tenths right.fraction) := by
  obtain ⟨-, -, -, hleft⟩ := Double.text_of_nonneg hl
  obtain ⟨-, -, -, hright⟩ := Double.text_of_nonneg hr
  rw [InRange, hleft, hright, Numeral.magnitude, Numeral.magnitude]
  apply and_congr
  · split_ifs
    · exact integer_add_tenths_le_iff
    · exact integer_add_tenths_lt_iff
  · split_ifs
    · exact integer_add_tenths_le_iff
    · exact integer_add_tenths_lt_iff

theorem matchedBetween_exact_iff {left right : Double} (hl : 0 ≤ left.value)
    (hlt : left.value < right.value) (li ri : Bool) :
    ExactSet (matchedBetween .AllowIntegers left right li ri)
      (InRange li ri left.value right.value) ↔ ExactBetween left right li ri := by
  have hr : 0 ≤ right.value := hl.trans hlt.le
  have hcases := (Double.lt_iff hl hr).mp hlt
  unfold ExactBetween
  by_cases hsame : left.integer = right.integer
  · have htenths : tenths left.fraction < tenths right.fraction := by
      obtain hless | hless := hcases
      · omega
      · exact hless.2
    rw [if_pos hsame, ← samePart_exact_iff left.shortest right.shortest left.significant htenths]
    constructor
    · intro h f
      have hx := h (left.integer, f)
      rw [matchedBetween, Set.mem_ofPred_eq, if_pos hsame, inRange_iff hl hr, ← hsame] at hx
      simpa [InFractions] using hx
    · intro h x
      have hx := h x.2
      rw [matchedBetween, Set.mem_ofPred_eq, if_pos hsame, inRange_iff hl hr, ← hsame, hx,
        InFractions]
      constructor
      · intro hmem
        exact ⟨Or.inr ⟨hmem.1.symm, hmem.2.1⟩, Or.inr ⟨hmem.1, hmem.2.2⟩⟩
      · intro hmem
        obtain ⟨hlow | hlow, hhigh | hhigh⟩ := hmem
        · omega
        · omega
        · omega
        · exact ⟨hhigh.1, hlow.2, hhigh.2⟩
  · have hless : left.integer < right.integer := by omega
    rw [if_neg hsame, ← lowerPart_exact_iff left.shortest li,
      ← upperPart_exact_iff right.shortest ri]
    have hmem : ∀ x : ℕ × Fraction, x ∈ matchedBetween .AllowIntegers left right li ri ↔
        x.1 = left.integer ∧ LowerPart .AllowIntegers left.fraction li x.2 ∨
        (left.integer < x.1 ∧ x.1 < right.integer) ∨
        x.1 = right.integer ∧ UpperPart .AllowIntegers right.fraction ri x.2 := by
      intro x
      rw [matchedBetween, Set.mem_ofPred_eq, if_neg hsame]
      simp only [true_or, and_true]
    constructor
    · intro h
      constructor
      · intro f
        have hx := h (left.integer, f)
        rw [hmem, inRange_iff hl hr] at hx
        simpa [hless, hsame] using hx
      · intro f
        have hx := h (right.integer, f)
        rw [hmem, inRange_iff hl hr] at hx
        simpa [hless, Ne.symm hsame] using hx
    · intro h x
      rw [hmem, inRange_iff hl hr, h.1, h.2]
      constructor
      · intro hx
        obtain ⟨heq, hx⟩ | hx | ⟨heq, hx⟩ := hx
        · exact ⟨Or.inr ⟨heq.symm, hx⟩, Or.inl (heq ▸ hless)⟩
        · exact ⟨Or.inl hx.1, Or.inl hx.2⟩
        · exact ⟨Or.inl (heq ▸ hless), Or.inr ⟨heq, hx⟩⟩
      · intro hx
        obtain ⟨hlow | ⟨heq, hlow⟩, hhigh | ⟨heq', hhigh⟩⟩ := hx
        · exact Or.inr (Or.inl ⟨hlow, hhigh⟩)
        · exact Or.inr (Or.inr ⟨heq', hhigh⟩)
        · exact Or.inl ⟨heq.symm, hlow⟩
        · exact absurd (heq.trans heq') hsame

/-- All numbers from a left bound on. -/
theorem matchedFrom_exact_iff {left : Double} (hl : 0 ≤ left.value)
    (hlt : left.value < (Double.ofNat (above left)).value) (li : Bool) :
    ExactSet (matchedFrom .AllowIntegers left li)
      (fun v => if li then left.value ≤ v else left.value < v) ↔ li := by
  have hlt' := integer_lt_above hl hlt
  have hne : left.integer ≠ (Double.ofNat (above left)).integer := hlt'.ne
  have hexact : ExactBetween left (.ofNat (above left)) li false ↔ li := by
    rw [ExactBetween, if_neg hne]
    exact and_iff_left (Or.inl rfl)
  refine Iff.trans ?_ ((matchedBetween_exact_iff hl hlt li false).trans hexact)
  have hset : ∀ x : ℕ × Fraction, x ∈ matchedFrom .AllowIntegers left li ↔
      x ∈ matchedBetween .AllowIntegers left (.ofNat (above left)) li false ∨ above left ≤ x.1 := by
    intro x
    simp only [matchedFrom, Set.mem_union, Set.mem_ofPred_eq, Allowed, true_or, and_true]
  have hrange : ∀ x : ℕ × Fraction,
      InRange li false left.value (Double.ofNat (above left)).value ((x.1 : ℚ) + tenths x.2) ↔
        (if li then left.value ≤ (x.1 : ℚ) + tenths x.2 else left.value < (x.1 : ℚ) + tenths x.2) ∧
          x.1 < above left := by
    intro x
    have hupper : (x.1 : ℚ) + tenths x.2 < (Double.ofNat (above left)).value ↔ x.1 < above left := by
      have hvalue : (Double.ofNat (above left)).value = (above left : ℕ) + tenths [] := rfl
      rw [hvalue, integer_add_tenths_lt_iff]
      exact or_iff_left fun h => (tenths_nonneg x.2).not_gt h.2
    rw [InRange, if_neg Bool.false_ne_true, hupper]
  have habove : ∀ x : ℕ × Fraction, above left ≤ x.1 →
      if li then left.value ≤ (x.1 : ℚ) + tenths x.2 else left.value < (x.1 : ℚ) + tenths x.2 := by
    intro x hx
    have hless : left.value < (x.1 : ℚ) + tenths x.2 := by
      have hcast : ((above left : ℕ) : ℚ) ≤ x.1 := Nat.cast_le.mpr hx
      rw [Double.ofNat_value] at hlt
      have := tenths_nonneg x.2
      linarith
    split_ifs
    · exact hless.le
    · exact hless
  constructor
  · intro h x
    rw [hrange]
    constructor
    · intro hx
      exact ⟨(h x).mp ((hset x).mpr (Or.inl hx)), lt_above_of_mem hlt' hx⟩
    · intro hx
      obtain hmem | hle := (hset x).mp ((h x).mpr hx.1)
      · exact hmem
      · exact absurd hx.2 (not_lt.mpr hle)
  · intro h x
    rw [hset, h x, hrange]
    constructor
    · intro hx
      obtain hx | hle := hx
      · exact hx.1
      · exact habove x hle
    · intro hx
      by_cases hle : above left ≤ x.1
      · exact Or.inr hle
      · exact Or.inl ⟨hx, not_le.mp hle⟩

end NumericRange

end GlrMask
