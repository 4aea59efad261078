import GlrMask.FloatExact

/-!
# Which float ranges are exact

The negative spellings of a range are the mirror image of the ones that are not negative.
A range that contains zero is never exact, since zero has a spelling with a sign. What
is left are positive or negative bounds with `ExactBetween`.
-/

namespace GlrMask

namespace NumericRange

open Regex (Pattern Atom group literal char range)
open Decimal

def WithinBounds (left right : Option Double) (li ri : Bool) (v : ℚ) : Prop :=
  (∀ l, left = some l → if li then l.value ≤ v else l.value < v) ∧
    ∀ r, right = some r → if ri then v ≤ r.value else v < r.value

/-- The bounds for which the pattern matches exactly the decimals in the range. -/
def FloatRangeExact (left right : Option Double) (li ri : Bool) : Prop :=
  match left, right with
  | none, none => True
  | some left, none => 0 < left.value ∧ li
  | none, some right => right.value < 0 ∧ ri
  | some left, some right =>
      0 < left.value ∧ ExactBetween left right li ri ∨
        right.value < 0 ∧ ExactBetween right.neg left.neg ri li

def Correct (s : Set Numeral) (P : ℚ → Prop) : Prop := ∀ x, x ∈ s ↔ P x.value

theorem Numeral.magnitude_nonneg (x : Numeral) : 0 ≤ x.magnitude :=
  add_nonneg (Nat.cast_nonneg _) (tenths_nonneg _)

theorem ExactSet.congr {s : Set (ℕ × Fraction)} {P Q : ℚ → Prop} (h : ∀ v, 0 ≤ v → (P v ↔ Q v)) :
    ExactSet s P ↔ ExactSet s Q := by
  have hnonneg : ∀ x : ℕ × Fraction, (0 : ℚ) ≤ (x.1 : ℚ) + tenths x.2 := fun x =>
    add_nonneg (Nat.cast_nonneg _) (tenths_nonneg _)
  constructor
  · intro hs x
    exact (hs x).trans (h _ (hnonneg x))
  · intro hs x
    exact (hs x).trans (h _ (hnonneg x)).symm

/-- The spellings without a sign. -/
theorem Correct.exactSet {s : Set Numeral} {t : Set (ℕ × Fraction)} {P : ℚ → Prop}
    (h : Correct s P) (ht : ∀ x : ℕ × Fraction, ⟨false, x.1, x.2⟩ ∈ s ↔ x ∈ t) : ExactSet t P := by
  intro x
  rw [← ht, h]
  rfl

/-- The spellings with a sign. -/
theorem Correct.exactSet_neg {s : Set Numeral} {t : Set (ℕ × Fraction)} {P : ℚ → Prop}
    (h : Correct s P) (ht : ∀ x : ℕ × Fraction, ⟨true, x.1, x.2⟩ ∈ s ↔ x ∈ t) :
    ExactSet t fun v => P (-v) := by
  intro x
  rw [← ht, h]
  rfl

theorem correct_plain {s : Set (ℕ × Fraction)} {P : ℚ → Prop} (hneg : ∀ v, v ≤ 0 → ¬ P v) :
    Correct (Plain s) P ↔ ExactSet s P := by
  constructor
  · intro h
    exact h.exactSet fun x => and_iff_right rfl
  · intro h x
    obtain ⟨negative, n, f⟩ := x
    cases negative with
    | true =>
      apply iff_of_false
      · exact fun hx => Bool.false_ne_true hx.1.symm
      · exact hneg _ (neg_nonpos.mpr (Numeral.magnitude_nonneg _))
    | false => exact (and_iff_right rfl).trans (h (n, f))

theorem correct_minus {s : Set (ℕ × Fraction)} {P : ℚ → Prop} (hpos : ∀ v, 0 ≤ v → ¬ P v) :
    Correct (Minus s) P ↔ ExactSet s fun v => P (-v) := by
  constructor
  · intro h
    exact h.exactSet_neg fun x => and_iff_right rfl
  · intro h x
    obtain ⟨negative, n, f⟩ := x
    cases negative with
    | false =>
      apply iff_of_false
      · exact fun hx => Bool.false_ne_true hx.1
      · exact hpos _ (Numeral.magnitude_nonneg _)
    | true => exact (and_iff_right rfl).trans (h (n, f))

theorem withinBounds_from {left : Double} {li ri : Bool} {v : ℚ} :
    WithinBounds (some left) none li ri v ↔ if li then left.value ≤ v else left.value < v := by
  simp [WithinBounds]

theorem withinBounds_to {right : Double} {li ri : Bool} {v : ℚ} :
    WithinBounds none (some right) li ri v ↔ if ri then v ≤ right.value else v < right.value := by
  simp [WithinBounds]

theorem withinBounds_between {left right : Double} {li ri : Bool} {v : ℚ} :
    WithinBounds (some left) (some right) li ri v ↔ InRange li ri left.value right.value v := by
  simp [WithinBounds, InRange]

theorem inRange_neg {li ri : Bool} {l r v : ℚ} :
    InRange li ri l r (-v) ↔ InRange ri li (-r) (-l) v := by
  unfold InRange
  rw [and_comm]
  apply and_congr
  · split_ifs
    · exact neg_le
    · exact neg_lt
  · split_ifs
    · exact le_neg
    · exact lt_neg

/-- The zero with a fraction is in no pattern that starts after zero. -/
theorem zero_fraction_not_matched (right : Double) (ri : Bool) :
    (0, [0]) ∉ matchedBetween .AllowIntegers zero right false ri := by
  rw [matchedBetween, Set.mem_ofPred_eq]
  split_ifs with hsame
  · intro h
    obtain h | h := h.2
    · change Between false ri (padded [] right.fraction) (padded right.fraction []) [0] at h
      cases hrf : right.fraction with
      | nil =>
        rw [hrf] at h
        exact h
      | cons r rf =>
        rw [hrf] at h
        change (if 0 = r then (0 : Fin 10) = 0 ∧ Between false ri (padded [] rf) _ [] else _) at h
        split_ifs at h with hr
        · exact Between.ne_nil h.2
        · obtain h | h | h := h
          · exact AtLeast.ne_nil (Or.inr Bool.false_ne_true) h.2
          · exact lt_irrefl _ h.1
          · exact hr h.1
    · exact List.cons_ne_nil _ _ h.2.2
  · intro h
    obtain ⟨-, h⟩ | h | ⟨h, -⟩ := h
    · exact not_endsNonzero_append_zero [] h
    · exact lt_irrefl _ h.1.1
    · exact hsame h

theorem tenths_zero : tenths [0] = 0 := tenths_append_zeros [] 1

theorem exactBetween_included {left right : Double} {li ri : Bool} (hl : 0 ≤ left.value)
    (heq : left.value = right.value) (hri : ri = true) : ¬ ExactBetween left right li ri := by
  obtain ⟨-, -, -, hleft⟩ := Double.text_of_nonneg hl
  obtain ⟨-, -, -, hright⟩ := Double.text_of_nonneg (hl.trans heq.le)
  have hinteger : left.integer = right.integer := by
    rw [hleft, hright] at heq
    exact (integer_add_tenths_eq_iff.mp heq).1
  intro h
  rw [ExactBetween, if_pos hinteger] at h
  exact h.2.1 hri

/-- The exact text of a bound does not match the text with one more zero. -/
theorem not_correct_exact (left : Double) {s : Set Numeral}
    (hs : ∀ x ∈ s, x = left.toNumeral) : ¬ Correct s (InRange true true left.value left.value) := by
  intro h
  have hvalue : Numeral.value ⟨left.negative, left.integer, left.fraction ++ [0]⟩ = left.value := by
    have hfraction : tenths (left.fraction ++ [0]) = tenths left.fraction :=
      tenths_append_zeros left.fraction 1
    simp only [Numeral.value, Numeral.magnitude, hfraction]
  have hmem := (h ⟨left.negative, left.integer, left.fraction ++ [0]⟩).mpr (by
    rw [hvalue]
    exact ⟨le_rfl, le_rfl⟩)
  have hfraction : left.fraction ++ [0] = left.fraction := congrArg Numeral.fraction (hs _ hmem)
  have hlength := congrArg List.length hfraction
  rw [List.length_append, List.length_singleton] at hlength
  omega

/-- Bounds on both sides of zero: the pattern starts after zero on the negative side. -/
theorem not_correct_across {left right : Double} {li ri : Bool} (hleft : left.value < 0)
    (hright : 0 ≤ right.value) :
    ¬ Correct (Minus (matchedBetween .AllowIntegers zero left.neg false li) ∪
        matchedTo .AllowIntegers right ri) (InRange li ri left.value right.value) := by
  intro h
  have hmem : ∀ x : ℕ × Fraction, (⟨true, x.1, x.2⟩ : Numeral) ∈
      Minus (matchedBetween .AllowIntegers zero left.neg false li) ∪
        matchedTo .AllowIntegers right ri ↔
      x ∈ matchedBetween .AllowIntegers zero left.neg false li := by
    intro x
    constructor
    · intro hx
      obtain hx | hx := hx
      · exact hx.2
      · exact absurd (negative_of_matchedTo _ hx).symm Bool.false_ne_true
    · intro hx
      exact Or.inl ⟨rfl, hx⟩
  have hexact := h.exactSet_neg hmem
  by_cases hpositive : 0 < right.value ∨ ri = true
  · have hin : InRange li ri left.value right.value 0 := by
      constructor
      · split_ifs
        · exact hleft.le
        · exact hleft
      · split_ifs with hri
        · exact hright
        · exact hpositive.resolve_right hri
    apply zero_fraction_not_matched left.neg li
    apply (hexact (0, [0])).mpr
    rw [tenths_zero, Nat.cast_zero, add_zero, neg_zero]
    exact hin
  · obtain ⟨hle, hri⟩ := not_or.mp hpositive
    have hzero : right.value = 0 := le_antisymm (not_lt.mp hle) hright
    have hfalse : ri = false := Bool.eq_false_of_not_eq_true hri
    have hneg : zero.value < left.neg.value := by
      rw [zero_value, Double.neg_value]
      exact neg_pos.mpr hleft
    have hrange : ExactSet (matchedBetween .AllowIntegers zero left.neg false li)
        (InRange false li zero.value left.neg.value) := by
      apply (ExactSet.congr fun v _ => _).mp hexact
      intro v _
      rw [inRange_neg, hzero, neg_zero, zero_value, Double.neg_value, hfalse]
    exact Bool.false_ne_true ((matchedBetween_exact_iff zero_value.ge hneg false li).mp hrange).1

theorem correct_bounded_iff {left right : Double} {li ri : Bool} {p : Text}
    (h : rx_bounded_float_range left right li ri = .ok p) :
    Correct (matchedBounded .AllowIntegers left right li ri)
        (WithinBounds (some left) (some right) li ri) ↔
      FloatRangeExact (some left) (some right) li ri := by
  have hwithin : WithinBounds (some left) (some right) li ri =
      InRange li ri left.value right.value := funext fun v => propext withinBounds_between
  rw [hwithin]
  unfold rx_bounded_float_range at h
  unfold FloatRangeExact
  dsimp only
  by_cases hgt : left.value > right.value
  · rw [if_pos hgt] at h
    cases h
  · rw [if_neg hgt] at h
    by_cases heq : left.value = right.value
    · rw [if_pos heq] at h
      split_ifs at h with hincl
      obtain ⟨rfl, rfl⟩ := hincl
      rw [matchedBounded, if_pos heq]
      apply iff_of_false
      · rw [← heq]
        exact not_correct_exact left fun x hx => hx.2.2.2
      · intro hcond
        obtain ⟨hpos, hcond⟩ | ⟨hneg, hcond⟩ := hcond
        · exact exactBetween_included hpos.le heq rfl hcond
        · have hr : 0 ≤ right.neg.value := by
            rw [Double.neg_value]
            exact neg_nonneg.mpr hneg.le
          have heq' : right.neg.value = left.neg.value := by
            rw [Double.neg_value, Double.neg_value, heq]
          exact exactBetween_included hr heq' rfl hcond
    · have hlt : left.value < right.value := lt_of_le_of_ne (not_lt.mp hgt) heq
      clear h
      unfold matchedBounded
      rw [if_neg heq]
      by_cases hleft : left.value < 0
      · rw [if_pos hleft]
        by_cases hright : right.value < 0
        · have hr : 0 ≤ right.neg.value := by
            rw [Double.neg_value]
            exact neg_nonneg.mpr hright.le
          have hless : right.neg.value < left.neg.value := by
            rw [Double.neg_value, Double.neg_value]
            exact neg_lt_neg hlt
          rw [if_pos hright, or_iff_right (fun hcond => hleft.not_gt hcond.1),
            and_iff_right hright, ← matchedBetween_exact_iff hr hless ri li]
          apply (correct_minus fun v hv hin => _).trans (ExactSet.congr fun v _ => _)
          · intro v hv hin
            have hupper := hin.2
            split_ifs at hupper
            · exact absurd (hv.trans hupper) (not_le.mpr hright)
            · exact absurd (hv.trans hupper.le) (not_le.mpr hright)
          · intro v _
            rw [inRange_neg, Double.neg_value, Double.neg_value]
        · rw [if_neg hright]
          apply iff_of_false (not_correct_across hleft (not_lt.mp hright))
          intro hcond
          obtain ⟨hpos, -⟩ | ⟨hneg, -⟩ := hcond
          · exact hleft.not_gt hpos
          · exact hright hneg
      · have hl : 0 ≤ left.value := not_lt.mp hleft
        have hright : ¬ right.value < 0 := (hl.trans hlt.le).not_gt
        rw [if_neg hleft, or_iff_left (fun hcond => hright hcond.1)]
        by_cases hpos : 0 < left.value
        · rw [and_iff_right hpos, ← matchedBetween_exact_iff hl hlt li ri]
          apply correct_plain
          intro v hv hin
          have hlower := hin.1
          split_ifs at hlower
          · exact absurd (hlower.trans hv) (not_le.mpr hpos)
          · exact absurd (hlower.le.trans hv) (not_le.mpr hpos)
        · have hzero : left.value = 0 := le_antisymm (not_lt.mp hpos) hl
          apply iff_of_false _ fun hcond => hpos hcond.1
          intro hcorrect
          cases li with
          | false =>
            have hexact := hcorrect.exactSet (t := matchedBetween .AllowIntegers left right false ri)
              fun x => and_iff_right rfl
            exact Bool.false_ne_true ((matchedBetween_exact_iff hl hlt false ri).mp hexact).1
          | true =>
            have hin : InRange true ri left.value right.value 0 := by
              constructor
              · rw [if_pos rfl, hzero]
              · rw [hzero] at hlt
                split_ifs
                · exact hlt.le
                · exact hlt
            have hmem := (hcorrect ⟨true, 0, []⟩).mpr (by
              have hvalue : Numeral.value ⟨true, 0, []⟩ = 0 := by
                simp [Numeral.value, Numeral.magnitude, tenths]
              rw [hvalue]
              exact hin)
            exact Bool.false_ne_true hmem.1.symm

/-- A fraction with a zero at its end is missed after zero is excluded. -/
theorem tenth_not_matched_from : (0, [1, 0]) ∉ matchedFrom .AllowIntegers zero false := by
  have hne : zero.integer ≠ (Double.ofNat (above zero)).integer := zero_lt_above.ne
  intro h
  obtain h | h := h
  · rw [matchedBetween, Set.mem_ofPred_eq, if_neg hne] at h
    obtain ⟨-, h⟩ | h | ⟨h, -⟩ := h
    · exact not_endsNonzero_append_zero [1] h
    · exact lt_irrefl _ h.1.1
    · exact hne h
  · exact absurd h.1 (not_le.mpr zero_lt_above)

/-- Below a bound that is not negative, `-0.10` is missed. -/
theorem not_correct_to {right : Double} {li ri : Bool} (hright : 0 ≤ right.value) {t : Set Numeral}
    (ht : ∀ x ∈ t, x.negative = false) :
    ¬ Correct (Minus (matchedFrom .AllowIntegers zero false) ∪ t)
      (WithinBounds none (some right) li ri) := by
  intro h
  have hvalue : Numeral.value ⟨true, 0, [1, 0]⟩ < 0 := by
    have hpos : 0 < tenths [1, 0] := tenths_lt_append []
    simp only [Numeral.value, Numeral.magnitude, if_true, Nat.cast_zero, zero_add]
    exact neg_neg_of_pos hpos
  have hmem := (h ⟨true, 0, [1, 0]⟩).mpr (by
    rw [withinBounds_to]
    split_ifs
    · exact hvalue.le.trans hright
    · exact hvalue.trans_le hright)
  obtain hmem | hmem := hmem
  · exact tenth_not_matched_from hmem.2
  · exact Bool.false_ne_true (ht _ hmem).symm

theorem correct_from_iff {left : Double} {li ri : Bool} {p : Text} (hleft : ¬ left.value < 0)
    (h : rx_float_range_from left li = .ok p) :
    Correct (Plain (matchedFrom .AllowIntegers left li)) (WithinBounds (some left) none li ri) ↔
      0 < left.value ∧ li := by
  have hl : 0 ≤ left.value := not_lt.mp hleft
  have hexact := matchedFrom_exact_iff hl (rx_float_range_from_lt hl h) li
  have hwithin : WithinBounds (some left) none li ri =
      fun v => if li then left.value ≤ v else left.value < v := funext fun v =>
    propext withinBounds_from
  rw [hwithin]
  by_cases hpos : 0 < left.value
  · rw [and_iff_right hpos]
    apply (correct_plain fun v hv hin => _).trans hexact
    intro v hv hin
    split_ifs at hin
    · exact absurd (hin.trans hv) (not_le.mpr hpos)
    · exact absurd (hin.le.trans hv) (not_le.mpr hpos)
  · have hzero : left.value = 0 := le_antisymm (not_lt.mp hpos) hl
    apply iff_of_false _ fun hcond => hpos hcond.1
    intro hcorrect
    have hli : li = true := hexact.mp (hcorrect.exactSet fun x => and_iff_right rfl)
    have hmem := (hcorrect ⟨true, 0, []⟩).mpr (by
      have hvalue : Numeral.value ⟨true, 0, []⟩ = 0 := by
        simp [Numeral.value, Numeral.magnitude, tenths]
      dsimp only
      rw [if_pos hli, hvalue, hzero])
    exact Bool.false_ne_true hmem.1.symm

theorem matched_correct_iff {left right : Option Double} {li ri : Bool} {p : Text}
    (h : rx_float_range left right li ri = .ok p) :
    Correct (matched .AllowIntegers left right li ri) (WithinBounds left right li ri) ↔
      FloatRangeExact left right li ri := by
  cases left with
  | none =>
    cases right with
    | none =>
      apply iff_of_true _ trivial
      intro x
      simp [matched, Allowed, WithinBounds]
    | some right =>
      unfold rx_float_range at h
      unfold matched FloatRangeExact
      dsimp only at h ⊢
      by_cases hzero : right.value = 0
      · rw [if_pos hzero]
        apply iff_of_false (not_correct_to hzero.ge fun x hx => hx.2.1)
        exact fun hcond => hcond.1.ne hzero
      · rw [if_neg hzero] at h ⊢
        split_ifs at h ⊢ with hpositive
        · apply iff_of_false (not_correct_to hpositive.le fun x hx => hx.1)
          exact fun hcond => lt_asymm hpositive hcond.1
        · obtain ⟨part, hpart, -⟩ := bind_eq_ok h
          have hnegative : right.value < 0 := lt_of_le_of_ne (not_lt.mp hpositive) hzero
          have hr : 0 ≤ right.neg.value := by
            rw [Double.neg_value]
            exact neg_nonneg.mpr hnegative.le
          have hexact := matchedFrom_exact_iff hr (rx_float_range_from_lt hr hpart) ri
          rw [and_iff_right hnegative]
          refine (correct_minus ?_).trans (Iff.trans (ExactSet.congr ?_) hexact)
          · intro v hv hin
            rw [withinBounds_to] at hin
            split_ifs at hin
            · exact absurd (hv.trans hin) (not_le.mpr hnegative)
            · exact absurd (hv.trans hin.le) (not_le.mpr hnegative)
          · intro v _
            rw [withinBounds_to, Double.neg_value]
            split_ifs
            · exact neg_le
            · exact neg_lt
  | some left =>
    cases right with
    | none =>
      unfold rx_float_range at h
      unfold matched FloatRangeExact
      dsimp only at h ⊢
      split_ifs at h ⊢ with hleft
      · apply iff_of_false _ fun hcond => hleft.not_gt hcond.1
        intro hcorrect
        have hvalue : Numeral.value ⟨true, 0, [0]⟩ = 0 := by
          simp only [Numeral.value, Numeral.magnitude, tenths_zero, if_true, Nat.cast_zero,
            add_zero, neg_zero]
        have hmem := (hcorrect ⟨true, 0, [0]⟩).mpr (by
          rw [withinBounds_from, hvalue]
          split_ifs
          · exact hleft.le
          · exact hleft)
        have hne : left.value ≠ zero.value := zero_value.symm ▸ hleft.ne
        rw [matchedBounded, if_neg hne, if_pos hleft, if_neg zero_value.ge.not_gt] at hmem
        obtain (hmem | hmem) | hmem := hmem
        · exact zero_fraction_not_matched left.neg li hmem.2
        · exact Bool.false_ne_true (negative_of_matchedTo _ hmem).symm
        · exact Bool.false_ne_true hmem.1.symm
      · exact correct_from_iff hleft h
    | some right => exact correct_bounded_iff h

/-- The pattern matches exactly the decimal spellings in the range. -/
def MatchesDecimals (p : Text) (left right : Option Double) (li ri : Bool) : Prop :=
  ∀ x : Numeral, x.text ∈ p.language ↔ WithinBounds left right li ri x.value

theorem rx_float_range_correct {left right : Option Double} {li ri : Bool} {p : Text}
    (h : rx_float_range left right li ri = .ok p) :
    MatchesDecimals p left right li ri ↔ FloatRangeExact left right li ri := by
  rw [← matched_correct_iff h, MatchesDecimals, (rx_float_range_denotes h).language_eq]
  simp only [text_mem_numerals]
  rfl

/-- The text of an included bound does not match it with a zero after the point. -/
theorem rx_float_range_one_to_one :
    ∃ p, rx_float_range (some (.ofNat 1)) (some (.ofNat 1)) true true = .ok p ∧
      ['1', '.', '0'] ∉ p.language ∧
      Numeral.text ⟨false, 1, [0]⟩ = ['1', '.', '0'] ∧
      WithinBounds (some (.ofNat 1)) (some (.ofNat 1)) true true (Numeral.value ⟨false, 1, [0]⟩) := by
  refine ⟨exact_float_regex (.ofNat 1), ?_, ?_, rfl, ?_⟩
  · rw [rx_float_range, rx_bounded_float_range, if_neg (lt_irrefl _), if_pos rfl]
    rfl
  · rw [(exact_float_regex_denotes _).language_eq]
    intro h
    have hmem : Numeral.text ⟨false, 1, [0]⟩ ∈ numerals {(Double.ofNat 1).toNumeral} := h
    rw [text_mem_numerals] at hmem
    exact List.cons_ne_nil _ _ (congrArg Numeral.fraction hmem)
  · have hvalue : Numeral.value ⟨false, 1, [0]⟩ = (Double.ofNat 1).value := by
      rw [Double.ofNat_value]
      simp only [Numeral.value, Numeral.magnitude, tenths_zero, Bool.false_eq_true, if_false,
        add_zero]
    rw [withinBounds_between, hvalue]
    exact ⟨le_rfl, le_rfl⟩

def quarter : Double := ⟨⟨⟨false, 0, [2, 5]⟩, by decide⟩, by decide⟩

def threeTenths : Double := ⟨⟨⟨false, 0, [3]⟩, by decide⟩, by decide⟩

theorem quarter_pos : 0 < quarter.value := by
  have hpos : 0 < tenths [2, 5] := tenths_pos_of_trimmed (by decide) (List.cons_ne_nil _ _)
  change 0 < ((0 : ℕ) : ℚ) + tenths [2, 5]
  exact add_pos_of_nonneg_of_pos (Nat.cast_nonneg _) hpos

theorem quarter_lt : quarter.value < threeTenths.value := by
  have hlt : tenths [2, 5] < tenths [3] := tenths_cons_lt_cons (by decide) _ _
  change ((0 : ℕ) : ℚ) + tenths [2, 5] < ((0 : ℕ) : ℚ) + tenths [3]
  exact integer_add_tenths_lt_iff.mpr (Or.inr ⟨rfl, hlt⟩)

/-- From a quarter up to three tenths. -/
theorem rx_float_range_quarter :
    ∃ p, rx_float_range (some quarter) (some threeTenths) true false = .ok p ∧
      MatchesDecimals p (some quarter) (some threeTenths) true false := by
  have hok : ∃ p, rx_float_range (some quarter) (some threeTenths) true false = .ok p := by
    rw [rx_float_range, rx_bounded_float_range, if_neg quarter_lt.not_gt, if_neg quarter_lt.ne,
      if_neg quarter_pos.not_gt]
    exact ⟨_, rfl⟩
  obtain ⟨p, hp⟩ := hok
  have hexact : ExactBetween quarter threeTenths true false := by
    have hinteger : quarter.integer = threeTenths.integer := rfl
    refine ⟨rfl, ?_⟩
    rw [if_pos hinteger]
    exact ⟨Bool.false_ne_true, List.nil_prefix, Or.inl (List.cons_ne_nil _ _).symm⟩
  exact ⟨p, hp, (rx_float_range_correct hp).mpr (Or.inl ⟨quarter_pos, hexact⟩)⟩

end NumericRange

end GlrMask
