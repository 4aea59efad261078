import GlrMask.FloatMatched

/-!
# The spellings with a point

The two float range functions agree on the spellings with a point, except where an
integer is an excluded left bound and the right bound has another integer part: there
one of them asks for a last digit that is not zero and the other for any digits.
-/

namespace GlrMask

namespace NumericRange

open Regex (Pattern Atom group literal char range)
open Decimal

/-- The first set has the members of the second that have a fraction. -/
def Agree (s t : Set (ℕ × Fraction)) : Prop := ∀ x, x ∈ s ↔ x ∈ t ∧ x.2 ≠ []

def AgreeNumerals (s t : Set Numeral) : Prop := ∀ x, x ∈ s ↔ x ∈ t ∧ x.fraction ≠ []

/-- The left bound is not an excluded integer, or the integer parts are the same. -/
def AgreeBetween (left right : Double) (li : Bool) : Prop :=
  li ∨ left.fraction ≠ [] ∨ left.integer = right.integer

/-- The bounds at which both functions match the same spellings with a point. -/
def SameNonIntegers (left right : Option Double) (li ri : Bool) : Prop :=
  match left, right with
  | none, none => True
  | some left, none =>
      if left.value < 0 then left.integer = 0 else li ∨ left.fraction ≠ []
  | none, some right => right.value < 0 ∧ (ri ∨ right.fraction ≠ [])
  | some left, some right =>
      left.value = right.value ∨
        if left.value < 0 then
          if right.value < 0 then AgreeBetween right.neg left.neg ri else left.integer = 0
        else AgreeBetween left right li

theorem samePart_agree (lf rf : Fraction) (li ri : Bool) (f : Fraction) :
    SamePart .FractionOnly lf rf li ri f ↔ SamePart .AllowIntegers lf rf li ri f ∧ f ≠ [] := by
  have hne : Between li ri (padded lf rf) (padded rf lf) f → f ≠ [] := by
    intro h hnil
    rw [hnil] at h
    exact Between.ne_nil h
  simp only [SamePart, reduceCtorEq, false_and, or_false, true_and]
  constructor
  · intro h
    exact ⟨Or.inl h, hne h⟩
  · intro h
    obtain ⟨h | h, hf⟩ := h
    · exact h
    · exact absurd h.2 hf

theorem upperPart_agree (rf : Fraction) (ri : Bool) (f : Fraction) :
    UpperPart .FractionOnly rf ri f ↔ UpperPart .AllowIntegers rf ri f ∧ f ≠ [] := by
  have hne : (if rf ≠ [] then AtMost ri rf f else ri ∧ f ≠ [] ∧ ∀ d ∈ f, d = 0) → f ≠ [] := by
    intro h
    split_ifs at h with hrf
    · intro hnil
      rw [hnil] at h
      exact AtMost.ne_nil hrf h
    · exact h.2.1
  unfold UpperPart
  constructor
  · intro h
    obtain h | h := h
    · cases h.1
    · exact ⟨Or.inr h, hne h⟩
  · intro h
    obtain ⟨h | h, hf⟩ := h
    · exact absurd h.2.1 hf
    · exact Or.inr h

theorem lowerPart_agree {lf : Fraction} {li : Bool} (h : li ∨ lf ≠ []) (f : Fraction) :
    LowerPart .FractionOnly lf li f ↔ LowerPart .AllowIntegers lf li f ∧ f ≠ [] := by
  unfold LowerPart
  dsimp only
  by_cases hlf : lf ≠ []
  · rw [if_pos hlf, if_pos (Or.inl hlf)]
    constructor
    · intro hf
      refine ⟨hf, fun hnil => ?_⟩
      rw [hnil] at hf
      exact AtLeast.ne_nil (Or.inl hlf) hf
    · exact And.left
  · have hli : li = true := h.resolve_right hlf
    rw [if_neg hlf, if_neg (not_or.mpr ⟨hlf, not_not.mpr hli⟩), true_and]

theorem agree_between {left right : Double} {li ri : Bool} :
    Agree (matchedBetween .FractionOnly left right li ri)
      (matchedBetween .AllowIntegers left right li ri) ↔ AgreeBetween left right li := by
  constructor
  · intro hagree
    by_contra hnot
    obtain ⟨hli, hnot⟩ := not_or.mp hnot
    obtain ⟨hlf, hne⟩ := not_or.mp hnot
    have hlower := hagree (left.integer, [0])
    simp only [matchedBetween, Set.mem_ofPred_eq, true_and, lt_irrefl, false_and, hne, or_false,
      LowerPart, hli, not_not.mp hlf] at hlower
    exact not_endsNonzero_append_zero [] (hlower.mp (List.cons_ne_nil _ _)).1
  · intro hcond x
    unfold matchedBetween
    rw [Set.mem_ofPred_eq, Set.mem_ofPred_eq]
    by_cases hsame : left.integer = right.integer
    · rw [if_pos hsame, if_pos hsame, samePart_agree, and_assoc]
    · have hlf : li ∨ left.fraction ≠ [] := by
        obtain hli | hlf | heq := hcond
        · exact Or.inl hli
        · exact Or.inr hlf
        · exact absurd heq hsame
      rw [if_neg hsame, if_neg hsame, lowerPart_agree hlf, upperPart_agree]
      simp only [reduceCtorEq, false_or, true_or, and_true]
      tauto

theorem agree_from {left : Double} {li : Bool} (h : left.integer < above left) :
    Agree (matchedFrom .FractionOnly left li) (matchedFrom .AllowIntegers left li) ↔
      li ∨ left.fraction ≠ [] := by
  have hbetween : AgreeBetween left (.ofNat (above left)) li ↔ li ∨ left.fraction ≠ [] := by
    have hne : left.integer ≠ (Double.ofNat (above left)).integer := h.ne
    simp only [AgreeBetween, hne, or_false]
  rw [← hbetween, ← @agree_between _ _ _ false]
  -- The numbers above the power of ten are the same on both sides.
  have hright : ∀ mode, ∀ x ∈ matchedBetween mode left (.ofNat (above left)) li false,
      x.1 < above left := fun mode x hx => lt_above_of_mem h hx
  have hmode : ∀ x : ℕ × Fraction, Allowed .FractionOnly x.2 ↔ x.2 ≠ [] := by
    intro x
    simp [Allowed]
  constructor
  · intro hagree x
    have hx := hagree x
    simp only [matchedFrom, Set.mem_union, Set.mem_ofPred_eq] at hx
    constructor
    · intro hmem
      have hlt := hright _ x hmem
      obtain ⟨hmem' | hmem', hf⟩ := hx.mp (Or.inl hmem)
      · exact ⟨hmem', hf⟩
      · omega
    · intro hmem
      have hlt := hright _ x hmem.1
      obtain hmem' | hmem' := hx.mpr ⟨Or.inl hmem.1, hmem.2⟩
      · exact hmem'
      · omega
  · intro hagree x
    have hx := hagree x
    simp only [matchedFrom, Set.mem_union, Set.mem_ofPred_eq, hx, hmode]
    have hallow : Allowed .AllowIntegers x.2 := Or.inl rfl
    tauto

theorem agree_plain {s t : Set (ℕ × Fraction)} : AgreeNumerals (Plain s) (Plain t) ↔ Agree s t := by
  constructor
  · intro h x
    have hx := h ⟨false, x.1, x.2⟩
    simpa [Plain] using hx
  · intro h x
    have hx := h (x.integer, x.fraction)
    simp only [Plain, Set.mem_ofPred_eq, hx, and_assoc]

theorem agree_minus {s t : Set (ℕ × Fraction)} : AgreeNumerals (Minus s) (Minus t) ↔ Agree s t := by
  constructor
  · intro h x
    have hx := h ⟨true, x.1, x.2⟩
    simpa [Minus] using hx
  · intro h x
    have hx := h (x.integer, x.fraction)
    simp only [Minus, Set.mem_ofPred_eq, hx, and_assoc]

theorem agree_of_union {s t : Set (ℕ × Fraction)} {s' t' : Set Numeral}
    (hs : ∀ x ∈ s', x.negative = false) (ht : ∀ x ∈ t', x.negative = false)
    (h : AgreeNumerals (Minus s ∪ s') (Minus t ∪ t')) : Agree s t := by
  rw [← agree_minus]
  intro x
  have hx := h x
  rw [Set.mem_union, Set.mem_union] at hx
  constructor
  · intro hmem
    obtain ⟨hmem' | hmem', hf⟩ := hx.mp (Or.inl hmem)
    · exact ⟨hmem', hf⟩
    · exact absurd (hmem.1.symm.trans (ht x hmem')) (by decide)
  · intro hmem
    obtain hmem' | hmem' := hx.mpr ⟨Or.inl hmem.1, hmem.2⟩
    · exact hmem'
    · exact absurd (hmem.1.1.symm.trans (hs x hmem')) (by decide)

theorem AgreeNumerals.union {s t s' t' : Set Numeral} (h : AgreeNumerals s t)
    (h' : AgreeNumerals s' t') : AgreeNumerals (s ∪ s') (t ∪ t') := by
  intro x
  rw [Set.mem_union, Set.mem_union, h x, h' x, or_and_right]

/-- The two signs are compared separately. -/
theorem agree_union {s t : Set (ℕ × Fraction)} {s' t' : Set Numeral}
    (hs : ∀ x ∈ s', x.negative = false) (ht : ∀ x ∈ t', x.negative = false)
    (h : AgreeNumerals s' t') :
    AgreeNumerals (Minus s ∪ s') (Minus t ∪ t') ↔ Agree s t := by
  constructor
  · exact agree_of_union hs ht
  · intro hagree
    exact (agree_minus.mpr hagree).union h

theorem agree_to (right : Double) (ri : Bool) :
    AgreeNumerals (matchedTo .FractionOnly right ri) (matchedTo .AllowIntegers right ri) := by
  unfold matchedTo
  split_ifs with hzero
  · intro x
    simp only [Set.mem_ofPred_eq, Allowed, reduceCtorEq, ne_eq, not_true, or_self, false_and,
      and_false, false_iff]
    intro hx
    exact hx.2 (by rw [hx.1.2.2])
  · exact agree_plain.mpr (agree_between.mpr (Or.inl rfl))

theorem agree_bounded {left right : Double} {li ri : Bool} :
    AgreeNumerals (matchedBounded .FractionOnly left right li ri)
        (matchedBounded .AllowIntegers left right li ri) ↔
      SameNonIntegers (some left) (some right) li ri := by
  unfold matchedBounded SameNonIntegers
  dsimp only
  by_cases heq : left.value = right.value
  · rw [if_pos heq, if_pos heq]
    apply iff_of_true _ (Or.inl heq)
    intro x
    simp only [Set.mem_ofPred_eq, Allowed, reduceCtorEq, false_or, true_or, true_and]
    tauto
  · rw [if_neg heq, if_neg heq, or_iff_right heq]
    split_ifs with hleft hright
    · exact agree_minus.trans agree_between
    · apply (agree_union negative_of_matchedTo negative_of_matchedTo (agree_to right ri)).trans
      apply agree_between.trans
      rw [AgreeBetween]
      change false = true ∨ ([] : Fraction) ≠ [] ∨ 0 = left.integer ↔ left.integer = 0
      simp [eq_comm]
    · exact agree_plain.trans agree_between

theorem not_agree_from_zero : ¬ Agree (matchedFrom .FractionOnly zero false)
    (matchedFrom .AllowIntegers zero false) := by
  rw [agree_from zero_lt_above]
  exact not_or.mpr ⟨Bool.false_ne_true, fun h => h rfl⟩

theorem matched_agree {left right : Option Double} {li ri : Bool} {p : Text}
    (h : rx_float_range left right li ri = .ok p) :
    AgreeNumerals (matched .FractionOnly left right li ri)
        (matched .AllowIntegers left right li ri) ↔ SameNonIntegers left right li ri := by
  cases left with
  | none =>
    cases right with
    | none =>
      apply iff_of_true _ trivial
      intro x
      simp [matched, Allowed]
    | some right =>
      unfold rx_float_range at h
      unfold matched SameNonIntegers
      dsimp only at h ⊢
      by_cases hzero : right.value = 0
      · rw [if_pos hzero, if_pos hzero, hzero]
        apply iff_of_false _ (fun hcond => lt_irrefl _ hcond.1)
        intro hagree
        exact not_agree_from_zero (agree_of_union (fun x hx => hx.2.1) (fun x hx => hx.2.1) hagree)
      · rw [if_neg hzero] at h ⊢
        rw [if_neg hzero]
        split_ifs at h ⊢ with hpositive
        · apply iff_of_false _ (fun hcond => lt_asymm hpositive hcond.1)
          intro hagree
          exact not_agree_from_zero (agree_of_union (fun x hx => hx.1) (fun x hx => hx.1) hagree)
        · obtain ⟨part, hpart, -⟩ := bind_eq_ok h
          have hr : 0 ≤ right.neg.value := by
            rw [Double.neg_value]
            exact neg_nonneg.mpr (not_lt.mp hpositive)
          have hlt := integer_lt_above hr (rx_float_range_from_lt hr hpart)
          have hnegative : right.value < 0 := lt_of_le_of_ne (not_lt.mp hpositive) hzero
          apply (agree_minus.trans (agree_from hlt)).trans
          exact (and_iff_right hnegative).symm
  | some left =>
    cases right with
    | none =>
      unfold rx_float_range at h
      unfold matched SameNonIntegers
      dsimp only at h ⊢
      split_ifs at h ⊢ with hleft
      · have hne : left.value ≠ zero.value := by
          rw [zero_value]
          exact hleft.ne
        have hzero : ¬ zero.value < 0 := zero_value.ge.not_gt
        unfold matchedBounded
        rw [if_neg hne, if_neg hne, if_pos hleft, if_pos hleft, if_neg hzero, if_neg hzero,
          Set.union_assoc, Set.union_assoc]
        have hplain : ∀ mode, ∀ x ∈ matchedTo mode zero false ∪ Plain (matchedFrom mode zero true),
            x.negative = false := by
          intro mode x hx
          obtain hx | hx := hx
          · exact negative_of_matchedTo x hx
          · exact hx.1
        have hrest := (agree_to zero false).union
          (agree_plain.mpr ((agree_from zero_lt_above).mpr (Or.inl rfl)))
        apply (agree_union (hplain _) (hplain _) hrest).trans (agree_between.trans _)
        rw [AgreeBetween]
        change false = true ∨ ([] : Fraction) ≠ [] ∨ 0 = left.integer ↔ left.integer = 0
        simp [eq_comm]
      · have hl : 0 ≤ left.value := not_lt.mp hleft
        exact agree_plain.trans (agree_from (integer_lt_above hl (rx_float_range_from_lt hl h)))
    | some right => exact agree_bounded

/-- The strings that an optional pattern matches. -/
def opt_language : Option Text → Language Char
  | none => 0
  | some p => p.language

theorem opt_language_eq {q : Option Text} {s : Set Numeral} (h : OptDenotes q s) :
    opt_language q = numerals s := by
  cases q with
  | none =>
    have hempty : s = ∅ := h
    rw [hempty, numerals_empty]
    rfl
  | some p => exact Pattern.Denotes.language_eq h

def one : Double := .ofNat 1

theorem zero_lt_one_value : zero.value < one.value := by
  rw [zero_value, one, Double.ofNat_value]
  exact zero_lt_one

theorem zero_not_negative : ¬ zero.value < 0 := zero_value.ge.not_gt

theorem rx_float_range_zero_to_one :
    ∃ p, rx_float_range (some zero) (some one) false false = .ok p := by
  rw [rx_float_range, rx_bounded_float_range, if_neg zero_lt_one_value.not_gt,
    if_neg zero_lt_one_value.ne, if_neg zero_not_negative]
  exact ⟨_, rfl⟩

theorem rx_noninteger_float_range_zero_to_one :
    ∃ q, rx_noninteger_float_range (some zero) (some one) false false = .ok q := by
  rw [rx_noninteger_float_range, rx_bounded_noninteger_range, if_neg zero_lt_one_value.not_gt,
    if_neg zero_lt_one_value.ne, if_neg zero_not_negative]
  exact ⟨_, rfl⟩

theorem matched_zero_to_one (mode : FloatRangeMode) :
    matched mode (some zero) (some one) false false =
      Plain (matchedBetween mode zero one false false) := by
  rw [matched, matchedBounded, if_neg zero_lt_one_value.ne, if_neg zero_not_negative]

/-- Between zero and one, both excluded, `0.0` is matched as a spelling with a point. -/
theorem rx_noninteger_float_range_excluded_zero :
    ∃ p q, rx_float_range (some zero) (some one) false false = .ok p ∧
      rx_noninteger_float_range (some zero) (some one) false false = .ok q ∧
      ['0', '.', '0'] ∈ opt_language q ∧ ['0', '.', '0'] ∉ p.language := by
  obtain ⟨p, hp⟩ := rx_float_range_zero_to_one
  obtain ⟨q, hq⟩ := rx_noninteger_float_range_zero_to_one
  have htext : ['0', '.', '0'] = Numeral.text ⟨false, 0, [0]⟩ := rfl
  refine ⟨p, q, hp, hq, ?_, ?_⟩
  · rw [opt_language_eq (rx_noninteger_float_range_denotes hq hp), htext, text_mem_numerals,
      matched_zero_to_one]
    refine ⟨rfl, Or.inl ⟨rfl, ?_⟩⟩
    exact List.cons_ne_nil 0 []
  · rw [(rx_float_range_denotes hp).language_eq, htext, text_mem_numerals, matched_zero_to_one]
    intro h
    obtain ⟨-, ⟨-, hlower⟩ | ⟨⟨hlt, -⟩, -⟩ | ⟨heq, -⟩⟩ := h
    · exact not_endsNonzero_append_zero [] hlower
    · exact absurd hlt (lt_irrefl 0)
    · cases heq

theorem rx_noninteger_float_range_correct {left right : Option Double} {li ri : Bool} {p : Text}
    {q : Option Text} (hp : rx_float_range left right li ri = .ok p)
    (hq : rx_noninteger_float_range left right li ri = .ok q) :
    (∀ w, w ∈ opt_language q ↔ w ∈ p.language ∧ '.' ∈ w) ↔ SameNonIntegers left right li ri := by
  rw [← matched_agree hp, opt_language_eq (rx_noninteger_float_range_denotes hq hp),
    (rx_float_range_denotes hp).language_eq]
  constructor
  · intro h x
    rw [← text_mem_numerals, ← text_mem_numerals, h, point_mem_text]
  · intro h w
    constructor
    · intro hw
      obtain ⟨x, hx, rfl⟩ := hw
      obtain ⟨hx, hf⟩ := (h x).mp hx
      exact ⟨⟨x, hx, rfl⟩, point_mem_text.mpr hf⟩
    · intro hw
      obtain ⟨⟨x, hx, rfl⟩, hpoint⟩ := hw
      exact ⟨x, (h x).mpr ⟨hx, point_mem_text.mp hpoint⟩, rfl⟩

/-- Without bounds the two functions agree. -/
theorem rx_noninteger_float_range_unbounded :
    ∃ p q, rx_float_range none none true true = .ok p ∧
      rx_noninteger_float_range none none true true = .ok q ∧
      ∀ w, w ∈ opt_language q ↔ w ∈ p.language ∧ '.' ∈ w := by
  refine ⟨_, _, rfl, rfl, ?_⟩
  exact (@rx_noninteger_float_range_correct none none true true _ _ rfl rfl).mpr trivial

end NumericRange

end GlrMask
