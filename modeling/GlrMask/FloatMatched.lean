import GlrMask.FloatParts

/-!
# The decimals matched by both float range functions

`matched` is the set of the spellings that `rx_float_range` and, in the other mode,
`rx_noninteger_float_range` match. It is read off their patterns branch by branch, before
any of it is compared with the range.
-/

namespace GlrMask

namespace NumericRange

open Regex (Pattern Atom group literal char range)
open Decimal

def numerals (s : Set Numeral) : Language Char := {w | ∃ x ∈ s, w = x.text}

def Plain (s : Set (ℕ × Fraction)) : Set Numeral :=
  {x | x.negative = false ∧ (x.integer, x.fraction) ∈ s}

def Minus (s : Set (ℕ × Fraction)) : Set Numeral :=
  {x | x.negative = true ∧ (x.integer, x.fraction) ∈ s}

def Allowed (mode : FloatRangeMode) (f : Fraction) : Prop := mode = .AllowIntegers ∨ f ≠ []

def zero : Double := .ofNat 0

/-- The power of ten above a left bound. -/
def above (left : Double) : ℕ := 10 ^ num_digits (integer_part left)

def matchedFrom (mode : FloatRangeMode) (left : Double) (li : Bool) : Set (ℕ × Fraction) :=
  matchedBetween mode left (.ofNat (above left)) li false ∪
    {x | above left ≤ x.1 ∧ Allowed mode x.2}

/-- What is matched between zero and a bound that is not negative. -/
def matchedTo (mode : FloatRangeMode) (right : Double) (ri : Bool) : Set Numeral :=
  if right.value = 0 then {x | ri ∧ Allowed mode [] ∧ x = ⟨false, 0, []⟩}
  else Plain (matchedBetween mode zero right true ri)

def matchedBounded (mode : FloatRangeMode) (left right : Double) (li ri : Bool) : Set Numeral :=
  if left.value = right.value then {x | li ∧ ri ∧ Allowed mode x.fraction ∧ x = left.toNumeral}
  else if left.value < 0 then
    if right.value < 0 then Minus (matchedBetween mode right.neg left.neg ri li)
    else Minus (matchedBetween mode zero left.neg false li) ∪ matchedTo mode right ri
  else Plain (matchedBetween mode left right li ri)

def matched (mode : FloatRangeMode) (left right : Option Double) (li ri : Bool) : Set Numeral :=
  match left, right with
  | none, none => {x | Allowed mode x.fraction}
  | some left, none =>
      if left.value < 0 then
        matchedBounded mode left zero li false ∪ Plain (matchedFrom mode zero true)
      else Plain (matchedFrom mode left li)
  | none, some right =>
      if right.value = 0 then Minus (matchedFrom mode zero false) ∪
        {x | ri ∧ x.negative = false ∧ x.integer = 0 ∧ (∀ d ∈ x.fraction, d = 0) ∧
          (mode = .AllowIntegers ↔ x.fraction = [])}
      else if right.value > 0 then
        Minus (matchedFrom mode zero false) ∪ Plain (matchedBetween mode zero right true ri)
      else Minus (matchedFrom mode right.neg ri)
  | some left, some right => matchedBounded mode left right li ri

theorem mem_numerals {s : Set Numeral} {w : List Char} :
    w ∈ numerals s ↔ ∃ x ∈ s, w = x.text := Iff.rfl

theorem minus_ne_unsignedText (w : List Char) (n : ℕ) (f : Fraction) :
    '-' :: w ≠ unsignedText n f := by
  cases f with
  | nil => exact minus_ne_spelling w n
  | cons d f =>
    intro h
    obtain ⟨c, u, hu⟩ := List.exists_cons_of_ne_nil (List.ne_nil_of_length_pos
      (length_spelling_pos n))
    rw [unsignedText, hu, List.cons_append, List.cons.injEq] at h
    have hmem : '-' ∈ spelling n := by
      rw [hu, h.1]
      exact List.mem_cons_self
    exact absurd (isDigit_of_mem_spelling hmem) (by decide)

theorem text_injective : Function.Injective Numeral.text := by
  intro x y h
  obtain ⟨xneg, n, f⟩ := x
  obtain ⟨yneg, m, g⟩ := y
  cases xneg with
  | true =>
    cases yneg with
    | true =>
      obtain ⟨rfl, rfl⟩ := unsignedText_injective (List.cons.inj h).2
      rfl
    | false => exact absurd h (minus_ne_unsignedText _ m g)
  | false =>
    cases yneg with
    | true => exact absurd h.symm (minus_ne_unsignedText _ n f)
    | false =>
      obtain ⟨rfl, rfl⟩ := unsignedText_injective h
      rfl

theorem text_mem_numerals {s : Set Numeral} {x : Numeral} : x.text ∈ numerals s ↔ x ∈ s := by
  constructor
  · intro h
    obtain ⟨y, hy, heq⟩ := h
    exact text_injective heq ▸ hy
  · intro h
    exact ⟨x, h, rfl⟩

theorem numerals_add (s t : Set Numeral) : numerals s + numerals t = numerals (s ∪ t) := by
  ext w
  rw [Language.mem_add, mem_numerals, mem_numerals, mem_numerals]
  constructor
  · intro h
    obtain ⟨x, hx, rfl⟩ | ⟨x, hx, rfl⟩ := h
    · exact ⟨x, Or.inl hx, rfl⟩
    · exact ⟨x, Or.inr hx, rfl⟩
  · intro h
    obtain ⟨x, hx | hx, rfl⟩ := h
    · exact Or.inl ⟨x, hx, rfl⟩
    · exact Or.inr ⟨x, hx, rfl⟩

theorem decimals_eq_numerals (s : Set (ℕ × Fraction)) : decimals s = numerals (Plain s) := by
  ext w
  constructor
  · intro h
    obtain ⟨⟨n, f⟩, hx, rfl⟩ := h
    exact ⟨⟨false, n, f⟩, ⟨rfl, hx⟩, rfl⟩
  · intro h
    obtain ⟨⟨_, n, f⟩, ⟨rfl, hx⟩, rfl⟩ := h
    exact ⟨(n, f), hx, rfl⟩

theorem minus_mul_decimals (s : Set (ℕ × Fraction)) :
    {['-']} * decimals s = numerals (Minus s) := by
  ext w
  rw [Language.mem_mul]
  constructor
  · intro h
    obtain ⟨_, rfl, _, ⟨⟨n, f⟩, hx, rfl⟩, rfl⟩ := h
    exact ⟨⟨true, n, f⟩, ⟨rfl, hx⟩, rfl⟩
  · intro h
    obtain ⟨⟨_, n, f⟩, ⟨rfl, hx⟩, rfl⟩ := h
    exact ⟨_, rfl, _, ⟨(n, f), hx, rfl⟩, rfl⟩

theorem plain_denotes {p : Text} {s : Set (ℕ × Fraction)} (h : p.Denotes (decimals s)) :
    p.Denotes (numerals (Plain s)) := h.of_eq (decimals_eq_numerals s)

theorem minus_denotes {p : Text} {s : Set (ℕ × Fraction)} (h : p.Denotes (decimals s)) :
    (char '-' ++ p).Denotes (numerals (Minus s)) :=
  ((Pattern.denotes_char '-').append h).of_eq (minus_mul_decimals s)

theorem mk_or_numerals {p q : Text} {s t : Set Numeral} (hp : p.Denotes (numerals s))
    (hq : q.Denotes (numerals t)) : (mk_or [p, q]).Denotes (numerals (s ∪ t)) :=
  (mk_or_pair hp hq).of_eq (numerals_add s t)

theorem exact_float_regex_denotes (x : Double) :
    (exact_float_regex x).Denotes (numerals {x.toNumeral}) := by
  apply (group_denotes (Pattern.denotes_literal x.text)).of_eq
  ext w
  constructor
  · intro h
    exact ⟨_, rfl, h⟩
  · intro h
    obtain ⟨_, rfl, h⟩ := h
    exact h

theorem longer_integers_denotes (digits : ℕ) :
    (longer_integers digits).Denotes (spellings {n | 10 ^ digits ≤ n}) := by
  have h := (denotes_digits (i := 1) (j := 9) (by decide) (by decide)).append
    (Pattern.denotes_quantified (Atom.range '0' '9') (.atLeast digits))
  rw [Regex.Quantifier.apply, digit_language, digits_mul_pow_mul_star] at h
  exact h

theorem Double.ofNat_value (n : ℕ) : (Double.ofNat n).value = n := by
  change (n : ℚ) + tenths [] = n
  rw [tenths, add_zero]

theorem zero_value : zero.value = 0 := Double.ofNat_value 0

theorem Double.neg_value (x : Double) : x.neg.value = -x.value := by
  cases hx : x.negative with
  | true =>
    have hneg : x.neg.negative = false := congrArg not hx
    rw [Numeral.value, Numeral.value, hx, hneg, if_neg (by decide), if_pos rfl, neg_neg]
    rfl
  | false =>
    have hneg : x.neg.negative = true := congrArg not hx
    rw [Numeral.value, Numeral.value, hx, hneg, if_pos rfl, if_neg (by decide)]
    rfl

theorem nil_notMem_nonempty : [] ∉ {f : Fraction | f ≠ []} := fun h => h rfl

theorem integer_lt_above {left : Double} (hl : 0 ≤ left.value)
    (h : left.value < (Double.ofNat (above left)).value) : left.integer < above left := by
  have habove : (0 : ℚ) ≤ (Double.ofNat (above left)).value := hl.trans h.le
  obtain hlt | ⟨-, hlt⟩ := (Double.lt_iff hl habove).mp h
  · exact hlt
  · exact absurd hlt (not_lt.mpr (tenths_nonneg _))

theorem lt_above_of_mem {mode : FloatRangeMode} {left : Double} {li : Bool}
    (h : left.integer < above left) {x : ℕ × Fraction}
    (hx : x ∈ matchedBetween mode left (.ofNat (above left)) li false) : x.1 < above left := by
  have hne : left.integer ≠ (Double.ofNat (above left)).integer := h.ne
  rw [matchedBetween, Set.mem_ofPred_eq, if_neg hne] at hx
  obtain ⟨heq, -⟩ | ⟨⟨-, hlt⟩, -⟩ | ⟨-, hupper⟩ := hx
  · omega
  · exact hlt
  · simp [UpperPart, Double.ofNat] at hupper

theorem negative_of_matchedTo {mode : FloatRangeMode} {right : Double} {ri : Bool} :
    ∀ x ∈ matchedTo mode right ri, x.negative = false := by
  intro x hx
  unfold matchedTo at hx
  split_ifs at hx
  · rw [hx.2.2]
  · exact hx.1

theorem zero_lt_above : zero.integer < above zero := by
  change 0 < above zero
  rw [above]
  positivity

section integers

/-- Two bounds that are not negative: the bounds are the same number, or the left one is smaller. -/
theorem rx_nonneg_float_range_denotes {left right : Double} {li ri : Bool} {p : Text}
    (hl : 0 ≤ left.value) (h : rx_nonneg_float_range left right li ri = .ok p) :
    (left.value = right.value ∧ li ∧ ri ∧ p.Denotes (numerals {left.toNumeral})) ∨
      (left.value < right.value ∧
        p.Denotes (decimals (matchedBetween .AllowIntegers left right li ri))) := by
  unfold rx_nonneg_float_range at h
  split_ifs at h with hgt heq hincl
  · rw [← Except.ok.inj h]
    exact Or.inl ⟨heq, hincl.1, hincl.2, exact_float_regex_denotes left⟩
  · have hlt : left.value < right.value := lt_of_le_of_ne (not_lt.mp hgt) heq
    exact Or.inr ⟨hlt, nonneg_float_range_denotes hl hlt h⟩

theorem rx_float_range_to_denotes {right : Double} {ri : Bool} {p : Text}
    (h : rx_nonneg_float_range zero right true ri = .ok p) :
    p.Denotes (numerals (matchedTo .AllowIntegers right ri)) := by
  obtain ⟨heq, -, hri, hp⟩ | ⟨hlt, hp⟩ := rx_nonneg_float_range_denotes zero_value.ge h
  · rw [zero_value] at heq
    rw [matchedTo, if_pos heq.symm]
    apply hp.of_eq
    congr 1
    ext x
    simp only [Set.mem_singleton_iff, Set.mem_ofPred_eq, hri, Allowed, true_or, true_and]
    rfl
  · rw [zero_value] at hlt
    rw [matchedTo, if_neg hlt.ne']
    exact plain_denotes hp

theorem rx_float_range_from_denotes {left : Double} {li : Bool} {p : Text} (hl : 0 ≤ left.value)
    (h : rx_float_range_from left li = .ok p) :
    p.Denotes (decimals (matchedFrom .AllowIntegers left li)) := by
  obtain ⟨low, hlow, h⟩ := bind_eq_ok h
  obtain ⟨-, -, hfalse, -⟩ | ⟨-, hlow⟩ := rx_nonneg_float_range_denotes hl hlow
  · cases hfalse
  · rw [← Except.ok.inj h]
    have hlonger := with_optional_fraction_denotes (longer_integers_denotes
      (num_digits (integer_part left))) some_digits_denotes nil_notMem_nonempty
    apply (mk_or_pair hlow hlonger).of_eq
    rw [decimals_add]
    congr 1
    ext x
    simp only [matchedFrom, Set.mem_union, Set.mem_ofPred_eq, Allowed, true_or, and_true]
    apply or_congr_right
    exact and_iff_left (em _)

theorem negative_part_denotes {left : Double} {li : Bool} {p : Text} (hleft : left.value < 0)
    (h : rx_nonneg_float_range zero left.neg false li = .ok p) :
    (group (char '-' ++ p)).Denotes
      (numerals (Minus (matchedBetween .AllowIntegers zero left.neg false li))) := by
  obtain ⟨hsame, -⟩ | ⟨-, hp⟩ := rx_nonneg_float_range_denotes zero_value.ge h
  · rw [Double.neg_value, zero_value] at hsame
    exact absurd (neg_eq_zero.mp hsame.symm) hleft.ne
  · exact group_denotes (minus_denotes hp)

theorem matchedTo_of_not {mode : FloatRangeMode} {right : Double} {ri : Bool}
    (hright : ¬ right.value < 0) (h : ¬ (0 < right.value ∨ ri = true)) :
    matchedTo mode right ri = ∅ := by
  obtain ⟨hle, hri⟩ := not_or.mp h
  have hzero : right.value = 0 := le_antisymm (not_lt.mp hle) (not_lt.mp hright)
  rw [matchedTo, if_pos hzero]
  ext x
  simp [hri]

theorem rx_bounded_float_range_denotes {left right : Double} {li ri : Bool} {p : Text}
    (h : rx_bounded_float_range left right li ri = .ok p) :
    p.Denotes (numerals (matchedBounded .AllowIntegers left right li ri)) := by
  unfold rx_bounded_float_range at h
  split_ifs at h with hgt heq hincl hleft hright hpositive
  · rw [← Except.ok.inj h, matchedBounded, if_pos heq]
    apply (exact_float_regex_denotes left).of_eq
    congr 1
    ext x
    simp [hincl, Allowed]
  · obtain ⟨part, hpart, rfl⟩ := map_eq_ok h
    have hr : 0 ≤ right.neg.value := by
      rw [Double.neg_value]
      exact neg_nonneg.mpr hright.le
    rw [matchedBounded, if_neg heq, if_pos hleft, if_pos hright]
    obtain ⟨hsame, -⟩ | ⟨-, hpart⟩ := rx_nonneg_float_range_denotes hr hpart
    · rw [Double.neg_value, Double.neg_value, neg_inj] at hsame
      exact absurd hsame.symm heq
    · exact group_denotes (minus_denotes hpart)
  · obtain ⟨negative, hnegative, h⟩ := bind_eq_ok h
    obtain ⟨positive, hto, h⟩ := bind_eq_ok h
    rw [← Except.ok.inj h, matchedBounded, if_neg heq, if_pos hleft, if_neg hright]
    exact mk_or_numerals (negative_part_denotes hleft hnegative) (rx_float_range_to_denotes hto)
  · obtain ⟨negative, hnegative, h⟩ := bind_eq_ok h
    rw [← Except.ok.inj h, matchedBounded, if_neg heq, if_pos hleft, if_neg hright,
      matchedTo_of_not hright hpositive, Set.union_empty]
    exact negative_part_denotes hleft hnegative
  · have hlt : left.value < right.value := lt_of_le_of_ne (not_lt.mp hgt) heq
    rw [matchedBounded, if_neg heq, if_neg hleft]
    exact plain_denotes (nonneg_float_range_denotes (not_lt.mp hleft) hlt h)

/-- The spellings of the integers, with a set of fractions. -/
theorem signed_denotes {p q : Text} {t : Set Fraction} (hp : p.Denotes (signed Set.univ Set.univ))
    {L : Language Char} (hq : q.Denotes L)
    (hL : spellings Set.univ * L = decimals {x | x.2 ∈ t}) :
    (p ++ q).Denotes (numerals {x | x.fraction ∈ t}) := by
  apply (hp.append hq).of_eq
  rw [signed, add_mul, mul_assoc, hL, minus_mul_decimals, decimals_eq_numerals, numerals_add]
  congr 1
  ext x
  rw [Set.mem_union, Minus, Plain, Set.mem_ofPred_eq, Set.mem_ofPred_eq, Set.mem_ofPred_eq,
    Set.mem_ofPred_eq, ← or_and_right]
  exact and_iff_right (Bool.eq_false_or_eq_true _)

theorem rx_float_range_denotes {left right : Option Double} {li ri : Bool} {p : Text}
    (h : rx_float_range left right li ri = .ok p) :
    p.Denotes (numerals (matched .AllowIntegers left right li ri)) := by
  cases left with
  | none =>
    cases right with
    | none =>
      rw [← Except.ok.inj h]
      have hfraction := ((Pattern.denotes_char '.').append some_digits_denotes).group_with .optional
      have hall : spellings Set.univ *
          Regex.Quantifier.optional.apply ({['.']} * fractions {f | f ≠ []}) =
          decimals {x | x.2 ∈ {f | Allowed .AllowIntegers f}} := by
        rw [Regex.Quantifier.apply, spellings_mul_optional_point nil_notMem_nonempty]
        congr 1
        ext x
        simp [Allowed, em]
      exact signed_denotes integer_regex_denotes hfraction hall
    | some right =>
      unfold rx_float_range at h
      unfold matched
      dsimp only at h ⊢
      split_ifs at h ⊢ with hzero hri hpositive
      · obtain ⟨negative, hnegative, h⟩ := bind_eq_ok h
        rw [← Except.ok.inj h]
        have hminus := minus_denotes (rx_float_range_from_denotes zero_value.ge hnegative)
        have hplain : (char '0' : Text).Denotes (numerals {⟨false, 0, []⟩}) := by
          apply (Pattern.denotes_char '0').of_eq
          ext w
          constructor
          · intro hw
            exact ⟨_, rfl, hw⟩
          · intro hw
            obtain ⟨_, rfl, hw⟩ := hw
            exact hw
        apply (mk_or_numerals hminus hplain).of_eq
        congr 2
        ext x
        obtain ⟨neg, n, f⟩ := x
        simp only [Set.mem_singleton_iff, Set.mem_ofPred_eq, Numeral.mk.injEq, true_iff, hri,
          true_and]
        constructor
        · intro hx
          obtain ⟨rfl, rfl, rfl⟩ := hx
          exact ⟨rfl, rfl, fun d hd => absurd hd List.not_mem_nil, rfl⟩
        · intro hx
          exact ⟨hx.1, hx.2.1, hx.2.2.2⟩
      · obtain ⟨negative, hnegative, h⟩ := bind_eq_ok h
        rw [← Except.ok.inj h]
        have hminus := minus_denotes (rx_float_range_from_denotes zero_value.ge hnegative)
        apply hminus.of_eq
        congr 1
        ext x
        simp [hri]
      · obtain ⟨negative, hnegative, h⟩ := bind_eq_ok h
        obtain ⟨positive, hto, h⟩ := bind_eq_ok h
        rw [← Except.ok.inj h]
        have hminus := minus_denotes (rx_float_range_from_denotes zero_value.ge hnegative)
        have hto := rx_float_range_to_denotes hto
        rw [matchedTo, if_neg hzero] at hto
        exact mk_or_numerals hminus hto
      · obtain ⟨part, hpart, h⟩ := bind_eq_ok h
        rw [← Except.ok.inj h]
        have hr : 0 ≤ right.neg.value := by
          rw [Double.neg_value]
          exact neg_nonneg.mpr (not_lt.mp hpositive)
        exact minus_denotes (rx_float_range_from_denotes hr hpart)
  | some left =>
    cases right with
    | none =>
      unfold rx_float_range at h
      unfold matched
      dsimp only at h ⊢
      split_ifs at h ⊢ with hleft
      · obtain ⟨negative, hnegative, h⟩ := bind_eq_ok h
        obtain ⟨positive, hpositive, h⟩ := bind_eq_ok h
        rw [← Except.ok.inj h]
        exact mk_or_numerals (rx_bounded_float_range_denotes hnegative)
          (plain_denotes (rx_float_range_from_denotes zero_value.ge hpositive))
      · exact plain_denotes (rx_float_range_from_denotes (not_lt.mp hleft) h)
    | some right => exact rx_bounded_float_range_denotes h

end integers

section fractions

/-- No pattern, or one that denotes the set. -/
def OptDenotes (q : Option Text) (s : Set Numeral) : Prop :=
  match q with
  | none => s = ∅
  | some p => p.Denotes (numerals s)

theorem numerals_empty : numerals ∅ = 0 := by
  ext w
  constructor
  · intro h
    obtain ⟨x, hx, -⟩ := h
    exact absurd hx (Set.notMem_empty x)
  · intro h
    exact absurd h (Language.notMem_zero w)

theorem OptDenotes.denoteAll {q : Option Text} {s : Set Numeral} (h : OptDenotes q s) :
    Pattern.DenoteAll q.toList (numerals s) := by
  cases q with
  | none =>
    have hempty : s = ∅ := h
    rw [hempty, numerals_empty]
    exact Pattern.denoteAll_nil
  | some p => exact Pattern.Denotes.denoteAll h

theorem mk_or_opt_denotes {parts : List Text} {s : Set Numeral}
    (h : Pattern.DenoteAll parts (numerals s)) : OptDenotes (mk_or_opt parts) s := by
  unfold mk_or_opt
  split_ifs with hnil
  · have hzero : numerals s = 0 := by
      rw [← h.2, hnil]
      rfl
    apply Set.eq_empty_iff_forall_notMem.mpr
    intro x hx
    have hmem := text_mem_numerals.mpr hx
    rw [hzero] at hmem
    exact absurd hmem (Language.notMem_zero _)
  · exact mk_or_denotes h hnil

theorem OptDenotes.mk_or_opt {q r : Option Text} {s t : Set Numeral} (hq : OptDenotes q s)
    (hr : OptDenotes r t) : OptDenotes (mk_or_opt (q.toList ++ r.toList)) (s ∪ t) := by
  have h := hq.denoteAll.append hr.denoteAll
  rw [numerals_add] at h
  exact mk_or_opt_denotes h

theorem point_mem_text {x : Numeral} : '.' ∈ x.text ↔ x.fraction ≠ [] := by
  obtain ⟨neg, n, f⟩ := x
  have hunsigned : '.' ∈ unsignedText n f ↔ f ≠ [] := by
    cases f with
    | nil => exact iff_of_false (point_not_mem_spelling n) (fun h => h rfl)
    | cons d f =>
      exact iff_of_true (List.mem_append_right _ List.mem_cons_self) (List.cons_ne_nil d f)
  cases neg with
  | true =>
    rw [Numeral.text, if_pos rfl, List.mem_cons, hunsigned]
    exact or_iff_right (by decide)
  | false =>
    rw [Numeral.text, if_neg Bool.false_ne_true]
    exact hunsigned

theorem exact_noninteger_denotes {left : Double} {li ri : Bool} {q : Option Text}
    (h : (if ¬ li ∨ ¬ ri then .ok none
      else if '.' ∈ left.text then .ok (some (exact_float_regex left))
      else .ok none : RangeResult (Option Text)) = .ok q) :
    OptDenotes q {x | li ∧ ri ∧ Allowed .FractionOnly x.fraction ∧ x = left.toNumeral} := by
  have hpoint : '.' ∈ left.text ↔ left.fraction ≠ [] := point_mem_text
  split_ifs at h with hincl hleft
  · rw [← Except.ok.inj h]
    ext x
    simp only [Set.mem_ofPred_eq, Set.mem_empty_iff_false, iff_false]
    intro hx
    obtain hli | hri := hincl
    · exact hli hx.1
    · exact hri hx.2.1
  · rw [← Except.ok.inj h]
    obtain ⟨hli, hri⟩ := not_or.mp hincl
    apply (exact_float_regex_denotes left).of_eq
    congr 1
    ext x
    simp only [Set.mem_singleton_iff, Set.mem_ofPred_eq, not_not.mp hli, not_not.mp hri, true_and]
    constructor
    · intro hx
      exact ⟨Or.inr (hx ▸ hpoint.mp hleft), hx⟩
    · exact And.right
  · rw [← Except.ok.inj h]
    ext x
    simp only [Set.mem_ofPred_eq, Set.mem_empty_iff_false, iff_false]
    intro hx
    obtain ⟨-, -, hallowed, rfl⟩ := hx
    obtain hmode | hfraction := hallowed
    · cases hmode
    · exact hleft (hpoint.mpr hfraction)

theorem rx_nonneg_noninteger_range_denotes {left right : Double} {li ri : Bool} {q : Option Text}
    (hl : 0 ≤ left.value) (hne : left.value ≠ right.value)
    (h : rx_nonneg_noninteger_range left right li ri = .ok q) :
    ∃ p, q = some p ∧ p.Denotes (decimals (matchedBetween .FractionOnly left right li ri)) := by
  unfold rx_nonneg_noninteger_range at h
  rw [if_neg hne] at h
  split_ifs at h with hgt
  exact nonneg_float_range_no_ints_denotes hl (lt_of_le_of_ne (not_lt.mp hgt) hne) h

theorem rx_noninteger_range_to_denotes {right : Double} {ri : Bool} {q : Option Text}
    (h : rx_nonneg_noninteger_range zero right true ri = .ok q) :
    OptDenotes q (matchedTo .FractionOnly right ri) := by
  by_cases hzero : right.value = 0
  · rw [matchedTo, if_pos hzero]
    unfold rx_nonneg_noninteger_range at h
    rw [hzero, zero_value, if_neg (lt_irrefl _), if_pos rfl] at h
    have hq := exact_noninteger_denotes h
    have hset : {x : Numeral | ri = true ∧ Allowed .FractionOnly [] ∧ x = ⟨false, 0, []⟩} =
        {x | true = true ∧ ri = true ∧ Allowed .FractionOnly x.fraction ∧ x = zero.toNumeral} := by
      ext x
      simp only [Set.mem_ofPred_eq, true_and]
      constructor
      · intro hx
        exact ⟨hx.1, by rw [hx.2.2]; exact hx.2.1, hx.2.2⟩
      · intro hx
        refine ⟨hx.1, ?_, hx.2.2⟩
        rw [hx.2.2] at hx
        exact hx.2.1
    rw [hset]
    exact hq
  · obtain ⟨p, rfl, hp⟩ := rx_nonneg_noninteger_range_denotes zero_value.ge
      (fun heq => hzero (heq.symm.trans zero_value)) h
    rw [matchedTo, if_neg hzero]
    exact plain_denotes hp

theorem rx_noninteger_range_from_denotes {left : Double} {li : Bool} {q : Option Text}
    (hl : 0 ≤ left.value) (hne : left.value ≠ (Double.ofNat (above left)).value)
    (h : rx_noninteger_range_from left li = .ok q) :
    ∃ p, q = some p ∧ p.Denotes (decimals (matchedFrom .FractionOnly left li)) := by
  obtain ⟨low, hlow, h⟩ := bind_eq_ok h
  obtain ⟨p, rfl, hp⟩ := rx_nonneg_noninteger_range_denotes hl hne hlow
  refine ⟨_, (Except.ok.inj h).symm, ?_⟩
  have hlonger := with_fraction_denotes (longer_integers_denotes
    (num_digits (integer_part left))) some_digits_denotes nil_notMem_nonempty
  apply (mk_or_pair hp hlonger).of_eq
  rw [decimals_add]
  congr 1
  ext x
  simp [matchedFrom, Allowed, above]

theorem negative_noninteger_denotes {left : Double} {li : Bool} {q : Option Text}
    (hleft : left.value < 0)
    (h : rx_nonneg_noninteger_range zero left.neg false li = .ok q) :
    OptDenotes (q.map fun part => group (char '-' ++ part))
      (Minus (matchedBetween .FractionOnly zero left.neg false li)) := by
  have hne : zero.value ≠ left.neg.value := by
    rw [Double.neg_value, zero_value]
    exact (neg_pos.mpr hleft).ne
  obtain ⟨p, rfl, hp⟩ := rx_nonneg_noninteger_range_denotes zero_value.ge hne h
  exact group_denotes (minus_denotes hp)

theorem rx_bounded_noninteger_range_denotes {left right : Double} {li ri : Bool} {q : Option Text}
    (h : rx_bounded_noninteger_range left right li ri = .ok q) :
    OptDenotes q (matchedBounded .FractionOnly left right li ri) := by
  unfold rx_bounded_noninteger_range at h
  by_cases hgt : left.value > right.value
  · rw [if_pos hgt] at h
    cases h
  · rw [if_neg hgt] at h
    by_cases heq : left.value = right.value
    · rw [if_pos heq] at h
      rw [matchedBounded, if_pos heq]
      exact exact_noninteger_denotes h
    · rw [if_neg heq] at h
      split_ifs at h with hleft hright hpositive
      · rw [matchedBounded, if_neg heq, if_pos hleft, if_pos hright]
        obtain ⟨part, hpart, rfl⟩ := map_eq_ok h
        have hr : 0 ≤ right.neg.value := by
          rw [Double.neg_value]
          exact neg_nonneg.mpr hright.le
        have hne : right.neg.value ≠ left.neg.value := by
          rw [Double.neg_value, Double.neg_value]
          exact fun hneg => heq (neg_inj.mp hneg).symm
        obtain ⟨p, rfl, hp⟩ := rx_nonneg_noninteger_range_denotes hr hne hpart
        exact group_denotes (minus_denotes hp)
      · obtain ⟨negative, hnegative, h⟩ := bind_eq_ok h
        obtain ⟨positive, hto, h⟩ := bind_eq_ok h
        rw [← Except.ok.inj h, matchedBounded, if_neg heq, if_pos hleft, if_neg hright]
        exact (negative_noninteger_denotes hleft hnegative).mk_or_opt
          (rx_noninteger_range_to_denotes hto)
      · obtain ⟨negative, hnegative, h⟩ := bind_eq_ok h
        rw [← Except.ok.inj h, matchedBounded, if_neg heq, if_pos hleft, if_neg hright,
          matchedTo_of_not hright hpositive, Set.union_empty]
        exact mk_or_opt_denotes (negative_noninteger_denotes hleft hnegative).denoteAll
      · rw [matchedBounded, if_neg heq, if_neg hleft]
        have hlt : left.value < right.value := lt_of_le_of_ne (not_lt.mp hgt) heq
        obtain ⟨p, rfl, hp⟩ := nonneg_float_range_no_ints_denotes (not_lt.mp hleft) hlt h
        exact plain_denotes hp

theorem zero_ne_above : zero.value ≠ (Double.ofNat (above zero)).value := by
  rw [zero_value, Double.ofNat_value, above]
  positivity

theorem rx_float_range_from_lt {left : Double} {li : Bool} {p : Text} (hl : 0 ≤ left.value)
    (h : rx_float_range_from left li = .ok p) : left.value < (Double.ofNat (above left)).value := by
  obtain ⟨low, hlow, -⟩ := bind_eq_ok h
  obtain ⟨-, -, hfalse, -⟩ | ⟨hlt, -⟩ := rx_nonneg_float_range_denotes hl hlow
  · cases hfalse
  · exact hlt

theorem minus_noninteger_from_denotes {left : Double} {li : Bool} {q : Option Text}
    (hl : 0 ≤ left.value) (hne : left.value ≠ (Double.ofNat (above left)).value)
    (h : rx_noninteger_range_from left li = .ok q) :
    OptDenotes (q.map fun part => char '-' ++ part) (Minus (matchedFrom .FractionOnly left li)) := by
  obtain ⟨p, rfl, hp⟩ := rx_noninteger_range_from_denotes hl hne h
  exact minus_denotes hp

theorem zero_point_zeros_denotes :
    (char '0' ++ (char '.' ++ (Atom.char '0').quantified .plus)).Denotes
      (numerals (Plain {x | x.1 = 0 ∧ x.2 ≠ [] ∧ ∀ d ∈ x.2, d = 0})) := by
  have hzero : (char '0' : Text).Denotes (spellings {0}) := by
    rw [spellings_singleton]
    exact Pattern.denotes_char '0'
  exact plain_denotes (with_fraction_denotes hzero zeros_plus_denotes fun h => h.1 rfl)

/-- Where `rx_float_range` fails, the other function may still answer. -/
theorem rx_noninteger_float_range_denotes {left right : Option Double} {li ri : Bool}
    {q : Option Text} {p : Text} (h : rx_noninteger_float_range left right li ri = .ok q)
    (hp : rx_float_range left right li ri = .ok p) :
    OptDenotes q (matched .FractionOnly left right li ri) := by
  cases left with
  | none =>
    cases right with
    | none =>
      rw [← Except.ok.inj h]
      have hfraction := (Pattern.denotes_char '.').append some_digits_denotes
      have hall : spellings Set.univ * ({['.']} * fractions {f | f ≠ []}) =
          decimals {x | x.2 ∈ {f | Allowed .FractionOnly f}} := by
        rw [spellings_mul_point nil_notMem_nonempty]
        congr 1
        ext x
        simp [Allowed]
      exact signed_denotes integer_regex_denotes hfraction hall
    | some right =>
      have hfrom : ∀ {q}, rx_noninteger_range_from zero false = .ok q →
          OptDenotes (q.map fun part => char '-' ++ part)
            (Minus (matchedFrom .FractionOnly zero false)) :=
        fun hq => minus_noninteger_from_denotes zero_value.ge zero_ne_above hq
      unfold rx_noninteger_float_range at h
      unfold rx_float_range at hp
      unfold matched
      dsimp only at h hp ⊢
      by_cases hzero : right.value = 0
      · rw [if_pos hzero] at h ⊢
        obtain ⟨negative, hnegative, h⟩ := bind_eq_ok h
        have hminus := hfrom hnegative
        split_ifs at h with hri
        · rw [← Except.ok.inj h]
          have hparts := hminus.denoteAll.append zero_point_zeros_denotes.denoteAll
          rw [numerals_add] at hparts
          apply mk_or_opt_denotes (hparts.of_eq _)
          congr 2
          ext x
          simp only [Plain, Set.mem_ofPred_eq, hri, true_and, reduceCtorEq, false_iff]
          tauto
        · rw [← Except.ok.inj h]
          have hempty : {x : Numeral | ri ∧ x.negative = false ∧ x.integer = 0 ∧
              (∀ d ∈ x.fraction, d = 0) ∧
              (FloatRangeMode.FractionOnly = .AllowIntegers ↔ x.fraction = [])} = ∅ := by
            ext x
            simp [hri]
          rw [hempty, Set.union_empty]
          exact mk_or_opt_denotes hminus.denoteAll
      · rw [if_neg hzero] at h hp ⊢
        split_ifs at h hp ⊢ with hpositive
        · obtain ⟨negative, hnegative, h⟩ := bind_eq_ok h
          obtain ⟨positive, hto, h⟩ := bind_eq_ok h
          rw [← Except.ok.inj h]
          have hto := rx_noninteger_range_to_denotes hto
          rw [matchedTo, if_neg hzero] at hto
          exact (hfrom hnegative).mk_or_opt hto
        · obtain ⟨part, hpart, -⟩ := bind_eq_ok hp
          obtain ⟨q, hq, rfl⟩ := map_eq_ok h
          have hr : 0 ≤ right.neg.value := by
            rw [Double.neg_value]
            exact neg_nonneg.mpr (not_lt.mp hpositive)
          exact minus_noninteger_from_denotes hr (rx_float_range_from_lt hr hpart).ne hq
  | some left =>
    cases right with
    | none =>
      unfold rx_noninteger_float_range at h
      unfold rx_float_range at hp
      unfold matched
      dsimp only at h hp ⊢
      split_ifs at h hp ⊢ with hleft
      · obtain ⟨negative, hnegative, h⟩ := bind_eq_ok h
        obtain ⟨positive, hpositive, h⟩ := bind_eq_ok h
        rw [← Except.ok.inj h]
        obtain ⟨r, rfl, hr⟩ :=
          rx_noninteger_range_from_denotes zero_value.ge zero_ne_above hpositive
        have hplain : OptDenotes (some r) (Plain (matchedFrom .FractionOnly zero true)) :=
          plain_denotes hr
        exact (rx_bounded_noninteger_range_denotes hnegative).mk_or_opt hplain
      · have hl : 0 ≤ left.value := not_lt.mp hleft
        obtain ⟨r, rfl, hr⟩ := rx_noninteger_range_from_denotes hl (rx_float_range_from_lt hl hp).ne h
        exact plain_denotes hr
    | some right => exact rx_bounded_noninteger_range_denotes h

end fractions

end NumericRange

end GlrMask
