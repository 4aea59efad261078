import GlrMask.DecimalFraction
import GlrMask.IntegerRange

/-!
# Regular expressions for the multiples of a decimal step

A step below one is read from the digits after its point. When it divides one, the
multiples are the numbers whose fraction is a multiple of it. A fraction is matched by
its digits without the trailing zeros and as many zeros as fit.
-/

namespace GlrMask

namespace NumericRange

open Regex (Pattern Atom group literal char range)
open Decimal

structure DecimalStep where
  numerator : ℕ
  scale : ℕ
  scale_digits : ℕ
  numerator_pos : 0 < numerator
  numerator_lt : numerator < scale
  scale_eq : scale = 10 ^ scale_digits
  deriving DecidableEq

def split_once (c : Char) (text : List Char) : Option (List Char × List Char) :=
  if c ∈ text then some (text.takeWhile (· ≠ c), (text.dropWhile (· ≠ c)).tail) else none

def checked_u64 (n : ℕ) : Option ℕ := if n < 2 ^ 64 then some n else none

/-- `parse::<u64>` of digits. -/
def parse_u64 (digits : List Char) : Option ℕ := checked_u64 (Nat.ofDigitChars 10 digits 0)

def parse_decimal_step (multiple : Printed) : Option DecimalStep :=
  if multiple.value ≤ 0 ∨ multiple.fraction = [] then none
  else if 'e' ∈ multiple.text ∨ 'E' ∈ multiple.text then none
  else do
    let (integer_part, fractional_part) ← split_once '.' multiple.text
    if integer_part ≠ ['0'] ∨ fractional_part = [] ∨ ¬ fractional_part.all Char.isDigit then none
    else
      let scale_digits := fractional_part.length
      let _ ← checked_u64 (10 ^ scale_digits)
      let numerator ← parse_u64 fractional_part
      if h : 0 < numerator ∧ numerator < 10 ^ scale_digits then
        some ⟨numerator, 10 ^ scale_digits, scale_digits, h.1, h.2, rfl⟩
      else none

def decimal_fraction_prefix_regex (digits : List Char) (scale_digits : ℕ) : Text :=
  let extra_zeros := scale_digits - digits.length
  if extra_zeros = 0 then literal digits
  else if digits = ['0'] then (Atom.char '0').quantified (.between 1 scale_digits)
  else literal digits ++ (Atom.char '0').quantified (.between 0 extra_zeros)

/-- `format!("{:0width$}", value)` -/
def zero_padded (width value : ℕ) : List Char :=
  List.replicate (width - (spelling value).length) '0' ++ spelling value

/-- The digits of a fraction without trailing zeros, and one zero for none. -/
def fraction_prefix_digits (full : List Char) : List Char :=
  let digits := full.rdropWhile (· = '0')
  if digits = [] then ['0'] else digits

/-- `BTreeSet::insert` -/
def insert_text (digits : List Char) (prefixes : List (List Char)) : List (List Char) :=
  if digits ∈ prefixes then prefixes else prefixes.orderedInsert (· ≤ ·) digits

/-- The loop over the multiples below one, from `value` on. -/
def decimal_fraction_prefixes (step : DecimalStep) (value : ℕ) (prefixes : List (List Char)) :
    Option (List (List Char)) :=
  if value < step.scale then do
    let digits := fraction_prefix_digits (zero_padded step.scale_digits value)
    let _ ← checked_u64 (value + step.numerator)
    decimal_fraction_prefixes step (value + step.numerator) (insert_text digits prefixes)
  else some prefixes
termination_by step.scale - value
decreasing_by
  have := step.numerator_pos
  omega

def decimal_fraction_regex (step : DecimalStep) : Option Text :=
  if ¬ step.numerator ∣ step.scale then none
  else if step.numerator = 1 then
    if step.scale_digits = 1 then some (range '0' '9')
    else some ((Atom.range '0' '9').quantified (.between 1 step.scale_digits))
  else if step.scale_digits > 3 then none
  else do
    let prefixes ← decimal_fraction_prefixes step 0 []
    some (Pattern.join (prefixes.map fun digits =>
      decimal_fraction_prefix_regex digits step.scale_digits))

/-- `0|[1-9][0-9]*`; a group of this model stands for `(?:…)`. -/
def natural_regex : Text :=
  (char '0').choice (range '1' '9' ++ (Atom.range '0' '9').quantified .star)

def decimal_multiple_regex (multiple : Printed) : Option Text := do
  let step ← parse_decimal_step multiple
  let fraction ← decimal_fraction_regex step
  some (group natural_regex ++
    (Atom.group (char '.' ++ group fraction)).quantified .optional)

theorem fraction_prefix_digits_fractionText (g : Fraction) :
    fraction_prefix_digits (fractionText g) =
      if trimmed g = [] then ['0'] else fractionText (trimmed g) := by
  unfold fraction_prefix_digits
  rw [rdropWhile_fractionText]
  have hnil : fractionText (trimmed g) = [] ↔ trimmed g = [] := List.map_eq_nil_iff
  simp only [hnil]

theorem zeros_between_denotes (least most : ℕ) :
    ((Atom.char '0').quantified (.between least most)).Denotes
      (fractions {f | ∃ k, least ≤ k ∧ k ≤ most ∧ f = List.replicate k 0}) := by
  apply (Pattern.denotes_quantified _ _).of_eq
  have hzero : (Atom.char '0').language = ({['0']} : Language Char) := rfl
  rw [hzero]
  ext w
  constructor
  · intro h
    obtain ⟨k, hleast, hmost, hw⟩ := h
    rw [zeros_pow] at hw
    obtain ⟨f, hf, rfl⟩ := hw
    exact ⟨f, ⟨k, hleast, hmost, hf⟩, rfl⟩
  · intro h
    obtain ⟨f, ⟨k, hleast, hmost, hf⟩, rfl⟩ := h
    refine ⟨k, hleast, hmost, ?_⟩
    rw [zeros_pow]
    exact ⟨f, hf, rfl⟩

theorem literal_denotes_fraction (f : Fraction) :
    (literal (fractionText f)).Denotes (fractions {f}) :=
  (Pattern.denotes_literal _).of_eq (fractions_singleton f).symm

theorem zeros_iff {f : Fraction} {k : ℕ} :
    f ≠ [] ∧ f.length ≤ k ∧ tenths f = 0 ↔ ∃ j, 1 ≤ j ∧ j ≤ k ∧ f = List.replicate j 0 := by
  rw [tenths_eq_zero_iff]
  constructor
  · intro h
    obtain ⟨hne, hlength, hzero⟩ := h
    exact ⟨f.length, List.length_pos_iff.mpr hne, hlength, List.eq_replicate_of_mem hzero⟩
  · intro h
    obtain ⟨j, hpos, hle, rfl⟩ := h
    refine ⟨?_, by rwa [List.length_replicate], fun d hd => List.eq_of_mem_replicate hd⟩
    rw [ne_eq, List.replicate_eq_nil_iff]
    omega

theorem same_tenths_iff {f g : Fraction} (hg : trimmed g ≠ []) {k : ℕ} :
    f ≠ [] ∧ f.length ≤ k ∧ tenths f = tenths g ↔
      ∃ j, (trimmed g).length + j ≤ k ∧ f = trimmed g ++ List.replicate j 0 := by
  constructor
  · intro h
    obtain ⟨-, hlength, heq⟩ := h
    obtain ⟨j, hj⟩ := eq_trimmed_append f
    rw [trimmed_eq_iff.mpr heq] at hj
    refine ⟨j, ?_, hj⟩
    rwa [hj, List.length_append, List.length_replicate] at hlength
  · intro h
    obtain ⟨j, hle, rfl⟩ := h
    refine ⟨by simp [hg], ?_, ?_⟩
    · rwa [List.length_append, List.length_replicate]
    · rw [tenths_append_zeros, tenths_trimmed]

theorem decimal_fraction_prefix_regex_denotes {k : ℕ} {g : Fraction} (hk : g.length = k)
    (hpos : 0 < k) :
    (decimal_fraction_prefix_regex (fraction_prefix_digits (fractionText g)) k).Denotes
      (fractions {f | f ≠ [] ∧ f.length ≤ k ∧ tenths f = tenths g}) := by
  rw [fraction_prefix_digits_fractionText]
  unfold decimal_fraction_prefix_regex
  by_cases hg : trimmed g = []
  · have hset : {f | f ≠ [] ∧ f.length ≤ k ∧ tenths f = tenths g} =
        {f | ∃ j, 1 ≤ j ∧ j ≤ k ∧ f = List.replicate j 0} := by
      ext f
      rw [Set.mem_ofPred_eq, Set.mem_ofPred_eq, trimmed_eq_nil_iff.mp hg, zeros_iff]
    rw [if_pos hg, hset]
    dsimp only
    rw [if_pos (rfl : ['0'] = ['0'])]
    split_ifs with hextra
    · have hone : k = 1 := by
        rw [List.length_singleton] at hextra
        omega
      apply (literal_denotes_fraction [0]).of_eq
      congr 1
      ext f
      rw [Set.mem_singleton_iff, Set.mem_ofPred_eq, hone]
      constructor
      · intro h
        exact ⟨1, le_rfl, le_rfl, h⟩
      · intro h
        obtain ⟨j, hleast, hmost, rfl⟩ := h
        rw [Nat.le_antisymm hmost hleast]
        rfl
    · exact zeros_between_denotes 1 k
  · have hset : {f | f ≠ [] ∧ f.length ≤ k ∧ tenths f = tenths g} =
        {f | ∃ j, (trimmed g).length + j ≤ k ∧ f = trimmed g ++ List.replicate j 0} := by
      ext f
      rw [Set.mem_ofPred_eq, Set.mem_ofPred_eq, same_tenths_iff hg]
    have hlength : (trimmed g).length ≤ k := hk ▸ (List.rdropWhile_prefix _ g).length_le
    have hzero : fractionText (trimmed g) ≠ ['0'] := by
      intro h
      have hone : trimmed g = [0] := fractionText_injective h
      have htwice := congrArg trimmed hone
      rw [trimmed_eq_iff.mpr (tenths_trimmed g), hone] at htwice
      exact absurd htwice (by decide)
    rw [if_neg hg, hset]
    dsimp only
    rw [length_fractionText, if_neg hzero]
    split_ifs with hextra
    · apply (literal_denotes_fraction (trimmed g)).of_eq
      congr 1
      ext f
      rw [Set.mem_singleton_iff, Set.mem_ofPred_eq]
      constructor
      · intro h
        exact ⟨0, hlength, by rw [h, List.replicate_zero, List.append_nil]⟩
      · intro h
        obtain ⟨j, hj, rfl⟩ := h
        have hj0 : j = 0 := by omega
        rw [hj0, List.replicate_zero, List.append_nil]
    · apply ((literal_denotes_fraction (trimmed g)).append (zeros_between_denotes 0 _)).of_eq
      rw [fractions_mul]
      congr 1
      ext f
      constructor
      · intro h
        obtain ⟨_, rfl, _, ⟨j, -, hj, rfl⟩, rfl⟩ := h
        exact ⟨j, by omega, rfl⟩
      · intro h
        obtain ⟨j, hj, rfl⟩ := h
        exact ⟨_, rfl, _, ⟨j, Nat.zero_le j, by omega, rfl⟩, rfl⟩

theorem zero_padded_eq {k v : ℕ} (hpos : 0 < k) (h : v < 10 ^ k) :
    ∃ g : Fraction, zero_padded k v = fractionText g ∧ g.length = k ∧
      tenths g = (v : ℚ) / 10 ^ k := by
  have hdigit : ∀ c ∈ zero_padded k v, c.isDigit := by
    intro c hc
    obtain hc | hc := List.mem_append.mp hc
    · rw [List.eq_of_mem_replicate hc]
      rfl
    · exact isDigit_of_mem_spelling hc
  obtain ⟨g, hg⟩ := exists_fractionText hdigit
  have hlength : g.length = k := by
    have hle : (spelling v).length ≤ k := (length_spelling_le_iff hpos).mpr h
    rw [← length_fractionText, ← hg, zero_padded, List.length_append, List.length_replicate,
      Nat.sub_add_cancel hle]
  have hnumber : fractionNumber g = v := by
    have hparsed := ofDigitChars_fractionText g 0
    rw [← hg, zero_padded, Nat.ofDigitChars_append, Nat.ofDigitChars_replicate_zero, mul_zero,
      zero_mul, zero_add] at hparsed
    rw [← hparsed]
    exact Nat.ofDigitChars_ten_toDigits
  refine ⟨g, hg, hlength, ?_⟩
  rw [tenths_eq_number, hnumber, hlength]

theorem mem_insert_text {a b : List Char} {prefixes : List (List Char)} :
    a ∈ insert_text b prefixes ↔ a = b ∨ a ∈ prefixes := by
  unfold insert_text
  split_ifs with h
  · constructor
    · exact Or.inr
    · intro ha
      obtain rfl | ha := ha
      · exact h
      · exact ha
  · exact List.mem_orderedInsert _

namespace DecimalStep

variable (step : DecimalStep)

theorem scale_digits_pos : 0 < step.scale_digits := by
  by_contra h
  have hzero : step.scale_digits = 0 := by omega
  have hscale := step.scale_eq
  rw [hzero, pow_zero] at hscale
  have := step.numerator_pos
  have := step.numerator_lt
  omega

/-- The digits that the loop stores for a multiple. -/
def digitsOf (value : ℕ) : List Char := fraction_prefix_digits (zero_padded step.scale_digits value)

/-- The fractions that are a multiple of the step. -/
def multiples : Set Fraction :=
  {f | f ≠ [] ∧ f.length ≤ step.scale_digits ∧
    ∃ v, step.numerator ∣ v ∧ tenths f = (v : ℚ) / step.scale}

end DecimalStep

theorem mem_decimal_fraction_prefixes {step : DecimalStep} {value : ℕ}
    {prefixes result : List (List Char)}
    (h : decimal_fraction_prefixes step value prefixes = some result) {digits : List Char} :
    digits ∈ result ↔ digits ∈ prefixes ∨
      ∃ j, value + j * step.numerator < step.scale ∧
        digits = step.digitsOf (value + j * step.numerator) := by
  induction hn : step.scale - value using Nat.strong_induction_on generalizing value prefixes with
  | _ n ih =>
    have hpos := step.numerator_pos
    rw [decimal_fraction_prefixes] at h
    split_ifs at h with hlt
    · obtain ⟨-, -, hrest⟩ := Option.bind_eq_some_iff.mp h
      rw [ih _ (by omega) hrest rfl, mem_insert_text]
      constructor
      · intro hmem
        obtain (hmem | hmem) | ⟨j, hj, hmem⟩ := hmem
        · exact Or.inr ⟨0, by omega, by rw [zero_mul, add_zero]; exact hmem⟩
        · exact Or.inl hmem
        · have hnext : value + step.numerator + j * step.numerator =
              value + (j + 1) * step.numerator := by ring
          rw [hnext] at hj hmem
          exact Or.inr ⟨j + 1, hj, hmem⟩
      · intro hmem
        obtain hmem | ⟨j, hj, hmem⟩ := hmem
        · exact Or.inl (Or.inr hmem)
        · cases j with
          | zero =>
            rw [zero_mul, add_zero] at hmem
            exact Or.inl (Or.inl hmem)
          | succ j =>
            have hnext : value + (j + 1) * step.numerator =
                value + step.numerator + j * step.numerator := by ring
            rw [hnext] at hj hmem
            exact Or.inr ⟨j, hj, hmem⟩
    · rw [Option.some.injEq] at h
      subst h
      constructor
      · exact Or.inl
      · intro hmem
        obtain hmem | ⟨j, hj, -⟩ := hmem
        · exact hmem
        · omega

theorem tenths_eq_scaled {f : Fraction} {k : ℕ} (h : f.length ≤ k) :
    tenths f = ((fractionNumber f * 10 ^ (k - f.length) : ℕ) : ℚ) / (10 ^ k : ℕ) := by
  obtain ⟨j, rfl⟩ := Nat.exists_eq_add_of_le h
  rw [tenths_eq_number, Nat.add_sub_cancel_left, pow_add]
  push_cast
  field_simp

theorem digitsOf_denotes (step : DecimalStep) {v : ℕ} (h : v < step.scale) :
    (decimal_fraction_prefix_regex (step.digitsOf v) step.scale_digits).Denotes
      (fractions {f | f ≠ [] ∧ f.length ≤ step.scale_digits ∧ tenths f = (v : ℚ) / step.scale}) := by
  have hpos := step.scale_digits_pos
  rw [step.scale_eq] at h
  obtain ⟨g, hg, hlength, htenths⟩ := zero_padded_eq hpos h
  rw [DecimalStep.digitsOf, hg]
  apply (decimal_fraction_prefix_regex_denotes hlength hpos).of_eq
  rw [htenths, step.scale_eq]
  push_cast
  rfl

theorem DecimalStep.multiples_of_one {step : DecimalStep} (h : step.numerator = 1) :
    step.multiples = {f | 1 ≤ f.length ∧ f.length ≤ step.scale_digits} := by
  ext f
  rw [DecimalStep.multiples, Set.mem_ofPred_eq, Set.mem_ofPred_eq, ← List.length_pos_iff]
  constructor
  · intro hf
    exact ⟨hf.1, hf.2.1⟩
  · intro hf
    have htenths := tenths_eq_scaled hf.2
    rw [← step.scale_eq] at htenths
    exact ⟨hf.1, hf.2, _, h ▸ one_dvd _, htenths⟩

theorem digits_between_denotes (k : ℕ) :
    ((Atom.range '0' '9').quantified (.between 1 k)).Denotes
      (fractions {f | 1 ≤ f.length ∧ f.length ≤ k}) := by
  apply (Pattern.denotes_quantified _ _).of_eq
  ext w
  rw [digit_language]
  constructor
  · intro h
    obtain ⟨j, hleast, hmost, hw⟩ := h
    rw [digits_pow] at hw
    obtain ⟨f, rfl, rfl⟩ := hw
    exact ⟨f, ⟨hleast, hmost⟩, rfl⟩
  · intro h
    obtain ⟨f, ⟨hleast, hmost⟩, rfl⟩ := h
    refine ⟨f.length, hleast, hmost, ?_⟩
    rw [digits_pow]
    exact ⟨f, rfl, rfl⟩

theorem decimal_fraction_regex_spec {step : DecimalStep} {p : Text}
    (h : decimal_fraction_regex step = some p) :
    step.numerator ∣ step.scale ∧ p.language = fractions step.multiples := by
  have hpos := step.numerator_pos
  have hdigits := step.scale_digits_pos
  have hscale : (0 : ℚ) < step.scale := by
    have := step.numerator_lt
    exact_mod_cast (by omega : 0 < step.scale)
  unfold decimal_fraction_regex at h
  rw [ite_not] at h
  split_ifs at h with hdvd hone hsingle hlarge
  · refine ⟨hdvd, ?_⟩
    have hset : {f : Fraction | 1 ≤ f.length ∧ f.length ≤ 1} = {f | f.length = 1} := by
      ext f
      simp only [Set.mem_ofPred_eq]
      omega
    rw [← Option.some.inj h, DecimalStep.multiples_of_one hone, hsingle, hset, ← digits_pow, pow_one]
    exact (denotes_digits (i := 0) (j := 9) (by decide) (by decide)).language_eq
  · refine ⟨hdvd, ?_⟩
    rw [← Option.some.inj h, DecimalStep.multiples_of_one hone]
    exact (digits_between_denotes _).language_eq
  · refine ⟨hdvd, ?_⟩
    obtain ⟨prefixes, hprefixes, hp⟩ := Option.bind_eq_some_iff.mp h
    rw [← Option.some.inj hp]
    have hmem : ∀ digits, digits ∈ prefixes ↔
        ∃ v, step.numerator ∣ v ∧ v < step.scale ∧ digits = step.digitsOf v := by
      intro digits
      rw [mem_decimal_fraction_prefixes hprefixes]
      constructor
      · intro hd
        obtain hd | ⟨j, hj, hd⟩ := hd
        · exact absurd hd List.not_mem_nil
        · rw [zero_add] at hj hd
          exact ⟨_, dvd_mul_left _ _, hj, hd⟩
      · intro hd
        obtain ⟨_, ⟨j, rfl⟩, hj, hd⟩ := hd
        rw [mul_comm] at hj hd
        exact Or.inr ⟨j, by rwa [zero_add], by rwa [zero_add]⟩
    have hne : prefixes ≠ [] := by
      have hzero : step.digitsOf 0 ∈ prefixes := by
        have := step.numerator_lt
        exact (hmem _).mpr ⟨0, dvd_zero _, by omega, rfl⟩
      exact List.ne_nil_of_mem hzero
    ext w
    rw [Pattern.mem_language_join (by simpa using hne)]
    constructor
    · intro hw
      obtain ⟨q, hq, hw⟩ := hw
      obtain ⟨digits, hd, rfl⟩ := List.mem_map.mp hq
      obtain ⟨v, hv, hlt, rfl⟩ := (hmem digits).mp hd
      rw [(digitsOf_denotes step hlt).language_eq] at hw
      obtain ⟨f, ⟨hf, hle, heq⟩, rfl⟩ := hw
      exact ⟨f, ⟨hf, hle, v, hv, heq⟩, rfl⟩
    · intro hw
      obtain ⟨f, ⟨hf, hle, v, hv, heq⟩, rfl⟩ := hw
      have hlt : v < step.scale := by
        have hone := tenths_lt_one f
        rw [heq, div_lt_one hscale] at hone
        exact_mod_cast hone
      refine ⟨_, List.mem_map.mpr ⟨step.digitsOf v, (hmem _).mpr ⟨v, hv, hlt, rfl⟩, rfl⟩, ?_⟩
      rw [(digitsOf_denotes step hlt).language_eq]
      exact ⟨f, ⟨hf, hle, heq⟩, rfl⟩

theorem split_once_append {c : Char} {a b : List Char} (h : c ∉ a) :
    split_once c (a ++ c :: b) = some (a, b) := by
  have hall : ∀ x ∈ a, decide (x ≠ c) = true := by
    intro x hx
    exact decide_eq_true fun hc => h (hc ▸ hx)
  rw [split_once, if_pos (List.mem_append_right _ List.mem_cons_self),
    List.takeWhile_append_of_pos hall, List.dropWhile_append_of_pos hall,
    List.takeWhile_cons_of_neg (by simp), List.dropWhile_cons_of_neg (by simp), List.append_nil,
    List.tail_cons]

theorem parse_decimal_step_spec {multiple : Printed} {step : DecimalStep}
    (h : parse_decimal_step multiple = some step) :
    multiple.value = (step.numerator : ℚ) / step.scale ∧
      step.scale_digits = multiple.fraction.length := by
  unfold parse_decimal_step at h
  split_ifs at h with hsign htext
  obtain ⟨hpos, hfraction⟩ := not_or.mp hsign
  have hnegative : multiple.negative = false := by
    by_contra hneg
    have hmagnitude : 0 ≤ multiple.magnitude :=
      add_nonneg (Nat.cast_nonneg _) (tenths_nonneg _)
    rw [Numeral.value, if_pos (by simpa using hneg)] at hpos
    exact hpos (neg_nonpos.mpr hmagnitude)
  have hsplit : split_once '.' multiple.text =
      some (spelling multiple.integer, fractionText multiple.fraction) := by
    obtain ⟨d, f, hf⟩ := List.exists_cons_of_ne_nil hfraction
    rw [Numeral.text, hnegative, if_neg (by decide), hf, unsignedText]
    exact split_once_append (point_not_mem_spelling _)
  rw [hsplit] at h
  change (if _ then none else _) = some step at h
  split_ifs at h with hparts
  obtain ⟨-, -, h⟩ := Option.bind_eq_some_iff.mp h
  obtain ⟨numerator, hnumerator, h⟩ := Option.bind_eq_some_iff.mp h
  split_ifs at h
  rw [Option.some.injEq] at h
  subst h
  have hinteger : multiple.integer = 0 := by
    have hzero : spelling 0 = ['0'] := spelling_of_lt (by decide)
    exact spelling_injective ((not_not.mp (not_or.mp hparts).1).trans hzero.symm)
  have hnumber : numerator = fractionNumber multiple.fraction := by
    unfold parse_u64 checked_u64 at hnumerator
    split_ifs at hnumerator
    rw [← Option.some.inj hnumerator, ofDigitChars_fractionText, zero_mul, zero_add]
  have hlength : (fractionText multiple.fraction).length = multiple.fraction.length :=
    length_fractionText _
  refine ⟨?_, hlength⟩
  dsimp only
  rw [Numeral.value, hnegative, if_neg (by decide), Numeral.magnitude, hinteger, Nat.cast_zero,
    zero_add, tenths_eq_number, hnumber, hlength]
  push_cast
  rfl

theorem natural_group_denotes : (group natural_regex).Denotes (spellings Set.univ) :=
  (Pattern.denotes_group _).of_eq naturals_language

theorem DecimalStep.nil_notMem_multiples (step : DecimalStep) : [] ∉ step.multiples :=
  fun h => h.1 rfl

/-- A spelling with few digits after the point is a multiple exactly if its fraction is. -/
theorem DecimalStep.multiple_iff {step : DecimalStep} (h : step.numerator ∣ step.scale) {n : ℕ}
    {f : Fraction} (hle : f.length ≤ step.scale_digits) :
    (∃ m : ℤ, (n : ℚ) + tenths f = m * ((step.numerator : ℚ) / step.scale)) ↔
      f = [] ∨ f ∈ step.multiples := by
  have hnumerator : (step.numerator : ℚ) ≠ 0 := Nat.cast_ne_zero.mpr step.numerator_pos.ne'
  have hscale : (step.scale : ℚ) ≠ 0 :=
    Nat.cast_ne_zero.mpr (step.numerator_pos.trans step.numerator_lt).ne'
  constructor
  · intro hm
    obtain ⟨m, hm⟩ := hm
    have htenths := tenths_eq_scaled hle
    rw [← step.scale_eq] at htenths
    have hdvd : step.numerator ∣ fractionNumber f * 10 ^ (step.scale_digits - f.length) := by
      rw [htenths] at hm
      field_simp at hm
      have hsum : (n : ℤ) * step.scale + (fractionNumber f * 10 ^ (step.scale_digits - f.length) : ℕ) =
          m * step.numerator := by exact_mod_cast hm
      have hright : (step.numerator : ℤ) ∣ (n : ℤ) * step.scale :=
        Dvd.dvd.mul_left (Int.natCast_dvd_natCast.mpr h) _
      exact Int.natCast_dvd_natCast.mp ((dvd_add_right hright).mp (hsum ▸ dvd_mul_left _ _))
    by_cases hf : f = []
    · exact Or.inl hf
    · exact Or.inr ⟨hf, hle, _, hdvd, htenths⟩
  · intro hf
    have hv : ∃ v, step.numerator ∣ v ∧ tenths f = (v : ℚ) / step.scale := by
      obtain rfl | hf := hf
      · exact ⟨0, dvd_zero _, by rw [tenths, Nat.cast_zero, zero_div]⟩
      · exact hf.2.2
    obtain ⟨v, ⟨b, rfl⟩, htenths⟩ := hv
    obtain ⟨a, ha⟩ := h
    refine ⟨n * a + b, ?_⟩
    have hcast : (step.scale : ℚ) = step.numerator * a := by exact_mod_cast ha
    rw [htenths]
    field_simp
    push_cast
    rw [hcast]
    ring

/-- The step 0.5. -/
def half : Printed := ⟨⟨false, 0, [5]⟩, by decide⟩

def halfStep : DecimalStep := ⟨5, 10, 1, by decide, by decide, by decide⟩

theorem decimal_fraction_prefixes_next {step : DecimalStep} {value : ℕ}
    {prefixes : List (List Char)} (h : value < step.scale)
    (hchecked : value + step.numerator < 2 ^ 64) :
    decimal_fraction_prefixes step value prefixes = decimal_fraction_prefixes step
      (value + step.numerator) (insert_text (step.digitsOf value) prefixes) := by
  rw [decimal_fraction_prefixes, if_pos h, checked_u64, if_pos hchecked]
  rfl

theorem parse_decimal_step_half : parse_decimal_step half = some halfStep := by decide +kernel

theorem decimal_fraction_regex_half :
    decimal_fraction_regex halfStep = some ((literal ['0']).choice (literal ['5'])) := by
  have hprefixes : decimal_fraction_prefixes halfStep 0 [] = some [['0'], ['5']] := by
    rw [decimal_fraction_prefixes_next (by decide) (by decide),
      decimal_fraction_prefixes_next (by decide) (by decide), decimal_fraction_prefixes]
    rfl
  rw [decimal_fraction_regex, hprefixes]
  rfl

theorem decimal_multiple_regex_half :
    ∃ p, decimal_multiple_regex half = some p := by
  rw [decimal_multiple_regex, parse_decimal_step_half]
  exact ⟨_, congrArg (fun o => Option.bind o _) decimal_fraction_regex_half⟩

theorem decimal_multiple_regex_correct {multiple : Printed} {p : Text}
    (h : decimal_multiple_regex multiple = some p) :
    ∃ step, parse_decimal_step multiple = some step ∧
      multiple.value = (step.numerator : ℚ) / step.scale ∧
      step.scale_digits = multiple.fraction.length ∧
      ∀ w, w ∈ p.language ↔ ∃ s : Numeral, s.negative = false ∧
        s.fraction.length ≤ step.scale_digits ∧ (∃ m : ℤ, s.value = m * multiple.value) ∧
        w = s.text := by
  obtain ⟨step, hstep, h⟩ := Option.bind_eq_some_iff.mp h
  obtain ⟨fraction, hfraction, h⟩ := Option.bind_eq_some_iff.mp h
  rw [Option.some.injEq] at h
  subst h
  obtain ⟨hvalue, hdigits⟩ := parse_decimal_step_spec hstep
  obtain ⟨hdvd, hlanguage⟩ := decimal_fraction_regex_spec hfraction
  refine ⟨step, hstep, hvalue, hdigits, ?_⟩
  intro w
  have hpoint := ((Pattern.denotes_char '.').append ((Pattern.denotes_group fraction).of_eq
    hlanguage)).group_with .optional
  have hwhole := natural_group_denotes.append hpoint
  rw [hwhole.language_eq]
  rw [Regex.Quantifier.apply, spellings_mul_optional_point step.nil_notMem_multiples]
  constructor
  · intro hw
    obtain ⟨⟨n, f⟩, ⟨-, hf⟩, rfl⟩ := hw
    have hle : f.length ≤ step.scale_digits := by
      obtain hf | hf := hf
      · rw [show f = [] from hf]
        exact Nat.zero_le _
      · exact hf.2.1
    refine ⟨⟨false, n, f⟩, rfl, hle, ?_, rfl⟩
    rw [hvalue]
    exact (DecimalStep.multiple_iff hdvd hle).mpr hf
  · intro hw
    obtain ⟨⟨_, n, f⟩, rfl, hle, hm, rfl⟩ := hw
    rw [hvalue] at hm
    exact ⟨(n, f), ⟨trivial, (DecimalStep.multiple_iff hdvd hle).mp hm⟩, rfl⟩

theorem decimal_multiple_regex_correct_half :
    ∃ p step, decimal_multiple_regex half = some p ∧ parse_decimal_step half = some step ∧
      ∀ w, w ∈ p.language ↔ ∃ s : Numeral, s.negative = false ∧
        s.fraction.length ≤ step.scale_digits ∧ (∃ m : ℤ, s.value = m * half.value) ∧
        w = s.text := by
  obtain ⟨p, hp⟩ := decimal_multiple_regex_half
  obtain ⟨step, hstep, -, -, hw⟩ := decimal_multiple_regex_correct hp
  exact ⟨p, step, hp, hstep, hw⟩

end NumericRange

end GlrMask
