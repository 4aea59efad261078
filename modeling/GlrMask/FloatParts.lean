import GlrMask.FloatFractions

/-!
# The decimals matched between two bounds

Every pattern for bounds that are not negative denotes a set of integer parts with
fractions. The sets of the two modes differ in the spellings without a point, and where
the left bound is an integer that is excluded.
-/

namespace GlrMask

namespace NumericRange

open Regex (Pattern Atom group literal char range)
open Decimal

/-- The left fraction that `lexi_range` sees. -/
def padded (f g : Fraction) : Fraction := f ++ List.replicate (g.length - f.length) 0

def ParsesZero (f : Fraction) : Prop := (parse_i64 (fractionText f)).getD 0 = 0

/-- The fractions matched with the integer part that both bounds have. -/
def SamePart (mode : FloatRangeMode) (lf rf : Fraction) (li ri : Bool) (f : Fraction) : Prop :=
  Between li ri (padded lf rf) (padded rf lf) f ∨
    mode = .AllowIntegers ∧ ParsesZero (padded lf rf) ∧ f = []

/-- The fractions matched with the integer part of the left bound. -/
def LowerPart (mode : FloatRangeMode) (lf : Fraction) (li : Bool) (f : Fraction) : Prop :=
  match mode with
  | .AllowIntegers => if lf ≠ [] ∨ ¬ li then AtLeast li lf f else True
  | .FractionOnly => if lf ≠ [] then AtLeast li lf f else f ≠ []

/-- The fractions matched with the integer part of the right bound. -/
def UpperPart (mode : FloatRangeMode) (rf : Fraction) (ri : Bool) (f : Fraction) : Prop :=
  (mode = .AllowIntegers ∧ f = [] ∧ (rf ≠ [] ∨ ri)) ∨
    if rf ≠ [] then AtMost ri rf f else ri ∧ f ≠ [] ∧ ∀ d ∈ f, d = 0

/-- What is matched between two bounds that are not negative. -/
def matchedBetween (mode : FloatRangeMode) (left right : Double) (li ri : Bool) :
    Set (ℕ × Fraction) :=
  {x | if left.integer = right.integer then
      x.1 = left.integer ∧ SamePart mode left.fraction right.fraction li ri x.2
    else
      x.1 = left.integer ∧ LowerPart mode left.fraction li x.2 ∨
      (left.integer < x.1 ∧ x.1 < right.integer) ∧ (mode = .AllowIntegers ∨ x.2 ≠ []) ∨
      x.1 = right.integer ∧ UpperPart mode right.fraction ri x.2}

theorem literal_integer_denotes (n : ℕ) :
    (literal (integer_spelling n)).Denotes (spellings {n}) := by
  apply (Pattern.denotes_literal _).of_eq
  rw [integer_spelling, if_neg (by omega), Int.natAbs_natCast, spellings_singleton]

theorem with_fraction_denotes {p q : Text} {s : Set ℕ} {t : Set Fraction}
    (hp : p.Denotes (spellings s)) (hq : q.Denotes (fractions t)) (ht : [] ∉ t) :
    (p ++ (char '.' ++ q)).Denotes (decimals {x | x.1 ∈ s ∧ x.2 ∈ t}) := by
  rw [← spellings_mul_point ht]
  exact hp.append ((Pattern.denotes_char '.').append hq)

theorem with_optional_fraction_denotes {p q : Text} {s : Set ℕ} {t : Set Fraction}
    (hp : p.Denotes (spellings s)) (hq : q.Denotes (fractions t)) (ht : [] ∉ t) :
    (p ++ (Atom.group (char '.' ++ q)).quantified .optional).Denotes
      (decimals {x | x.1 ∈ s ∧ (x.2 = [] ∨ x.2 ∈ t)}) := by
  rw [← spellings_mul_optional_point ht]
  exact hp.append (((Pattern.denotes_char '.').append hq).group_with .optional)

theorem group_denotes {p : Text} {L : Language Char} (h : p.Denotes L) : (group p).Denotes L :=
  (Pattern.denotes_group p).of_eq h.language_eq

theorem Between.ne_nil {li ri : Bool} {ld rd : Fraction} : ¬ Between li ri ld rd [] := by
  cases ld <;> cases rd <;> exact id

theorem pad_decimal_fraction_fractionText (f g : Fraction) :
    pad_decimal_fraction (fractionText f) (fractionText g) = fractionText (padded f g) := by
  rw [pad_decimal_fraction, length_fractionText, length_fractionText, padded, fractionText,
    fractionText, List.map_append, List.map_replicate]
  rfl

theorem tenths_padded (f g : Fraction) : tenths (padded f g) = tenths f := tenths_append_zeros _ _

theorem same_integer_float_part_denotes {n m : ℕ} {lf rf : Fraction} {li ri : Bool}
    {mode : FloatRangeMode} {p : Text} (hlt : tenths lf < tenths rf)
    (h : same_integer_float_part ⟨n, m, fractionText lf, fractionText rf⟩ li ri mode = .ok p) :
    p.Denotes (decimals {x | x.1 = n ∧ SamePart mode lf rf li ri x.2}) := by
  unfold same_integer_float_part at h
  dsimp only at h
  rw [pad_decimal_fraction_fractionText, pad_decimal_fraction_fractionText] at h
  obtain ⟨digits, hdigits, hp⟩ := map_eq_ok h
  have hdenotes := lexi_range_denotes (by rwa [tenths_padded, tenths_padded]) hdigits
  rw [← hp]
  split_ifs with hzero
  · apply (group_denotes (with_optional_fraction_denotes (literal_integer_denotes n) hdenotes
      Between.ne_nil)).of_eq
    congr 1
    ext x
    simp only [Set.mem_ofPred_eq, Set.mem_singleton_iff, SamePart, ParsesZero, hzero, true_and]
    rw [or_comm]
  · apply (group_denotes (with_fraction_denotes (literal_integer_denotes n) hdenotes
      Between.ne_nil)).of_eq
    congr 1
    ext x
    simp only [Set.mem_ofPred_eq, Set.mem_singleton_iff, SamePart, ParsesZero]
    constructor
    · intro hx
      exact ⟨hx.1, Or.inl hx.2⟩
    · intro hx
      obtain ⟨hn, hx | ⟨hmode, hparse, -⟩⟩ := hx
      · exact ⟨hn, hx⟩
      · exact absurd ⟨hmode, hparse⟩ hzero

theorem AtLeast.ne_nil {incl : Bool} {x : Fraction} (h : x ≠ [] ∨ ¬ incl) : ¬ AtLeast incl x [] := by
  cases x with
  | nil =>
    obtain h | h := h
    · exact absurd rfl h
    · intro hx
      rw [AtLeast, if_neg h] at hx
      obtain ⟨g, d, -, heq⟩ := hx
      exact List.append_ne_nil_of_right_ne_nil g (List.cons_ne_nil d []) heq.symm
  | cons x xs => exact id

theorem AtMost.ne_nil {incl : Bool} {x : Fraction} (h : x ≠ []) : ¬ AtMost incl x [] := by
  cases x with
  | nil => exact absurd rfl h
  | cons x xs => exact id

theorem zeros_plus_denotes : ((Atom.char '0').quantified .plus).Denotes
    (fractions {f | f ≠ [] ∧ ∀ d ∈ f, d = 0}) := by
  have hzero : (Atom.char '0').language = ({['0']} : Language Char) := rfl
  have hone : ({['0']} : Language Char) = fractions {[0]} := (fractions_singleton [0]).symm
  apply (Pattern.denotes_quantified _ _).of_eq
  rw [Regex.Quantifier.apply, hzero, zeros_star, hone, fractions_mul]
  congr 1
  ext f
  constructor
  · intro h
    obtain ⟨_, rfl, g, hg, rfl⟩ := h
    exact ⟨List.cons_ne_nil 0 g, List.forall_mem_cons.mpr ⟨rfl, hg⟩⟩
  · intro h
    obtain ⟨hne, hzeros⟩ := h
    obtain ⟨d, g, rfl⟩ := List.exists_cons_of_ne_nil hne
    obtain ⟨rfl, hg⟩ := List.forall_mem_cons.mp hzeros
    exact ⟨[0], rfl, g, hg, rfl⟩

theorem decimals_empty : decimals ∅ = 0 := by
  ext w
  constructor
  · intro h
    obtain ⟨x, hx, -⟩ := h
    exact absurd hx (Set.notMem_empty x)
  · intro h
    exact absurd h (Language.notMem_zero w)

/-- A set of decimals that no alternative stands for is empty. -/
theorem denoteAll_nil_of_empty {s : Set (ℕ × Fraction)} (h : ∀ x, x ∉ s) :
    Pattern.DenoteAll ([] : List Text) (decimals s) := by
  rw [Set.eq_empty_iff_forall_notMem.mpr h, decimals_empty]
  exact Pattern.denoteAll_nil

theorem checked_eq_ok {n a : ℤ} (h : checked n = .ok a) : a = n := by
  unfold checked at h
  split_ifs at h
  exact (Except.ok.inj h).symm

theorem fractionText_ne_nil {f : Fraction} : fractionText f ≠ [] ↔ f ≠ [] :=
  List.map_eq_nil_iff.not

/-- One alternative for an integer part and the fractions of a pattern. -/
theorem fraction_part_denote {q : Text} {t : Set Fraction} (n : ℕ) (hq : q.Denotes (fractions t))
    (ht : [] ∉ t) : Pattern.DenoteAll [group (literal (integer_spelling n) ++ (char '.' ++ q))]
      (decimals {x | x.1 = n ∧ x.2 ∈ t}) :=
  (group_denotes (with_fraction_denotes (literal_integer_denotes n) hq ht)).denoteAll

/-- The left bound is either passed, or an integer that belongs to the range. -/
theorem lower_float_part_denote {n m : ℕ} {lf rf : Fraction} {li : Bool} {mode : FloatRangeMode}
    {lower : List Text} {bounds : NonnegativeDecimalBounds}
    (h : lower_float_part ⟨n, m, fractionText lf, fractionText rf⟩ li mode = .ok (lower, bounds)) :
    (bounds = ⟨(n + 1 : ℕ), m, fractionText lf, fractionText rf⟩ ∧ lower ≠ [] ∧
      Pattern.DenoteAll lower (decimals {x | x.1 = n ∧ LowerPart mode lf li x.2})) ∨
    (bounds = ⟨n, m, fractionText lf, fractionText rf⟩ ∧ lower = [] ∧
      mode = .AllowIntegers ∧ lf = [] ∧ li) := by
  have hlexi := lexi_x_to_9_denotes li lf
  unfold lower_float_part at h
  simp only [fractionText_ne_nil] at h
  cases mode with
  | AllowIntegers =>
    dsimp only at h
    split_ifs at h with hlf
    · obtain ⟨next, hnext, hresult⟩ := map_eq_ok h
      obtain ⟨k, hk, rfl⟩ := map_eq_ok hnext
      obtain ⟨rfl, rfl⟩ := Prod.mk.inj hresult
      have hpart := fraction_part_denote n hlexi (AtLeast.ne_nil hlf)
      refine Or.inl ⟨by rw [checked_eq_ok hk]; push_cast; rfl, List.cons_ne_nil _ _, ?_⟩
      simp only [LowerPart, if_pos hlf]
      exact hpart
    · obtain ⟨rfl, rfl⟩ := Prod.mk.inj (Except.ok.inj h)
      obtain ⟨hnil, hincl⟩ := not_or.mp hlf
      exact Or.inr ⟨rfl, rfl, rfl, not_not.mp hnil, not_not.mp hincl⟩
  | FractionOnly =>
    left
    dsimp only at h
    split_ifs at h with hlf
    · obtain ⟨next, hnext, hresult⟩ := map_eq_ok h
      obtain ⟨k, hk, rfl⟩ := map_eq_ok hnext
      obtain ⟨rfl, rfl⟩ := Prod.mk.inj hresult
      have hpart := fraction_part_denote n hlexi (AtLeast.ne_nil (Or.inl hlf))
      refine ⟨by rw [checked_eq_ok hk]; push_cast; rfl, List.cons_ne_nil _ _, ?_⟩
      simp only [LowerPart, if_pos hlf]
      exact hpart
    · obtain ⟨next, hnext, hresult⟩ := map_eq_ok h
      obtain ⟨k, hk, rfl⟩ := map_eq_ok hnext
      obtain ⟨rfl, rfl⟩ := Prod.mk.inj hresult
      have hpart := fraction_part_denote n some_digits_denotes (fun hnil => hnil rfl)
      refine ⟨by rw [checked_eq_ok hk]; push_cast; rfl, List.cons_ne_nil _ _, ?_⟩
      simp only [LowerPart, if_neg hlf]
      exact hpart

theorem middle_float_part_denote {k m : ℕ} {lf rf : List Char} {mode : FloatRangeMode}
    {middle : List Text} (hm : (m : ℤ) ≤ i64_max)
    (h : middle_float_part ⟨k, m, lf, rf⟩ mode = .ok middle) :
    Pattern.DenoteAll middle (decimals
      {x | (k ≤ x.1 ∧ x.1 < m) ∧ (mode = .AllowIntegers ∨ x.2 ≠ [])}) ∧ (k < m → middle ≠ []) := by
  unfold middle_float_part at h
  dsimp only at h
  split_ifs at h with hle
  · rw [← Except.ok.inj h]
    have hle' : m ≤ k := by exact_mod_cast hle
    refine ⟨denoteAll_nil_of_empty ?_, fun hlt => absurd hle' (not_le.mpr hlt)⟩
    intro x hx
    have := hx.1
    omega
  · have hlt : (k : ℤ) ≤ m - 1 := by omega
    obtain ⟨inner, hinner, hdenotes⟩ := rx_bounded_int_range_nonneg (Int.natCast_nonneg k) hlt
      (by omega)
    rw [rx_int_range, hinner] at h
    have hmiddle := Except.ok.inj h
    have hset : {j : ℕ | (k : ℤ) ≤ j ∧ (j : ℤ) ≤ m - 1} = {j | k ≤ j ∧ j < m} := by
      ext j
      simp only [Set.mem_ofPred_eq]
      omega
    rw [hset] at hdenotes
    have hnil : [] ∉ {f : Fraction | f ≠ []} := fun hnil => hnil rfl
    cases mode with
    | AllowIntegers =>
      rw [← hmiddle]
      refine ⟨?_, fun _ => List.cons_ne_nil _ _⟩
      apply ((group_denotes (with_optional_fraction_denotes hdenotes some_digits_denotes hnil)).of_eq
        _).denoteAll
      congr 1
      ext x
      simp only [Set.mem_ofPred_eq, true_or, and_true]
      exact and_iff_left (em _)
    | FractionOnly =>
      rw [← hmiddle]
      refine ⟨?_, fun _ => List.cons_ne_nil _ _⟩
      apply ((group_denotes (with_fraction_denotes hdenotes some_digits_denotes hnil)).of_eq
        _).denoteAll
      congr 1
      ext x
      simp

theorem upper_float_part_denote {b m : ℕ} {lf rf : Fraction} {ri : Bool} {mode : FloatRangeMode}
    {upper : List Text}
    (h : upper_float_part ⟨b, m, fractionText lf, fractionText rf⟩ ri mode = .ok upper) :
    Pattern.DenoteAll upper (decimals {x | x.1 = m ∧ UpperPart mode rf ri x.2}) := by
  have hinteger := literal_integer_denotes m
  unfold upper_float_part at h
  simp only [fractionText_ne_nil] at h
  by_cases hrf : rf ≠ []
  · rw [if_pos hrf] at h
    obtain ⟨digits, hdigits, hupper⟩ := map_eq_ok h
    have hdenotes := lexi_0_to_x_denotes hdigits
    have hnil : [] ∉ {f | AtMost ri rf f} := AtMost.ne_nil hrf
    cases mode with
    | AllowIntegers =>
      rw [← hupper]
      apply ((group_denotes (with_optional_fraction_denotes hinteger hdenotes hnil)).of_eq
        _).denoteAll
      congr 1
      ext x
      simp [UpperPart, hrf]
    | FractionOnly =>
      have hempty : digits.isEmpty = false := by
        by_contra htrue
        have hpattern : digits = .empty := by
          cases digits with
          | alternative b rest => exact absurd rfl htrue
          | branch b => cases b with
            | nil => rfl
            | cons a q rest => exact absurd rfl htrue
        rw [hpattern] at hdenotes
        have hmem : [] ∈ fractions {f | AtMost ri rf f} := by
          rw [← hdenotes.language_eq]
          exact rfl
        obtain ⟨f, hf, htext⟩ := hmem
        rw [List.map_eq_nil_iff.mp htext.symm] at hf
        exact hnil hf
      dsimp only at hupper
      rw [hempty, if_neg (by decide)] at hupper
      rw [← hupper]
      apply (fraction_part_denote m hdenotes hnil).of_eq
      congr 1
      ext x
      simp [UpperPart, hrf]
  · have hzero := zeros_plus_denotes
    have hnil : [] ∉ {f : Fraction | f ≠ [] ∧ ∀ d ∈ f, d = 0} := fun hnil => hnil.1 rfl
    rw [if_neg hrf] at h
    by_cases hri : ri
    · rw [if_neg (not_not.mpr hri)] at h
      cases mode with
      | AllowIntegers =>
        rw [← Except.ok.inj h]
        apply ((with_optional_fraction_denotes hinteger hzero hnil).of_eq _).denoteAll
        congr 1
        ext x
        simp [UpperPart, hrf, hri]
      | FractionOnly =>
        rw [← Except.ok.inj h]
        apply ((with_fraction_denotes hinteger hzero hnil).of_eq _).denoteAll
        congr 1
        ext x
        simp [UpperPart, hrf, hri]
    · rw [if_pos hri] at h
      rw [← Except.ok.inj h]
      apply denoteAll_nil_of_empty
      intro x hx
      simp [UpperPart, hrf, hri] at hx

theorem collect_nonnegative_float_parts_denote {n m : ℕ} {lf rf : Fraction} {li ri : Bool}
    {mode : FloatRangeMode} {parts : List Text} (hlt : n < m) (hm : (m : ℤ) ≤ i64_max)
    (h : collect_nonnegative_float_parts ⟨n, m, fractionText lf, fractionText rf⟩ li ri mode =
      .ok parts) :
    parts ≠ [] ∧ Pattern.DenoteAll parts (decimals {x | x.1 = n ∧ LowerPart mode lf li x.2 ∨
      (n < x.1 ∧ x.1 < m) ∧ (mode = .AllowIntegers ∨ x.2 ≠ []) ∨
      x.1 = m ∧ UpperPart mode rf ri x.2}) := by
  obtain ⟨⟨lower, bounds⟩, hlower, h⟩ := bind_eq_ok h
  obtain ⟨middle, hmiddle, h⟩ := bind_eq_ok h
  obtain ⟨upper, hupper, h⟩ := bind_eq_ok h
  rw [← Except.ok.inj h]
  obtain ⟨rfl, hne, hlower⟩ | ⟨rfl, rfl, rfl, rfl, hli⟩ := lower_float_part_denote hlower
  · obtain ⟨hmiddle, -⟩ := middle_float_part_denote hm hmiddle
    have hupper := upper_float_part_denote hupper
    have hall := (hlower.append hmiddle).append hupper
    rw [decimals_add, decimals_add] at hall
    refine ⟨by simp [hne], hall.of_eq ?_⟩
    congr 1
    ext x
    simp only [Set.mem_union, Set.mem_ofPred_eq, Nat.succ_le_iff, or_assoc]
  · obtain ⟨hmiddle, hne⟩ := middle_float_part_denote hm hmiddle
    have hupper := upper_float_part_denote hupper
    have hall := hmiddle.append hupper
    rw [decimals_add] at hall
    refine ⟨by simp [hne hlt], hall.of_eq ?_⟩
    congr 1
    ext x
    simp only [Set.mem_union, Set.mem_ofPred_eq, LowerPart, hli]
    simp only [true_or, and_true, ne_eq, not_true, or_self, if_false]
    constructor
    · intro hx
      obtain ⟨hle, hx⟩ | hx := hx
      · omega
      · exact Or.inr (Or.inr hx)
    · intro hx
      obtain rfl | hx | hx := hx
      · exact Or.inl ⟨le_rfl, hlt⟩
      · exact Or.inl ⟨hx.1.le, hx.2⟩
      · exact Or.inr hx

theorem point_not_mem_sign {sign : List Char} (h : sign = [] ∨ sign = ['-']) : '.' ∉ sign := by
  obtain rfl | rfl := h <;> decide

theorem takeWhile_text {sign : List Char} (h : sign = [] ∨ sign = ['-']) (n : ℕ) (f : Fraction) :
    (sign ++ unsignedText n f).takeWhile (· ≠ '.') = sign ++ spelling n := by
  have hall : ∀ c ∈ sign ++ spelling n, decide (c ≠ '.') = true := by
    intro c hc
    apply decide_eq_true
    intro heq
    obtain hc | hc := List.mem_append.mp hc
    · exact point_not_mem_sign h (heq ▸ hc)
    · exact point_not_mem_spelling n (heq ▸ hc)
  cases f with
  | nil => exact List.takeWhile_eq_self_iff.mpr hall
  | cons d f =>
    rw [unsignedText, ← List.append_assoc, List.takeWhile_append_of_pos hall,
      List.takeWhile_cons_of_neg (by decide), List.append_nil]

theorem decimal_fraction_text {sign : List Char} (h : sign = [] ∨ sign = ['-']) (n : ℕ)
    (f : Fraction) : decimal_fraction (sign ++ unsignedText n f) = fractionText f := by
  have hall : ∀ c ∈ sign ++ spelling n, decide (c ≠ '.') = true := by
    intro c hc
    apply decide_eq_true
    intro heq
    obtain hc | hc := List.mem_append.mp hc
    · exact point_not_mem_sign h (heq ▸ hc)
    · exact point_not_mem_spelling n (heq ▸ hc)
  unfold decimal_fraction
  cases f with
  | nil =>
    rw [unsignedText, List.dropWhile_eq_nil_iff.mpr hall]
    rfl
  | cons d f =>
    have hdigits : ∀ c ∈ fractionText (d :: f), decide (c ≠ '.') = true := fun c hc =>
      decide_eq_true fun heq => point_not_mem_fractionText _ (heq ▸ hc)
    rw [unsignedText, ← List.append_assoc, List.dropWhile_append_of_pos hall,
      List.dropWhile_cons_of_neg (by decide), List.drop_one, List.tail_cons,
      List.takeWhile_eq_self_iff.mpr hdigits]

theorem Double.magnitude_nonneg (x : Double) : 0 ≤ x.magnitude :=
  add_nonneg (Nat.cast_nonneg _) (tenths_nonneg _)

theorem Double.magnitude_eq_zero {x : Double} (h : x.magnitude = 0) :
    x.integer = 0 ∧ x.fraction = [] := by
  have hzero : (x.integer : ℚ) + tenths x.fraction = (0 : ℕ) + tenths [] := by
    rw [tenths, Nat.cast_zero, add_zero]
    exact h
  obtain ⟨hinteger, hfraction⟩ := integer_add_tenths_eq_iff.mp hzero
  refine ⟨hinteger, ?_⟩
  rw [← x.shortest]
  exact trimmed_eq_nil_iff.mpr hfraction

/-- A double that is not negative has no sign, or is the negative zero. -/
theorem Double.text_of_nonneg {x : Double} (h : 0 ≤ x.value) :
    ∃ sign, x.text = sign ++ unsignedText x.integer x.fraction ∧
      (sign = [] ∨ sign = ['-'] ∧ x.integer = 0) ∧ x.value = x.magnitude := by
  by_cases hneg : x.negative = true
  · have hzero : x.magnitude = 0 := by
      rw [Numeral.value, if_pos hneg] at h
      exact le_antisymm (neg_nonneg.mp h) x.magnitude_nonneg
    refine ⟨['-'], ?_, Or.inr ⟨rfl, (Double.magnitude_eq_zero hzero).1⟩, ?_⟩
    · rw [Numeral.text, if_pos hneg]
      rfl
    · rw [Numeral.value, if_pos hneg, hzero, neg_zero]
  · refine ⟨[], ?_, Or.inl rfl, ?_⟩
    · rw [Numeral.text, if_neg hneg]
      rfl
    · rw [Numeral.value, if_neg hneg]

theorem signed_digits_eq {digits : List Char} (h : ∀ c ∈ digits, c.isDigit) :
    signed_digits digits = Nat.ofDigitChars 10 digits 0 := by
  unfold signed_digits
  split
  · exact absurd (h '-' List.mem_cons_self) (by decide)
  · rfl

theorem parse_i64_eq_some {text : List Char} {k : ℤ} (h : parse_i64 text = some k) :
    k = signed_digits text ∧ signed_digits text ≤ i64_max := by
  unfold parse_i64 at h
  split_ifs at h with hrange
  exact ⟨(Option.some.inj h).symm, hrange.2⟩

theorem parse_i64_spelling {sign : List Char} {n : ℕ} (h : sign = [] ∨ sign = ['-'] ∧ n = 0) {k : ℤ}
    (hk : parse_i64 (sign ++ spelling n) = some k) : k = n ∧ (n : ℤ) ≤ i64_max := by
  obtain ⟨rfl, hmax⟩ := parse_i64_eq_some hk
  obtain rfl | ⟨rfl, rfl⟩ := h
  · have hparse : signed_digits ([] ++ spelling n) = n :=
      (signed_digits_eq fun c hc => isDigit_of_mem_spelling hc).trans
        (congrArg _ Nat.ofDigitChars_ten_toDigits)
    rw [hparse] at hmax ⊢
    exact ⟨rfl, hmax⟩
  · exact ⟨rfl, by decide⟩

theorem parse_decimal_integer_spec {x : Double} (h : 0 ≤ x.value) {label : String} {n : ℤ}
    (hn : parse_decimal_integer x.text label = .ok n) : n = x.integer ∧ (x.integer : ℤ) ≤ i64_max := by
  obtain ⟨sign, htext, hsign, -⟩ := Double.text_of_nonneg h
  unfold parse_decimal_integer at hn
  rw [htext, takeWhile_text (hsign.imp_right And.left)] at hn
  cases hk : parse_i64 (sign ++ spelling x.integer) with
  | none =>
    rw [hk] at hn
    cases hn
  | some k =>
    rw [hk] at hn
    rw [← Except.ok.inj hn]
    exact parse_i64_spelling hsign hk

theorem nonnegative_decimal_bounds_spec {left right : Double} (hl : 0 ≤ left.value)
    (hr : 0 ≤ right.value) {bounds : NonnegativeDecimalBounds}
    (h : nonnegative_decimal_bounds left right = .ok bounds) :
    bounds = ⟨left.integer, right.integer, fractionText left.fraction,
      fractionText right.fraction⟩ ∧ (right.integer : ℤ) ≤ i64_max := by
  unfold nonnegative_decimal_bounds at h
  split_ifs at h
  obtain ⟨n, hn, h⟩ := bind_eq_ok h
  obtain ⟨m, hm, h⟩ := bind_eq_ok h
  obtain ⟨rfl, -⟩ := parse_decimal_integer_spec hl hn
  obtain ⟨rfl, hmax⟩ := parse_decimal_integer_spec hr hm
  obtain ⟨sign, htext, hsign, -⟩ := Double.text_of_nonneg hl
  obtain ⟨sign', htext', hsign', -⟩ := Double.text_of_nonneg hr
  rw [htext, htext', decimal_fraction_text (hsign.imp_right And.left),
    decimal_fraction_text (hsign'.imp_right And.left)] at h
  exact ⟨(Except.ok.inj h).symm, hmax⟩

/-- The smaller bound has the smaller integer part, or the smaller fraction. -/
theorem Double.lt_iff {left right : Double} (hl : 0 ≤ left.value) (hr : 0 ≤ right.value) :
    left.value < right.value ↔ left.integer < right.integer ∨
      left.integer = right.integer ∧ tenths left.fraction < tenths right.fraction := by
  obtain ⟨-, -, -, hleft⟩ := Double.text_of_nonneg hl
  obtain ⟨-, -, -, hright⟩ := Double.text_of_nonneg hr
  rw [hleft, hright]
  exact integer_add_tenths_lt_iff

theorem nonneg_float_range_denotes {left right : Double} {li ri : Bool} {p : Text}
    (hl : 0 ≤ left.value) (hlt : left.value < right.value)
    (h : nonneg_float_range left right li ri = .ok p) :
    p.Denotes (decimals (matchedBetween .AllowIntegers left right li ri)) := by
  have hr : 0 ≤ right.value := hl.trans hlt.le
  obtain ⟨bounds, hbounds, h⟩ := bind_eq_ok h
  obtain ⟨rfl, hmax⟩ := nonnegative_decimal_bounds_spec hl hr hbounds
  have hcases := (Double.lt_iff hl hr).mp hlt
  by_cases hsame : left.integer = right.integer
  · have htenths : tenths left.fraction < tenths right.fraction := by
      obtain hless | hless := hcases
      · omega
      · exact hless.2
    rw [if_pos (Int.natCast_inj.mpr hsame)] at h
    apply (same_integer_float_part_denotes htenths h).of_eq
    simp only [matchedBetween, if_pos hsame]
  · have hless : left.integer < right.integer := by omega
    rw [if_neg (fun heq => hsame (Int.natCast_inj.mp heq))] at h
    obtain ⟨parts, hparts, h⟩ := bind_eq_ok h
    obtain ⟨hne, hall⟩ := collect_nonnegative_float_parts_denote hless hmax hparts
    rw [← Except.ok.inj h]
    apply (mk_or_denotes hall hne).of_eq
    simp only [matchedBetween, if_neg hsame]

theorem nonneg_float_range_no_ints_denotes {left right : Double} {li ri : Bool} {q : Option Text}
    (hl : 0 ≤ left.value) (hlt : left.value < right.value)
    (h : nonneg_float_range_no_ints left right li ri = .ok q) :
    ∃ p, q = some p ∧ p.Denotes (decimals (matchedBetween .FractionOnly left right li ri)) := by
  have hr : 0 ≤ right.value := hl.trans hlt.le
  obtain ⟨bounds, hbounds, h⟩ := bind_eq_ok h
  obtain ⟨rfl, hmax⟩ := nonnegative_decimal_bounds_spec hl hr hbounds
  have hcases := (Double.lt_iff hl hr).mp hlt
  by_cases hsame : left.integer = right.integer
  · have htenths : tenths left.fraction < tenths right.fraction := by
      obtain hless | hless := hcases
      · omega
      · exact hless.2
    rw [if_pos (Int.natCast_inj.mpr hsame)] at h
    obtain ⟨p, hp, rfl⟩ := map_eq_ok h
    refine ⟨p, rfl, (same_integer_float_part_denotes htenths hp).of_eq ?_⟩
    simp only [matchedBetween, if_pos hsame]
  · have hless : left.integer < right.integer := by omega
    rw [if_neg (fun heq => hsame (Int.natCast_inj.mp heq))] at h
    obtain ⟨parts, hparts, h⟩ := bind_eq_ok h
    obtain ⟨hne, hall⟩ := collect_nonnegative_float_parts_denote hless hmax hparts
    rw [← Except.ok.inj h, mk_or_opt, if_neg hne]
    refine ⟨_, rfl, (mk_or_denotes hall hne).of_eq ?_⟩
    simp only [matchedBetween, if_neg hsame]

end NumericRange

end GlrMask
