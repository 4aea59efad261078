import GlrMask.DecimalText
import Mathlib.Data.List.DropRight

/-!
# Decimal spellings with a fraction

A fraction is the list of its digits, and no digits stand for a spelling without a
decimal point. Two fractions have the same value when they agree up to trailing zeros,
and otherwise the first digit in which they differ decides which one is larger.
-/

namespace Decimal

abbrev Fraction := List (Fin 10)

instance (priority := high) ten_neZero : NeZero (10 : ℕ) := ⟨by decide⟩

def fractionText (f : Fraction) : List Char := f.map fun d : Fin 10 => Nat.digitChar d

/-- The value of the digits after the point. -/
def tenths : Fraction → ℚ
  | [] => 0
  | d :: f => ((d : ℕ) + tenths f) / 10

/-- The number that the digits spell. -/
def fractionNumber : Fraction → ℕ
  | [] => 0
  | d :: f => d * 10 ^ f.length + fractionNumber f

def fractions (s : Set Fraction) : Language Char := {w | ∃ f ∈ s, w = fractionText f}

def unsignedText (n : ℕ) : Fraction → List Char
  | [] => spelling n
  | d :: f => spelling n ++ '.' :: fractionText (d :: f)

/-- The spellings `-?(0|[1-9][0-9]*)(\.[0-9]+)?`. -/
structure Numeral where
  negative : Bool
  integer : ℕ
  fraction : Fraction
  deriving DecidableEq, Repr

namespace Numeral

def text (s : Numeral) : List Char :=
  if s.negative then '-' :: unsignedText s.integer s.fraction
  else unsignedText s.integer s.fraction

def magnitude (s : Numeral) : ℚ := s.integer + tenths s.fraction

def value (s : Numeral) : ℚ := if s.negative then -s.magnitude else s.magnitude

end Numeral

/-- Without the trailing zeros. -/
def trimmed (f : Fraction) : Fraction := f.rdropWhile (· = 0)

/-- A finite number as it is printed, with no zeros that could be left out. -/
structure Printed extends Numeral where
  shortest : trimmed fraction = fraction

section value

theorem tenths_nonneg (f : Fraction) : 0 ≤ tenths f := by
  induction f with
  | nil => exact le_rfl
  | cons d f ih =>
    rw [tenths]
    positivity

theorem tenths_lt_one (f : Fraction) : tenths f < 1 := by
  induction f with
  | nil => exact zero_lt_one
  | cons d f ih =>
    have hd : ((d : ℕ) : ℚ) ≤ 9 := by exact_mod_cast Nat.le_of_lt_succ d.isLt
    rw [tenths, div_lt_one (by norm_num)]
    linarith

theorem tenths_cons_lt_cons {d e : Fin 10} (h : d < e) (f g : Fraction) :
    tenths (d :: f) < tenths (e :: g) := by
  have hde : ((d : ℕ) : ℚ) + 1 ≤ (e : ℕ) := by exact_mod_cast h
  have hf := tenths_lt_one f
  have hg := tenths_nonneg g
  rw [tenths, tenths, div_lt_div_iff_of_pos_right (by norm_num)]
  linarith

theorem tenths_cons_lt_iff {d : Fin 10} {f g : Fraction} :
    tenths (d :: f) < tenths (d :: g) ↔ tenths f < tenths g := by
  rw [tenths, tenths, div_lt_div_iff_of_pos_right (by norm_num), add_lt_add_iff_left]

theorem tenths_cons_eq_iff {d e : Fin 10} {f g : Fraction} :
    tenths (d :: f) = tenths (e :: g) ↔ d = e ∧ tenths f = tenths g := by
  constructor
  · intro h
    obtain hlt | rfl | hlt := lt_trichotomy d e
    · exact absurd h (tenths_cons_lt_cons hlt f g).ne
    · rw [tenths, tenths, div_left_inj' (by norm_num), add_right_inj] at h
      exact ⟨rfl, h⟩
    · exact absurd h (tenths_cons_lt_cons hlt g f).ne'
  · intro h
    rw [tenths, tenths, h.1, h.2]

theorem tenths_append (f g : Fraction) :
    tenths (f ++ g) = tenths f + tenths g / 10 ^ f.length := by
  induction f with
  | nil => simp [tenths]
  | cons d f ih =>
    rw [List.cons_append, tenths, tenths, ih, List.length_cons, pow_succ]
    field_simp
    ring

theorem tenths_eq_zero_iff {f : Fraction} : tenths f = 0 ↔ ∀ d ∈ f, d = 0 := by
  induction f with
  | nil => simp [tenths]
  | cons d f ih =>
    have hf := tenths_nonneg f
    have hd : (0 : ℚ) ≤ (d : ℕ) := Nat.cast_nonneg _
    rw [tenths, List.forall_mem_cons, ← ih, div_eq_zero_iff, or_iff_left (by norm_num),
      add_eq_zero_iff_of_nonneg hd hf, Nat.cast_eq_zero, Fin.val_eq_zero_iff]

theorem tenths_append_zeros (f : Fraction) (k : ℕ) :
    tenths (f ++ List.replicate k 0) = tenths f := by
  have hzero : tenths (List.replicate k 0) = 0 :=
    tenths_eq_zero_iff.mpr fun d hd => List.eq_of_mem_replicate hd
  rw [tenths_append, hzero, zero_div, add_zero]

theorem tenths_eq_number (f : Fraction) : tenths f = fractionNumber f / 10 ^ f.length := by
  induction f with
  | nil => simp [tenths, fractionNumber]
  | cons d f ih =>
    rw [tenths, ih, fractionNumber, List.length_cons, pow_succ]
    push_cast
    field_simp

/-- The integer parts decide unless they are the same. -/
theorem integer_add_tenths_lt_iff {m n : ℕ} {f g : Fraction} :
    (m : ℚ) + tenths f < n + tenths g ↔ m < n ∨ m = n ∧ tenths f < tenths g := by
  have hf := tenths_nonneg f
  have hf' := tenths_lt_one f
  have hg := tenths_nonneg g
  have hg' := tenths_lt_one g
  obtain h | rfl | h := lt_trichotomy m n
  · have hmn : (m : ℚ) + 1 ≤ n := by exact_mod_cast h
    exact iff_of_true (by linarith) (Or.inl h)
  · rw [add_lt_add_iff_left]
    simp
  · have hmn : (n : ℚ) + 1 ≤ m := by exact_mod_cast h
    apply iff_of_false
    · exact not_lt.mpr (by linarith)
    · omega

theorem integer_add_tenths_eq_iff {m n : ℕ} {f g : Fraction} :
    (m : ℚ) + tenths f = n + tenths g ↔ m = n ∧ tenths f = tenths g := by
  constructor
  · intro h
    have hlt := integer_add_tenths_lt_iff.not.mp h.not_lt
    have hgt := integer_add_tenths_lt_iff.not.mp h.not_gt
    have hmn : m = n := by omega
    subst hmn
    exact ⟨rfl, add_left_cancel h⟩
  · intro h
    rw [h.1, h.2]

end value

section trimmed

theorem trimmed_cons (d : Fin 10) (f : Fraction) :
    trimmed (d :: f) = if trimmed f = [] ∧ d = 0 then [] else d :: trimmed f := by
  rw [trimmed, trimmed, List.rdropWhile, List.rdropWhile, List.reverse_cons, List.dropWhile_append]
  by_cases hf : List.dropWhile (· = 0) f.reverse = []
  · by_cases hd : d = 0
    · simp [hf, hd]
    · simp [hf, hd]
  · simp [hf]

theorem tenths_trimmed (f : Fraction) : tenths (trimmed f) = tenths f := by
  induction f with
  | nil => rfl
  | cons d f ih =>
    rw [trimmed_cons]
    split_ifs with h
    · rw [h.1] at ih
      rw [tenths, tenths, ← ih, h.2]
      simp [tenths]
    · rw [tenths, tenths, ih]

theorem trimmed_eq_nil_iff {f : Fraction} : trimmed f = [] ↔ tenths f = 0 := by
  rw [trimmed, List.rdropWhile_eq_nil_iff, tenths_eq_zero_iff]
  simp

@[simp] theorem trimmed_nil : trimmed [] = [] := trimmed_eq_nil_iff.mpr rfl

theorem trimmed_eq_iff {f g : Fraction} : trimmed f = trimmed g ↔ tenths f = tenths g := by
  constructor
  · intro h
    rw [← tenths_trimmed f, h, tenths_trimmed]
  · intro h
    induction f generalizing g with
    | nil => rw [trimmed_nil, trimmed_eq_nil_iff.mpr h.symm]
    | cons d f ih =>
      cases g with
      | nil => rw [trimmed_nil, trimmed_eq_nil_iff.mpr h]
      | cons e g =>
        obtain ⟨rfl, hfg⟩ := tenths_cons_eq_iff.mp h
        rw [trimmed_cons, trimmed_cons, ih hfg]

theorem eq_trimmed_append (f : Fraction) :
    ∃ k, f = trimmed f ++ List.replicate k 0 := by
  refine ⟨(f.rtakeWhile (· = 0)).length, ?_⟩
  have hzeros : f.rtakeWhile (· = 0) = List.replicate (f.rtakeWhile (· = 0)).length 0 := by
    apply List.eq_replicate_of_mem
    intro d hd
    simpa using List.mem_rtakeWhile_imp hd
  rw [← hzeros]
  exact List.rdropWhile_append_rtakeWhile.symm

end trimmed

section text

theorem digitChar_injective {d e : Fin 10} (h : Nat.digitChar d = Nat.digitChar e) : d = e := by
  apply Fin.ext
  have htoNat := congrArg Char.toNat h
  rw [Nat.toNat_digitChar_of_lt_ten d.isLt, Nat.toNat_digitChar_of_lt_ten e.isLt] at htoNat
  omega

theorem fractionText_cons (d : Fin 10) (f : Fraction) :
    fractionText (d :: f) = Nat.digitChar d :: fractionText f := rfl

theorem fractionText_injective : Function.Injective fractionText :=
  List.map_injective_iff.mpr fun _ _ => digitChar_injective

theorem rdropWhile_fractionText (g : Fraction) :
    (fractionText g).rdropWhile (· = '0') = fractionText (trimmed g) := by
  have hzero : ∀ d : Fin 10, Nat.digitChar d = '0' ↔ d = 0 := by decide
  rw [List.rdropWhile, fractionText, ← List.map_reverse, List.dropWhile_map, ← List.map_reverse,
    fractionText, trimmed, List.rdropWhile]
  congr 3
  funext d
  exact decide_eq_decide.mpr (hzero d)

theorem isDigit_of_mem_fractionText {f : Fraction} {c : Char} (h : c ∈ fractionText f) :
    c.isDigit := by
  obtain ⟨d, -, rfl⟩ := List.mem_map.mp h
  exact isDigit_iff.mpr ⟨d, d.isLt, rfl⟩

theorem exists_fractionText {w : List Char} (h : ∀ c ∈ w, c.isDigit) : ∃ f, w = fractionText f := by
  induction w with
  | nil => exact ⟨[], rfl⟩
  | cons c w ih =>
    obtain ⟨hc, hw⟩ := List.forall_mem_cons.mp h
    obtain ⟨d, hd, rfl⟩ := isDigit_iff.mp hc
    obtain ⟨f, rfl⟩ := ih hw
    exact ⟨⟨d, hd⟩ :: f, rfl⟩

theorem length_fractionText (f : Fraction) : (fractionText f).length = f.length :=
  List.length_map _

theorem ofDigitChars_fractionText (f : Fraction) (n : ℕ) :
    Nat.ofDigitChars 10 (fractionText f) n = n * 10 ^ f.length + fractionNumber f := by
  induction f generalizing n with
  | nil => simp [fractionText, fractionNumber]
  | cons d f ih =>
    have hd : (Nat.digitChar d).toNat - '0'.toNat = d := by
      rw [Nat.toNat_digitChar_of_lt_ten d.isLt]
      exact Nat.add_sub_cancel_left 48 d
    rw [fractionText, List.map_cons, Nat.ofDigitChars_cons, hd, ← fractionText, ih,
      fractionNumber, List.length_cons, pow_succ]
    ring

theorem point_not_mem_spelling (n : ℕ) : '.' ∉ spelling n := fun h =>
  absurd (isDigit_of_mem_spelling h) (by decide)

theorem point_not_mem_fractionText (f : Fraction) : '.' ∉ fractionText f := fun h =>
  absurd (isDigit_of_mem_fractionText h) (by decide)

theorem unsignedText_injective {m n : ℕ} {f g : Fraction} (h : unsignedText m f = unsignedText n g) :
    m = n ∧ f = g := by
  cases f with
  | nil =>
    cases g with
    | nil => exact ⟨spelling_injective h, rfl⟩
    | cons e g =>
      have hmem : '.' ∈ unsignedText n (e :: g) := List.mem_append_right _ List.mem_cons_self
      rw [← h] at hmem
      exact absurd hmem (point_not_mem_spelling m)
  | cons d f =>
    cases g with
    | nil =>
      have hmem : '.' ∈ unsignedText m (d :: f) := List.mem_append_right _ List.mem_cons_self
      rw [h] at hmem
      exact absurd hmem (point_not_mem_spelling n)
    | cons e g =>
      obtain ⟨hint, -, hfrac⟩ := (List.append_cons_inj_of_notMem (point_not_mem_spelling m)
        (point_not_mem_fractionText _)).mp h
      exact ⟨spelling_injective hint, fractionText_injective hfrac⟩

end text

section language

theorem mem_fractions {s : Set Fraction} {w : List Char} :
    w ∈ fractions s ↔ ∃ f ∈ s, w = fractionText f := Iff.rfl

theorem fractions_add (s t : Set Fraction) : fractions s + fractions t = fractions (s ∪ t) := by
  ext w
  rw [Language.mem_add, mem_fractions, mem_fractions, mem_fractions]
  constructor
  · intro h
    obtain ⟨f, hf, rfl⟩ | ⟨f, hf, rfl⟩ := h
    · exact ⟨f, Or.inl hf, rfl⟩
    · exact ⟨f, Or.inr hf, rfl⟩
  · intro h
    obtain ⟨f, hf | hf, rfl⟩ := h
    · exact Or.inl ⟨f, hf, rfl⟩
    · exact Or.inr ⟨f, hf, rfl⟩

theorem fractions_mul (s t : Set Fraction) :
    fractions s * fractions t = fractions (Set.image2 (· ++ ·) s t) := by
  ext w
  rw [Language.mem_mul]
  constructor
  · intro h
    obtain ⟨_, ⟨f, hf, rfl⟩, _, ⟨g, hg, rfl⟩, rfl⟩ := h
    exact ⟨f ++ g, ⟨f, hf, g, hg, rfl⟩, List.map_append.symm⟩
  · intro h
    obtain ⟨_, ⟨f, hf, g, hg, rfl⟩, rfl⟩ := h
    exact ⟨_, ⟨f, hf, rfl⟩, _, ⟨g, hg, rfl⟩, List.map_append.symm⟩

theorem fractions_singleton (f : Fraction) : fractions {f} = {fractionText f} := by
  ext w
  constructor
  · intro h
    obtain ⟨_, rfl, rfl⟩ := h
    rfl
  · intro h
    exact ⟨f, rfl, h⟩

theorem digits_star : KStar.kstar (digits 0 9) = fractions Set.univ := by
  ext w
  rw [mem_digits_star]
  constructor
  · intro h
    obtain ⟨f, rfl⟩ := exists_fractionText h
    exact ⟨f, trivial, rfl⟩
  · intro h
    obtain ⟨f, -, rfl⟩ := h
    exact fun c hc => isDigit_of_mem_fractionText hc

theorem digits_pow (k : ℕ) : digits 0 9 ^ k = fractions {f | f.length = k} := by
  ext w
  rw [mem_digits_pow]
  constructor
  · intro h
    obtain ⟨f, rfl⟩ := exists_fractionText h.2
    rw [length_fractionText] at h
    exact ⟨f, h.1, rfl⟩
  · intro h
    obtain ⟨f, hf, rfl⟩ := h
    exact ⟨(length_fractionText f).trans hf, fun c hc => isDigit_of_mem_fractionText hc⟩

theorem zeros_pow (k : ℕ) : ({['0']} : Language Char) ^ k = fractions {List.replicate k 0} := by
  rw [fractions_singleton, fractionText, List.map_replicate]
  exact Regex.singleton_pow '0' k

theorem zeros_star : KStar.kstar ({['0']} : Language Char) = fractions {f | ∀ d ∈ f, d = 0} := by
  ext w
  rw [Language.kstar_eq_iSup_pow, Language.mem_iSup]
  constructor
  · intro h
    obtain ⟨k, hk⟩ := h
    rw [zeros_pow] at hk
    obtain ⟨_, rfl, rfl⟩ := hk
    exact ⟨_, fun d hd => List.eq_of_mem_replicate hd, rfl⟩
  · intro h
    obtain ⟨f, hf, rfl⟩ := h
    refine ⟨f.length, ?_⟩
    rw [zeros_pow]
    exact ⟨f, List.eq_replicate_of_mem hf, rfl⟩

/-- Spellings without a sign. -/
def decimals (s : Set (ℕ × Fraction)) : Language Char :=
  {w | ∃ x ∈ s, w = unsignedText x.1 x.2}

theorem mem_decimals {s : Set (ℕ × Fraction)} {w : List Char} :
    w ∈ decimals s ↔ ∃ x ∈ s, w = unsignedText x.1 x.2 := Iff.rfl

theorem decimals_add (s t : Set (ℕ × Fraction)) : decimals s + decimals t = decimals (s ∪ t) := by
  ext w
  rw [Language.mem_add, mem_decimals, mem_decimals, mem_decimals]
  constructor
  · intro h
    obtain ⟨x, hx, rfl⟩ | ⟨x, hx, rfl⟩ := h
    · exact ⟨x, Or.inl hx, rfl⟩
    · exact ⟨x, Or.inr hx, rfl⟩
  · intro h
    obtain ⟨x, hx | hx, rfl⟩ := h
    · exact Or.inl ⟨x, hx, rfl⟩
    · exact Or.inr ⟨x, hx, rfl⟩

theorem spellings_eq_decimals (s : Set ℕ) : spellings s = decimals {x | x.1 ∈ s ∧ x.2 = []} := by
  ext w
  constructor
  · intro h
    obtain ⟨n, hn, rfl⟩ := h
    exact ⟨(n, []), ⟨hn, rfl⟩, rfl⟩
  · intro h
    obtain ⟨⟨n, f⟩, ⟨hn, rfl⟩, rfl⟩ := h
    exact ⟨n, hn, rfl⟩

/-- Integers followed by a point and a fraction. -/
theorem spellings_mul_point {s : Set ℕ} {t : Set Fraction} (ht : [] ∉ t) :
    spellings s * ({['.']} * fractions t) = decimals {x | x.1 ∈ s ∧ x.2 ∈ t} := by
  ext w
  rw [Language.mem_mul]
  constructor
  · intro h
    obtain ⟨_, ⟨n, hn, rfl⟩, _, hpoint, rfl⟩ := h
    obtain ⟨_, rfl, _, ⟨f, hf, rfl⟩, rfl⟩ := Language.mem_mul.mp hpoint
    refine ⟨(n, f), ⟨hn, hf⟩, ?_⟩
    cases f with
    | nil => exact absurd hf ht
    | cons d f => rfl
  · intro h
    obtain ⟨⟨n, f⟩, ⟨hn, hf⟩, rfl⟩ := h
    cases f with
    | nil => exact absurd hf ht
    | cons d f => exact ⟨_, ⟨n, hn, rfl⟩, _, ⟨['.'], rfl, _, ⟨_, hf, rfl⟩, rfl⟩, rfl⟩

/-- The fraction may be missing. -/
theorem spellings_mul_optional_point {s : Set ℕ} {t : Set Fraction} (ht : [] ∉ t) :
    spellings s * (1 + {['.']} * fractions t) =
      decimals {x | x.1 ∈ s ∧ (x.2 = [] ∨ x.2 ∈ t)} := by
  rw [mul_add, mul_one, spellings_mul_point ht, spellings_eq_decimals, decimals_add]
  congr 1
  ext x
  simp only [Set.mem_union, Set.mem_ofPred_eq]
  tauto

end language

end Decimal
