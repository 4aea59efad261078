import GlrMask.IntegerRange

/-!
# The integer bounds of a number schema

A finite double is a rational with a mantissa of 53 bits. The bounds of a number
schema are turned into `i64` bounds by rounding to an integer, a cast that saturates,
and one step further where the bound itself is excluded. The result is exact as long as
the rounded bound is an `i64`.
-/

namespace GlrMask

namespace NumericRange

/-- A finite double. -/
structure FiniteDouble where
  mantissa : ℤ
  exponent : ℤ
  mantissa_small : |mantissa| < 2 ^ 53
  exponent_small : -1074 ≤ exponent ∧ exponent ≤ 971

def FiniteDouble.value (x : FiniteDouble) : ℚ := x.mantissa * 2 ^ x.exponent

inductive F64 where
  | finite (x : FiniteDouble)
  | infinite (negative : Bool)
  | nan

/-- The multiples of a power of two with 53 bits that are next to `m`; a tie goes to the
even one. -/
def round_to_even (m : ℕ) : ℕ :=
  let unit := 2 ^ (Nat.log2 m - 52)
  let quotient := m / unit
  let remainder := m % unit
  if unit < 2 * remainder ∨ 2 * remainder = unit ∧ quotient % 2 = 1 then (quotient + 1) * unit
  else quotient * unit

/-- `as f64` of an `i64`. -/
def as_f64 (n : ℤ) : ℤ := n.sign * round_to_even n.natAbs

/-- `as i64` of an integral double. -/
def as_i64 (n : ℤ) : ℤ := max i64_min (min n i64_max)

/-- The fields of a number schema that integers are checked against. -/
structure NumberSchema where
  minimum : Option F64
  maximum : Option F64
  exclusive_minimum : Bool
  exclusive_maximum : Bool
  multiple_of : Option F64

def integer_lower_bound (schema : NumberSchema) : RangeResult (Option ℤ) :=
  match schema.minimum with
  | some (.finite x) =>
      let lower := as_i64 ⌈x.value⌉
      if schema.exclusive_minimum ∧ (as_f64 lower : ℚ) ≤ x.value then
        (checked (lower + 1)).map some
      else .ok (some lower)
  | _ => .ok none

def integer_upper_bound (schema : NumberSchema) : RangeResult (Option ℤ) :=
  match schema.maximum with
  | some (.finite x) =>
      let upper := as_i64 ⌊x.value⌋
      if schema.exclusive_maximum ∧ x.value ≤ as_f64 upper then
        (checked (upper - 1)).map some
      else .ok (some upper)
  | _ => .ok none

theorem round_to_even_of_dvd {m : ℕ} (h : 2 ^ (Nat.log2 m - 52) ∣ m) : round_to_even m = m := by
  have hrem : m % 2 ^ (Nat.log2 m - 52) = 0 := Nat.mod_eq_zero_of_dvd h
  have hpos : 0 < 2 ^ (Nat.log2 m - 52) := by positivity
  simp only [round_to_even, hrem]
  rw [if_neg (by omega)]
  exact Nat.div_mul_cancel h

theorem round_to_even_of_small {m : ℕ} (h : m < 2 ^ 53) : round_to_even m = m := by
  apply round_to_even_of_dvd
  have hlog : Nat.log2 m ≤ 52 := by
    by_cases hm : m = 0
    · rw [hm, Nat.log2_zero]
      exact Nat.zero_le _
    · exact Nat.lt_succ_iff.mp ((Nat.log2_lt hm).mpr h)
  rw [Nat.sub_eq_zero_of_le hlog, pow_zero]
  exact one_dvd m

theorem round_to_even_of_mul {a e : ℕ} (h : a < 2 ^ 53) : round_to_even (a * 2 ^ e) = a * 2 ^ e := by
  apply round_to_even_of_dvd
  have hlog : Nat.log2 (a * 2 ^ e) ≤ 52 + e := by
    by_cases hm : a * 2 ^ e = 0
    · rw [hm, Nat.log2_zero]
      exact Nat.zero_le _
    · apply Nat.lt_succ_iff.mp
      rw [Nat.log2_lt hm, Nat.succ_eq_add_one, add_right_comm, pow_add]
      exact Nat.mul_lt_mul_of_pos_right h (by positivity)
  exact dvd_mul_of_dvd_right (pow_dvd_pow 2 (by omega)) a

theorem as_f64_of_round {n : ℤ} (h : round_to_even n.natAbs = n.natAbs) : as_f64 n = n := by
  rw [as_f64, h, Int.sign_mul_natAbs]

/-- A double with a negative exponent is below `2 ^ 52`. -/
theorem FiniteDouble.abs_value_le {x : FiniteDouble} (h : x.exponent < 0) : |x.value| ≤ 2 ^ 52 := by
  have hhalf : (2 : ℚ) ^ x.exponent ≤ 2 ^ (-1 : ℤ) := zpow_le_zpow_right₀ (by norm_num) (by omega)
  have hmantissa : |(x.mantissa : ℚ)| ≤ 2 ^ 53 := by
    have := x.mantissa_small.le
    exact_mod_cast this
  rw [FiniteDouble.value, abs_mul, abs_of_pos (zpow_pos (by norm_num : (0 : ℚ) < 2) _)]
  calc |(x.mantissa : ℚ)| * 2 ^ x.exponent
      ≤ 2 ^ 53 * 2 ^ (-1 : ℤ) := mul_le_mul hmantissa hhalf (by positivity) (by norm_num)
    _ = 2 ^ 52 := by norm_num

theorem FiniteDouble.value_integral {x : FiniteDouble} (h : 0 ≤ x.exponent) :
    x.value = (x.mantissa * 2 ^ x.exponent.toNat : ℤ) := by
  rw [FiniteDouble.value, Int.cast_mul, Int.cast_pow, ← zpow_natCast, Int.toNat_of_nonneg h]
  rfl

/-- An integer next to a double is a double. -/
theorem FiniteDouble.as_f64_of_near {x : FiniteDouble} {n : ℤ} (hintegral : (n : ℚ) = x.value ∨
    x.exponent < 0) (hnear : |(n : ℚ) - x.value| < 1) : as_f64 n = n := by
  apply as_f64_of_round
  by_cases hexp : x.exponent < 0
  · apply round_to_even_of_small
    have habs : |(n : ℚ)| < 2 ^ 52 + 1 := by
      calc |(n : ℚ)| = |(n - x.value) + x.value| := by rw [sub_add_cancel]
        _ ≤ |(n : ℚ) - x.value| + |x.value| := abs_add_le _ _
        _ < 1 + 2 ^ 52 := add_lt_add_of_lt_of_le hnear (x.abs_value_le hexp)
        _ = 2 ^ 52 + 1 := add_comm _ _
    have hint : |n| < 2 ^ 52 + 1 := by exact_mod_cast habs
    rw [Int.abs_eq_natAbs] at hint
    omega
  · have heq := hintegral.resolve_right hexp
    rw [FiniteDouble.value_integral (not_lt.mp hexp), Int.cast_inj] at heq
    rw [heq, Int.natAbs_mul, Int.natAbs_pow]
    apply round_to_even_of_mul
    have hsmall := x.mantissa_small
    rw [Int.abs_eq_natAbs] at hsmall
    omega

theorem FiniteDouble.ceil_eq {x : FiniteDouble} (h : ¬ x.exponent < 0) : (⌈x.value⌉ : ℚ) = x.value := by
  rw [FiniteDouble.value_integral (not_lt.mp h), Int.ceil_intCast]

theorem FiniteDouble.floor_eq {x : FiniteDouble} (h : ¬ x.exponent < 0) :
    (⌊x.value⌋ : ℚ) = x.value := by
  rw [FiniteDouble.value_integral (not_lt.mp h), Int.floor_intCast]

theorem FiniteDouble.as_f64_ceil (x : FiniteDouble) : as_f64 ⌈x.value⌉ = ⌈x.value⌉ := by
  apply x.as_f64_of_near
  · by_cases h : x.exponent < 0
    · exact Or.inr h
    · exact Or.inl (x.ceil_eq h)
  · have hle := Int.le_ceil x.value
    have hlt := Int.ceil_lt_add_one x.value
    rw [abs_lt]
    constructor <;> linarith

theorem FiniteDouble.as_f64_floor (x : FiniteDouble) : as_f64 ⌊x.value⌋ = ⌊x.value⌋ := by
  apply x.as_f64_of_near
  · by_cases h : x.exponent < 0
    · exact Or.inr h
    · exact Or.inl (x.floor_eq h)
  · have hle := Int.floor_le x.value
    have hlt := Int.lt_floor_add_one x.value
    rw [abs_lt]
    constructor <;> linarith

theorem as_f64_max : as_f64 i64_max = 2 ^ 63 := by decide +kernel

theorem as_f64_min : as_f64 i64_min = -2 ^ 63 := by decide +kernel

theorem as_i64_of_mem {n : ℤ} (hmin : i64_min ≤ n) (hmax : n ≤ i64_max) : as_i64 n = n := by
  rw [as_i64, min_eq_left hmax, max_eq_right hmin]

theorem as_i64_of_lt {n : ℤ} (h : n < i64_min) : as_i64 n = i64_min := by
  have : i64_min < i64_max := by decide
  rw [as_i64, min_eq_left (by omega), max_eq_left (by omega)]

theorem as_i64_of_gt {n : ℤ} (h : i64_max < n) : as_i64 n = i64_max := by
  rw [as_i64, min_eq_right h.le]
  decide

/-- The lower bound is met by the doubles above `lower`, with or without `lower`. -/
def SatisfiesMinimum (schema : NumberSchema) (n : ℤ) : Prop :=
  ∀ x, schema.minimum = some (.finite x) →
    if schema.exclusive_minimum then x.value < n else x.value ≤ n

def SatisfiesMaximum (schema : NumberSchema) (n : ℤ) : Prop :=
  ∀ x, schema.maximum = some (.finite x) →
    if schema.exclusive_maximum then n < x.value else n ≤ x.value

/-- No overflow, and the bound separates the `i64` as the schema does. -/
def BoundCorrect (satisfies : ℤ → Prop) (within : ℤ → ℤ → Prop) :
    RangeResult (Option ℤ) → Prop
  | .ok bound => ∀ n : Int64, (∀ b, bound = some b → within b n.toInt) ↔ satisfies n.toInt
  | .error _ => False

def LowerBoundCorrect (schema : NumberSchema) : Prop :=
  BoundCorrect (SatisfiesMinimum schema) (fun b n => b ≤ n) (integer_lower_bound schema)

def UpperBoundCorrect (schema : NumberSchema) : Prop :=
  BoundCorrect (SatisfiesMaximum schema) (fun b n => n ≤ b) (integer_upper_bound schema)

def MinimumInReach (schema : NumberSchema) : Prop :=
  ∀ x, schema.minimum = some (.finite x) → x.value < 2 ^ 63

def MaximumInReach (schema : NumberSchema) : Prop :=
  ∀ x, schema.maximum = some (.finite x) → -2 ^ 63 ≤ x.value ∧
    (schema.exclusive_maximum → x.value ≠ -2 ^ 63 ∧ x.value ≠ 2 ^ 63)

/-- No double lies between the largest `i64` and `2 ^ 63`. -/
theorem FiniteDouble.ceil_le_max_iff (x : FiniteDouble) :
    ⌈x.value⌉ ≤ i64_max ↔ x.value < 2 ^ 63 := by
  rw [Int.ceil_le]
  constructor
  · intro h
    apply h.trans_lt
    norm_num [i64_max]
  · intro h
    by_cases hexp : x.exponent < 0
    · have habs := (abs_le.mp (x.abs_value_le hexp)).2
      apply habs.trans
      norm_num [i64_max]
    · rw [← x.ceil_eq hexp] at h ⊢
      have hint : ⌈x.value⌉ < 2 ^ 63 := by exact_mod_cast h
      have hle : ⌈x.value⌉ ≤ i64_max := by
        rw [i64_max]
        omega
      exact_mod_cast hle

theorem FiniteDouble.ceil_ne_max (x : FiniteDouble) : ⌈x.value⌉ ≠ i64_max := by
  intro h
  have := x.as_f64_ceil
  rw [h, as_f64_max] at this
  exact absurd this (by decide)

theorem FiniteDouble.floor_le_max_iff (x : FiniteDouble) :
    ⌊x.value⌋ ≤ i64_max ↔ x.value < 2 ^ 63 := by
  rw [← Int.lt_add_one_iff, Int.floor_lt]
  norm_num [i64_max]

theorem FiniteDouble.min_le_floor_iff (x : FiniteDouble) :
    i64_min ≤ ⌊x.value⌋ ↔ -2 ^ 63 ≤ x.value := by
  rw [Int.le_floor]
  norm_num [i64_min]

theorem maxValue_toInt : Int64.maxValue.toInt = i64_max := by decide

theorem minValue_toInt : Int64.minValue.toInt = i64_min := by decide

section minimum

variable {schema : NumberSchema} {x : FiniteDouble} (h : schema.minimum = some (.finite x))

include h

theorem satisfiesMinimum_iff (n : ℤ) : SatisfiesMinimum schema n ↔
    if schema.exclusive_minimum then x.value < n else x.value ≤ n := by
  constructor
  · intro hn
    exact hn x h
  · intro hn y hy
    rw [h, Option.some.injEq, F64.finite.injEq] at hy
    exact hy ▸ hn

theorem integer_lower_bound_eq : integer_lower_bound schema =
    if schema.exclusive_minimum ∧ (as_f64 (as_i64 ⌈x.value⌉) : ℚ) ≤ x.value then
      (checked (as_i64 ⌈x.value⌉ + 1)).map some
    else .ok (some (as_i64 ⌈x.value⌉)) := by
  rw [integer_lower_bound, h]

/-- From `2 ^ 63` on the largest `i64` is taken for the bound. -/
theorem lower_bound_fails (hge : 2 ^ 63 ≤ x.value) : ¬ LowerBoundCorrect schema := by
  have hgt : i64_max < ⌈x.value⌉ := by
    rw [← not_le, x.ceil_le_max_iff, not_lt]
    exact hge
  rw [LowerBoundCorrect, integer_lower_bound_eq h, as_i64_of_gt hgt, as_f64_max]
  intro hcorrect
  by_cases hexcl : schema.exclusive_minimum = true
  · rw [if_pos ⟨hexcl, by exact_mod_cast hge⟩] at hcorrect
    exact hcorrect
  · rw [if_neg (fun hand => hexcl hand.1)] at hcorrect
    have hmax := (hcorrect Int64.maxValue).mp (fun b hb => by
      rw [maxValue_toInt, ← Option.some.inj hb])
    rw [satisfiesMinimum_iff h, if_neg hexcl, maxValue_toInt] at hmax
    norm_num [i64_max] at hmax hge
    linarith

theorem lower_bound_below (hlt : ⌈x.value⌉ < i64_min) : LowerBoundCorrect schema := by
  have hvalue : x.value < i64_min := (Int.le_ceil _).trans_lt (by exact_mod_cast hlt)
  have hkeep : ¬ (schema.exclusive_minimum = true ∧ ((-2 ^ 63 : ℤ) : ℚ) ≤ x.value) := by
    intro hand
    exact absurd (hvalue.trans_le hand.2) (lt_irrefl _)
  rw [LowerBoundCorrect, integer_lower_bound_eq h, as_i64_of_lt hlt, as_f64_min, if_neg hkeep]
  intro n
  have hn : (i64_min : ℚ) ≤ n.toInt := by exact_mod_cast (int64_range n).1
  rw [satisfiesMinimum_iff h]
  apply iff_of_true
  · intro b hb
    rw [← Option.some.inj hb]
    exact (int64_range n).1
  · split_ifs
    · exact hvalue.trans_le hn
    · exact (hvalue.trans_le hn).le

theorem lower_bound_inside (hmin : i64_min ≤ ⌈x.value⌉) (hmax : ⌈x.value⌉ ≤ i64_max) :
    LowerBoundCorrect schema := by
  rw [LowerBoundCorrect, integer_lower_bound_eq h, as_i64_of_mem hmin hmax, x.as_f64_ceil]
  split_ifs with hexcl
  · have heq : x.value = ⌈x.value⌉ := le_antisymm (Int.le_ceil _) hexcl.2
    have hne := x.ceil_ne_max
    rw [checked, if_pos (by omega)]
    intro n
    rw [satisfiesMinimum_iff h, if_pos hexcl.1]
    generalize ⌈x.value⌉ = c at heq
    simp only [heq, Option.some.injEq, forall_eq', Int.cast_lt]
    omega
  · intro n
    rw [satisfiesMinimum_iff h]
    simp only [Option.some.injEq, forall_eq']
    split_ifs with hflag
    · have hceil : x.value < ⌈x.value⌉ := not_le.mp (fun hge => hexcl ⟨hflag, hge⟩)
      constructor
      · intro hn
        exact hceil.trans_le (by exact_mod_cast hn)
      · intro hn
        exact Int.ceil_le.mpr hn.le
    · exact Int.ceil_le

theorem lowerBoundCorrect_iff : LowerBoundCorrect schema ↔ x.value < 2 ^ 63 := by
  constructor
  · intro hcorrect
    by_contra hge
    exact lower_bound_fails h (not_lt.mp hge) hcorrect
  · intro hlt
    by_cases hbelow : ⌈x.value⌉ < i64_min
    · exact lower_bound_below h hbelow
    · exact lower_bound_inside h (not_lt.mp hbelow) (x.ceil_le_max_iff.mpr hlt)

end minimum

section maximum

variable {schema : NumberSchema} {x : FiniteDouble} (h : schema.maximum = some (.finite x))

include h

theorem satisfiesMaximum_iff (n : ℤ) : SatisfiesMaximum schema n ↔
    if schema.exclusive_maximum then n < x.value else n ≤ x.value := by
  constructor
  · intro hn
    exact hn x h
  · intro hn y hy
    rw [h, Option.some.injEq, F64.finite.injEq] at hy
    exact hy ▸ hn

theorem integer_upper_bound_eq : integer_upper_bound schema =
    if schema.exclusive_maximum ∧ x.value ≤ as_f64 (as_i64 ⌊x.value⌋) then
      (checked (as_i64 ⌊x.value⌋ - 1)).map some
    else .ok (some (as_i64 ⌊x.value⌋)) := by
  rw [integer_upper_bound, h]

/-- Below `-2 ^ 63` the smallest `i64` is taken for the bound. -/
theorem upper_bound_fails_below (hlt : x.value < -2 ^ 63) : ¬ UpperBoundCorrect schema := by
  have hbelow : ⌊x.value⌋ < i64_min := by
    rw [← not_le, x.min_le_floor_iff, not_le]
    exact hlt
  rw [UpperBoundCorrect, integer_upper_bound_eq h, as_i64_of_lt hbelow, as_f64_min]
  intro hcorrect
  by_cases hexcl : schema.exclusive_maximum = true
  · rw [if_pos ⟨hexcl, by exact_mod_cast hlt.le⟩] at hcorrect
    exact hcorrect
  · rw [if_neg (fun hand => hexcl hand.1)] at hcorrect
    have hmin := (hcorrect Int64.minValue).mp (fun b hb => by
      rw [minValue_toInt, ← Option.some.inj hb])
    rw [satisfiesMaximum_iff h, if_neg hexcl, minValue_toInt] at hmin
    norm_num [i64_min] at hmin hlt
    linarith

/-- An excluded `-2 ^ 63` overflows. -/
theorem upper_bound_fails_min (heq : x.value = -2 ^ 63) (hexcl : schema.exclusive_maximum = true) :
    ¬ UpperBoundCorrect schema := by
  have hfloor : ⌊x.value⌋ = i64_min := by
    rw [heq]
    norm_num [i64_min, Int.floor_eq_iff]
  rw [UpperBoundCorrect, integer_upper_bound_eq h, hfloor]
  have hcast : as_i64 i64_min = i64_min := by decide
  rw [hcast, as_f64_min, if_pos ⟨hexcl, by rw [heq]; norm_num⟩]
  intro hcorrect
  exact hcorrect

/-- An excluded `2 ^ 63` excludes the largest `i64`. -/
theorem upper_bound_fails_max (heq : x.value = 2 ^ 63) (hexcl : schema.exclusive_maximum = true) :
    ¬ UpperBoundCorrect schema := by
  have hgt : i64_max < ⌊x.value⌋ := by
    rw [← not_le, x.floor_le_max_iff, not_lt, heq]
  rw [UpperBoundCorrect, integer_upper_bound_eq h, as_i64_of_gt hgt, as_f64_max,
    if_pos ⟨hexcl, by rw [heq]; norm_num⟩]
  intro hcorrect
  have hmax := (hcorrect Int64.maxValue).mpr (by
    rw [satisfiesMaximum_iff h, if_pos hexcl, maxValue_toInt, heq]
    norm_num [i64_max])
  have := hmax _ rfl
  rw [maxValue_toInt] at this
  exact absurd this (by decide)

theorem upper_bound_above (hge : 2 ^ 63 ≤ x.value)
    (hexcl : schema.exclusive_maximum = true → x.value ≠ 2 ^ 63) : UpperBoundCorrect schema := by
  have hgt : i64_max < ⌊x.value⌋ := by
    rw [← not_le, x.floor_le_max_iff, not_lt]
    exact hge
  have hkeep : ¬ (schema.exclusive_maximum = true ∧ x.value ≤ ((2 ^ 63 : ℤ) : ℚ)) := by
    intro hand
    exact hexcl hand.1 (le_antisymm (by exact_mod_cast hand.2) hge)
  rw [UpperBoundCorrect, integer_upper_bound_eq h, as_i64_of_gt hgt, as_f64_max, if_neg hkeep]
  intro n
  have hn : (n.toInt : ℚ) < x.value := by
    apply lt_of_lt_of_le _ hge
    exact_mod_cast Int64.toInt_lt n
  rw [satisfiesMaximum_iff h]
  apply iff_of_true
  · intro b hb
    rw [← Option.some.inj hb]
    exact (int64_range n).2
  · split_ifs
    · exact hn
    · exact hn.le

theorem upper_bound_inside (hmin : i64_min ≤ ⌊x.value⌋) (hmax : ⌊x.value⌋ ≤ i64_max)
    (hexcl : schema.exclusive_maximum = true → x.value ≠ -2 ^ 63) : UpperBoundCorrect schema := by
  rw [UpperBoundCorrect, integer_upper_bound_eq h, as_i64_of_mem hmin hmax, x.as_f64_floor]
  split_ifs with hstep
  · have heq : x.value = ⌊x.value⌋ := le_antisymm hstep.2 (Int.floor_le _)
    have hne : ⌊x.value⌋ ≠ i64_min := by
      intro hfloor
      apply hexcl hstep.1
      rw [heq, hfloor]
      norm_num [i64_min]
    rw [checked, if_pos (by omega)]
    intro n
    rw [satisfiesMaximum_iff h, if_pos hstep.1]
    generalize ⌊x.value⌋ = c at heq
    simp only [heq, Option.some.injEq, forall_eq', Int.cast_lt]
    omega
  · intro n
    rw [satisfiesMaximum_iff h]
    simp only [Option.some.injEq, forall_eq']
    split_ifs with hflag
    · have hfloor : ⌊x.value⌋ < x.value := not_le.mp (fun hge => hstep ⟨hflag, hge⟩)
      constructor
      · intro hn
        exact lt_of_le_of_lt (by exact_mod_cast hn) hfloor
      · intro hn
        exact Int.le_floor.mpr hn.le
    · exact Int.le_floor

theorem upperBoundCorrect_iff : UpperBoundCorrect schema ↔ -2 ^ 63 ≤ x.value ∧
    (schema.exclusive_maximum → x.value ≠ -2 ^ 63 ∧ x.value ≠ 2 ^ 63) := by
  constructor
  · intro hcorrect
    refine ⟨?_, fun hexcl => ⟨?_, ?_⟩⟩
    · by_contra hlt
      exact upper_bound_fails_below h (not_le.mp hlt) hcorrect
    · intro heq
      exact upper_bound_fails_min h heq hexcl hcorrect
    · intro heq
      exact upper_bound_fails_max h heq hexcl hcorrect
  · intro hreach
    by_cases habove : 2 ^ 63 ≤ x.value
    · exact upper_bound_above h habove (fun hexcl => (hreach.2 hexcl).2)
    · exact upper_bound_inside h (x.min_le_floor_iff.mpr hreach.1)
        (x.floor_le_max_iff.mpr (not_le.mp habove)) (fun hexcl => (hreach.2 hexcl).1)

end maximum

/-- Without a finite minimum every integer is above the bound. -/
theorem lowerBoundCorrect_of_none {schema : NumberSchema}
    (h : ∀ x, schema.minimum ≠ some (.finite x)) : LowerBoundCorrect schema := by
  have hnone : integer_lower_bound schema = .ok none := by
    unfold integer_lower_bound
    split
    · rename_i x hx
      exact absurd hx (h x)
    · rfl
  rw [LowerBoundCorrect, hnone]
  intro n
  apply iff_of_true
  · intro b hb
    cases hb
  · intro x hx
    exact absurd hx (h x)

theorem upperBoundCorrect_of_none {schema : NumberSchema}
    (h : ∀ x, schema.maximum ≠ some (.finite x)) : UpperBoundCorrect schema := by
  have hnone : integer_upper_bound schema = .ok none := by
    unfold integer_upper_bound
    split
    · rename_i x hx
      exact absurd hx (h x)
    · rfl
  rw [UpperBoundCorrect, hnone]
  intro n
  apply iff_of_true
  · intro b hb
    cases hb
  · intro x hx
    exact absurd hx (h x)

/-- The bounds are exact precisely for a minimum below `2 ^ 63`, a maximum from `-2 ^ 63`
on, and an excluded maximum that is neither of the two. -/
theorem integer_bounds_correct (schema : NumberSchema) :
    (LowerBoundCorrect schema ∧ UpperBoundCorrect schema) ↔
      MinimumInReach schema ∧ MaximumInReach schema := by
  apply and_congr
  · by_cases hfinite : ∃ x, schema.minimum = some (.finite x)
    · obtain ⟨x, hx⟩ := hfinite
      rw [lowerBoundCorrect_iff hx, MinimumInReach]
      simp only [hx, Option.some.injEq, F64.finite.injEq, forall_eq']
    · rw [not_exists] at hfinite
      exact iff_of_true (lowerBoundCorrect_of_none hfinite) (fun x hx => absurd hx (hfinite x))
  · by_cases hfinite : ∃ x, schema.maximum = some (.finite x)
    · obtain ⟨x, hx⟩ := hfinite
      rw [upperBoundCorrect_iff hx, MaximumInReach]
      simp only [hx, Option.some.injEq, F64.finite.injEq, forall_eq']
    · rw [not_exists] at hfinite
      exact iff_of_true (upperBoundCorrect_of_none hfinite) (fun x hx => absurd hx (hfinite x))

theorem exponent_small_63 : (-1074 : ℤ) ≤ 63 ∧ (63 : ℤ) ≤ 971 := by decide

/-- The double `2 ^ 63`. -/
def twoPow63 : FiniteDouble where
  mantissa := 1
  exponent := 63
  mantissa_small := by decide
  exponent_small := exponent_small_63

theorem integer_lower_bound_two_pow_63 :
    ¬ LowerBoundCorrect
      { minimum := some (.finite twoPow63), maximum := none, exclusive_minimum := true,
        exclusive_maximum := false, multiple_of := none } := by
  apply lower_bound_fails rfl
  norm_num [FiniteDouble.value, twoPow63]

end NumericRange

end GlrMask
