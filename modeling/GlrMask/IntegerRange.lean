import GlrMask.DecimalText

/-!
# Regular expressions for integer ranges

`rx_int_range` writes a regular expression for the integers between two optional
bounds. Below ten digits alike it splits off the numbers that share all digits but the
last with a bound, and ranges of numbers of different lengths are cut at the powers of
ten.
-/

namespace GlrMask

namespace NumericRange

open Regex (Pattern Atom group literal char range)
open Decimal

abbrev Text := Pattern Char

/-- An error that is returned, or a panic of an `i64` operation. -/
inductive RangeFailure where
  | error (message : String)
  | overflow
  deriving DecidableEq, Repr

abbrev RangeResult (α : Type) := Except RangeFailure α

theorem bind_eq_ok {α β : Type} {x : RangeResult α} {f : α → RangeResult β} {b : β}
    (h : x >>= f = .ok b) : ∃ a, x = .ok a ∧ f a = .ok b := by
  cases x with
  | error e => cases h
  | ok a => exact ⟨a, rfl, h⟩

def i64_min : ℤ := -2 ^ 63

def i64_max : ℤ := 2 ^ 63 - 1

def checked (n : ℤ) : RangeResult ℤ :=
  if i64_min ≤ n ∧ n ≤ i64_max then .ok n else .error .overflow

def mk_or : List Text → Text
  | [p] => p
  | parts => group (Pattern.join parts)

/-- The digits of a number that is not negative. -/
def num_digits (n : ℕ) : ℕ := (spelling n).length

def last_digit (text : List Char) : Char := text.getLastD '0'

/-- `parse::<i64>().unwrap_or(0)` on the digits of an `i64` but the last. -/
def parse_digits (text : List Char) : ℕ := Nat.ofDigitChars 10 text 0

def invalid_range (left right : ℤ) : RangeFailure :=
  .error s!"Invalid range: left ({left}) > right ({right})"

/-- The numbers that share all digits but the last with the left bound. -/
def left_parts (l : List Char) : List Text :=
  if last_digit l ≠ '0' then [literal l.dropLast ++ range (last_digit l) '9'] else []

def right_parts (r : List Char) : List Text :=
  if last_digit r ≠ '9' then [literal r.dropLast ++ range '0' (last_digit r)] else []

def left_rec (l : List Char) : ℤ :=
  if last_digit l ≠ '0' then parse_digits l.dropLast + 1 else parse_digits l.dropLast

def right_rec (r : List Char) : ℤ :=
  if last_digit r ≠ '9' then parse_digits r.dropLast - 1 else parse_digits r.dropLast

theorem parse_digits_spelling (n : ℕ) : parse_digits (spelling n) = n :=
  Nat.ofDigitChars_ten_toDigits

theorem dropLast_spelling {n : ℕ} (h : 10 ≤ n) : (spelling n).dropLast = spelling (n / 10) := by
  rw [spelling_of_le h, List.dropLast_concat]

theorem last_digit_spelling (n : ℕ) : last_digit (spelling n) = Nat.digitChar (n % 10) := by
  by_cases h : 10 ≤ n
  · rw [spelling_of_le h, last_digit, List.getLastD_concat]
  · rw [spelling_of_lt (by omega), Nat.mod_eq_of_lt (by omega)]
    rfl

theorem parse_digits_dropLast (n : ℕ) : parse_digits (spelling n).dropLast = n / 10 := by
  by_cases h : 10 ≤ n
  · rw [dropLast_spelling h, parse_digits_spelling]
  · rw [spelling_of_lt (by omega), Nat.div_eq_of_lt (by omega)]
    rfl

theorem num_digits_mono {m n : ℕ} (h : m ≤ n) : num_digits m ≤ num_digits n :=
  (length_spelling_le_iff (length_spelling_pos n)).mpr (h.trans_lt (lt_pow_length_spelling n))

theorem num_digits_div {n : ℕ} (h : 10 ≤ n) : num_digits (n / 10) + 1 = num_digits n := by
  rw [num_digits, num_digits, spelling_of_le h, List.length_append, List.length_singleton]

theorem num_digits_pos (n : ℕ) : 0 < num_digits n := length_spelling_pos n

theorem lt_pow_num_digits (n : ℕ) : n < 10 ^ num_digits n := lt_pow_length_spelling n

theorem num_digits_pow_pred {d : ℕ} (h : 0 < d) : num_digits (10 ^ d - 1) ≤ d :=
  (length_spelling_le_iff h).mpr (Nat.sub_lt (by positivity) (by decide))

theorem num_digits_pow (d : ℕ) : d < num_digits (10 ^ d) := by
  by_contra h
  cases d with
  | zero => exact h (num_digits_pos _)
  | succ d =>
    have := (length_spelling_le_iff (Nat.succ_pos d)).mp (not_lt.mp h)
    exact lt_irrefl _ this

theorem left_rec_spelling (n : ℕ) :
    left_rec (spelling n) = if n % 10 ≠ 0 then ((n / 10 : ℕ) : ℤ) + 1 else (n / 10 : ℕ) := by
  have hzero : Nat.digitChar (n % 10) ≠ '0' ↔ n % 10 ≠ 0 := by
    rw [ne_eq, Nat.digitChar_eq_zero]
  rw [left_rec, last_digit_spelling, parse_digits_dropLast]
  simp only [hzero]

theorem right_rec_spelling (n : ℕ) :
    right_rec (spelling n) = if n % 10 ≠ 9 then ((n / 10 : ℕ) : ℤ) - 1 else (n / 10 : ℕ) := by
  have hnine : Nat.digitChar (n % 10) ≠ '9' ↔ n % 10 ≠ 9 := by
    rw [ne_eq, Nat.digitChar_eq_nine]
  rw [right_rec, last_digit_spelling, parse_digits_dropLast]
  simp only [hnine]

theorem div_ne_of_dropLast_ne {left right : ℕ} (hl : 10 ≤ left) (hr : 10 ≤ right)
    (hne : (spelling left).dropLast ≠ (spelling right).dropLast) : left / 10 ≠ right / 10 := by
  intro h
  apply hne
  rw [dropLast_spelling hl, dropLast_spelling hr, h]

theorem ten_le_of_dropLast_ne {left right : ℕ} (heq : num_digits left = num_digits right)
    (hne : (spelling left).dropLast ≠ (spelling right).dropLast) : 10 ≤ left ∧ 10 ≤ right := by
  have hone : ∀ n : ℕ, n < 10 ↔ num_digits n ≤ 1 := by
    intro n
    rw [num_digits, length_spelling_le_iff (by decide), pow_one]
  by_contra h
  have hleft : num_digits left ≤ 1 ∧ num_digits right ≤ 1 := by
    by_cases hl : left < 10
    · exact ⟨(hone left).mp hl, heq ▸ (hone left).mp hl⟩
    · have hr : right < 10 := by omega
      exact ⟨heq ▸ (hone right).mp hr, (hone right).mp hr⟩
  apply hne
  rw [spelling_of_lt ((hone left).mpr hleft.1), spelling_of_lt ((hone right).mpr hleft.2)]
  rfl

theorem lt_of_num_digits_ne {left right : ℕ} (hle : left ≤ right)
    (hne : num_digits left ≠ num_digits right) : num_digits left < num_digits right :=
  lt_of_le_of_ne (num_digits_mono hle) hne

theorem pow_num_digits_le {left right : ℕ} (h : num_digits left < num_digits right) :
    10 ^ num_digits left ≤ right := by
  by_contra hlt
  have := (length_spelling_le_iff (num_digits_pos left)).mpr (not_le.mp hlt)
  exact absurd h (not_lt.mpr this)

/-- `rx_int_range` between two bounds that are not negative. -/
def rx_nonneg_int_range (left right : ℕ) : RangeResult Text :=
  if left > right then .error (invalid_range left right)
  else if hdigits : num_digits left = num_digits right then
    let l := spelling left
    let r := spelling right
    if left = right then .ok (group (literal l))
    else if _hshared : l.dropLast = r.dropLast then
      .ok (group (literal l.dropLast ++ range (last_digit l) (last_digit r)))
    else if left_rec l > i64_max ∨ right_rec r < i64_min then .error .overflow
    else
      let parts := left_parts l ++ right_parts r
      if left_rec l ≤ right_rec r then
        (rx_nonneg_int_range (left_rec l).toNat (right_rec r).toNat).map fun inner =>
          mk_or (parts ++ [inner ++ range '0' '9'])
      else .ok (mk_or parts)
  else if (10 ^ num_digits left : ℕ) > i64_max then
    .error (.error "Overflow when calculating break point")
  else
    let break_point := 10 ^ num_digits left - 1
    (rx_nonneg_int_range left break_point).bind fun low =>
      (rx_nonneg_int_range (break_point + 1) right).map fun high => mk_or [low, high]
termination_by (num_digits right, num_digits right - num_digits left)
decreasing_by
  · have hten := ten_le_of_dropLast_ne hdigits _hshared
    apply Prod.Lex.left
    have hle : (right_rec (spelling right)).toNat ≤ right / 10 := by
      rw [right_rec_spelling]
      split <;> omega
    have := num_digits_mono hle
    have := num_digits_div hten.2
    omega
  · apply Prod.Lex.left
    have := num_digits_pow_pred (num_digits_pos left)
    have := num_digits_mono (m := left) (n := right) (by omega)
    omega
  · have hlt : num_digits left < num_digits right := by
      have := num_digits_mono (m := left) (n := right) (by omega)
      omega
    have hpow := num_digits_pow (num_digits left)
    have hsucc : break_point + 1 = 10 ^ num_digits left :=
      Nat.sub_add_cancel (Nat.one_le_pow _ _ (by decide))
    apply Prod.Lex.right
    rw [hsucc]
    omega

theorem mk_or_denotes {parts : List Text} {L : Language Char} (h : Pattern.DenoteAll parts L)
    (hne : parts ≠ []) : (mk_or parts).Denotes L := by
  obtain ⟨p, ps, rfl⟩ := List.exists_cons_of_ne_nil hne
  cases ps with
  | nil => exact h.denotes
  | cons q ps => exact h.group_join hne

theorem mk_or_pair {p q : Text} {L M : Language Char} (hp : p.Denotes L) (hq : q.Denotes M) :
    (mk_or [p, q]).Denotes (L + M) :=
  mk_or_denotes (hp.denoteAll.append hq.denoteAll) (List.cons_ne_nil _ _)

/-- A text of digits followed by one digit. -/
theorem literal_digit {m i j : ℕ} (hm : m ≠ 0) (hi : i < 10) (hj : j < 10) :
    (literal (spelling m) ++ range (Nat.digitChar i) (Nat.digitChar j)).Denotes
      (spellings {n | n / 10 = m ∧ i ≤ n % 10 ∧ n % 10 ≤ j}) := by
  have h := (Pattern.denotes_literal (spelling m)).append (denotes_digits hi hj)
  rw [← spellings_singleton, spellings_mul_digits (by simpa using hm.symm) hj] at h
  exact h

theorem spellings_empty : spellings ∅ = 0 := by
  ext w
  constructor
  · intro h
    obtain ⟨n, hn, -⟩ := h
    exact absurd hn (Set.notMem_empty n)
  · intro h
    exact absurd h (Language.notMem_zero w)

theorem left_parts_denote {left : ℕ} (h : 10 ≤ left) :
    Pattern.DenoteAll (left_parts (spelling left))
      (spellings {n | n / 10 = left / 10 ∧ left ≤ n ∧ left % 10 ≠ 0}) := by
  unfold left_parts
  simp only [last_digit_spelling, ne_eq, Nat.digitChar_eq_zero, dropLast_spelling h]
  split_ifs with hzero
  · have hset : {n | n / 10 = left / 10 ∧ left ≤ n ∧ left % 10 ≠ 0} = (∅ : Set ℕ) := by
      ext n
      simp [hzero]
    rw [hset, spellings_empty]
    exact Pattern.denoteAll_nil
  · have hpart := literal_digit (m := left / 10) (i := left % 10) (j := 9) (by omega) (by omega)
      (by decide)
    apply (hpart.of_eq _).denoteAll
    congr 1
    ext n
    simp only [Set.mem_ofPred_eq]
    omega

theorem right_parts_denote {right : ℕ} (h : 10 ≤ right) :
    Pattern.DenoteAll (right_parts (spelling right))
      (spellings {n | n / 10 = right / 10 ∧ n ≤ right ∧ right % 10 ≠ 9}) := by
  unfold right_parts
  simp only [last_digit_spelling, ne_eq, Nat.digitChar_eq_nine, dropLast_spelling h]
  split_ifs with hnine
  · have hset : {n | n / 10 = right / 10 ∧ n ≤ right ∧ right % 10 ≠ 9} = (∅ : Set ℕ) := by
      ext n
      simp [hnine]
    rw [hset, spellings_empty]
    exact Pattern.denoteAll_nil
  · have hpart := literal_digit (m := right / 10) (i := 0) (j := right % 10) (by omega)
      (by decide) (by omega)
    apply (hpart.of_eq _).denoteAll
    congr 1
    ext n
    simp only [Set.mem_ofPred_eq]
    omega

/-- Numbers that share all digits but the last. -/
theorem shared_digits_denote {left right : ℕ}
    (h : (spelling left).dropLast = (spelling right).dropLast) :
    (literal (spelling left).dropLast ++
        range (last_digit (spelling left)) (last_digit (spelling right))).Denotes
      (spellings {n | left ≤ n ∧ n ≤ right}) := by
  have hquot : left / 10 = right / 10 := by
    rw [← parse_digits_dropLast, h, parse_digits_dropLast]
  rw [last_digit_spelling, last_digit_spelling]
  by_cases hten : 10 ≤ left
  · have hpart := literal_digit (m := left / 10) (i := left % 10) (j := right % 10) (by omega)
      (by omega) (by omega)
    rw [dropLast_spelling hten]
    apply hpart.of_eq
    congr 1
    ext n
    simp only [Set.mem_ofPred_eq]
    omega
  · have hpart := (Pattern.denotes_literal ([] : List Char)).append
      (denotes_digits (i := left % 10) (j := right % 10) (by omega) (by omega))
    rw [spelling_of_lt (not_le.mp hten)]
    apply hpart.of_eq
    have hone : ({[]} : Language Char) = 1 := rfl
    rw [hone, one_mul, digits_eq_spellings (by omega)]
    congr 1
    ext n
    simp only [Set.mem_ofPred_eq]
    omega

theorem rx_nonneg_int_range_spec {left right : ℕ} (hle : left ≤ right)
    (hmax : (right : ℤ) ≤ i64_max) :
    ∃ p, rx_nonneg_int_range left right = .ok p ∧
      p.Denotes (spellings {n | left ≤ n ∧ n ≤ right}) := by
  fun_induction rx_nonneg_int_range left right with
  | case1 left right h => omega
  | case2 left =>
    refine ⟨_, rfl, ?_⟩
    apply (Pattern.denotes_group _).of_eq
    rw [(Pattern.denotes_literal _).language_eq, ← spellings_singleton]
    congr 1
    ext n
    simp only [Set.mem_singleton_iff, Set.mem_ofPred_eq]
    omega
  | case3 left right h hdigits l r hne hshared =>
    refine ⟨_, rfl, ?_⟩
    apply (Pattern.denotes_group _).of_eq
    exact (shared_digits_denote hshared).language_eq
  | case4 left right h hdigits l r hne hshared hover =>
    have hl := left_rec_spelling left
    have hr := right_rec_spelling right
    simp only [l, r, hl, hr, i64_max, i64_min] at hover
    rw [i64_max] at hmax
    split_ifs at hover <;> omega
  | case5 left right h hdigits l r hne hshared hover parts hrec ih =>
    obtain ⟨hl, hr⟩ := ten_le_of_dropLast_ne hdigits hshared
    have hquot := div_ne_of_dropLast_ne hl hr hshared
    have hleft := left_rec_spelling left
    have hright := right_rec_spelling right
    have hbound : right_rec r ≤ i64_max := by
      simp only [r, hright]
      split_ifs <;> omega
    obtain ⟨inner, hinner, hdenotes⟩ := ih (Int.toNat_le_toNat hrec) (by omega)
    refine ⟨_, by rw [hinner]; rfl, ?_⟩
    have hzero : 0 ∉ {n | (left_rec l).toNat ≤ n ∧ n ≤ (right_rec r).toNat} := by
      simp only [Set.mem_ofPred_eq, l, hleft]
      split_ifs <;> omega
    have hlast := hdenotes.append (denotes_digits (i := 0) (j := 9) (by decide) (by decide))
    rw [spellings_mul_digits hzero (by decide)] at hlast
    have hall := ((left_parts_denote hl).append (right_parts_denote hr)).append hlast.denoteAll
    rw [spellings_add, spellings_add] at hall
    apply (mk_or_denotes hall (by simp)).of_eq
    congr 1
    ext n
    simp only [Set.mem_union, Set.mem_ofPred_eq, l, r, hleft, hright]
    split_ifs <;> omega
  | case6 left right h hdigits l r hne hshared hover parts hrec =>
    obtain ⟨hl, hr⟩ := ten_le_of_dropLast_ne hdigits hshared
    have hquot := div_ne_of_dropLast_ne hl hr hshared
    have hleft := left_rec_spelling left
    have hright := right_rec_spelling right
    simp only [l, r, hleft, hright] at hrec
    have hparts : left % 10 ≠ 0 ∨ right % 10 ≠ 9 := by
      split_ifs at hrec <;> omega
    refine ⟨_, rfl, ?_⟩
    have hall := (left_parts_denote hl).append (right_parts_denote hr)
    rw [spellings_add] at hall
    have hnonempty : parts ≠ [] := by
      simp only [parts, l, r, left_parts, right_parts, last_digit_spelling, ne_eq,
        Nat.digitChar_eq_zero, Nat.digitChar_eq_nine]
      obtain h0 | h9 := hparts
      · rw [if_pos h0]
        simp
      · rw [if_pos h9]
        simp
    apply (mk_or_denotes hall hnonempty).of_eq
    congr 1
    ext n
    simp only [Set.mem_union, Set.mem_ofPred_eq]
    split_ifs at hrec <;> omega
  | case7 left right h hdigits hover =>
    have hlt := lt_of_num_digits_ne (not_lt.mp h) hdigits
    have hpow : 10 ^ num_digits left ≤ right := pow_num_digits_le hlt
    omega
  | case8 left right h hdigits hover break_point ih₁ ih₂ =>
    have hlt := lt_of_num_digits_ne (not_lt.mp h) hdigits
    have hpow : 10 ^ num_digits left ≤ right := pow_num_digits_le hlt
    have hleft := lt_pow_num_digits left
    have hsucc : break_point + 1 = 10 ^ num_digits left :=
      Nat.sub_add_cancel (Nat.one_le_pow _ _ (by decide))
    obtain ⟨low, hlow, hlowDenotes⟩ := ih₁ (by omega) (by omega)
    obtain ⟨high, hhigh, hhighDenotes⟩ := ih₂ (by omega) hmax
    refine ⟨_, by rw [hlow, Except.bind, hhigh]; rfl, ?_⟩
    apply (mk_or_pair hlowDenotes hhighDenotes).of_eq
    rw [spellings_add]
    congr 1
    ext n
    simp only [Set.mem_union, Set.mem_ofPred_eq]
    omega

/-- `rx_int_range` with both bounds. -/
def rx_bounded_int_range (left right : ℤ) : RangeResult Text :=
  if left > right then .error (invalid_range left right)
  else if left < 0 then
    if right < 0 then do
      let l ← checked (-right)
      let r ← checked (-left)
      let p ← rx_nonneg_int_range l.toNat r.toNat
      return group (char '-' ++ p)
    else do
      let l ← checked (-left)
      let negative ← rx_nonneg_int_range 0 l.toNat
      let positive ← rx_nonneg_int_range 0 right.toNat
      return group ((char '-' ++ negative).choice positive)
  else rx_nonneg_int_range left.toNat right.toNat

/-- `rx_int_range` with a left bound that is not negative and no right bound. -/
def rx_int_range_from (left : ℕ) : RangeResult Text :=
  if ((10 ^ num_digits left - 1 : ℕ) : ℤ) > i64_max then
    .error (.error
      s!"Failed to parse max value for left {left}: number too large to fit in target type")
  else do
    let low ← rx_nonneg_int_range left (10 ^ num_digits left - 1)
    return mk_or [low, range '1' '9' ++
      (Atom.range '0' '9').quantified (.atLeast (num_digits left))]

/-- `rx_int_range` with no left bound and a negative right bound. -/
def rx_int_range_to (right : ℤ) : RangeResult Text := do
  let left ← checked (-right)
  let p ← rx_int_range_from left.toNat
  return char '-' ++ p

/-- `-?(0|[1-9][0-9]*)` -/
def integer_regex : Text :=
  (Atom.char '-').quantified .optional ++
    group ((char '0').choice (range '1' '9' ++ (Atom.range '0' '9').quantified .star))

def rx_int_range : Option ℤ → Option ℤ → RangeResult Text
  | none, none => .ok integer_regex
  | some left, none =>
      if left < 0 then do
        let negative ← rx_bounded_int_range left (-1)
        let positive ← rx_int_range_from 0
        return mk_or [negative, positive]
      else rx_int_range_from left.toNat
  | none, some right =>
      if right ≥ 0 then do
        let positive ← rx_bounded_int_range 0 right
        let negative ← rx_int_range_to (-1)
        return mk_or [positive, negative]
      else rx_int_range_to right
  | some left, some right => rx_bounded_int_range left right

theorem digit_language : (Atom.range '0' '9').language = digits 0 9 :=
  (Pattern.denotes_range '0' '9').language_eq.symm.trans
    (denotes_digits (i := 0) (j := 9) (by decide) (by decide)).language_eq

theorem rx_int_range_from_spec {left : ℕ} (h : left < 10 ^ 18) :
    ∃ p, rx_int_range_from left = .ok p ∧ p.Denotes (spellings {n | left ≤ n}) := by
  have hdigits : num_digits left ≤ 18 := (length_spelling_le_iff (by decide)).mpr h
  have hpow : 10 ^ num_digits left ≤ 10 ^ 18 := Nat.pow_le_pow_right (by decide) hdigits
  have hlt := lt_pow_num_digits left
  have hmax : ((10 ^ num_digits left - 1 : ℕ) : ℤ) ≤ i64_max := by
    rw [i64_max]
    omega
  have hle : left ≤ 10 ^ num_digits left - 1 := by omega
  obtain ⟨low, hlow, hdenotes⟩ := rx_nonneg_int_range_spec hle hmax
  refine ⟨_, by rw [rx_int_range_from, if_neg (not_lt.mpr hmax), hlow]; rfl, ?_⟩
  have hmore := (denotes_digits (i := 1) (j := 9) (by decide) (by decide)).append
    (Pattern.denotes_quantified (Atom.range '0' '9') (.atLeast (num_digits left)))
  rw [Regex.Quantifier.apply, digit_language, digits_mul_pow_mul_star] at hmore
  apply (mk_or_pair hdenotes hmore).of_eq
  rw [spellings_add]
  congr 1
  ext n
  simp only [Set.mem_union, Set.mem_ofPred_eq]
  omega

/-- The spellings of the negatives of `s`, and those of `t`. -/
def signed (s t : Set ℕ) : Language Char := {['-']} * spellings s + spellings t

theorem char_append_denotes {p : Text} {s : Set ℕ} (h : p.Denotes (spellings s)) :
    (char '-' ++ p).Denotes ({['-']} * spellings s) := (Pattern.denotes_char '-').append h

theorem rx_bounded_int_range_negative {left right : ℤ} (hle : left ≤ right) (h : right < 0)
    (hmin : i64_min < left) :
    ∃ p, rx_bounded_int_range left right = .ok p ∧
      p.Denotes ({['-']} * spellings {n : ℕ | left ≤ -n ∧ -n ≤ right}) := by
  have hr : checked (-right) = .ok (-right) := if_pos (by rw [i64_min, i64_max] at *; omega)
  have hl : checked (-left) = .ok (-left) := if_pos (by rw [i64_min, i64_max] at *; omega)
  obtain ⟨p, hp, hdenotes⟩ := rx_nonneg_int_range_spec
    (Int.toNat_le_toNat (neg_le_neg hle)) (by rw [i64_min, i64_max] at *; omega)
  refine ⟨group (char '-' ++ p), ?_, ?_⟩
  · rw [rx_bounded_int_range, if_neg (not_lt.mpr hle), if_pos (by omega), if_pos h, hr, hl]
    change (do let p ← rx_nonneg_int_range (-right).toNat (-left).toNat; _) = _
    rw [hp]
    rfl
  · apply (Pattern.denotes_group _).of_eq
    rw [(char_append_denotes hdenotes).language_eq]
    congr 2
    ext n
    simp only [Set.mem_ofPred_eq]
    omega

theorem rx_bounded_int_range_across {left right : ℤ} (hl : left < 0) (hr : 0 ≤ right)
    (hmin : i64_min < left) (hmax : right ≤ i64_max) :
    ∃ p, rx_bounded_int_range left right = .ok p ∧
      p.Denotes (signed {n : ℕ | left ≤ -n} {n : ℕ | n ≤ right}) := by
  have hneg : checked (-left) = .ok (-left) := if_pos (by rw [i64_min, i64_max] at *; omega)
  obtain ⟨p, hp, hpDenotes⟩ := rx_nonneg_int_range_spec (Nat.zero_le (-left).toNat)
    (by rw [i64_min, i64_max] at *; omega)
  obtain ⟨q, hq, hqDenotes⟩ := rx_nonneg_int_range_spec (Nat.zero_le right.toNat)
    (by rw [i64_min, i64_max] at *; omega)
  refine ⟨group ((char '-' ++ p).choice q), ?_, ?_⟩
  · rw [rx_bounded_int_range, if_neg (by omega), if_pos hl, if_neg (by omega), hneg]
    change (do let p ← rx_nonneg_int_range 0 (-left).toNat; _) = _
    rw [hp]
    change (do let q ← rx_nonneg_int_range 0 right.toNat; _) = _
    rw [hq]
    rfl
  · apply (Pattern.denotes_group _).of_eq
    rw [Pattern.language_choice, (char_append_denotes hpDenotes).language_eq,
      hqDenotes.language_eq, signed]
    congr 2
    · congr 1
      ext n
      simp only [Set.mem_ofPred_eq]
      omega
    · ext n
      simp only [Set.mem_ofPred_eq]
      omega

theorem rx_bounded_int_range_nonneg {left right : ℤ} (h : 0 ≤ left) (hle : left ≤ right)
    (hmax : right ≤ i64_max) :
    ∃ p, rx_bounded_int_range left right = .ok p ∧
      p.Denotes (spellings {n : ℕ | left ≤ n ∧ n ≤ right}) := by
  obtain ⟨p, hp, hdenotes⟩ := rx_nonneg_int_range_spec (Int.toNat_le_toNat hle) (by omega)
  refine ⟨p, ?_, hdenotes.of_eq ?_⟩
  · rw [rx_bounded_int_range, if_neg (not_lt.mpr hle), if_neg (not_lt.mpr h), hp]
  · congr 1
    ext n
    simp only [Set.mem_ofPred_eq]
    omega

theorem rx_int_range_to_spec {right : ℤ} (h : right < 0) (hmin : -10 ^ 18 < right) :
    ∃ p, rx_int_range_to right = .ok p ∧
      p.Denotes ({['-']} * spellings {n : ℕ | -n ≤ right}) := by
  have hneg : checked (-right) = .ok (-right) := if_pos (by rw [i64_min, i64_max]; omega)
  have hsmall : (-right).toNat < 10 ^ 18 := by omega
  obtain ⟨p, hp, hdenotes⟩ := rx_int_range_from_spec hsmall
  refine ⟨char '-' ++ p, ?_, (char_append_denotes hdenotes).of_eq ?_⟩
  · rw [rx_int_range_to, hneg]
    change (do let p ← rx_int_range_from (-right).toNat; _) = _
    rw [hp]
    rfl
  · congr 2
    ext n
    simp only [Set.mem_ofPred_eq]
    omega

def integer_spelling (n : ℤ) : List Char :=
  if n < 0 then '-' :: spelling n.natAbs else spelling n.natAbs

def Within (left right : Option ℤ) (n : ℤ) : Prop :=
  (∀ l, left = some l → l ≤ n) ∧ ∀ r, right = some r → n ≤ r

/-- The pattern matches the spellings of the integers in the range, and at most `-0`
besides. -/
structure MatchesRange (p : Text) (left right : Option ℤ) : Prop where
  spelled : ∀ n : ℤ, integer_spelling n ∈ p.language ↔ Within left right n
  only : ∀ w ∈ p.language,
    (∃ n, w = integer_spelling n) ∨ w = ['-', '0'] ∧ Within left right 0

def RangeCorrect (left right : Option ℤ) : RangeResult Text → Prop
  | .ok p => MatchesRange p left right
  | .error (.error _) => ∃ l r, left = some l ∧ right = some r ∧ r < l
  | .error .overflow => False

theorem mem_signed {s t : Set ℕ} {w : List Char} :
    w ∈ signed s t ↔ (∃ n ∈ s, w = '-' :: spelling n) ∨ ∃ n ∈ t, w = spelling n := by
  rw [signed, Language.mem_add, mem_spellings, Language.mem_mul]
  constructor
  · intro h
    obtain ⟨_, rfl, _, ⟨n, hn, rfl⟩, rfl⟩ | h := h
    · exact Or.inl ⟨n, hn, rfl⟩
    · exact Or.inr h
  · intro h
    obtain ⟨n, hn, rfl⟩ | h := h
    · exact Or.inl ⟨['-'], rfl, spelling n, ⟨n, hn, rfl⟩, rfl⟩
    · exact Or.inr h

theorem minus_ne_spelling (w : List Char) (n : ℕ) : '-' :: w ≠ spelling n := by
  intro h
  have : '-' ∈ spelling n := h ▸ List.mem_cons_self
  exact absurd (isDigit_of_mem_spelling this) (by decide)

theorem matchesRange_of_signed {p : Text} {s t : Set ℕ} {left right : Option ℤ}
    (h : p.Denotes (signed s t)) (ht : ∀ n : ℕ, n ∈ t ↔ Within left right n)
    (hs : ∀ n : ℕ, 0 < n → (n ∈ s ↔ Within left right (-n)))
    (hzero : 0 ∈ s → Within left right 0) : MatchesRange p left right := by
  constructor
  · intro n
    rw [h.language_eq, mem_signed, integer_spelling]
    split_ifs with hn
    · obtain ⟨m, rfl⟩ := Int.eq_negSucc_of_lt_zero hn
      have hm : Int.negSucc m = -((m + 1 : ℕ) : ℤ) := rfl
      rw [hm, ← hs _ (Nat.succ_pos m), Int.natAbs_neg, Int.natAbs_natCast]
      constructor
      · intro h
        obtain ⟨k, hk, heq⟩ | ⟨k, -, heq⟩ := h
        · rw [List.cons.injEq] at heq
          rw [Nat.succ_eq_add_one, spelling_injective heq.2]
          exact hk
        · exact absurd heq (minus_ne_spelling _ k)
      · intro h
        exact Or.inl ⟨_, h, rfl⟩
    · obtain ⟨m, rfl⟩ := Int.eq_ofNat_of_zero_le (not_lt.mp hn)
      rw [← ht, Int.natAbs_natCast]
      constructor
      · intro h
        obtain ⟨k, -, heq⟩ | ⟨k, hk, heq⟩ := h
        · exact absurd heq.symm (minus_ne_spelling _ _)
        · exact spelling_injective heq ▸ hk
      · intro h
        exact Or.inr ⟨_, h, rfl⟩
  · intro w hw
    rw [h.language_eq, mem_signed] at hw
    obtain ⟨n, hn, rfl⟩ | ⟨n, -, rfl⟩ := hw
    · by_cases hn0 : n = 0
      · subst hn0
        exact Or.inr ⟨rfl, hzero hn⟩
      · left
        refine ⟨-n, ?_⟩
        rw [integer_spelling, if_pos (by omega), Int.natAbs_neg, Int.natAbs_natCast]
    · left
      refine ⟨n, ?_⟩
      rw [integer_spelling, if_neg (by omega), Int.natAbs_natCast]

theorem signed_empty_left (t : Set ℕ) : signed ∅ t = spellings t := by
  rw [signed, spellings_empty, mul_zero, zero_add]

theorem signed_empty_right (s : Set ℕ) : signed s ∅ = {['-']} * spellings s := by
  rw [signed, spellings_empty, add_zero]

theorem within_none {n : ℤ} : Within none none n := by simp [Within]

theorem within_from {l n : ℤ} : Within (some l) none n ↔ l ≤ n := by simp [Within]

theorem within_to {r n : ℤ} : Within none (some r) n ↔ n ≤ r := by simp [Within]

theorem within_between {l r n : ℤ} : Within (some l) (some r) n ↔ l ≤ n ∧ n ≤ r := by
  simp [Within]

/-- Bounds at which no `i64` operation overflows and every power of ten is found. -/
def InReach : Option ℤ → Option ℤ → Prop
  | none, none => True
  | some left, none => i64_min < left ∧ left < 10 ^ 18
  | none, some right => -10 ^ 18 < right
  | some left, some right => right < left ∨ i64_min < left

theorem naturals_language : ((char '0').choice (range '1' '9' ++
    (Atom.range '0' '9').quantified .star)).language = spellings Set.univ := by
  have hmore := (denotes_digits (i := 1) (j := 9) (by decide) (by decide)).append
    (Pattern.denotes_quantified (Atom.range '0' '9') .star)
  rw [Regex.Quantifier.apply, digit_language, ← one_mul (KStar.kstar _), ← pow_zero (digits 0 9),
    digits_mul_pow_mul_star] at hmore
  have hzero : (char '0').language = spellings {0} := by
    rw [(Pattern.denotes_char '0').language_eq, spellings_singleton]
    rfl
  rw [Pattern.language_choice, hzero]
  refine (congrArg _ hmore.language_eq).trans ?_
  rw [spellings_add]
  congr 1
  ext n
  simp only [Set.mem_union, Set.mem_singleton_iff, Set.mem_ofPred_eq, pow_zero, Set.mem_univ,
    iff_true]
  omega

theorem integer_regex_denotes : integer_regex.Denotes (signed Set.univ Set.univ) := by
  have hminus : (Atom.char '-').language = ({['-']} : Language Char) := rfl
  have hsign := Pattern.denotes_quantified (Atom.char '-') .optional
  have hgroup := (Pattern.denotes_group _).of_eq naturals_language
  apply (hsign.append hgroup).of_eq
  rw [Regex.Quantifier.apply, hminus, add_mul, one_mul, add_comm]
  rfl

theorem rx_int_range_from_fails {left : ℕ} (h : 10 ^ 18 ≤ left) :
    ∃ message, rx_int_range_from left = .error (.error message) := by
  have hdigits : 18 < num_digits left := by
    by_contra hle
    exact absurd ((length_spelling_le_iff (by decide)).mp (not_lt.mp hle)) (not_lt.mpr h)
  have hpow : 10 ^ 19 ≤ 10 ^ num_digits left := Nat.pow_le_pow_right (by decide) hdigits
  have hover : ((10 ^ num_digits left - 1 : ℕ) : ℤ) > i64_max := by
    rw [i64_max]
    omega
  exact ⟨_, if_pos hover⟩

theorem rx_bounded_int_range_fails {right : ℤ} (h : i64_min ≤ right) :
    rx_bounded_int_range i64_min right = .error .overflow := by
  have hneg : checked (-i64_min) = .error .overflow := rfl
  rw [rx_bounded_int_range, if_neg (not_lt.mpr h), if_pos (by decide), hneg]
  split_ifs with hr
  · by_cases hmin : right = i64_min
    · rw [hmin, hneg]
      rfl
    · have hright : checked (-right) = .ok (-right) := if_pos (by rw [i64_min, i64_max] at *; omega)
      rw [hright]
      rfl
  · rfl

theorem rx_int_range_left {left : ℤ} (hmin : i64_min ≤ left) :
    RangeCorrect (some left) none (rx_int_range (some left) none) ↔ InReach (some left) none := by
  rw [rx_int_range]
  constructor
  · intro h
    constructor
    · apply lt_of_le_of_ne hmin
      intro heq
      subst heq
      rw [if_pos (by decide), rx_bounded_int_range_fails (by decide)] at h
      exact h
    · by_contra hge
      have hbig : 10 ^ 18 ≤ left.toNat := by omega
      obtain ⟨message, hfails⟩ := rx_int_range_from_fails hbig
      rw [if_neg (by omega), hfails] at h
      obtain ⟨_, _, -, h, -⟩ := h
      cases h
  · intro h
    obtain ⟨hlt, hsmall⟩ := h
    split_ifs with hneg
    · have hle : left ≤ -1 := by omega
      have hzero : (0 : ℕ) < 10 ^ 18 := by decide
      obtain ⟨p, hp, hpDenotes⟩ := rx_bounded_int_range_negative hle (by decide) hlt
      obtain ⟨q, hq, hqDenotes⟩ := rx_int_range_from_spec hzero
      rw [hp, hq]
      apply matchesRange_of_signed (mk_or_pair hpDenotes hqDenotes)
      · intro n
        simp only [Set.mem_ofPred_eq, within_from]
        omega
      · intro n hn
        simp only [Set.mem_ofPred_eq, within_from]
        omega
      · intro h0
        simp only [Set.mem_ofPred_eq] at h0
        omega
    · have hnat : left.toNat < 10 ^ 18 := by omega
      obtain ⟨p, hp, hpDenotes⟩ := rx_int_range_from_spec hnat
      rw [hp]
      rw [← signed_empty_left] at hpDenotes
      apply matchesRange_of_signed hpDenotes
      · intro n
        simp only [Set.mem_ofPred_eq, within_from]
        omega
      · intro n hn
        simp only [Set.mem_empty_iff_false, within_from, false_iff]
        omega
      · intro h0
        exact absurd h0 (Set.notMem_empty 0)

theorem rx_int_range_right {right : ℤ} (hmin : i64_min ≤ right) (hmax : right ≤ i64_max) :
    RangeCorrect none (some right) (rx_int_range none (some right)) ↔ InReach none (some right) := by
  rw [rx_int_range]
  constructor
  · intro h
    by_contra hout
    have hle : right ≤ -10 ^ 18 := not_lt.mp hout
    rw [if_neg (by omega), rx_int_range_to] at h
    by_cases heq : right = i64_min
    · subst heq
      exact h
    · have hneg : checked (-right) = .ok (-right) := if_pos (by rw [i64_min, i64_max] at *; omega)
      have hbig : 10 ^ 18 ≤ (-right).toNat := by omega
      obtain ⟨message, hfails⟩ := rx_int_range_from_fails hbig
      rw [hneg] at h
      change RangeCorrect _ _ (do let p ← rx_int_range_from (-right).toNat; _) at h
      rw [hfails] at h
      obtain ⟨_, _, h, -, -⟩ := h
      cases h
  · intro h
    have hreach : -10 ^ 18 < right := h
    split_ifs with hpos
    · obtain ⟨p, hp, hpDenotes⟩ := rx_bounded_int_range_nonneg (le_refl 0) hpos hmax
      have hone : (-1 : ℤ) < 0 := by decide
      obtain ⟨q, hq, hqDenotes⟩ := rx_int_range_to_spec hone (by decide)
      rw [hp, hq]
      have hdenotes := (mk_or_pair hpDenotes hqDenotes).of_eq (add_comm _ _)
      apply matchesRange_of_signed hdenotes
      · intro n
        simp only [Set.mem_ofPred_eq, within_to]
        omega
      · intro n hn
        simp only [Set.mem_ofPred_eq, within_to]
        omega
      · intro h0
        simp only [Set.mem_ofPred_eq] at h0
        omega
    · obtain ⟨p, hp, hpDenotes⟩ := rx_int_range_to_spec (not_le.mp hpos) hreach
      rw [hp]
      rw [← signed_empty_right] at hpDenotes
      apply matchesRange_of_signed hpDenotes
      · intro n
        simp only [Set.mem_empty_iff_false, within_to, false_iff]
        omega
      · intro n hn
        simp only [Set.mem_ofPred_eq, within_to]
      · intro h0
        simp only [Set.mem_ofPred_eq] at h0
        omega

theorem rx_int_range_both {left right : ℤ} (hmin : i64_min ≤ left) (hmax : right ≤ i64_max) :
    RangeCorrect (some left) (some right) (rx_int_range (some left) (some right)) ↔
      InReach (some left) (some right) := by
  rw [rx_int_range]
  constructor
  · intro h
    by_contra hout
    obtain ⟨hle, hlt⟩ := not_or.mp hout
    obtain rfl : left = i64_min := le_antisymm (not_lt.mp hlt) hmin
    rw [rx_bounded_int_range_fails (not_lt.mp hle)] at h
    exact h
  · intro h
    by_cases hempty : right < left
    · rw [rx_bounded_int_range, if_pos hempty]
      exact ⟨left, right, rfl, rfl, hempty⟩
    have hlt : i64_min < left := h.resolve_left hempty
    by_cases hneg : left < 0
    · by_cases hr : right < 0
      · obtain ⟨p, hp, hpDenotes⟩ := rx_bounded_int_range_negative (not_lt.mp hempty) hr hlt
        rw [hp]
        rw [← signed_empty_right] at hpDenotes
        apply matchesRange_of_signed hpDenotes
        · intro n
          simp only [Set.mem_empty_iff_false, within_between, false_iff]
          omega
        · intro n hn
          simp only [Set.mem_ofPred_eq, within_between]
        · intro h0
          simpa only [Set.mem_ofPred_eq, within_between, Nat.cast_zero, neg_zero] using h0
      · obtain ⟨p, hp, hpDenotes⟩ := rx_bounded_int_range_across hneg (not_lt.mp hr) hlt hmax
        rw [hp]
        apply matchesRange_of_signed hpDenotes
        · intro n
          simp only [Set.mem_ofPred_eq, within_between]
          omega
        · intro n hn
          simp only [Set.mem_ofPred_eq, within_between]
          omega
        · intro h0
          rw [within_between]
          omega
    · obtain ⟨p, hp, hpDenotes⟩ := rx_bounded_int_range_nonneg (not_lt.mp hneg)
        (not_lt.mp hempty) hmax
      rw [hp]
      rw [← signed_empty_left] at hpDenotes
      apply matchesRange_of_signed hpDenotes
      · intro n
        simp only [Set.mem_ofPred_eq, within_between]
      · intro n hn
        simp only [Set.mem_empty_iff_false, within_between, false_iff]
        omega
      · intro h0
        exact absurd h0 (Set.notMem_empty 0)

theorem int64_range (n : Int64) : i64_min ≤ n.toInt ∧ n.toInt ≤ i64_max :=
  ⟨Int64.le_toInt n, Int.le_of_lt_add_one (Int64.toInt_lt n)⟩

/-- `rx_int_range` does what it should exactly at the bounds in reach. -/
theorem rx_int_range_correct (left right : Option Int64) :
    RangeCorrect (left.map Int64.toInt) (right.map Int64.toInt)
        (rx_int_range (left.map Int64.toInt) (right.map Int64.toInt)) ↔
      InReach (left.map Int64.toInt) (right.map Int64.toInt) := by
  cases left with
  | none =>
    cases right with
    | none =>
      constructor
      · intro h
        trivial
      · intro h
        apply matchesRange_of_signed integer_regex_denotes
        · intro n
          exact iff_of_true (Set.mem_univ n) within_none
        · intro n hn
          exact iff_of_true (Set.mem_univ n) within_none
        · intro h0
          exact within_none
    | some right => exact rx_int_range_right (int64_range right).1 (int64_range right).2
  | some left =>
    cases right with
    | none => exact rx_int_range_left (int64_range left).1
    | some right => exact rx_int_range_both (int64_range left).1 (int64_range right).2

/-- The smallest `i64` cannot be negated. -/
theorem rx_int_range_from_min :
    ¬ RangeCorrect (some Int64.minValue.toInt) (some 0)
      (rx_int_range (some Int64.minValue.toInt) (some 0)) := by
  intro h
  have hmin : Int64.minValue.toInt = i64_min := by decide
  rw [hmin, rx_int_range, rx_bounded_int_range_fails (by decide)] at h
  exact h

end NumericRange

end GlrMask
