import GlrMask.Regex

/-!
# Decimal spellings

The spelling of a number has its other digits before the last one, so the spellings of
a set of positive numbers followed by a digit are the spellings of the numbers whose
quotient by ten is in the set. The fraction digits of a number are read one tenth at a
time.
-/

namespace Decimal

/-- One digit between the digits `i` and `j`. -/
def digits (i j : ℕ) : Language Char := {w | ∃ d, i ≤ d ∧ d ≤ j ∧ w = [Nat.digitChar d]}

def spelling (n : ℕ) : List Char := Nat.toDigits 10 n

def spellings (s : Set ℕ) : Language Char := {w | ∃ n ∈ s, w = spelling n}

theorem mem_spellings {s : Set ℕ} {w : List Char} :
    w ∈ spellings s ↔ ∃ n ∈ s, w = spelling n := Iff.rfl

theorem char_le_iff {a b : Char} : a ≤ b ↔ a.toNat ≤ b.toNat := by
  rw [Char.le_def, UInt32.le_iff_toNat_le]
  rfl

theorem digitChar_range {i j : ℕ} (hi : i < 10) (hj : j < 10) {a : Char} :
    (Nat.digitChar i ≤ a ∧ a ≤ Nat.digitChar j) ↔ ∃ d, i ≤ d ∧ d ≤ j ∧ a = Nat.digitChar d := by
  rw [char_le_iff, char_le_iff, Nat.toNat_digitChar_of_lt_ten hi, Nat.toNat_digitChar_of_lt_ten hj]
  constructor
  · intro h
    refine ⟨a.toNat - 48, by omega, by omega, ?_⟩
    rw [← Char.toNat_inj, Nat.toNat_digitChar_of_lt_ten (by omega)]
    omega
  · intro h
    obtain ⟨d, hid, hdj, rfl⟩ := h
    rw [Nat.toNat_digitChar_of_lt_ten (by omega)]
    omega

theorem denotes_digits {i j : ℕ} (hi : i < 10) (hj : j < 10) :
    (Regex.range (Nat.digitChar i) (Nat.digitChar j)).Denotes (digits i j) := by
  apply (Regex.Pattern.denotes_range _ _).of_eq
  ext w
  constructor
  · intro h
    obtain ⟨a, hia, haj, rfl⟩ := h
    obtain ⟨d, hid, hdj, rfl⟩ := (digitChar_range hi hj).mp ⟨hia, haj⟩
    exact ⟨d, hid, hdj, rfl⟩
  · intro h
    obtain ⟨d, hid, hdj, rfl⟩ := h
    obtain ⟨hia, haj⟩ := (digitChar_range hi hj).mpr ⟨d, hid, hdj, rfl⟩
    exact ⟨_, hia, haj, rfl⟩

theorem spelling_of_lt {n : ℕ} (h : n < 10) : spelling n = [Nat.digitChar n] :=
  Nat.toDigits_of_lt_base h

theorem spelling_of_le {n : ℕ} (h : 10 ≤ n) :
    spelling n = spelling (n / 10) ++ [Nat.digitChar (n % 10)] :=
  Nat.toDigits_of_base_le (by decide) h

theorem spelling_injective : Function.Injective spelling := by
  intro m n h
  have hm : Nat.ofDigitChars 10 (spelling m) 0 = m := Nat.ofDigitChars_ten_toDigits
  have hn : Nat.ofDigitChars 10 (spelling n) 0 = n := Nat.ofDigitChars_ten_toDigits
  rw [← hm, h, hn]

theorem spellings_add (s t : Set ℕ) : spellings s + spellings t = spellings (s ∪ t) := by
  ext w
  rw [Language.mem_add, mem_spellings, mem_spellings, mem_spellings]
  constructor
  · intro h
    obtain ⟨n, hn, rfl⟩ | ⟨n, hn, rfl⟩ := h
    · exact ⟨n, Or.inl hn, rfl⟩
    · exact ⟨n, Or.inr hn, rfl⟩
  · intro h
    obtain ⟨n, hn | hn, rfl⟩ := h
    · exact Or.inl ⟨n, hn, rfl⟩
    · exact Or.inr ⟨n, hn, rfl⟩

theorem spellings_singleton (n : ℕ) : spellings {n} = {spelling n} := by
  ext w
  constructor
  · intro h
    obtain ⟨_, rfl, rfl⟩ := h
    rfl
  · intro h
    exact ⟨n, rfl, h⟩

theorem digits_eq_spellings {i j : ℕ} (hj : j < 10) :
    digits i j = spellings {n | i ≤ n ∧ n ≤ j} := by
  ext w
  constructor
  · intro h
    obtain ⟨d, hid, hdj, rfl⟩ := h
    exact ⟨d, ⟨hid, hdj⟩, (spelling_of_lt (by omega)).symm⟩
  · intro h
    obtain ⟨d, ⟨hid, hdj⟩, rfl⟩ := h
    exact ⟨d, hid, hdj, spelling_of_lt (by omega)⟩

/-- Positive numbers followed by a digit. -/
theorem spellings_mul_digits {s : Set ℕ} (hs : 0 ∉ s) {i j : ℕ} (hj : j < 10) :
    spellings s * digits i j = spellings {n | n / 10 ∈ s ∧ i ≤ n % 10 ∧ n % 10 ≤ j} := by
  ext w
  rw [Language.mem_mul]
  constructor
  · intro h
    obtain ⟨_, ⟨n, hn, rfl⟩, _, ⟨d, hid, hdj, rfl⟩, rfl⟩ := h
    have hpos : n ≠ 0 := fun h0 => hs (h0 ▸ hn)
    have hdiv : (10 * n + d) / 10 = n := by omega
    have hmod : (10 * n + d) % 10 = d := by omega
    refine ⟨10 * n + d, ⟨hdiv.symm ▸ hn, by omega, by omega⟩, ?_⟩
    have hle : 10 ≤ 10 * n + d := by omega
    rw [spelling_of_le hle, hdiv, hmod]
  · intro h
    obtain ⟨n, ⟨hn, hi, hj'⟩, rfl⟩ := h
    have hpos : n / 10 ≠ 0 := fun h0 => hs (h0 ▸ hn)
    exact ⟨_, ⟨n / 10, hn, rfl⟩, _, ⟨n % 10, hi, hj', rfl⟩, (spelling_of_le (by omega)).symm⟩

theorem length_spelling_le_iff {n k : ℕ} (h : 0 < k) : (spelling n).length ≤ k ↔ n < 10 ^ k :=
  Nat.length_toDigits_le_iff (by decide) h

theorem length_spelling_pos (n : ℕ) : 0 < (spelling n).length := Nat.length_toDigits_pos

theorem lt_pow_length_spelling (n : ℕ) : n < 10 ^ (spelling n).length :=
  (length_spelling_le_iff (length_spelling_pos n)).mp le_rfl

/-- The numbers with `k + 1` digits, and no number zero. -/
theorem digits_mul_pow (k : ℕ) :
    digits 1 9 * digits 0 9 ^ k = spellings {n | 10 ^ k ≤ n ∧ n < 10 ^ (k + 1)} := by
  induction k with
  | zero =>
    rw [pow_zero, mul_one, digits_eq_spellings (by decide)]
    congr 1
    ext n
    simp only [Set.mem_ofPred_eq, zero_add, pow_zero, pow_one]
    omega
  | succ k ih =>
    have hpos : 0 < 10 ^ k := by positivity
    rw [pow_succ, ← mul_assoc, ih, spellings_mul_digits (by simp) (by decide)]
    congr 1
    ext n
    simp only [Set.mem_ofPred_eq, pow_succ]
    omega

theorem digits_mul_pow_mul_star (k : ℕ) :
    digits 1 9 * (digits 0 9 ^ k * KStar.kstar (digits 0 9)) = spellings {n | 10 ^ k ≤ n} := by
  rw [Language.kstar_eq_iSup_pow, Language.mul_iSup, Language.mul_iSup]
  ext w
  rw [Language.mem_iSup]
  constructor
  · intro h
    obtain ⟨i, hi⟩ := h
    rw [← pow_add, digits_mul_pow] at hi
    obtain ⟨n, ⟨hn, -⟩, rfl⟩ := hi
    exact ⟨n, le_trans (Nat.pow_le_pow_right (by decide) (Nat.le_add_right k i)) hn, rfl⟩
  · intro h
    obtain ⟨n, hn, rfl⟩ := h
    have hlog : 10 ^ Nat.log 10 n ≤ n := Nat.pow_log_le_self 10 (by
      have : 0 < 10 ^ k := by positivity
      have : 10 ^ k ≤ n := hn
      omega)
    have hk : k ≤ Nat.log 10 n := Nat.le_log_of_pow_le (by decide) hn
    refine ⟨Nat.log 10 n - k, ?_⟩
    rw [← pow_add, Nat.add_sub_cancel' hk, digits_mul_pow]
    exact ⟨n, ⟨hlog, Nat.lt_pow_succ_log_self (by decide) n⟩, rfl⟩

theorem isDigit_iff {c : Char} : c.isDigit ↔ ∃ d < 10, c = Nat.digitChar d := by
  constructor
  · intro h
    obtain ⟨h0, h9⟩ := Char.isDigit_iff_toNat.mp h
    obtain ⟨d, -, hd, rfl⟩ := (digitChar_range (i := 0) (j := 9) (by decide) (by decide)).mp
      ⟨char_le_iff.mpr h0, char_le_iff.mpr h9⟩
    exact ⟨d, by omega, rfl⟩
  · intro h
    obtain ⟨d, hd, rfl⟩ := h
    rw [Nat.isDigit_digitChar, decide_eq_true_eq]
    exact hd

theorem mem_digits_zero_nine {w : List Char} : w ∈ digits 0 9 ↔ ∃ c : Char, c.isDigit ∧ w = [c] := by
  constructor
  · intro h
    obtain ⟨d, -, hd, rfl⟩ := h
    exact ⟨_, isDigit_iff.mpr ⟨d, by omega, rfl⟩, rfl⟩
  · intro h
    obtain ⟨c, hc, rfl⟩ := h
    obtain ⟨d, hd, rfl⟩ := isDigit_iff.mp hc
    exact ⟨d, by omega, by omega, rfl⟩

theorem mem_digits_pow {k : ℕ} {w : List Char} :
    w ∈ digits 0 9 ^ k ↔ w.length = k ∧ ∀ c ∈ w, c.isDigit := by
  induction k generalizing w with
  | zero =>
    rw [pow_zero, Language.mem_one, List.length_eq_zero_iff]
    constructor
    · intro h
      exact ⟨h, by simp [h]⟩
    · intro h
      exact h.1
  | succ k ih =>
    rw [pow_succ', Language.mem_mul]
    constructor
    · intro h
      obtain ⟨_, hd, v, hv, rfl⟩ := h
      obtain ⟨c, hc, rfl⟩ := mem_digits_zero_nine.mp hd
      obtain ⟨hlength, hall⟩ := ih.mp hv
      refine ⟨by rw [List.singleton_append, List.length_cons, hlength], ?_⟩
      exact List.forall_mem_cons.mpr ⟨hc, hall⟩
    · intro h
      obtain ⟨hlength, hall⟩ := h
      obtain ⟨c, v, rfl⟩ := List.exists_cons_of_length_eq_add_one hlength
      obtain ⟨hc, hv⟩ := List.forall_mem_cons.mp hall
      rw [List.length_cons, Nat.add_right_cancel_iff] at hlength
      exact ⟨[c], mem_digits_zero_nine.mpr ⟨c, hc, rfl⟩, v, ih.mpr ⟨hlength, hv⟩, rfl⟩

theorem mem_digits_star {w : List Char} :
    w ∈ KStar.kstar (digits 0 9) ↔ ∀ c ∈ w, c.isDigit := by
  rw [Language.kstar_eq_iSup_pow, Language.mem_iSup]
  constructor
  · intro h
    obtain ⟨k, hk⟩ := h
    exact (mem_digits_pow.mp hk).2
  · intro h
    exact ⟨w.length, mem_digits_pow.mpr ⟨rfl, h⟩⟩

theorem isDigit_of_mem_spelling {n : ℕ} {c : Char} (h : c ∈ spelling n) : c.isDigit :=
  Nat.isDigit_of_mem_toDigits (by decide) (by decide) h

end Decimal
