import GlrMask.FloatRange

/-!
# The digits after the point

The patterns of `lexi_x_to_9`, `lexi_0_to_x` and `lexi_range` compare the digits of a
fraction with those of a bound from left to right. They decide at the first digit that
differs, so a fraction that ends before that digit is not matched even if it is in the
range.
-/

namespace GlrMask

namespace NumericRange

open Regex (Pattern Atom group literal char range)
open Decimal

def EndsNonzero (f : Fraction) : Prop := ∃ g d, d ≠ 0 ∧ f = g ++ [d]

theorem not_endsNonzero_append_zero (f : Fraction) : ¬ EndsNonzero (f ++ [0]) := by
  intro h
  obtain ⟨g, d, hd, heq⟩ := h
  have hlast := congrArg List.getLast? heq
  rw [List.getLast?_append, List.getLast?_append] at hlast
  exact hd (Option.some.inj hlast).symm

/-- The fractions that `lexi_x_to_9` matches. -/
def AtLeast (incl : Bool) : Fraction → Fraction → Prop
  | [], f => if incl then True else EndsNonzero f
  | _ :: _, [] => False
  | x :: xs, d :: f => x < d ∨ d = x ∧ AtLeast incl xs f

/-- The fractions that `lexi_0_to_x` matches. -/
def AtMost (incl : Bool) : Fraction → Fraction → Prop
  | [], f => incl ∧ f = []
  | _ :: _, [] => False
  | x :: xs, d :: f => d < x ∨ d = x ∧ AtMost incl xs f

/-- The fractions that `lexi_range` matches. -/
def Between (ld_incl rd_incl : Bool) : Fraction → Fraction → Fraction → Prop
  | l :: ld, r :: rd, d :: f =>
      if l = r then d = l ∧ Between ld_incl rd_incl ld rd f
      else d = l ∧ AtLeast ld_incl (trimmed ld) f ∨ l < d ∧ d < r ∨
        d = r ∧ AtMost rd_incl (trimmed rd) f
  | _, _, _ => False

theorem digits_eq_fractions (i j : ℕ) (hj : j < 10) :
    digits i j = fractions {f | ∃ d : Fin 10, i ≤ d ∧ d ≤ j ∧ f = [d]} := by
  ext w
  constructor
  · intro h
    obtain ⟨d, hi, hd, rfl⟩ := h
    exact ⟨_, ⟨⟨d, by omega⟩, hi, hd, rfl⟩, rfl⟩
  · intro h
    obtain ⟨_, ⟨d, hi, hd, rfl⟩, rfl⟩ := h
    exact ⟨d, hi, hd, rfl⟩

theorem any_digits_denotes : any_digits.Denotes (fractions Set.univ) := by
  apply (Pattern.denotes_quantified _ _).of_eq
  rw [Regex.Quantifier.apply, digit_language, digits_star]

theorem some_digits_denotes : some_digits.Denotes (fractions {f | f ≠ []}) := by
  apply (Pattern.denotes_quantified _ _).of_eq
  rw [Regex.Quantifier.apply, digit_language, digits_star, digits_eq_fractions 0 9 (by decide),
    fractions_mul]
  congr 1
  ext f
  constructor
  · intro h
    obtain ⟨_, ⟨d, -, -, rfl⟩, g, -, rfl⟩ := h
    exact List.cons_ne_nil d g
  · intro h
    obtain ⟨d, g, rfl⟩ := List.exists_cons_of_ne_nil h
    exact ⟨[d], ⟨d, Nat.zero_le _, Nat.le_of_lt_succ d.isLt, rfl⟩, g, trivial, rfl⟩

/-- The fractions whose first digit is in a set. -/
def startingIn (t : Set (Fin 10)) : Set Fraction := {f | ∃ d ∈ t, ∃ g, f = d :: g}

/-- The fractions with one more digit in front. -/
def after (d : Fin 10) (s : Set Fraction) : Set Fraction := {f | ∃ g ∈ s, f = d :: g}

@[simp] theorem cons_mem_startingIn {t : Set (Fin 10)} {d : Fin 10} {f : Fraction} :
    d :: f ∈ startingIn t ↔ d ∈ t := by
  constructor
  · intro h
    obtain ⟨e, he, g, heq⟩ := h
    rw [(List.cons.inj heq).1]
    exact he
  · intro h
    exact ⟨d, h, f, rfl⟩

@[simp] theorem nil_notMem_startingIn (t : Set (Fin 10)) : [] ∉ startingIn t := by
  intro h
  obtain ⟨d, -, g, heq⟩ := h
  exact List.cons_ne_nil d g heq.symm

@[simp] theorem cons_mem_after {s : Set Fraction} {d e : Fin 10} {f : Fraction} :
    e :: f ∈ after d s ↔ e = d ∧ f ∈ s := by
  constructor
  · intro h
    obtain ⟨g, hg, heq⟩ := h
    obtain ⟨rfl, rfl⟩ := List.cons.inj heq
    exact ⟨rfl, hg⟩
  · intro h
    exact ⟨f, h.2, by rw [h.1]⟩

@[simp] theorem nil_notMem_after (d : Fin 10) (s : Set Fraction) : [] ∉ after d s := by
  intro h
  obtain ⟨g, -, heq⟩ := h
  exact List.cons_ne_nil d g heq.symm

theorem digit_then_any_denotes {i j : ℕ} (hi : i < 10) (hj : j < 10) :
    (digit_then_any i j).Denotes (fractions (startingIn {d : Fin 10 | i ≤ (d : ℕ) ∧ (d : ℕ) ≤ j})) := by
  apply ((denotes_digits hi hj).append any_digits_denotes).of_eq
  rw [digits_eq_fractions i j hj, fractions_mul]
  congr 1
  ext f
  constructor
  · intro h
    obtain ⟨_, ⟨d, hi, hj, rfl⟩, g, -, rfl⟩ := h
    exact ⟨d, ⟨hi, hj⟩, g, rfl⟩
  · intro h
    obtain ⟨d, ⟨hi, hj⟩, g, rfl⟩ := h
    exact ⟨[d], ⟨d, hi, hj, rfl⟩, g, trivial, rfl⟩

theorem char_append_denotes_fractions {p : Text} {s : Set Fraction} (h : p.Denotes (fractions s))
    (d : Fin 10) : (char (Nat.digitChar d) ++ p).Denotes (fractions (after d s)) := by
  apply ((Pattern.denotes_char _).append h).of_eq
  have hd : ({[Nat.digitChar d]} : Language Char) = fractions {[d]} := (fractions_singleton [d]).symm
  rw [hd, fractions_mul]
  congr 1
  ext f
  constructor
  · intro h
    obtain ⟨_, rfl, g, hg, rfl⟩ := h
    exact ⟨g, hg, rfl⟩
  · intro h
    obtain ⟨g, hg, rfl⟩ := h
    exact ⟨[d], rfl, g, hg, rfl⟩

theorem digit_value_digitChar (d : Fin 10) : digit_value (Nat.digitChar d) = d := by
  rw [digit_value, Nat.toNat_digitChar_of_lt_ten d.isLt]
  exact Nat.add_sub_cancel_left 48 d

theorem fractions_empty : fractions ∅ = 0 := by
  ext w
  constructor
  · intro h
    obtain ⟨f, hf, -⟩ := h
    exact absurd hf (Set.notMem_empty f)
  · intro h
    exact absurd h (Language.notMem_zero w)

/-- An alternative for a range of first digits, which is left out if the range is empty. -/
theorem digits_part_denote {c : Prop} [Decidable c] {i j : ℕ} {t : Set (Fin 10)}
    (h : ∀ d : Fin 10, d ∈ t ↔ c ∧ i ≤ d ∧ d ≤ j) (hi : c → i < 10) (hj : c → j < 10) :
    Pattern.DenoteAll (if c then [digit_then_any i j] else []) (fractions (startingIn t)) := by
  split_ifs with hc
  · have ht : t = {d : Fin 10 | i ≤ (d : ℕ) ∧ (d : ℕ) ≤ j} := by
      ext d
      rw [h, and_iff_right hc, Set.mem_ofPred_eq]
    rw [ht]
    exact (digit_then_any_denotes (hi hc) (hj hc)).denoteAll
  · have hempty : startingIn t = ∅ := by
      ext f
      rw [Set.mem_empty_iff_false, iff_false]
      intro hf
      obtain ⟨d, hd, -⟩ := hf
      exact hc ((h d).mp hd).1
    rw [hempty, fractions_empty]
    exact Pattern.denoteAll_nil

theorem lexi_x_to_9_denotes (incl : Bool) (x : Fraction) :
    (lexi_x_to_9 incl (fractionText x)).Denotes (fractions {f | AtLeast incl x f}) := by
  induction x with
  | nil =>
    change (if incl then any_digits else any_digits ++ range '1' '9').Denotes _
    cases incl with
    | true => exact any_digits_denotes
    | false =>
      apply (any_digits_denotes.append
        (denotes_digits (i := 1) (j := 9) (by decide) (by decide))).of_eq
      rw [digits_eq_fractions 1 9 (by decide), fractions_mul]
      congr 1
      ext f
      constructor
      · intro h
        obtain ⟨g, -, _, ⟨d, hd, -, rfl⟩, rfl⟩ := h
        exact ⟨g, d, fun h0 => by simp [h0] at hd, rfl⟩
      · intro h
        obtain ⟨g, d, hd, rfl⟩ := h
        refine ⟨g, trivial, [d], ⟨d, ?_, Nat.le_of_lt_succ d.isLt, rfl⟩, rfl⟩
        exact Nat.one_le_iff_ne_zero.mpr fun h0 => hd (Fin.ext h0)
  | cons x xs ih =>
    rw [fractionText_cons, lexi_x_to_9]
    by_cases hlast : incl = true ∧ fractionText xs = []
    · have hxs : xs = [] := List.map_eq_nil_iff.mp hlast.2
      rw [if_pos hlast]
      apply (digit_then_any_denotes (i := x) (j := 9) x.isLt (by decide)).of_eq
      congr 1
      ext f
      cases f with
      | nil => simp [AtLeast]
      | cons d f =>
        rw [cons_mem_startingIn, Set.mem_ofPred_eq, Set.mem_ofPred_eq, AtLeast, hxs, AtLeast,
          if_pos hlast.1, and_true, Fin.lt_def, Fin.ext_iff]
        omega
    · rw [if_neg hlast, digit_value_digitChar]
      have habove : ∀ d : Fin 10, d ∈ {d | x < d} ↔ (x : ℕ) < 9 ∧ (x : ℕ) + 1 ≤ d ∧ (d : ℕ) ≤ 9 := by
        intro d
        rw [Set.mem_ofPred_eq, Fin.lt_def]
        omega
      have hparts := (char_append_denotes_fractions ih x).denoteAll.append
        (digits_part_denote habove (by omega) (by omega))
      apply (mk_or_denotes hparts (List.cons_ne_nil _ _)).of_eq
      rw [fractions_add]
      congr 1
      ext f
      cases f with
      | nil => simp [AtLeast]
      | cons d f =>
        rw [Set.mem_union, cons_mem_after, cons_mem_startingIn, or_comm]
        rfl

theorem map_eq_ok {α β : Type} {x : RangeResult α} {f : α → β} {b : β} (h : x.map f = .ok b) :
    ∃ a, x = .ok a ∧ f a = b := by
  cases x with
  | error e => cases h
  | ok a => exact ⟨a, rfl, Except.ok.inj h⟩

theorem lexi_0_to_x_denotes {incl : Bool} {x : Fraction} {p : Text}
    (h : lexi_0_to_x incl (fractionText x) = .ok p) :
    p.Denotes (fractions {f | AtMost incl x f}) := by
  induction x generalizing p with
  | nil =>
    change (if incl then _ else _) = _ at h
    split_ifs at h with hincl
    rw [← Except.ok.inj h]
    apply Pattern.denotes_empty.of_eq
    have hone : (1 : Language Char) = fractions {[]} := (fractions_singleton []).symm
    rw [hone]
    congr 1
    ext f
    simp [AtMost, hincl]
  | cons x xs ih =>
    rw [fractionText_cons, lexi_0_to_x] at h
    by_cases hlast : ¬ incl = true ∧ fractionText xs = []
    · have hxs : xs = [] := List.map_eq_nil_iff.mp hlast.2
      rw [if_pos hlast, digit_value_digitChar] at h
      split_ifs at h with hzero
      rw [← Except.ok.inj h]
      apply (digit_then_any_denotes (i := 0) (j := (x : ℕ) - 1) (by decide) (by omega)).of_eq
      congr 1
      ext f
      cases f with
      | nil => simp [AtMost]
      | cons d f =>
        rw [cons_mem_startingIn, Set.mem_ofPred_eq, Set.mem_ofPred_eq, AtMost, hxs, AtMost,
          Fin.lt_def, Fin.ext_iff]
        simp only [hlast.1, Bool.false_eq_true, false_and, and_false, or_false]
        omega
    · rw [if_neg hlast] at h
      obtain ⟨rest, hrest, rfl⟩ := map_eq_ok h
      rw [digit_value_digitChar]
      have hbelow : ∀ d : Fin 10, d ∈ {d | d < x} ↔ (x : ℕ) > 0 ∧ 0 ≤ (d : ℕ) ∧ (d : ℕ) ≤ x - 1 := by
        intro d
        rw [Set.mem_ofPred_eq, Fin.lt_def]
        omega
      have hparts := (char_append_denotes_fractions (ih hrest) x).denoteAll.append
        (digits_part_denote hbelow (by omega) (by omega))
      apply (mk_or_denotes hparts (List.cons_ne_nil _ _)).of_eq
      rw [fractions_add]
      congr 1
      ext f
      cases f with
      | nil => simp [AtMost]
      | cons d f =>
        rw [Set.mem_union, cons_mem_after, cons_mem_startingIn, or_comm]
        rfl

theorem trim_end_zeros_fractionText (f : Fraction) :
    trim_end_zeros (fractionText f) = fractionText (trimmed f) := rdropWhile_fractionText f

theorem lexi_range_upper_denotes {incl : Bool} {r : Fin 10} {x : Fraction} {ps : List Text}
    (h : lexi_range_upper (Nat.digitChar r) (fractionText x) incl = .ok ps) :
    Pattern.DenoteAll ps (fractions (after r {f | AtMost incl x f})) := by
  unfold lexi_range_upper at h
  split_ifs at h with hsome
  · obtain ⟨rest, hrest, rfl⟩ := map_eq_ok h
    exact (char_append_denotes_fractions (lexi_0_to_x_denotes hrest) r).denoteAll
  · obtain ⟨hx, hincl⟩ := not_or.mp hsome
    have hnil : x = [] := List.map_eq_nil_iff.mp (not_not.mp hx)
    have hempty : after r {f | AtMost incl x f} = ∅ := by
      ext f
      cases f with
      | nil => simp
      | cons d f => simp [hnil, AtMost, hincl]
    rw [← Except.ok.inj h, hempty, fractions_empty]
    exact Pattern.denoteAll_nil

theorem first_digit_lt {l r : Fin 10} {ld rd : Fraction} (hne : l ≠ r)
    (h : tenths (l :: ld) < tenths (r :: rd)) : l < r := by
  apply lt_of_le_of_ne _ hne
  by_contra hle
  exact absurd h (tenths_cons_lt_cons (not_le.mp hle) rd ld).not_gt

/-- The left bound is smaller at the first digit that differs. -/
theorem lexi_range_denotes {li ri : Bool} {ld rd : Fraction} {p : Text}
    (hlt : tenths ld < tenths rd)
    (h : lexi_range li ri (fractionText ld) (fractionText rd) = .ok p) :
    p.Denotes (fractions {f | Between li ri ld rd f}) := by
  have hlength : (fractionText ld).length = (fractionText rd).length := by
    by_contra hne
    unfold lexi_range at h
    rw [if_pos hne] at h
    cases h
  induction ld generalizing rd p with
  | nil =>
    have hrd : rd = [] := List.length_eq_zero_iff.mp ((length_fractionText rd).symm.trans hlength.symm)
    rw [hrd] at hlt
    exact absurd hlt (lt_irrefl _)
  | cons l ld ih =>
    cases rd with
    | nil => cases hlength
    | cons r rd =>
      have hne : fractionText (l :: ld) ≠ fractionText (r :: rd) := by
        intro heq
        rw [fractionText_injective heq] at hlt
        exact lt_irrefl _ hlt
      rw [fractionText_cons, fractionText_cons] at h hlength hne
      unfold lexi_range at h
      rw [if_neg (not_not.mpr hlength), if_neg hne] at h
      dsimp only at h
      rw [digit_value_digitChar, digit_value_digitChar] at h
      by_cases hlr : l = r
      · subst hlr
        rw [if_pos rfl] at h
        obtain ⟨rest, hrest, rfl⟩ := map_eq_ok h
        have hinner := ih (tenths_cons_lt_iff.mp hlt) hrest (Nat.succ_injective hlength)
        apply (char_append_denotes_fractions hinner l).of_eq
        congr 1
        ext f
        cases f with
        | nil => simp [Between]
        | cons d f =>
          rw [cons_mem_after, Set.mem_ofPred_eq, Set.mem_ofPred_eq, Between, if_pos rfl]
      · have hless : l < r := first_digit_lt hlr hlt
        rw [if_neg (fun heq => hlr (Fin.ext heq)), trim_end_zeros_fractionText,
          trim_end_zeros_fractionText] at h
        obtain ⟨upper, hupper, rfl⟩ := map_eq_ok h
        have hmiddle : ∀ d : Fin 10, d ∈ {d | l < d ∧ d < r} ↔
            (l : ℕ) + 1 < r ∧ (l : ℕ) + 1 ≤ d ∧ (d : ℕ) ≤ r - 1 := by
          intro d
          rw [Set.mem_ofPred_eq, Fin.lt_def, Fin.lt_def]
          omega
        have hlower := char_append_denotes_fractions (lexi_x_to_9_denotes li (trimmed ld)) l
        have hparts := (hlower.denoteAll.append
          (digits_part_denote hmiddle (by omega) (by omega))).append (lexi_range_upper_denotes hupper)
        apply (mk_or_denotes hparts (by simp)).of_eq
        rw [fractions_add, fractions_add]
        congr 1
        ext f
        cases f with
        | nil => simp [Between]
        | cons d f =>
          rw [Set.mem_union, Set.mem_union, cons_mem_after, cons_mem_startingIn, cons_mem_after,
            Set.mem_ofPred_eq, Set.mem_ofPred_eq, Set.mem_ofPred_eq, Set.mem_ofPred_eq, Between,
            if_neg hlr, or_assoc]

end NumericRange

end GlrMask
