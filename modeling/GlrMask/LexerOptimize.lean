import GlrMask.LexerExpr
import Mathlib.Tactic

/-!
# The optimiser keeps the byte language

Every smart constructor denotes what the plain constructor denotes, so the optimiser
keeps the language of every expression. The nullability test is exact as long as no
repetition of a nullable operand has crossed bounds and no embedded automaton accepts
through epsilon transitions only.
-/

namespace GlrMask

namespace Expr

theorem sequenceLanguage_eq_prod (parts : List Expr) :
    sequenceLanguage parts = (parts.map language).prod := by
  induction parts with
  | nil => rfl
  | cons part parts ih =>
      simp only [sequenceLanguage, List.map_cons, List.prod_cons, ih]

theorem choiceLanguage_eq_sum (options : List Expr) :
    choiceLanguage options = (options.map language).sum := by
  induction options with
  | nil => rfl
  | cons option options ih =>
      simp only [choiceLanguage, List.map_cons, List.sum_cons, ih]

theorem sequenceLanguage_append (exprs others : List Expr) :
    sequenceLanguage (exprs ++ others) = sequenceLanguage exprs * sequenceLanguage others := by
  simp only [sequenceLanguage_eq_prod, List.map_append, List.prod_append]

theorem choiceLanguage_append (exprs others : List Expr) :
    choiceLanguage (exprs ++ others) = choiceLanguage exprs + choiceLanguage others := by
  simp only [choiceLanguage_eq_sum, List.map_append, List.sum_append]

theorem choiceLanguage_reverse (exprs : List Expr) :
    choiceLanguage exprs.reverse = choiceLanguage exprs := by
  simp only [choiceLanguage_eq_sum, List.map_reverse, List.sum_reverse]

theorem sequenceLanguage_singleton (expr : Expr) : sequenceLanguage [expr] = expr.language := by
  simp only [sequenceLanguage, mul_one]

theorem choiceLanguage_singleton (expr : Expr) : choiceLanguage [expr] = expr.language := by
  simp only [choiceLanguage, add_zero]

/-! ## Sequences -/

theorem flatten_sequence_parts_language (exprs : List Expr) :
    sequenceLanguage (flatten_sequence_parts exprs) = sequenceLanguage exprs := by
  induction exprs with
  | nil => rfl
  | cons expr exprs ih =>
      cases expr with
      | seq children =>
          simp only [flatten_sequence_parts, sequenceLanguage_append, sequenceLanguage, language, ih]
      | epsilon => simp only [flatten_sequence_parts, sequenceLanguage, language, ih, one_mul]
      | _ => simp only [flatten_sequence_parts, sequenceLanguage, ih]

theorem U8Set.iter_of_len_eq_one {set : U8Set} (hlen : U8Set.len set = 1) :
    ∃ byte, U8Set.iter set = [byte] ∧ set = {byte} := by
  obtain ⟨byte, hset⟩ := Finset.card_eq_one.mp hlen
  exact ⟨byte, by rw [hset, U8Set.iter, Finset.sort_singleton], hset⟩

theorem simplify_single_byte_class_language (expr : Expr) :
    (simplify_single_byte_class expr).language = expr.language := by
  cases expr with
  | u8Class set =>
      simp only [simplify_single_byte_class]
      split_ifs with hlen
      · obtain ⟨byte, hiter, hset⟩ := U8Set.iter_of_len_eq_one hlen
        rw [hiter, hset]
        ext w
        simp
      · rfl
  | _ => rfl

theorem simplify_single_byte_classes_language (exprs : List Expr) :
    sequenceLanguage (simplify_single_byte_classes exprs) = sequenceLanguage exprs := by
  induction exprs with
  | nil => rfl
  | cons expr exprs ih =>
      rw [simplify_single_byte_classes, List.map_cons, sequenceLanguage, sequenceLanguage,
        simplify_single_byte_class_language, ← ih, simplify_single_byte_classes]

theorem u8Seq_append_language (u v : List Byte) :
    (u8Seq (u ++ v)).language = (u8Seq u).language * (u8Seq v).language := by
  ext w
  simp only [Language.mem_mul, mem_u8Seq]
  constructor
  · intro hw
    exact ⟨u, rfl, v, rfl, hw.symm⟩
  · intro hw
    obtain ⟨a, rfl, b, rfl, hw⟩ := hw
    exact hw.symm

theorem mergeByteSequence_language (merged : List Expr) (expr : Expr) :
    sequenceLanguage (mergeByteSequence merged expr).reverse =
      sequenceLanguage merged.reverse * expr.language := by
  unfold mergeByteSequence
  split
  · simp only [List.reverse_cons, sequenceLanguage_append, sequenceLanguage_singleton,
      u8Seq_append_language, mul_assoc]
  · rw [List.reverse_cons, sequenceLanguage_append, sequenceLanguage_singleton]

theorem merge_adjacent_byte_sequences_language (exprs : List Expr) :
    sequenceLanguage (merge_adjacent_byte_sequences exprs) = sequenceLanguage exprs := by
  have hfold : ∀ merged : List Expr, sequenceLanguage (exprs.foldl mergeByteSequence merged).reverse =
      sequenceLanguage merged.reverse * sequenceLanguage exprs := by
    induction exprs with
    | nil =>
        intro merged
        simp only [List.foldl_nil, sequenceLanguage, mul_one]
    | cons expr exprs ih =>
        intro merged
        rw [List.foldl_cons, ih, mergeByteSequence_language, sequenceLanguage, mul_assoc]
  rw [merge_adjacent_byte_sequences, hfold, List.reverse_nil, sequenceLanguage, one_mul]

theorem make_seq_language (exprs : List Expr) :
    (make_seq exprs).language = sequenceLanguage exprs := by
  rw [← flatten_sequence_parts_language, make_seq]
  split
  · rename_i hflat
    rw [hflat]
    rfl
  · have hmerged := merge_adjacent_byte_sequences_language
      (simplify_single_byte_classes (flatten_sequence_parts exprs))
    rw [simplify_single_byte_classes_language] at hmerged
    rw [← hmerged]
    split
    · rename_i expr hsingle
      rw [hsingle, sequenceLanguage_singleton]
    · rfl

/-! ## Choices -/

theorem flattenWorklist_language (worklist : List Expr) :
    choiceLanguage (flattenWorklist worklist) = choiceLanguage worklist := by
  fun_induction flattenWorklist worklist with
  | case1 => rfl
  | case2 children worklist ih =>
      simp only [List.unattach_reverse, List.unattach_attach] at ih
      rw [ih, choiceLanguage_append, choiceLanguage_reverse]
      rfl
  | case3 expr worklist hother ih => rw [choiceLanguage, choiceLanguage, ih]

theorem flatten_choice_parts_language (exprs : List Expr) :
    choiceLanguage (flatten_choice_parts exprs) = choiceLanguage exprs := by
  rw [flatten_choice_parts, flattenWorklist_language, choiceLanguage_reverse]

theorem class_language_union (set other : U8Set) :
    (u8Class (set ∪ other)).language = (u8Class set).language + (u8Class other).language := by
  ext w
  simp only [Language.mem_add, mem_u8Class, Finset.mem_union, or_and_right, exists_or]

theorem class_language_insert (byte : Byte) (set : U8Set) :
    (u8Class (insert byte set)).language = (u8Seq [byte]).language + (u8Class set).language := by
  ext w
  simp [Language.mem_add]

theorem foldByteClass_language (folded : U8Set × List Expr) (expr : Expr) :
    choiceLanguage (foldByteClass folded expr).2 +
        (u8Class (foldByteClass folded expr).1).language =
      choiceLanguage folded.2 + (u8Class folded.1).language + expr.language := by
  obtain ⟨classes, complex⟩ := folded
  unfold foldByteClass
  split
  · rename_i heq
    cases heq
    rw [class_language_union, add_assoc]
  · rename_i heq
    cases heq
    rw [class_language_insert, add_comm (u8Seq _).language, add_assoc]
  · rename_i heq _ _
    cases heq
    rw [choiceLanguage_append, choiceLanguage_singleton, add_right_comm]

theorem class_language_empty : (u8Class ∅).language = 0 := by
  ext w
  simp

theorem fold_choice_byte_classes_language (exprs : List Expr) :
    choiceLanguage (fold_choice_byte_classes exprs) = choiceLanguage exprs := by
  have hfold : ∀ folded : U8Set × List Expr,
      choiceLanguage (exprs.foldl foldByteClass folded).2 +
          (u8Class (exprs.foldl foldByteClass folded).1).language =
        choiceLanguage folded.2 + (u8Class folded.1).language + choiceLanguage exprs := by
    induction exprs with
    | nil =>
        intro folded
        simp only [List.foldl_nil, choiceLanguage, add_zero]
    | cons expr exprs ih =>
        intro folded
        rw [List.foldl_cons, ih, foldByteClass_language, choiceLanguage, add_assoc]
  have hstart := hfold (∅, [])
  rw [class_language_empty, choiceLanguage, add_zero, zero_add] at hstart
  unfold fold_choice_byte_classes
  rw [← hstart]
  simp only
  split_ifs with hempty
  · have hset : (exprs.foldl foldByteClass (∅, [])).1 = ∅ := by
      simpa [U8Set.is_empty] using hempty
    rw [hset, class_language_empty, add_zero]
  · rw [choiceLanguage_append, choiceLanguage_singleton]

theorem make_choice_language (exprs : List Expr) :
    (make_choice exprs).language = choiceLanguage exprs := by
  rw [← flatten_choice_parts_language, make_choice]
  split
  · rename_i hflat
    rw [hflat]
    rfl
  · rename_i expr hflat
    rw [hflat, choiceLanguage_singleton]
  · rw [← fold_choice_byte_classes_language]
    split
    · rename_i expr hsingle
      rw [hsingle, choiceLanguage_singleton]
    · rfl

/-! ## The optimiser -/

theorem optimize_repeat_expr_language (expr : Expr) (min : ℕ) (max : Option ℕ) :
    (optimize_repeat_expr expr min max).language = (repeated expr min max).language := by
  unfold optimize_repeat_expr
  split
  · ext w
    rw [mem_repeated, language, Language.mem_one]
    constructor
    · intro hw
      exact ⟨0, le_rfl, by simp, by simpa using hw⟩
    · intro hw
      obtain ⟨n, -, hmax, hw⟩ := hw
      have hn : n = 0 := Nat.le_zero.mp (hmax 0 rfl)
      subst hn
      simpa using hw
  · ext w
    rw [mem_repeated]
    constructor
    · intro hw
      exact ⟨1, le_rfl, by simp, by simpa using hw⟩
    · intro hw
      obtain ⟨n, hmin, hmax, hw⟩ := hw
      have hn : n = 1 := Nat.le_antisymm (hmax 1 rfl) hmin
      subst hn
      simpa using hw
  · rfl

mutual

theorem optimize_language : ∀ expr : Expr, expr.optimize.language = expr.language
  | seq parts => by
      rw [optimize, make_seq_language, language, optimizeAll_sequenceLanguage parts]
  | choice options => by
      rw [optimize, make_choice_language, language, optimizeAll_choiceLanguage options]
  | intersect expr other => by
      rw [optimize, language, language, optimize_language expr, optimize_language other]
  | exclude expr other => by
      rw [optimize, language, language, optimize_language expr, optimize_language other]
  | repeated expr min max => by
      rw [optimize, optimize_repeat_expr_language, language, language, optimize_language expr]
  | dfa _ => rfl
  | shared inner => by
      rw [optimize, language, language, optimize_language inner]
  | u8Seq _ => rfl
  | u8Class _ => rfl
  | epsilon => rfl

theorem optimizeAll_sequenceLanguage :
    ∀ exprs : List Expr, sequenceLanguage (optimizeAll exprs) = sequenceLanguage exprs
  | [] => rfl
  | expr :: exprs => by
      rw [optimizeAll, sequenceLanguage, sequenceLanguage, optimize_language expr,
        optimizeAll_sequenceLanguage exprs]

theorem optimizeAll_choiceLanguage :
    ∀ exprs : List Expr, choiceLanguage (optimizeAll exprs) = choiceLanguage exprs
  | [] => rfl
  | expr :: exprs => by
      rw [optimizeAll, choiceLanguage, choiceLanguage, optimize_language expr,
        optimizeAll_choiceLanguage exprs]

end

/-! ## Nullability -/

theorem nil_mem_mul (L M : Language Byte) : [] ∈ L * M ↔ [] ∈ L ∧ [] ∈ M := by
  rw [Language.mem_mul]
  constructor
  · intro h
    obtain ⟨a, ha, b, hb, hab⟩ := h
    obtain ⟨rfl, rfl⟩ := List.append_eq_nil_iff.mp hab
    exact ⟨ha, hb⟩
  · intro h
    exact ⟨[], h.1, [], h.2, rfl⟩

theorem nil_mem_pow (L : Language Byte) (n : ℕ) : [] ∈ L ^ n ↔ n = 0 ∨ [] ∈ L := by
  induction n with
  | zero => simp
  | succ n ih =>
      rw [pow_succ, nil_mem_mul, ih]
      grind

end Expr

/-- An automaton that accepts after epsilon transitions from its start accepts at its start. -/
def LexerDFA.AcceptsAtStart (dfa : LexerDFA) : Prop :=
  ∀ last, dfa.Reads 0 [] last → (dfa.finalizers last).Nonempty → (dfa.finalizers 0).Nonempty

namespace Expr

mutual

/-- A repetition with crossed bounds has an operand without the empty word, and an
embedded automaton accepts the empty word at its start if at all. -/
def Regular : Expr → Prop
  | u8Seq _ => True
  | u8Class _ => True
  | dfa d => d.AcceptsAtStart
  | intersect expr other => expr.Regular ∧ other.Regular
  | seq parts => AllRegular parts
  | choice options => AllRegular options
  | exclude expr other => expr.Regular ∧ other.Regular
  | repeated expr min max => expr.Regular ∧ (∀ m ∈ max, m < min → [] ∉ expr.language)
  | shared inner => inner.Regular
  | epsilon => True

def AllRegular : List Expr → Prop
  | [] => True
  | expr :: exprs => expr.Regular ∧ AllRegular exprs

end

theorem dfa_is_nullable {d : LexerDFA} (hstart : d.AcceptsAtStart) :
    (dfa d).is_nullable = true ↔ [] ∈ (dfa d).language := by
  have hfinal : (dfa d).is_nullable = true ↔ (d.finalizers 0).Nonempty := by
    simp [is_nullable, Finset.nonempty_iff_ne_empty]
  rw [hfinal]
  constructor
  · intro hnonempty
    exact ⟨0, .done 0, hnonempty⟩
  · intro hmem
    obtain ⟨last, hreads, haccept⟩ := hmem
    exact hstart last hreads haccept

theorem repeated_nil_mem {expr : Expr} {min : ℕ} {max : Option ℕ}
    (hbounds : ∀ m ∈ max, m < min → [] ∉ expr.language) :
    [] ∈ (repeated expr min max).language ↔ min = 0 ∨ [] ∈ expr.language := by
  rw [mem_repeated]
  constructor
  · intro h
    obtain ⟨n, hmin, -, hmem⟩ := h
    cases (nil_mem_pow _ n).mp hmem with
    | inl hzero => exact Or.inl (by omega)
    | inr hnil => exact Or.inr hnil
  · intro h
    refine ⟨min, le_rfl, ?_, (nil_mem_pow _ min).mpr h⟩
    intro m hm
    by_contra hcrossed
    cases h with
    | inl hzero => omega
    | inr hnil => exact hbounds m hm (by omega) hnil

mutual

theorem is_nullable_iff : ∀ expr : Expr, expr.Regular →
    (expr.is_nullable = true ↔ [] ∈ expr.language)
  | u8Seq bytes, _ => by
      rw [is_nullable, mem_u8Seq, List.isEmpty_iff, eq_comm]
  | u8Class set, _ => by simp [is_nullable]
  | dfa d, h => dfa_is_nullable (by simpa only [Regular] using h)
  | intersect expr other, h => by
      rw [Regular] at h
      rw [is_nullable, language, Bool.and_eq_true, is_nullable_iff expr h.1,
        is_nullable_iff other h.2, Language.mem_inf]
  | seq parts, h => by
      rw [is_nullable, language]
      exact allNullable_iff parts (by simpa only [Regular] using h)
  | choice options, h => by
      rw [is_nullable, language]
      exact anyNullable_iff options (by simpa only [Regular] using h)
  | exclude expr other, h => by
      rw [Regular] at h
      rw [is_nullable, language, Bool.and_eq_true, Bool.not_eq_true', ← Bool.not_eq_true,
        is_nullable_iff expr h.1, is_nullable_iff other h.2, Language.mem_sub]
  | repeated expr min max, h => by
      rw [Regular] at h
      rw [is_nullable, Bool.or_eq_true, beq_iff_eq, is_nullable_iff expr h.1,
        repeated_nil_mem h.2]
  | shared inner, h => by
      rw [is_nullable, language]
      exact is_nullable_iff inner (by simpa only [Regular] using h)
  | epsilon, _ => by simp [is_nullable, language]

theorem allNullable_iff : ∀ parts : List Expr, AllRegular parts →
    (allNullable parts = true ↔ [] ∈ sequenceLanguage parts)
  | [], _ => by simp [allNullable, sequenceLanguage]
  | part :: parts, h => by
      rw [AllRegular] at h
      rw [allNullable, sequenceLanguage, Bool.and_eq_true, nil_mem_mul,
        is_nullable_iff part h.1, allNullable_iff parts h.2]

theorem anyNullable_iff : ∀ options : List Expr, AllRegular options →
    (anyNullable options = true ↔ [] ∈ choiceLanguage options)
  | [], _ => by simp [anyNullable, choiceLanguage]
  | option :: options, h => by
      rw [AllRegular] at h
      rw [anyNullable, choiceLanguage, Bool.or_eq_true, Language.mem_add,
        is_nullable_iff option h.1, anyNullable_iff options h.2]

end

theorem optimize_and_is_nullable_exact (expr : Expr) :
    expr.optimize.language = expr.language ∧
      (∀ parts, (make_seq parts).language = (seq parts).language) ∧
      (∀ options, (make_choice options).language = (choice options).language) ∧
      (expr.Regular → (expr.is_nullable = true ↔ [] ∈ expr.language)) :=
  ⟨optimize_language expr, make_seq_language, make_choice_language, is_nullable_iff expr⟩

theorem optimize_and_is_nullable_exact_optional :
    (repeated (choice [epsilon, u8Seq [97]]) 1 (some 2)).is_nullable = true ↔
      [] ∈ (repeated (choice [epsilon, u8Seq [97]]) 1 (some 2)).language :=
  (optimize_and_is_nullable_exact (repeated (choice [epsilon, u8Seq [97]]) 1 (some 2))).2.2.2
    (by simp [Regular, AllRegular])

/-- Two states, the start without a finalizer and an epsilon transition to a final one. -/
def epsilonAutomaton : LexerDFA where
  states := [⟨fun _ => none, ∅, [1]⟩, ⟨fun _ => none, {0}, []⟩]

/-- Crossed bounds leave no word, but the operand alone decides the nullability test; and
the test of an automaton does not follow epsilon transitions. -/
theorem is_nullable_of_crossed_bounds :
    ¬ ((repeated epsilon 2 (some 1)).is_nullable = true ↔
        [] ∈ (repeated epsilon 2 (some 1)).language) ∧
      ¬ ((dfa epsilonAutomaton).is_nullable = true ↔ [] ∈ (dfa epsilonAutomaton).language) := by
  constructor
  · intro h
    obtain ⟨n, hmin, hmax, -⟩ := h.mp (by simp [is_nullable])
    have hn : n ≤ 1 := hmax 1 rfl
    omega
  · intro h
    have hmem : [] ∈ (dfa epsilonAutomaton).language := by
      refine ⟨1, ?_, ⟨0, by decide⟩⟩
      exact .epsilon (by decide) (.done 1)
    exact absurd (h.mpr hmem) (by decide)

end Expr

end GlrMask
