import GlrMask.NullableTrees

/-!
# Inlining null productions

After the runs of nullable symbols are compressed, every right-hand side is replaced by those
in which some of its nullable symbols are left out. The empty ones among them are dropped.
-/

namespace GlrMask

namespace Grammar

namespace NullProductions

open ContextFree NullableRuns

section Definitions

variable (nullable : Finset NonterminalID)

/-- Keep the nullable symbols whose bit is set, and all others. -/
def keptRhs : ℕ → List GrammarSymbol → List GrammarSymbol
  | _, [] => []
  | mask, s :: rest =>
      if isNullable nullable s then
        if mask.testBit 0 then s :: keptRhs (mask / 2) rest else keptRhs (mask / 2) rest
      else s :: keptRhs mask rest

def addRule (out : List Rule) (candidate : Rule) : List Rule :=
  if candidate.rhs = [] ∨ candidate ∈ out then out else out ++ [candidate]

def maxNullablePositions : ℕ := 20

/-- The power set of too many positions is refused. -/
def expandRule (out : List Rule) (rule : Rule) : Option (List Rule) :=
  if rule.rhs.countP (isNullable nullable) ≤ maxNullablePositions then
    some ((List.range (2 ^ rule.rhs.countP (isNullable nullable))).foldl
      (fun out mask => addRule out ⟨rule.lhs, keptRhs nullable mask rule.rhs⟩) out)
  else none

end Definitions

def inlineNullProductionsExhaustive (rules : List Rule) (num_nt : ℕ) : Option (List Rule) :=
  if computeNullable rules num_nt = ∅ then some rules
  else rules.foldlM (expandRule (computeNullable rules num_nt)) []

def inlineNullProductions (rules : List Rule) (num_nt fuel : ℕ) : Option (List Rule) :=
  (compressNullableRunsWithOptionalTree rules num_nt fuel).bind fun preprocessed =>
    inlineNullProductionsExhaustive preprocessed (maxNtId preprocessed + 1)

section Rows

variable {nullable : Finset NonterminalID}

theorem mem_addRule {out : List Rule} {candidate rule : Rule} :
    rule ∈ addRule out candidate ↔ rule ∈ out ∨ rule = candidate ∧ candidate.rhs ≠ [] := by
  unfold addRule
  split_ifs with h
  · refine ⟨Or.inl, ?_⟩
    rintro (hrule | ⟨rfl, hne⟩)
    · exact hrule
    · exact h.resolve_left hne
  · rw [not_or] at h
    simp [h.1]

theorem mem_expandRule {out : List Rule} {rule : Rule} :
    Ensures (expandRule nullable out rule) fun out' => ∀ rule', rule' ∈ out' ↔ rule' ∈ out ∨
      rule'.rhs ≠ [] ∧ ∃ mask < 2 ^ rule.rhs.countP (isNullable nullable),
        rule' = ⟨rule.lhs, keptRhs nullable mask rule.rhs⟩ := by
  have hfold : ∀ (masks : List ℕ) (out : List Rule) (rule' : Rule),
      rule' ∈ masks.foldl (fun out mask => addRule out ⟨rule.lhs, keptRhs nullable mask rule.rhs⟩) out ↔
        rule' ∈ out ∨ rule'.rhs ≠ [] ∧ ∃ mask ∈ masks,
          rule' = ⟨rule.lhs, keptRhs nullable mask rule.rhs⟩ := by
    intro masks
    induction masks with
    | nil => simp
    | cons mask masks ih =>
        intro out rule'
        rw [List.foldl_cons, ih, mem_addRule, or_assoc]
        refine or_congr_right ?_
        simp only [List.mem_cons, exists_eq_or_imp]
        constructor
        · rintro (⟨rfl, hne⟩ | ⟨hne, hmask⟩)
          · exact ⟨hne, Or.inl rfl⟩
          · exact ⟨hne, Or.inr hmask⟩
        · rintro ⟨hne, rfl | hmask⟩
          · exact Or.inl ⟨rfl, hne⟩
          · exact Or.inr ⟨hne, hmask⟩
  unfold expandRule
  split_ifs
  · apply Ensures.some
    intro rule'
    rw [hfold]
    simp only [List.mem_range]
  · exact Ensures.none _

theorem mem_expandRules {rules : List Rule} :
    Ensures (rules.foldlM (expandRule nullable) []) fun out => ∀ rule', rule' ∈ out ↔
      rule'.rhs ≠ [] ∧ ∃ rule ∈ rules, ∃ mask < 2 ^ rule.rhs.countP (isNullable nullable),
        rule' = ⟨rule.lhs, keptRhs nullable mask rule.rhs⟩ := by
  let P : List Rule → List Rule → Prop := fun done out => ∀ rule', rule' ∈ out ↔
    rule'.rhs ≠ [] ∧ ∃ rule ∈ done, ∃ mask < 2 ^ rule.rhs.countP (isNullable nullable),
      rule' = ⟨rule.lhs, keptRhs nullable mask rule.rhs⟩
  have hstart : P [] [] := by simp [P]
  refine (Ensures.foldlM [] hstart fun done rule out _ hout => ?_).mono fun out hout => hout
  refine mem_expandRule.mono fun out' hout' rule' => ?_
  rw [hout', hout rule', ← and_or_left]
  refine and_congr_right fun _ => ?_
  simp only [List.mem_append, List.mem_singleton]
  constructor
  · rintro (⟨rule₀, hrule₀, hmask⟩ | hmask)
    · exact ⟨rule₀, Or.inl hrule₀, hmask⟩
    · exact ⟨rule, Or.inr rfl, hmask⟩
  · rintro ⟨rule₀, hrule₀ | rfl, hmask⟩
    · exact Or.inl ⟨rule₀, hrule₀, hmask⟩
    · exact Or.inr hmask

/-! ## Words -/

/-- Leaving out symbols with the empty word gives no new words. -/
theorem denote_keptRhs_le {J : NonterminalID → Language TerminalID} (hJ : ∀ nt ∈ nullable, [] ∈ J nt)
    (mask : ℕ) (rhs : List GrammarSymbol) : denote J (keptRhs nullable mask rhs) ≤ denote J rhs := by
  induction rhs generalizing mask with
  | nil => exact le_rfl
  | cons s rhs ih =>
      unfold keptRhs
      split_ifs with hnullable
      · rw [denote_cons, denote_cons]
        exact mul_le_mul' le_rfl (ih _)
      · obtain ⟨nt, hnt, rfl⟩ := isNullable_iff.mp hnullable
        intro w hw
        rw [denote_cons]
        exact Language.append_mem_mul (hJ nt hnt) (ih _ hw)
      · rw [denote_cons, denote_cons]
        exact mul_le_mul' le_rfl (ih _)

/-- A word is one of the symbols that have a part of it. -/
theorem exists_keptRhs {J : NonterminalID → Language TerminalID}
    {rhs : List GrammarSymbol} (hJ : ∀ nt, .nonterminal nt ∈ rhs → [] ∈ J nt → nt ∈ nullable)
    {w : List TerminalID} (hw : w ∈ denote J rhs) :
    ∃ mask < 2 ^ rhs.countP (isNullable nullable),
      w ∈ denote (fun nt => proper (J nt)) (keptRhs nullable mask rhs) := by
  induction rhs generalizing w with
  | nil => exact ⟨0, by simp, hw⟩
  | cons s rhs ih =>
      obtain ⟨u, hu, v, hv, rfl⟩ := mem_denote_cons.mp hw
      obtain ⟨mask, hmask, hv⟩ := ih (fun nt hnt => hJ nt (List.mem_cons_of_mem _ hnt)) hv
      by_cases hnullable : isNullable nullable s = true
      · rw [List.countP_cons_of_pos hnullable, pow_succ]
        have hzero : (2 * mask).testBit 0 = false := by simp
        have hone : (2 * mask + 1).testBit 0 = true := by simp
        obtain ⟨nt, hnt, rfl⟩ := isNullable_iff.mp hnullable
        by_cases hnil : u = []
        · refine ⟨2 * mask, by omega, ?_⟩
          rw [keptRhs, if_pos hnullable, hzero, Nat.mul_div_cancel_left mask (by omega), hnil]
          exact hv
        · refine ⟨2 * mask + 1, by omega, ?_⟩
          have hdiv : (2 * mask + 1) / 2 = mask := by omega
          rw [keptRhs, if_pos hnullable, hone, if_pos rfl, hdiv, denote_cons]
          exact Language.append_mem_mul ⟨hu, hnil⟩ hv
      · rw [List.countP_cons_of_neg hnullable]
        refine ⟨mask, hmask, ?_⟩
        rw [keptRhs, if_neg hnullable, denote_cons]
        refine Language.append_mem_mul ?_ hv
        cases s with
        | terminal t => exact hu
        | nonterminal nt =>
            refine ⟨hu, ?_⟩
            rintro rfl
            exact hnullable (isNullable_iff.mpr ⟨nt, hJ nt List.mem_cons_self hu, rfl⟩)

end Rows

/-- The rules without empty right-hand sides, for the words that are not empty. -/
structure Inlined (rules out : List Rule) (nts : NonterminalID → Prop) : Prop where
  nonempty : ∀ rule ∈ out, rule.rhs ≠ []
  words : ∀ nt, nts nt → words (Produces out) nt = proper (words (Produces rules) nt)

theorem inlineNullProductionsExhaustive_spec {rules : List Rule} {num_nt : ℕ}
    (hsmall : ∀ nt ∈ occurring rules, nt < num_nt) :
    Ensures (inlineNullProductionsExhaustive rules num_nt) fun out => Inlined rules out fun _ => True := by
  have hnullable : ∀ nt, nt ∈ computeNullable rules num_nt ↔ [] ∈ words (Produces rules) nt := fun nt =>
    mem_computeNullable hsmall
  unfold inlineNullProductionsExhaustive
  split_ifs with hempty
  · have hnone : ∀ nt, [] ∉ words (Produces rules) nt := by
      intro nt hnt
      rw [← hnullable nt, hempty] at hnt
      exact Finset.notMem_empty nt hnt
    refine Ensures.some ⟨?_, fun nt _ => le_antisymm (le_proper le_rfl (hnone nt)) (proper_le _)⟩
    intro rule hrule hnil
    apply hnone rule.lhs
    refine closed_words (Produces rules) rule.lhs rule.rhs hrule ?_
    rw [hnil]
    exact Language.nil_mem_one
  · refine mem_expandRules.mono fun out hout => ⟨fun rule hrule => ((hout rule).mp hrule).1, ?_⟩
    intro nt _
    apply le_antisymm
    · apply words_le_of_closed (J := fun nt => proper (words (Produces rules) nt))
      intro lhs rhs' hrule'
      obtain ⟨hne, ⟨lhs', rhs⟩, hrule, mask, -, he⟩ := (hout _).mp hrule'
      obtain ⟨rfl, rfl⟩ := Rule.mk.inj he
      apply le_proper
      · calc denote (fun nt => proper (words (Produces rules) nt)) (keptRhs _ mask rhs)
            ≤ denote (words (Produces rules)) (keptRhs _ mask rhs) :=
              denote_mono (fun nt => proper_le _) _
          _ ≤ denote (words (Produces rules)) rhs :=
              denote_keptRhs_le (fun nt hnt => (hnullable nt).mp hnt) mask rhs
          _ ≤ words (Produces rules) lhs := closed_words _ lhs rhs hrule
      · intro hmem
        obtain ⟨a, ha⟩ := List.exists_mem_of_ne_nil _ hne
        obtain ⟨nt, rfl, hnt⟩ := nil_mem_denote.mp hmem a ha
        exact nil_notMem_proper _ hnt
    · have hstage : ∀ n nt, proper (stage (Produces rules) n nt) ≤ words (Produces out) nt := by
        intro n
        induction n with
        | zero => exact fun nt => (proper_le _).trans bot_le
        | succ n ih =>
            rintro nt w ⟨⟨rhs, hrule, hw⟩, hne⟩
            have hnil : ∀ nt', .nonterminal nt' ∈ rhs → [] ∈ stage (Produces rules) n nt' →
                nt' ∈ computeNullable rules num_nt := fun nt' _ hmem =>
              (hnullable nt').mpr (stage_le_words n nt' hmem)
            obtain ⟨mask, hmask, hw⟩ := exists_keptRhs hnil hw
            have hne' : keptRhs (computeNullable rules num_nt) mask rhs ≠ [] := by
              intro he
              rw [he] at hw
              exact hne ((Language.mem_one w).mp hw)
            have hout' := (hout ⟨nt, keptRhs (computeNullable rules num_nt) mask rhs⟩).mpr
              ⟨hne', _, hrule, mask, hmask, rfl⟩
            exact closed_words _ nt _ hout' (denote_mono ih _ hw)
      rintro w ⟨⟨n, hw⟩, hne⟩
      exact hstage n nt ⟨hw, hne⟩

/-- Inlining null productions leaves no empty right-hand side, and every nonterminal keeps just
its words that are not empty. -/
theorem inlineNullProductions_spec {rules : List Rule} {num_nt : ℕ}
    (hsmall : ∀ nt ∈ occurring rules, nt < num_nt) (fuel : ℕ) :
    Ensures (inlineNullProductions rules num_nt fuel) fun out =>
      Inlined rules out (· ≤ maxNtId rules) := by
  refine Ensures.bind (compressNullableRunsWithOptionalTree_words hsmall fuel) fun pre hpre => ?_
  refine (inlineNullProductionsExhaustive_spec fun nt hnt => Nat.lt_succ_of_le (le_maxNtId hnt)).mono ?_
  intro out hout
  refine ⟨hout.nonempty, fun nt hnt => ?_⟩
  rw [hout.words nt trivial, hpre nt hnt]

theorem inlineNullProductions_derived {rules out : List Rule} {num_nt fuel : ℕ}
    (hsmall : ∀ nt ∈ occurring rules, nt < num_nt) (h : inlineNullProductions rules num_nt fuel = some out) :
    (∀ rule ∈ out, rule.rhs ≠ []) ∧
      ∀ nt ≤ maxNtId rules, ∀ w, w ∈ derived out nt ↔ w ∈ derived rules nt ∧ w ≠ [] := by
  have hinlined := inlineNullProductions_spec hsmall fuel out h
  refine ⟨hinlined.nonempty, fun nt hnt w => ?_⟩
  rw [derived_eq_words, derived_eq_words, hinlined.words nt hnt]
  rfl

/-- A run of a nullable nonterminal that calls itself. -/
def recursiveRun : List Rule :=
  [⟨0, [.nonterminal 1, .nonterminal 1, .terminal 5]⟩, ⟨1, []⟩, ⟨1, [.terminal 7]⟩,
    ⟨1, [.nonterminal 1, .nonterminal 1]⟩]

theorem inlineNullProductions_derived_recursiveRun : ∃ out,
    inlineNullProductions recursiveRun 2 20 = some out ∧ (∀ rule ∈ out, rule.rhs ≠ []) ∧
      ∀ nt ≤ maxNtId recursiveRun, ∀ w, w ∈ derived out nt ↔ w ∈ derived recursiveRun nt ∧ w ≠ [] := by
  have hreturns : (inlineNullProductions recursiveRun 2 20).isSome = true := by decide +kernel
  obtain ⟨out, hout⟩ := Option.isSome_iff_exists.mp hreturns
  exact ⟨out, hout, inlineNullProductions_derived (by decide) hout⟩

end NullProductions

end Grammar

end GlrMask
