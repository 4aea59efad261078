import GlrMask.ClauseCounting
import GlrMask.ContextFreeEmptyWord
import GlrMask.GrammarRules

/-!
# Nullable nonterminals

A nonterminal is nullable when it derives the empty word, which is found by counting the
nonterminals of the rules without terminals. A second loop finds the nonterminals that derive
other words as well.
-/

namespace GlrMask

namespace Grammar

open ContextFree ClauseCounting

def isNonterminalBelow (num_nt : ℕ) : GrammarSymbol → Bool
  | .terminal _ => false
  | .nonterminal nt => nt < num_nt

/-- The rules that wait for their nonterminals only. -/
def nullableClauses (rules : List Rule) (num_nt : ℕ) : List (Clause NonterminalID) :=
  rules.filterMap fun rule =>
    if rule.lhs < num_nt ∧ rule.rhs.all (isNonterminalBelow num_nt) then
      some ⟨nonterminals rule.rhs, rule.lhs⟩
    else none

def computeNullable (rules : List Rule) (num_nt : ℕ) : Finset NonterminalID :=
  derivable (nullableClauses rules num_nt)

namespace Nullable

/-- Without an empty production nothing is nullable. -/
def compute (rules : List Rule) : Finset NonterminalID :=
  if rules.any (·.rhs = []) then computeNullable rules (maxNtId rules + 1) else ∅

end Nullable

/-! ## Nonterminals with other words -/

@[ext] structure Productive where
  any : Finset NonterminalID
  nonempty : Finset NonterminalID
deriving DecidableEq

namespace Productive

def mayDerive (p : Productive) : GrammarSymbol → Bool
  | .terminal _ => true
  | .nonterminal nt => nt ∈ p.any

def derivesMore (p : Productive) : GrammarSymbol → Bool
  | .terminal _ => true
  | .nonterminal nt => nt ∈ p.nonempty

def addRule (num_nt : ℕ) (p : Productive) (rule : Rule) : Productive :=
  if rule.lhs < num_nt ∧ rule.rhs.all p.mayDerive then
    ⟨insert rule.lhs p.any, if rule.rhs.any p.derivesMore then insert rule.lhs p.nonempty else p.nonempty⟩
  else p

def pass (rules : List Rule) (num_nt : ℕ) (p : Productive) : Productive :=
  rules.foldl (addRule num_nt) p

/-- The set is among the left-hand sides, as long as only these are added. -/
def heads (rules : List Rule) : Finset NonterminalID := (rules.map Rule.lhs).toFinset

def missing (rules : List Rule) (p : Productive) : ℕ :=
  (heads rules \ p.any).card + (heads rules \ p.nonempty).card

variable {rules : List Rule} {num_nt : ℕ} {p : Productive}

theorem addRule_le (p : Productive) (num_nt : ℕ) (rule : Rule) : p.any ⊆ (p.addRule num_nt rule).any ∧
    p.nonempty ⊆ (p.addRule num_nt rule).nonempty := by
  unfold addRule
  split_ifs
  · exact ⟨Finset.subset_insert _ _, Finset.subset_insert _ _⟩
  · exact ⟨Finset.subset_insert _ _, Finset.Subset.refl _⟩
  · exact ⟨Finset.Subset.refl _, Finset.Subset.refl _⟩

theorem pass_le (p : Productive) (num_nt : ℕ) (rules : List Rule) : p.any ⊆ (p.pass rules num_nt).any ∧
    p.nonempty ⊆ (p.pass rules num_nt).nonempty := by
  unfold pass
  induction rules generalizing p with
  | nil => exact ⟨Finset.Subset.refl _, Finset.Subset.refl _⟩
  | cons rule rules ih =>
      obtain ⟨hany, hnonempty⟩ := ih (p.addRule num_nt rule)
      exact ⟨(addRule_le p num_nt rule).1.trans hany, (addRule_le p num_nt rule).2.trans hnonempty⟩

/-- A pass that changes the sets brings in a left-hand side. -/
theorem pass_new (p : Productive) (num_nt : ℕ) (rules : List Rule) :
    (∀ nt ∈ (p.pass rules num_nt).any, nt ∈ p.any ∨ nt ∈ heads rules) ∧
    ∀ nt ∈ (p.pass rules num_nt).nonempty, nt ∈ p.nonempty ∨ nt ∈ heads rules := by
  have hfold : ∀ (todo : List Rule) (p : Productive), todo ⊆ rules →
      (∀ nt ∈ (todo.foldl (addRule num_nt) p).any, nt ∈ p.any ∨ nt ∈ heads rules) ∧
      ∀ nt ∈ (todo.foldl (addRule num_nt) p).nonempty, nt ∈ p.nonempty ∨ nt ∈ heads rules := by
    intro todo
    induction todo with
    | nil => exact fun p _ => ⟨fun _ h => Or.inl h, fun _ h => Or.inl h⟩
    | cons rule todo ih =>
        intro p hsub
        have hhead : rule.lhs ∈ heads rules := by
          rw [heads, List.mem_toFinset]
          exact List.mem_map_of_mem (hsub List.mem_cons_self)
        obtain ⟨hany, hnonempty⟩ := ih (p.addRule num_nt rule) (List.subset_of_cons_subset hsub)
        rw [List.foldl_cons]
        constructor
        · intro nt hnt
          obtain hnt | hnt := hany nt hnt
          · unfold addRule at hnt
            split_ifs at hnt
            all_goals first
              | exact Or.inl hnt
              | obtain rfl | hnt := Finset.mem_insert.mp hnt
                · exact Or.inr hhead
                · exact Or.inl hnt
          · exact Or.inr hnt
        · intro nt hnt
          obtain hnt | hnt := hnonempty nt hnt
          · unfold addRule at hnt
            split_ifs at hnt
            all_goals first
              | exact Or.inl hnt
              | obtain rfl | hnt := Finset.mem_insert.mp hnt
                · exact Or.inr hhead
                · exact Or.inl hnt
          · exact Or.inr hnt
  exact hfold rules p fun _ h => h

theorem missing_pass_lt (h : p.pass rules num_nt ≠ p) : missing rules (p.pass rules num_nt) < missing rules p := by
  have hle := pass_le p num_nt rules
  have hnew := pass_new p num_nt rules
  have hany := Finset.card_le_card (Finset.sdiff_subset_sdiff (Finset.Subset.refl (heads rules)) hle.1)
  have hnonempty := Finset.card_le_card (Finset.sdiff_subset_sdiff (Finset.Subset.refl (heads rules)) hle.2)
  have hlt : ∀ {before after : Finset NonterminalID}, before ⊆ after → after ≠ before →
      (∀ nt ∈ after, nt ∈ before ∨ nt ∈ heads rules) →
        (heads rules \ after).card < (heads rules \ before).card := by
    intro before after hsub hne hin
    apply Finset.card_lt_card
    rw [Finset.ssubset_iff_of_subset (Finset.sdiff_subset_sdiff (Finset.Subset.refl _) hsub)]
    obtain ⟨nt, hafter, hbefore⟩ := Finset.exists_of_ssubset (hsub.ssubset_of_ne hne.symm)
    exact ⟨nt, Finset.mem_sdiff.mpr ⟨(hin nt hafter).resolve_left hbefore, hbefore⟩, by simp [hafter]⟩
  unfold missing
  by_cases he : (p.pass rules num_nt).any = p.any
  · have hne : (p.pass rules num_nt).nonempty ≠ p.nonempty := fun he' => h (Productive.ext he he')
    have := hlt hle.2 hne hnew.2
    omega
  · have := hlt hle.1 he hnew.1
    omega

/-- Passes over the rules until nothing changes. -/
def settle (rules : List Rule) (num_nt : ℕ) (p : Productive) : Productive :=
  if p.pass rules num_nt = p then p else settle rules num_nt (p.pass rules num_nt)
termination_by missing rules p
decreasing_by exact missing_pass_lt ‹_›

theorem settle_induction (rules : List Rule) (num_nt : ℕ) {motive : Productive → Prop} (h : motive p)
    (hpass : ∀ p, motive p → motive (p.pass rules num_nt)) :
    motive (settle rules num_nt p) ∧
      (settle rules num_nt p).pass rules num_nt = settle rules num_nt p := by
  induction p using settle.induct rules num_nt with
  | case1 p hp =>
      rw [settle, if_pos hp]
      exact ⟨h, hp⟩
  | case2 p hp ih =>
      rw [settle, if_neg hp]
      exact ih (hpass p h)

end Productive

def computeNonemptyProductive (rules : List Rule) (num_nt : ℕ) : Finset NonterminalID :=
  (Productive.settle rules num_nt ⟨∅, ∅⟩).nonempty

/-! ## What the sets contain -/

section Words

variable {rules : List Rule} {num_nt : ℕ}

theorem occurring_of_rule {rule : Rule} (hrule : rule ∈ rules) : rule.lhs ∈ occurring rules :=
  List.mem_flatMap.mpr ⟨rule, hrule, List.mem_cons_self⟩

theorem occurring_of_symbol {rule : Rule} (hrule : rule ∈ rules) {nt : NonterminalID}
    (hnt : .nonterminal nt ∈ rule.rhs) : nt ∈ occurring rules :=
  List.mem_flatMap.mpr ⟨rule, hrule, List.mem_cons_of_mem _ (mem_nonterminals.mpr hnt)⟩

theorem mem_nullableClauses {clause : Clause NonterminalID} :
    clause ∈ nullableClauses rules num_nt ↔ ∃ rule ∈ rules, rule.lhs < num_nt ∧
      (∀ s ∈ rule.rhs, ∃ nt, s = .nonterminal nt ∧ nt < num_nt) ∧
        clause = ⟨nonterminals rule.rhs, rule.lhs⟩ := by
  have hall : ∀ rhs : List GrammarSymbol, rhs.all (isNonterminalBelow num_nt) = true ↔
      ∀ s ∈ rhs, ∃ nt, s = .nonterminal nt ∧ nt < num_nt := by
    intro rhs
    rw [List.all_eq_true]
    refine forall₂_congr fun s _ => ?_
    cases s <;> simp [isNonterminalBelow]
  simp only [nullableClauses, List.mem_filterMap]
  constructor
  · rintro ⟨rule, hrule, h⟩
    split_ifs at h with hcond
    exact ⟨rule, hrule, hcond.1, (hall _).mp hcond.2, (Option.some.inj h).symm⟩
  · rintro ⟨rule, hrule, hlhs, hrhs, rfl⟩
    exact ⟨rule, hrule, if_pos ⟨hlhs, (hall _).mpr hrhs⟩⟩

/-- Nullable nonterminals derive the empty word. -/
theorem nil_mem_words_of_nullable {nt : NonterminalID} (h : nt ∈ computeNullable rules num_nt) :
    [] ∈ words (Produces rules) nt := by
  rw [computeNullable, mem_derivable] at h
  induction h with
  | @apply clause hmem _ ih =>
      obtain ⟨rule, hrule, -, hrhs, rfl⟩ := mem_nullableClauses.mp hmem
      refine mem_words_iff.mpr ⟨rule.rhs, hrule, nil_mem_denote.mpr ?_⟩
      intro s hs
      obtain ⟨nt, rfl, -⟩ := hrhs s hs
      exact ⟨nt, rfl, ih nt (mem_nonterminals.mpr hs)⟩

/-- A set of nonterminals for all ids contains every nonterminal with the empty word. -/
theorem mem_computeNullable (hsmall : ∀ nt ∈ occurring rules, nt < num_nt) {nt : NonterminalID} :
    nt ∈ computeNullable rules num_nt ↔ [] ∈ words (Produces rules) nt := by
  refine ⟨nil_mem_words_of_nullable, ?_⟩
  rintro ⟨n, hn⟩
  rw [computeNullable, mem_derivable]
  induction n generalizing nt with
  | zero => exact absurd hn (Language.notMem_zero [])
  | succ n ih =>
      obtain ⟨rhs, hrule, hn⟩ := hn
      have hsymbols := nil_mem_denote.mp hn
      have hmem : (⟨nonterminals rhs, nt⟩ : Clause NonterminalID) ∈ nullableClauses rules num_nt := by
        refine mem_nullableClauses.mpr ⟨⟨nt, rhs⟩, hrule, hsmall _ (occurring_of_rule hrule), ?_, rfl⟩
        intro s hs
        obtain ⟨nt', rfl, -⟩ := hsymbols s hs
        exact ⟨nt', rfl, hsmall nt' (occurring_of_symbol hrule hs)⟩
      have hpremises : ∀ nt' ∈ nonterminals rhs, Derives (nullableClauses rules num_nt) nt' := by
        intro nt' hnt'
        obtain ⟨nt'', he, hnil⟩ := hsymbols _ (mem_nonterminals.mp hnt')
        rw [Symbol.nonterminal.inj he]
        exact ih hnil
      exact Derives.apply hmem hpremises

theorem Nullable.mem_compute {nt : NonterminalID} :
    nt ∈ Nullable.compute rules ↔ [] ∈ words (Produces rules) nt := by
  unfold Nullable.compute
  split_ifs with hany
  · exact mem_computeNullable fun nt hnt => Nat.lt_succ_of_le (le_maxNtId hnt)
  · refine iff_of_false (Finset.notMem_empty nt) ?_
    rintro ⟨n, hn⟩
    induction n generalizing nt with
    | zero => exact absurd hn (Language.notMem_zero [])
    | succ n ih =>
        obtain ⟨rhs, hrule, hn⟩ := hn
        cases rhs with
        | nil => exact hany (List.any_eq_true.mpr ⟨_, hrule, by simp⟩)
        | cons s rhs =>
            obtain ⟨nt', -, hnil⟩ := nil_mem_denote.mp hn s List.mem_cons_self
            exact ih hnil

/-- The nullable nonterminals are those that derive the empty word in the grammar. -/
theorem Nullable.compute_iff_derived (rules : List Rule) (nt : NonterminalID) :
    nt ∈ Nullable.compute rules ↔ [] ∈ derived rules nt := by
  rw [derived_eq_words]
  exact Nullable.mem_compute

/-! ## Words that are not empty -/

/-- A rule with a terminal, or with a nonterminal that derives more. -/
def HasMore (nonempty : Finset NonterminalID) (rhs : List GrammarSymbol) : Prop :=
  ∃ s ∈ rhs, (∃ t, s = .terminal t) ∨ ∃ nt ∈ nonempty, s = .nonterminal nt

theorem HasMore.mono {nonempty nonempty' : Finset NonterminalID} (h : nonempty ⊆ nonempty')
    {rhs : List GrammarSymbol} (hmore : HasMore nonempty rhs) : HasMore nonempty' rhs := by
  obtain ⟨s, hs, hterminal | ⟨nt, hnt, he⟩⟩ := hmore
  · exact ⟨s, hs, Or.inl hterminal⟩
  · exact ⟨s, hs, Or.inr ⟨nt, h hnt, he⟩⟩

theorem any_derivesMore {p : Productive} {rhs : List GrammarSymbol} :
    rhs.any p.derivesMore = true ↔ HasMore p.nonempty rhs := by
  rw [List.any_eq_true]
  refine exists_congr fun s => and_congr_right fun _ => ?_
  cases s <;> simp [Productive.derivesMore]

theorem exists_rule_of_nonemptyProductive {nt : NonterminalID}
    (h : nt ∈ computeNonemptyProductive rules num_nt) :
    ∃ rhs, ⟨nt, rhs⟩ ∈ rules ∧ HasMore (computeNonemptyProductive rules num_nt) rhs := by
  let motive : Productive → Prop := fun p => ∀ nt ∈ p.nonempty, ∃ rhs, ⟨nt, rhs⟩ ∈ rules ∧
    HasMore p.nonempty rhs
  have hstep : ∀ (todo : List Rule) (p : Productive), todo ⊆ rules → motive p →
      motive (todo.foldl (Productive.addRule num_nt) p) := by
    intro todo
    induction todo with
    | nil => exact fun p _ h => h
    | cons rule todo ih =>
        intro p hsub hp
        refine ih _ (List.subset_of_cons_subset hsub) ?_
        have hle := Productive.addRule_le p num_nt rule
        intro nt hnt
        by_cases hold : nt ∈ p.nonempty
        · obtain ⟨rhs, hrhs, hmore⟩ := hp nt hold
          exact ⟨rhs, hrhs, hmore.mono hle.2⟩
        · unfold Productive.addRule at hnt
          split_ifs at hnt with hcond hmore
          · obtain rfl := (Finset.mem_insert.mp hnt).resolve_right hold
            exact ⟨rule.rhs, hsub List.mem_cons_self, (any_derivesMore.mp hmore).mono hle.2⟩
          all_goals exact absurd hnt hold
  have hsettle := Productive.settle_induction rules num_nt (p := ⟨∅, ∅⟩)
    (motive := motive) (fun nt hnt => absurd hnt (Finset.notMem_empty nt))
    fun p hp => hstep rules p (fun _ hrule => hrule) hp
  exact hsettle.1 nt h

/-- After a pass without a change every rule is respected. -/
theorem Productive.of_pass_eq {p : Productive} (h : p.pass rules num_nt = p) {rule : Rule}
    (hrule : rule ∈ rules) (hlhs : rule.lhs < num_nt) (hall : ∀ s ∈ rule.rhs, p.mayDerive s = true) :
    rule.lhs ∈ p.any ∧ (HasMore p.nonempty rule.rhs → rule.lhs ∈ p.nonempty) := by
  obtain ⟨before, after, rfl⟩ := List.append_of_mem hrule
  have hle := pass_le p num_nt before
  let p' := p.pass before num_nt
  have hsplit : p.pass (before ++ rule :: after) num_nt = (p'.addRule num_nt rule).pass after num_nt := by
    rw [pass, List.foldl_append, List.foldl_cons]
    rfl
  have hafter := pass_le (p'.addRule num_nt rule) num_nt after
  rw [← hsplit, h] at hafter
  have hmono : ∀ s, p.mayDerive s = true → p'.mayDerive s = true := by
    intro s hs
    cases s with
    | terminal t => rfl
    | nonterminal nt => exact decide_eq_true (hle.1 (of_decide_eq_true hs))
  have hcond : rule.lhs < num_nt ∧ rule.rhs.all p'.mayDerive = true :=
    ⟨hlhs, List.all_eq_true.mpr fun s hs => hmono s (hall s hs)⟩
  unfold addRule at hafter
  rw [if_pos hcond] at hafter
  refine ⟨hafter.1 (Finset.mem_insert_self _ _), ?_⟩
  intro hmore
  have hmore' := hafter.2
  rw [if_pos (any_derivesMore.mpr (hmore.mono hle.2))] at hmore'
  exact hmore' (Finset.mem_insert_self _ _)

/-- Words that are not empty come from symbols with such words. -/
theorem exists_of_mem_denote {J : NonterminalID → Language TerminalID} {rhs : List GrammarSymbol}
    {w : List TerminalID} (hw : w ∈ denote J rhs) : (∀ nt, .nonterminal nt ∈ rhs → ∃ u, u ∈ J nt) ∧
      (w ≠ [] → ∃ s ∈ rhs, (∃ t, s = .terminal t) ∨ ∃ nt, s = .nonterminal nt ∧ ∃ u ∈ J nt, u ≠ []) := by
  induction rhs generalizing w with
  | nil => exact ⟨fun nt h => absurd h List.not_mem_nil, fun hne => absurd ((Language.mem_one w).mp hw) hne⟩
  | cons s rhs ih =>
      obtain ⟨u, hu, v, hv, rfl⟩ := mem_denote_cons.mp hw
      obtain ⟨hsome, hmore⟩ := ih hv
      constructor
      · intro nt hnt
        obtain rfl | hnt := List.mem_cons.mp hnt
        · exact ⟨u, hu⟩
        · exact hsome nt hnt
      · intro hne
        cases s with
        | terminal t => exact ⟨_, List.mem_cons_self, Or.inl ⟨t, rfl⟩⟩
        | nonterminal nt =>
            by_cases hnil : u = []
            · rw [hnil, List.nil_append] at hne
              obtain ⟨s, hs, hcase⟩ := hmore hne
              exact ⟨s, List.mem_cons_of_mem _ hs, hcase⟩
            · exact ⟨_, List.mem_cons_self, Or.inr ⟨nt, rfl, u, hu, hnil⟩⟩

/-- The other nonterminals have no word but the empty one. -/
theorem mem_nonemptyProductive (hsmall : ∀ nt ∈ occurring rules, nt < num_nt) {nt : NonterminalID}
    {w : List TerminalID} (hw : w ∈ words (Produces rules) nt) (hne : w ≠ []) :
    nt ∈ computeNonemptyProductive rules num_nt := by
  have hstable := (Productive.settle_induction rules num_nt (p := ⟨∅, ∅⟩)
    (motive := fun _ => True) trivial fun _ _ => trivial).2
  rw [computeNonemptyProductive]
  generalize Productive.settle rules num_nt ⟨∅, ∅⟩ = p at hstable ⊢
  have hstage : ∀ n nt, ∀ w ∈ stage (Produces rules) n nt, nt ∈ p.any ∧ (w ≠ [] → nt ∈ p.nonempty) := by
    intro n
    induction n with
    | zero => exact fun nt w hw => absurd hw (Language.notMem_zero w)
    | succ n ih =>
        rintro nt w ⟨rhs, hrule, hw⟩
        obtain ⟨hsome, hmore⟩ := exists_of_mem_denote hw
        have hall : ∀ s ∈ rhs, p.mayDerive s = true := by
          intro s hs
          cases s with
          | terminal t => rfl
          | nonterminal nt' =>
              obtain ⟨u, hu⟩ := hsome nt' hs
              exact decide_eq_true (ih nt' u hu).1
        obtain ⟨hany, hnonempty⟩ := Productive.of_pass_eq hstable hrule
          (hsmall nt (occurring_of_rule hrule)) hall
        refine ⟨hany, fun hne => hnonempty ?_⟩
        obtain ⟨s, hs, ⟨t, rfl⟩ | ⟨nt', rfl, u, hu, hune⟩⟩ := hmore hne
        · exact ⟨_, hs, Or.inl ⟨t, rfl⟩⟩
        · exact ⟨_, hs, Or.inr ⟨nt', (ih nt' u hu).2 hune, rfl⟩⟩
  obtain ⟨n, hn⟩ := hw
  exact (hstage n nt w hn).2 hne

end Words

end Grammar

end GlrMask
