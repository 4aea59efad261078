import GlrMask.ContextFree

/-!
# Comparing the words of two grammars

The words of one grammar are shown to be words of another one by counting the height of a
derivation. A nonterminal that calls itself at the left end has the words that its other
right-hand sides start and any number of its tails continue. A new nonterminal for such
tails may be given the words by which a language can be continued within itself.
-/

namespace ContextFree

open Computability

variable {T N : Type*} {P Q : Productions T N} {J K : N → Language T} {A B : N}
  {α β μ ν : List (Symbol T N)} {w : List T}

theorem words_le_of_step (h : ∀ n, (∀ B, stage P n B ≤ J B) → ∀ A α, P A α →
    denote (stage P n) α ≤ J A) (A : N) : words P A ≤ J A := by
  have hstage : ∀ n A, stage P n A ≤ J A := by
    intro n
    induction n with
    | zero => exact fun A => bot_le
    | succ n ih =>
        intro A w hw
        obtain ⟨α, hα, hw⟩ := hw
        exact h n ih A α hα hw
  intro w hw
  obtain ⟨n, hw⟩ := hw
  exact hstage n A hw

/-! ## One occurrence of a nonterminal -/

/-! ## Left recursion -/

/-- The words of the sequences of a set. -/
def denoteAny (J : N → Language T) (C : Set (List (Symbol T N))) : Language T :=
  {w | ∃ α ∈ C, w ∈ denote J α}

theorem denote_le_denoteAny {C : Set (List (Symbol T N))} (h : α ∈ C) :
    denote J α ≤ denoteAny J C := fun _ hw => ⟨α, h, hw⟩

theorem denoteAny_le {C : Set (List (Symbol T N))} {L : Language T} (h : ∀ α ∈ C, denote J α ≤ L) :
    denoteAny J C ≤ L := by
  rintro w ⟨α, hα, hw⟩
  exact h α hα hw

theorem denoteAny_empty : denoteAny J (∅ : Set (List (Symbol T N))) = 0 := by
  ext w
  refine iff_of_false ?_ (Language.notMem_zero w)
  rintro ⟨α, hα, -⟩
  exact hα

theorem mul_denoteAny_le {C : Set (List (Symbol T N))} {L M : Language T}
    (h : ∀ α ∈ C, L * denote J α ≤ M) : L * denoteAny J C ≤ M := by
  intro w hw
  obtain ⟨u, hu, v, ⟨α, hα, hv⟩, rfl⟩ := Language.mem_mul.mp hw
  exact h α hα (Language.append_mem_mul hu hv)

/-- A nonterminal that calls itself at the left end only has the words of its other right-hand
sides, continued by any number of its tails. -/
theorem words_le_of_leftRecursive {E F : Language T} (h : ∀ α, P A α → denote (words P) α ≤ E ∨
    ∃ τ, α = .nonterminal A :: τ ∧ denote (words P) τ ≤ F∗) : words P A ≤ E * F∗ := by
  have hstage : ∀ n, stage P n A ≤ E * F∗ := by
    intro n
    induction n with
    | zero => exact bot_le
    | succ n ih =>
        rintro w ⟨α, hα, hw⟩
        obtain hexit | ⟨τ, rfl, hτ⟩ := h α hα
        · have hmul : E ≤ E * F∗ := le_mul_of_one_le_right' one_le_kstar
          exact hmul (hexit (denote_stage_le n α hw))
        · have hle : denote (stage P n) (.nonterminal A :: τ) ≤ E * F∗ := by
            rw [denote_cons]
            calc stage P n A * denote (stage P n) τ
                ≤ E * F∗ * F∗ := mul_le_mul' ih ((denote_stage_le n τ).trans hτ)
              _ = E * (F∗ * F∗) := mul_assoc _ _ _
              _ = E * F∗ := by rw [kstar_mul_kstar]
          exact hle hw
  intro w hw
  obtain ⟨n, hw⟩ := hw
  exact hstage n hw

/-- A language that contains some words and is closed under continuing by them contains all
sequences of them that are not empty. -/
theorem kstar_le_one_sup {F L : Language T} (hF : F ≤ L) (hL : L * F ≤ L) : F∗ ≤ 1 + L := by
  have h : 1 * F∗ ≤ 1 + L := by
    apply mul_kstar_le
    · exact le_add_of_nonneg_right bot_le
    · rw [add_mul, one_mul]
      exact (add_le hF hL).trans (le_add_of_nonneg_left bot_le)
  rwa [one_mul] at h

/-- The words by which the words of a language can be continued within it. -/
def rightResidual (L : Language T) : Language T := {v | ∀ u ∈ L, u ++ v ∈ L}

theorem le_rightResidual_iff {L M : Language T} : M ≤ rightResidual L ↔ L * M ≤ L := by
  constructor
  · rintro h w hw
    obtain ⟨u, hu, v, hv, rfl⟩ := Language.mem_mul.mp hw
    exact h hv u hu
  · intro h v hv u hu
    exact h (Language.append_mem_mul hu hv)

theorem mul_rightResidual_le (L : Language T) : L * rightResidual L ≤ L :=
  le_rightResidual_iff.mp le_rfl

theorem rightResidual_mul_le {L M : Language T} (h : L * M ≤ L) :
    rightResidual L * M ≤ rightResidual L := by
  rw [le_rightResidual_iff, ← mul_assoc]
  exact (mul_le_mul' (mul_rightResidual_le L) le_rfl).trans h

end ContextFree
