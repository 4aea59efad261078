import Mathlib

/-!
# The words of a context-free grammar

An interpretation gives every nonterminal a language, and so every sequence of symbols
the product of the languages of its symbols. The words of the nonterminals are the least
interpretation that contains the words of all right-hand sides, they are reached by
counting the height of a derivation, and they are what rewriting derives.
-/

namespace ContextFree

variable {T N : Type*}

/-- The right-hand sides of the nonterminals. -/
abbrev Productions (T N : Type*) := N → List (Symbol T N) → Prop

def value (J : N → Language T) : Symbol T N → Language T
  | .terminal t => {[t]}
  | .nonterminal A => J A

/-- The words of a sequence of symbols. -/
def denote (J : N → Language T) (α : List (Symbol T N)) : Language T := (α.map (value J)).prod

/-- The words with a derivation of bounded height. -/
def stage (P : Productions T N) : ℕ → N → Language T
  | 0, _ => 0
  | n + 1, A => {w | ∃ α, P A α ∧ w ∈ denote (stage P n) α}

def words (P : Productions T N) (A : N) : Language T := {w | ∃ n, w ∈ stage P n A}

/-- The interpretation contains the words of all right-hand sides. -/
def Closed (P : Productions T N) (J : N → Language T) : Prop := ∀ A α, P A α → denote J α ≤ J A

variable {J K : N → Language T} {P Q : Productions T N} {A : N} {α β : List (Symbol T N)}
  {w : List T} {n : ℕ}

@[simp] theorem denote_nil : denote J [] = 1 := rfl

@[simp] theorem denote_cons (s : Symbol T N) : denote J (s :: α) = value J s * denote J α := by
  simp [denote]

@[simp] theorem denote_append : denote J (α ++ β) = denote J α * denote J β := by
  simp [denote]

theorem denote_nonterminal (A : N) : denote J [.nonterminal A] = J A := by
  simp [value]

theorem mem_denote_cons {s : Symbol T N} : w ∈ denote J (s :: α) ↔
    ∃ u ∈ value J s, ∃ v ∈ denote J α, u ++ v = w := by
  rw [denote_cons, Language.mem_mul]

theorem append_mem_denote {u v : List T} (hu : u ∈ denote J α) (hv : v ∈ denote J β) :
    u ++ v ∈ denote J (α ++ β) := by
  rw [denote_append]
  exact Language.append_mem_mul hu hv

theorem mem_value_terminal {t : T} : w ∈ value J (.terminal t) ↔ w = [t] := Iff.rfl

/-- A sequence has the words of another one when its symbols have the words of the other's. -/
theorem denote_le_of_forall₂ {α β : List (Symbol T N)}
    (h : List.Forall₂ (fun s t => value J s ≤ value K t) α β) : denote J α ≤ denote K β := by
  induction h with
  | nil => exact le_rfl
  | cons hs _ ih =>
      rw [denote_cons, denote_cons]
      exact mul_le_mul' hs ih

theorem denote_mono_of_mem (h : ∀ A, .nonterminal A ∈ α → J A ≤ K A) :
    denote J α ≤ denote K α := by
  apply denote_le_of_forall₂
  rw [List.forall₂_same]
  intro s hs
  cases s with
  | terminal t => exact le_rfl
  | nonterminal A => exact h A hs

theorem denote_mono (h : ∀ A, J A ≤ K A) (α : List (Symbol T N)) : denote J α ≤ denote K α :=
  denote_mono_of_mem fun A _ => h A

/-- Only the nonterminals that occur matter. -/
theorem denote_congr (h : ∀ A, .nonterminal A ∈ α → J A = K A) : denote J α = denote K α :=
  le_antisymm (denote_mono_of_mem fun A hA => (h A hA).le)
    (denote_mono_of_mem fun A hA => (h A hA).ge)

theorem stage_le_succ (n : ℕ) (A : N) : stage P n A ≤ stage P (n + 1) A := by
  induction n generalizing A with
  | zero => exact bot_le
  | succ n ih =>
      intro w hw
      obtain ⟨α, hα, hw⟩ := hw
      exact ⟨α, hα, denote_mono ih α hw⟩

theorem stage_mono {m n : ℕ} (h : m ≤ n) (A : N) : stage P m A ≤ stage P n A :=
  monotone_nat_of_le_succ (fun n => stage_le_succ n A) h

theorem stage_le_words (n : ℕ) (A : N) : stage P n A ≤ words P A := fun _ hw => ⟨n, hw⟩

theorem denote_stage_le (n : ℕ) (α : List (Symbol T N)) : denote (stage P n) α ≤ denote (words P) α :=
  denote_mono (stage_le_words n) α

/-- The derivations of the symbols of a word have a common bound. -/
theorem exists_stage (hw : w ∈ denote (words P) α) : ∃ n, w ∈ denote (stage P n) α := by
  induction α generalizing w with
  | nil => exact ⟨0, hw⟩
  | cons s α ih =>
      obtain ⟨u, hu, v, hv, rfl⟩ := mem_denote_cons.mp hw
      obtain ⟨n, hv⟩ := ih hv
      cases s with
      | terminal t => exact ⟨n, mem_denote_cons.mpr ⟨u, hu, v, hv, rfl⟩⟩
      | nonterminal A =>
          obtain ⟨m, hu⟩ := hu
          refine ⟨max m n, mem_denote_cons.mpr ⟨u, ?_, v, ?_, rfl⟩⟩
          · exact stage_mono (le_max_left m n) A hu
          · exact denote_mono (stage_mono (le_max_right m n)) α hv

theorem closed_words (P : Productions T N) : Closed P (words P) := by
  intro A α hα w hw
  obtain ⟨n, hw⟩ := exists_stage hw
  exact ⟨n + 1, α, hα, hw⟩

/-- The words of a nonterminal are those of its right-hand sides. -/
theorem mem_words_iff : w ∈ words P A ↔ ∃ α, P A α ∧ w ∈ denote (words P) α := by
  constructor
  · intro hw
    obtain ⟨n, hw⟩ := hw
    cases n with
    | zero => exact absurd hw (Language.notMem_zero w)
    | succ n =>
        obtain ⟨α, hα, hw⟩ := hw
        exact ⟨α, hα, denote_stage_le n α hw⟩
  · intro hw
    obtain ⟨α, hα, hw⟩ := hw
    exact closed_words P A α hα hw

theorem stage_le_of_closed (h : Closed P J) (n : ℕ) (A : N) : stage P n A ≤ J A := by
  induction n generalizing A with
  | zero => exact bot_le
  | succ n ih =>
      intro w hw
      obtain ⟨α, hα, hw⟩ := hw
      exact h A α hα (denote_mono ih α hw)

/-- The words are the least interpretation that contains the words of all right-hand sides. -/
theorem words_le_of_closed (h : Closed P J) (A : N) : words P A ≤ J A := by
  intro w hw
  obtain ⟨n, hw⟩ := hw
  exact stage_le_of_closed h n A hw

theorem words_mono (h : ∀ A α, P A α → Q A α) (A : N) : words P A ≤ words Q A :=
  words_le_of_closed (fun A α hα => closed_words Q A α (h A α hα)) A

/-! ## Unfolding nonterminals -/

section Unfolding

/-- Some occurrences of nonterminals are replaced by their right-hand sides, again and again. -/
inductive Unfolds (U : Productions T N) : List (Symbol T N) → List (Symbol T N) → Prop
  | nil : Unfolds U [] []
  | keep (s : Symbol T N) {α β : List (Symbol T N)} : Unfolds U α β → Unfolds U (s :: α) (s :: β)
  | unfold {A : N} {γ δ α β : List (Symbol T N)} : U A γ → Unfolds U γ δ → Unfolds U α β →
      Unfolds U (.nonterminal A :: α) (δ ++ β)

variable {U : Productions T N}

theorem Unfolds.refl (α : List (Symbol T N)) : Unfolds U α α := by
  induction α with
  | nil => exact .nil
  | cons s α ih => exact .keep s ih

theorem Unfolds.append {α α' β β' : List (Symbol T N)} (h : Unfolds U α β) (h' : Unfolds U α' β') :
    Unfolds U (α ++ α') (β ++ β') := by
  induction h with
  | nil => exact h'
  | keep s _ ih => exact .keep s ih
  | unfold hU hγ _ _ ih =>
      rw [List.append_assoc]
      exact .unfold hU hγ ih

theorem denote_le_of_unfolds (hJ : Closed U J) (h : Unfolds U α β) : denote J β ≤ denote J α := by
  induction h with
  | nil => exact le_rfl
  | keep s _ ih =>
      rw [denote_cons, denote_cons]
      exact mul_le_mul' le_rfl ih
  | unfold hU _ _ ihγ ih =>
      rw [denote_append, denote_cons]
      exact mul_le_mul' (ihγ.trans (hJ _ _ hU)) ih

/-- Unfolding the only right-hand side of a nonterminal makes no derivation higher. -/
theorem stage_le_of_unfolds (hU : ∀ A γ α, U A γ → P A α → α = γ) (h : Unfolds U α β) (n : ℕ) :
    denote (stage P n) α ≤ denote (stage P n) β := by
  induction h with
  | nil => exact le_rfl
  | keep s _ ih =>
      rw [denote_cons, denote_cons]
      exact mul_le_mul' le_rfl ih
  | @unfold A γ δ α β hA _ _ ihγ ih =>
      rw [denote_append, denote_cons]
      refine mul_le_mul' ?_ ih
      intro w hw
      cases n with
      | zero => exact absurd hw (Language.notMem_zero w)
      | succ n =>
          obtain ⟨α', hα', hw⟩ := hw
          rw [hU A γ α' hA hα'] at hw
          exact ihγ (denote_mono (stage_le_succ n) γ hw)

end Unfolding

/-! ## Rewriting -/

section Rewriting

variable {T : Type*} {g : ContextFreeGrammar T}

def productions (g : ContextFreeGrammar T) : Productions T g.NT := fun A α => ⟨A, α⟩ ∈ g.rules

theorem mem_denote_map_terminal (J : N → Language T) (w : List T) :
    w ∈ denote J (w.map .terminal) := by
  induction w with
  | nil => exact Language.nil_mem_one
  | cons t w ih => exact mem_denote_cons.mpr ⟨[t], rfl, w, ih, rfl⟩

theorem denote_le_of_produces {α β : List (Symbol T g.NT)} (h : g.Produces α β) :
    denote (words (productions g)) β ≤ denote (words (productions g)) α := by
  obtain ⟨r, hr, hrewrites⟩ := h
  obtain ⟨p, q, rfl, rfl⟩ := hrewrites.exists_parts
  simp only [denote_append, denote_nonterminal]
  exact mul_le_mul' (mul_le_mul' le_rfl (closed_words (productions g) r.input r.output hr)) le_rfl

theorem mem_denote_of_derives {α : List (Symbol T g.NT)} {w : List T}
    (h : g.Derives α (w.map .terminal)) : w ∈ denote (words (productions g)) α := by
  induction h using Relation.ReflTransGen.head_induction_on with
  | refl => exact mem_denote_map_terminal _ w
  | head hstep _ ih => exact denote_le_of_produces hstep ih

theorem derives_of_mem_denote {J : g.NT → Language T}
    (hJ : ∀ A, ∀ w ∈ J A, g.Derives [.nonterminal A] (w.map .terminal)) {α : List (Symbol T g.NT)}
    {w : List T} (hw : w ∈ denote J α) : g.Derives α (w.map .terminal) := by
  induction α generalizing w with
  | nil =>
      obtain rfl := (Language.mem_one w).mp hw
      exact ContextFreeGrammar.Derives.refl _
  | cons s α ih =>
      obtain ⟨u, hu, v, hv, rfl⟩ := mem_denote_cons.mp hw
      rw [List.map_append]
      have hs : g.Derives [s] (u.map .terminal) := by
        cases s with
        | terminal t =>
            obtain rfl := mem_value_terminal.mp hu
            exact ContextFreeGrammar.Derives.refl _
        | nonterminal A => exact hJ A u hu
      exact (hs.append_right α).trans ((ih hv).append_left _)

theorem derives_of_mem_words {A : g.NT} {w : List T} (hw : w ∈ words (productions g) A) :
    g.Derives [.nonterminal A] (w.map .terminal) := by
  have hclosed : Closed (productions g)
      (fun A => {w : List T | g.Derives [.nonterminal A] (w.map .terminal)}) := by
    intro A α hα w hw
    have hstep : g.Produces [.nonterminal A] α := ⟨⟨A, α⟩, hα, ContextFreeRule.Rewrites.input_output⟩
    exact hstep.trans_derives (derives_of_mem_denote (fun _ _ h => h) hw)
  exact words_le_of_closed hclosed A hw

/-- The words of the initial nonterminal are the language of the grammar. -/
theorem language_eq_words (g : ContextFreeGrammar T) :
    g.language = words (productions g) g.initial := by
  ext w
  constructor
  · intro hw
    have hmem := mem_denote_of_derives hw
    rwa [denote_nonterminal] at hmem
  · exact derives_of_mem_words

end Rewriting

end ContextFree
