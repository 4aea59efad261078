import GlrMask.ContextFreeComparison

/-!
# The empty word in a context-free grammar

A sequence has the empty word when all its symbols are nonterminals that have it. Making every
symbol of a sequence optional gives the words of its subsequences, and these are picked by the
bits of a number.
-/

namespace ContextFree

variable {T N : Type*} {P : Productions T N} {J K : N → Language T} {A : N}
  {α β : List (Symbol T N)} {w : List T} {L M : Language T}

theorem append_eq_nil_of_mem_mul (h : [] ∈ L * M) : [] ∈ L ∧ [] ∈ M := by
  obtain ⟨u, hu, v, hv, he⟩ := Language.mem_mul.mp h
  obtain ⟨rfl, rfl⟩ := List.append_eq_nil_iff.mp he
  exact ⟨hu, hv⟩

theorem nil_mem_denote : [] ∈ denote J α ↔ ∀ s ∈ α, ∃ B, s = .nonterminal B ∧ [] ∈ J B := by
  induction α with
  | nil => simp
  | cons s α ih =>
      rw [List.forall_mem_cons, ← ih, denote_cons]
      constructor
      · intro h
        obtain ⟨hs, hα⟩ := append_eq_nil_of_mem_mul h
        refine ⟨?_, hα⟩
        cases s with
        | terminal t => cases mem_value_terminal.mp hs
        | nonterminal B => exact ⟨B, rfl, hs⟩
      · rintro ⟨⟨B, rfl, hB⟩, hα⟩
        exact Language.append_mem_mul hB hα

/-! ## Words that are not empty -/

def proper (L : Language T) : Language T := {w | w ∈ L ∧ w ≠ []}

theorem proper_le (L : Language T) : proper L ≤ L := fun _ hw => hw.1

theorem nil_notMem_proper (L : Language T) : [] ∉ proper L := fun h => h.2 rfl

theorem proper_mono (h : L ≤ M) : proper L ≤ proper M := fun _ hw => ⟨h hw.1, hw.2⟩

theorem le_proper (h : L ≤ M) (hnil : [] ∉ L) : L ≤ proper M := by
  intro w hw
  refine ⟨h hw, ?_⟩
  rintro rfl
  exact hnil hw

theorem nil_mem_one_add (L : Language T) : [] ∈ 1 + L := Or.inl (Language.nil_mem_one)

theorem le_one_add (L : Language T) : L ≤ 1 + L := fun _ hw => Or.inr hw

theorem one_add_le (h : L ≤ M) (hnil : [] ∈ M) : 1 + L ≤ M := by
  rintro w (hw | hw)
  · rw [(Language.mem_one w).mp hw]
    exact hnil
  · exact h hw

theorem le_one_add_of_proper_le (h : proper L ≤ M) : L ≤ 1 + M := by
  intro w hw
  by_cases hnil : w = []
  · rw [hnil]
    exact nil_mem_one_add M
  · exact Or.inr (h ⟨hw, hnil⟩)

/-! ## Optional symbols -/

/-- The words of the subsequences. -/
def optional (J : N → Language T) (α : List (Symbol T N)) : Language T :=
  (α.map fun s => 1 + value J s).prod

@[simp] theorem optional_nil : optional J [] = 1 := rfl

@[simp] theorem optional_cons (s : Symbol T N) :
    optional J (s :: α) = (1 + value J s) * optional J α := by
  simp [optional]

theorem nil_mem_optional (α : List (Symbol T N)) : [] ∈ optional J α := by
  induction α with
  | nil => exact Language.nil_mem_one
  | cons s α ih =>
      rw [optional_cons]
      exact Language.append_mem_mul (nil_mem_one_add _) ih

theorem denote_le_optional (α : List (Symbol T N)) : denote J α ≤ optional J α := by
  induction α with
  | nil => exact le_rfl
  | cons s α ih =>
      rw [denote_cons, optional_cons]
      exact mul_le_mul' (le_one_add _) ih

theorem optional_le_denote (h : ∀ s ∈ α, [] ∈ value J s) : optional J α ≤ denote J α := by
  induction α with
  | nil => exact le_rfl
  | cons s α ih =>
      rw [denote_cons, optional_cons]
      exact mul_le_mul' (one_add_le le_rfl (h s List.mem_cons_self))
        (ih fun s hs => h s (List.mem_cons_of_mem _ hs))

theorem optional_congr (h : ∀ B, .nonterminal B ∈ α → J B = K B) : optional J α = optional K α := by
  unfold optional
  congr 1
  apply List.map_congr_left
  intro s hs
  cases s with
  | terminal t => rfl
  | nonterminal B => exact congrArg (1 + ·) (h B hs)

/-- The symbols at the set bits. -/
def selectBits {S : Type*} : ℕ → List S → List S
  | _, [] => []
  | mask, s :: rest =>
      if mask.testBit 0 then s :: selectBits (mask / 2) rest else selectBits (mask / 2) rest

theorem selectBits_zero {S : Type*} (l : List S) : selectBits 0 l = [] := by
  induction l with
  | nil => rfl
  | cons s l ih => simpa [selectBits] using ih

theorem mem_selectBits {S : Type*} {mask : ℕ} {l : List S} {s : S} (h : s ∈ selectBits mask l) :
    s ∈ l := by
  induction l generalizing mask with
  | nil => cases h
  | cons s' l ih =>
      unfold selectBits at h
      split_ifs at h
      · obtain rfl | h := List.mem_cons.mp h
        · exact List.mem_cons_self
        · exact List.mem_cons_of_mem _ (ih h)
      · exact List.mem_cons_of_mem _ (ih h)

theorem selectBits_ne_nil {S : Type*} {mask : ℕ} {l : List S} (hpos : 0 < mask)
    (hlt : mask < 2 ^ l.length) : selectBits mask l ≠ [] := by
  induction l generalizing mask with
  | nil =>
      rw [List.length_nil, pow_zero] at hlt
      omega
  | cons s l ih =>
      rw [List.length_cons, pow_succ] at hlt
      unfold selectBits
      split_ifs with hbit
      · exact List.cons_ne_nil _ _
      · rw [Nat.testBit_zero, decide_eq_true_eq] at hbit
        exact ih (by omega) (by omega)

theorem denote_selectBits_le (mask : ℕ) (α : List (Symbol T N)) :
    denote J (selectBits mask α) ≤ optional J α := by
  induction α generalizing mask with
  | nil => exact le_rfl
  | cons s α ih =>
      rw [optional_cons]
      unfold selectBits
      split_ifs
      · rw [denote_cons]
        exact mul_le_mul' (le_one_add _) (ih _)
      · intro w hw
        exact Language.append_mem_mul (nil_mem_one_add _) (ih _ hw)

theorem exists_selectBits (hw : w ∈ optional J α) :
    ∃ mask < 2 ^ α.length, w ∈ denote J (selectBits mask α) := by
  induction α generalizing w with
  | nil => exact ⟨0, by simp, hw⟩
  | cons s α ih =>
      rw [optional_cons] at hw
      obtain ⟨u, hu, v, hv, rfl⟩ := Language.mem_mul.mp hw
      obtain ⟨mask, hmask, hv⟩ := ih hv
      rw [List.length_cons, pow_succ]
      obtain hu | hu := hu
      · rw [(Language.mem_one u).mp hu, List.nil_append]
        refine ⟨2 * mask, by omega, ?_⟩
        have hbit : (2 * mask).testBit 0 = false := by simp
        rw [selectBits, hbit, Nat.mul_div_cancel_left mask (by omega)]
        exact hv
      · refine ⟨2 * mask + 1, by omega, ?_⟩
        have hbit : (2 * mask + 1).testBit 0 = true := by simp
        have hdiv : (2 * mask + 1) / 2 = mask := by omega
        rw [selectBits, hbit, hdiv, if_pos rfl, denote_cons]
        exact Language.append_mem_mul hu hv

end ContextFree
