import GlrMask.Fuel
import GlrMask.Interning

/-!
# Partition refinement

A partition of places is a list of class numbers. In a round every place gets a
signature that tells its class, and the signatures are numbered in the order of
their first occurrence. From the second round on, a round that changes a number
splits a class, so in the end a round changes nothing.
-/

namespace PartitionRefinement

open GlrMask Interning

variable {S : Type*} [DecidableEq S] (signatures : List ℕ → List S)

/-- One round; it has no successor when it changes nothing. -/
def round (classes : List ℕ) : Option (List ℕ) :=
  if numbers (signatures classes) = classes then none else some (numbers (signatures classes))

/-- The pairs of places in one class. -/
def samePairs (classes : List ℕ) : Finset (ℕ × ℕ) :=
  (Finset.range classes.length ×ˢ Finset.range classes.length).filter fun p =>
    classes[p.1]? = classes[p.2]?

/-- Rounds that split a class lose a pair, and only the first round can rename without that. -/
def potential (classes : List ℕ) : ℕ :=
  2 * (samePairs classes).card + if numbers classes = classes then 0 else 1

/-- There is a signature for each of `n` places, and it tells the class of the place. -/
structure Refines (n : ℕ) : Prop where
  length : ∀ classes, (signatures classes).length = n
  tells : ∀ (classes : List ℕ) (i j : ℕ), classes.length = n → i < n → j < n →
    (signatures classes)[i]? = (signatures classes)[j]? → classes[i]? = classes[j]?

theorem mem_samePairs {classes : List ℕ} {p : ℕ × ℕ} : p ∈ samePairs classes ↔
    (p.1 < classes.length ∧ p.2 < classes.length) ∧ classes[p.1]? = classes[p.2]? := by
  simp only [samePairs, Finset.mem_filter, Finset.mem_product, Finset.mem_range]

variable {signatures} {n : ℕ}

theorem Refines.length_numbers (h : Refines signatures n) (classes : List ℕ) :
    (numbers (signatures classes)).length = n := by
  rw [Interning.length_numbers, h.length]

/-- Places with one new number have one signature. -/
theorem Refines.signatures_eq (h : Refines signatures n) {classes : List ℕ} {i j : ℕ} (hi : i < n)
    (hj : j < n) (he : (numbers (signatures classes))[i]? = (numbers (signatures classes))[j]?) :
    (signatures classes)[i]? = (signatures classes)[j]? :=
  (numbers_eq_iff ((h.length classes).symm ▸ hi) ((h.length classes).symm ▸ hj)).mp he

theorem Refines.samePairs_subset (h : Refines signatures n) {classes : List ℕ}
    (hlength : classes.length = n) :
    samePairs (numbers (signatures classes)) ⊆ samePairs classes := by
  intro p hp
  rw [mem_samePairs, h.length_numbers] at hp
  obtain ⟨⟨hi, hj⟩, he⟩ := hp
  rw [mem_samePairs, hlength]
  exact ⟨⟨hi, hj⟩, h.tells classes p.1 p.2 hlength hi hj (h.signatures_eq hi hj he)⟩

/-- A round that splits no class only renames. -/
theorem Refines.numbers_eq (h : Refines signatures n) {classes : List ℕ}
    (hlength : classes.length = n)
    (hpairs : samePairs (numbers (signatures classes)) = samePairs classes) :
    numbers (signatures classes) = numbers classes := by
  apply numbers_congr ((h.length classes).trans hlength.symm)
  intro i j hi hj
  rw [h.length] at hi hj
  refine ⟨h.tells classes i j hlength hi hj, ?_⟩
  intro he
  have hp : (i, j) ∈ samePairs classes := by
    rw [mem_samePairs, hlength]
    exact ⟨⟨hi, hj⟩, he⟩
  rw [← hpairs] at hp
  exact h.signatures_eq hi hj (mem_samePairs.mp hp).2

theorem Refines.potential_lt (h : Refines signatures n) {classes : List ℕ}
    (hlength : classes.length = n) (hne : numbers (signatures classes) ≠ classes) :
    potential (numbers (signatures classes)) < potential classes := by
  unfold potential
  rw [if_pos (numbers_numbers (signatures classes))]
  have hsub := h.samePairs_subset hlength
  have hle := Finset.card_le_card hsub
  by_cases hpairs : samePairs (numbers (signatures classes)) = samePairs classes
  · have hrename : numbers classes ≠ classes := by
      rw [← h.numbers_eq hlength hpairs]
      exact hne
    rw [if_neg hrename, hpairs]
    omega
  · have hlt := Finset.card_lt_card (hsub.ssubset_of_ne hpairs)
    omega

/-- The rounds end, and keep what a round keeps. -/
theorem Refines.rounds_yield (h : Refines signatures n) {I : List ℕ → Prop}
    (hI : ∀ classes, classes.length = n → I classes → I (numbers (signatures classes)))
    {classes : List ℕ} (hlength : classes.length = n) (hstart : I classes) :
    ∃ final, Yields (fun fuel => loop (fun _ classes => some (round signatures classes)) fuel classes)
      final ∧ final.length = n ∧ I final ∧ numbers (signatures final) = final := by
  have hstep : ∀ classes, classes.length = n ∧ I classes →
      Yields (fun _ => some (round signatures classes)) none ∨
      ∃ new, Yields (fun _ => some (round signatures classes)) (some new) ∧
        (new.length = n ∧ I new) ∧ potential new < potential classes := by
    intro classes hclasses
    unfold round
    split_ifs with he
    · exact Or.inl (Yields.const none)
    · exact Or.inr ⟨_, Yields.const _, ⟨h.length_numbers classes, hI classes hclasses.1 hclasses.2⟩,
        h.potential_lt hclasses.1 he⟩
  obtain ⟨final, hy, hfinal, hend⟩ := loop_yields (measure potential).wf hstep ⟨hlength, hstart⟩
  refine ⟨final, hy, hfinal.1, hfinal.2, ?_⟩
  obtain ⟨enough, henough⟩ := hend
  have hnone := Option.some.inj (henough enough le_rfl)
  unfold round at hnone
  split_ifs at hnone with he
  exact he

end PartitionRefinement
