import Mathlib.Data.Finset.Card
import Mathlib.Tactic

/-!
# Residual languages of deterministic systems

A word from a state is accepted when its path exists and ends in an accepting
state. States that are reached by words and accept different residual languages
need as many states in any other system with the same language.
-/

namespace GlrMask

variable {S T A : Type*}

/-- A deterministic system whose steps may be missing. -/
structure PartialSystem (S A : Type*) where
  step : S → A → Option S
  accepting : S → Bool

namespace PartialSystem

def run (M : PartialSystem S A) : S → List A → Option S
  | s, [] => some s
  | s, a :: word => (M.step s a).bind fun t => M.run t word

def accepts (M : PartialSystem S A) (s : S) (word : List A) : Bool :=
  match M.run s word with
  | some t => M.accepting t
  | none => false

variable {M : PartialSystem S A}

@[simp] theorem accepts_nil (s : S) : M.accepts s [] = M.accepting s := rfl

theorem accepts_iff {s : S} {word : List A} :
    M.accepts s word = true ↔ ∃ t, M.run s word = some t ∧ M.accepting t = true := by
  rw [accepts]
  cases M.run s word with
  | none => simp
  | some t => simp

theorem accepts_cons (s : S) (a : A) (word : List A) :
    M.accepts s (a :: word) =
      match M.step s a with
      | some t => M.accepts t word
      | none => false := by
  simp only [accepts, run]
  cases M.step s a <;> rfl

/-- Related states have related runs, when both have related steps for a letter or both have none. -/
theorem run_rel {N : PartialSystem T A} {r : S → T → Prop}
    (hstep : ∀ s t a, r s t → Option.Rel r (M.step s a) (N.step t a)) {s : S} {t : T} (h : r s t)
    (word : List A) : Option.Rel r (M.run s word) (N.run t word) := by
  induction word generalizing s t with
  | nil => exact Option.Rel.some h
  | cons a word ih =>
      rw [run, run]
      have hrel := hstep s t a h
      generalize M.step s a = s' at hrel ⊢
      generalize N.step t a = t' at hrel ⊢
      cases hrel with
      | some hr => exact ih hr
      | none => exact Option.Rel.none

/-- If they also accept the empty word alike, they accept the same words. -/
theorem accepts_eq_of_related {N : PartialSystem T A} {r : S → T → Prop}
    (haccepting : ∀ s t, r s t → M.accepting s = N.accepting t)
    (hstep : ∀ s t a, r s t → Option.Rel r (M.step s a) (N.step t a)) {s : S} {t : T} (h : r s t)
    (word : List A) : M.accepts s word = N.accepts t word := by
  have hrun := run_rel hstep h word
  unfold accepts
  generalize M.run s word = s' at hrun ⊢
  generalize N.run t word = t' at hrun ⊢
  cases hrun with
  | some hr => exact haccepting _ _ hr
  | none => rfl

theorem run_append (s : S) (u v : List A) :
    M.run s (u ++ v) = (M.run s u).bind fun t => M.run t v := by
  induction u generalizing s with
  | nil => rfl
  | cons a u ih =>
      simp only [List.cons_append, run]
      cases M.step s a with
      | none => rfl
      | some t => exact ih t

theorem accepts_append {s t : S} {u : List A} (h : M.run s u = some t) (v : List A) :
    M.accepts s (u ++ v) = M.accepts t v := by
  simp only [accepts, run_append, h, Option.bind_some]

/-- A state with an accepted continuation exists at the end of every word that leads there. -/
theorem exists_run_of_accepts {s : S} {u v : List A} (h : M.accepts s (u ++ v) = true) :
    ∃ t, M.run s u = some t ∧ M.accepts t v = true := by
  cases hrun : M.run s u with
  | none => simp [accepts, run_append, hrun] at h
  | some t => exact ⟨t, rfl, accepts_append hrun v ▸ h⟩

/-- Words over the letters that satisfy `allowed` tell apart the states in `U`, so a system
that accepts the same of these words has at least as many states. -/
theorem card_le_of_residuals (M : PartialSystem S A) (N : PartialSystem T A) (allowed : A → Prop)
    (s₀ : S) (t₀ : T) (U : Finset S) (V : Finset T)
    (hlang : ∀ w, (∀ a ∈ w, allowed a) → M.accepts s₀ w = N.accepts t₀ w)
    (hreach : ∀ s ∈ U, ∃ u, (∀ a ∈ u, allowed a) ∧ M.run s₀ u = some s)
    (hdistinct : ∀ s ∈ U, ∀ s' ∈ U,
      (∀ w, (∀ a ∈ w, allowed a) → M.accepts s w = M.accepts s' w) → s = s')
    (halive : ∀ s ∈ U, s = s₀ ∨ ∃ w, (∀ a ∈ w, allowed a) ∧ M.accepts s w = true)
    (hstart : t₀ ∈ V) (hV : ∀ t w, N.accepts t w = true → t ∈ V) :
    U.card ≤ V.card := by
  have hres : ∀ s ∈ U, ∃ t ∈ V, ∀ w, (∀ a ∈ w, allowed a) → N.accepts t w = M.accepts s w := by
    intro s hs
    rcases halive s hs with rfl | ⟨v, hv, hacc⟩
    · exact ⟨t₀, hstart, fun w hw => (hlang w hw).symm⟩
    · obtain ⟨u, hu, hrun⟩ := hreach s hs
      have hall : ∀ w, (∀ a ∈ w, allowed a) → ∀ a ∈ u ++ w, allowed a := fun w hw a ha =>
        (List.mem_append.mp ha).elim (hu a) (hw a)
      have huv : N.accepts t₀ (u ++ v) = true := by
        rw [← hlang _ (hall v hv), accepts_append hrun, hacc]
      obtain ⟨t, ht, htv⟩ := exists_run_of_accepts huv
      refine ⟨t, hV t v htv, fun w hw => ?_⟩
      rw [← accepts_append ht, ← hlang _ (hall w hw), accepts_append hrun]
  have : Nonempty T := ⟨t₀⟩
  choose! f hf hlangf using hres
  apply Finset.card_le_card_of_injOn f hf
  intro s hs s' hs' he
  apply hdistinct s hs s' hs'
  intro w hw
  rw [← hlangf s hs w hw, ← hlangf s' hs' w hw, he]

end PartialSystem

end GlrMask
