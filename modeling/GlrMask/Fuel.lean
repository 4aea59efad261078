import Mathlib.Tactic

/-!
# Loops with fuel

A computation that runs out of fuel has no result. A loop ends when its steps
descend in a well-founded order.
-/

namespace GlrMask

universe u

variable {α β σ : Type*}

/-- From some amount of fuel on, the computation has the result. -/
def Yields (f : ℕ → Option α) (a : α) : Prop := ∃ enough, ∀ fuel, enough ≤ fuel → f fuel = some a

namespace Yields

variable {f : ℕ → Option α} {a : α} {b : β}

theorem const (a : α) : Yields (fun _ => some a) a := ⟨0, fun _ _ => rfl⟩

theorem bind {g : ℕ → α → Option β} (hf : Yields f a) (hg : Yields (fun fuel => g fuel a) b) :
    Yields (fun fuel => (f fuel).bind (g fuel)) b := by
  obtain ⟨m, hm⟩ := hf
  obtain ⟨n, hn⟩ := hg
  refine ⟨max m n, fun fuel hfuel => ?_⟩
  change (f fuel).bind (g fuel) = some b
  rw [hm fuel ((le_max_left m n).trans hfuel), Option.bind_some]
  exact hn fuel ((le_max_right m n).trans hfuel)

theorem map (hf : Yields f a) (g : α → β) : Yields (fun fuel => (f fuel).map g) (g a) := by
  obtain ⟨m, hm⟩ := hf
  exact ⟨m, fun fuel hfuel => congrArg (Option.map g) (hm fuel hfuel)⟩

/-- One more unit of fuel than a computation needs is enough for it. -/
theorem succ {g : ℕ → Option α} (hf : Yields f a) (h : ∀ fuel, g (fuel + 1) = f fuel) :
    Yields g a := by
  obtain ⟨m, hm⟩ := hf
  refine ⟨m + 1, fun fuel hfuel => ?_⟩
  obtain ⟨fuel, rfl⟩ : ∃ n, fuel = n + 1 := ⟨fuel - 1, by omega⟩
  rw [h, hm fuel (by omega)]

end Yields

/-- A fold whose steps keep an invariant of the elements done so far. -/
theorem foldlM_yields {f : ℕ → σ → α → Option σ} {P : List α → σ → Prop} (done : List α)
    {l : List α} {s : σ} (hs : P done s)
    (hstep : ∀ done a s, a ∈ l → P done s →
      ∃ s', Yields (fun fuel => f fuel s a) s' ∧ P (done ++ [a]) s') :
    ∃ s', Yields (fun fuel => l.foldlM (f fuel) s) s' ∧ P (done ++ l) s' := by
  induction l generalizing done s with
  | nil =>
      rw [List.append_nil]
      exact ⟨s, Yields.const s, hs⟩
  | cons a l ih =>
      obtain ⟨s₁, hy₁, h₁⟩ := hstep done a s List.mem_cons_self hs
      obtain ⟨s₂, hy₂, h₂⟩ := ih (done ++ [a]) h₁ fun done b s hb =>
        hstep done b s (List.mem_cons_of_mem _ hb)
      rw [List.append_assoc, List.singleton_append] at h₂
      exact ⟨s₂, hy₁.bind hy₂, h₂⟩

/-! ## Loops -/

/-- Repeat a step until it has no successor. -/
def loop (step : ℕ → σ → Option (Option σ)) : ℕ → σ → Option σ
  | 0, _ => none
  | fuel + 1, s => (step fuel s).bind fun next =>
      match next with
      | none => some s
      | some s' => loop step fuel s'

/-- A loop whose steps keep an invariant and descend in a well-founded order ends. -/
theorem loop_yields {step : ℕ → σ → Option (Option σ)} {r : σ → σ → Prop} (hr : WellFounded r)
    {I : σ → Prop} (hstep : ∀ s, I s → Yields (fun fuel => step fuel s) none ∨
      ∃ s', Yields (fun fuel => step fuel s) (some s') ∧ I s' ∧ r s' s) {s : σ} (hs : I s) :
    ∃ s', Yields (fun fuel => loop step fuel s) s' ∧ I s' ∧
      Yields (fun fuel => step fuel s') none := by
  induction s using hr.induction with
  | _ s ih =>
  rcases hstep s hs with hnone | ⟨s', hsome, hs', hlt⟩
  · refine ⟨s, Yields.succ ?_ (fun fuel => rfl), hs, hnone⟩
    exact hnone.bind (Yields.const s)
  · obtain ⟨t, ht, hI, hend⟩ := ih s' hlt hs'
    refine ⟨t, Yields.succ ?_ (fun fuel => rfl), hI, hend⟩
    exact hsome.bind ht

/-! ## Computations that may give up -/

/-- What holds of the result, if there is one. -/
def Ensures (x : Option α) (Q : α → Prop) : Prop := ∀ a, x = some a → Q a

theorem Ensures.none (Q : α → Prop) : Ensures none Q := fun _ h => by cases h

theorem Ensures.some {a : α} {Q : α → Prop} (h : Q a) : Ensures (some a) Q := by
  intro b hb
  cases hb
  exact h

theorem Ensures.mono {x : Option α} {P Q : α → Prop} (hx : Ensures x P) (h : ∀ a, P a → Q a) :
    Ensures x Q := fun a ha => h a (hx a ha)

theorem Ensures.bind {α β : Type u} {x : Option α} {f : α → Option β} {P : α → Prop} {Q : β → Prop}
    (hx : Ensures x P) (hf : ∀ a, P a → Ensures (f a) Q) : Ensures (x >>= f) Q := by
  intro b hb
  obtain ⟨a, ha, hb⟩ := Option.bind_eq_some_iff.mp hb
  exact hf a (hx a ha) b hb

theorem Ensures.map {x : Option α} {f : α → β} {Q : β → Prop} (hx : Ensures x fun a => Q (f a)) :
    Ensures (x.map f) Q := by
  intro b hb
  obtain ⟨a, ha, rfl⟩ := Option.map_eq_some_iff.mp hb
  exact hx a ha

theorem Ensures.foldlM {σ : Type u} {f : σ → α → Option σ} {P : List α → σ → Prop} (done : List α) {l : List α}
    {s : σ} (hs : P done s)
    (hstep : ∀ done a s, a ∈ l → P done s → Ensures (f s a) fun s' => P (done ++ [a]) s') :
    Ensures (l.foldlM f s) fun s' => P (done ++ l) s' := by
  induction l generalizing done s with
  | nil =>
      rw [List.append_nil]
      exact Ensures.some hs
  | cons a l ih =>
      rw [List.foldlM_cons]
      refine Ensures.bind (hstep done a s List.mem_cons_self hs) fun s' hs' => ?_
      have hrest := ih (done ++ [a]) hs' fun done b s hb =>
        hstep done b s (List.mem_cons_of_mem _ hb)
      rwa [List.append_assoc, List.singleton_append] at hrest

/-- With enough fuel the computation comes to a result or gives up, and its result satisfies the
postcondition. -/
def Attempts (f : ℕ → Option (Option α)) (Q : α → Prop) : Prop := ∃ r, Yields f r ∧ Ensures r Q

/-- Go on unless the computation has given up. -/
def attempt (x : Option (Option α)) (f : α → Option (Option β)) : Option (Option β) :=
  x.bind fun r =>
    match r with
    | none => some none
    | some a => f a

def attemptFold (f : σ → α → Option (Option σ)) : List α → σ → Option (Option σ)
  | [], s => some (some s)
  | a :: l, s => attempt (f s a) (attemptFold f l)

/-- Repeat a step until it gives up or has no successor. -/
def attemptLoop (step : σ → Option (Option σ)) : ℕ → σ → Option (Option σ)
  | 0, _ => none
  | fuel + 1, s =>
      match step s with
      | none => some none
      | some none => some (some s)
      | some (some s') => attemptLoop step fuel s'

/-- A loop whose steps keep an invariant and lower a measure ends or gives up while there is
fuel. -/
theorem attemptLoop_ensures {step : σ → Option (Option σ)} {I Q : σ → Prop} (μ : σ → ℕ)
    (hstep : ∀ s, I s → Ensures (step s) fun next =>
      match next with
      | none => Q s
      | some s' => I s' ∧ μ s' < μ s) {fuel : ℕ} {s : σ} (hs : I s) (hfuel : μ s < fuel) :
    ∃ r, attemptLoop step fuel s = some r ∧ Ensures r Q := by
  induction fuel generalizing s with
  | zero => exact absurd hfuel (Nat.not_lt_zero _)
  | succ fuel ih =>
      have h := hstep s hs
      rw [attemptLoop]
      cases hnext : step s with
      | none => exact ⟨none, rfl, Ensures.none Q⟩
      | some next =>
          have hpost := h next hnext
          cases next with
          | none => exact ⟨some s, rfl, Ensures.some hpost⟩
          | some s' => exact ih hpost.1 (by omega)

/-- A loop whose steps never give up does not give up. -/
theorem attemptLoop_ne_none {step : σ → Option (Option σ)} (hstep : ∀ s, step s ≠ none)
    (fuel : ℕ) (s : σ) : attemptLoop step fuel s ≠ some none := by
  induction fuel generalizing s with
  | zero => exact fun h => by cases h
  | succ fuel ih =>
      rw [attemptLoop]
      cases hnext : step s with
      | none => exact absurd hnext (hstep s)
      | some next =>
          cases next with
          | none => exact fun h => by cases h
          | some s' => exact ih s'

namespace Attempts

theorem of_ensures {x : Option α} {Q : α → Prop} (h : Ensures x Q) : Attempts (fun _ => some x) Q :=
  ⟨x, Yields.const x, h⟩

theorem mono {f : ℕ → Option (Option α)} {P Q : α → Prop} (hf : Attempts f P)
    (h : ∀ a, P a → Q a) : Attempts f Q := by
  obtain ⟨r, hr, hP⟩ := hf
  exact ⟨r, hr, hP.mono h⟩

theorem bind {f : ℕ → Option (Option α)} {g : ℕ → α → Option (Option β)} {P : α → Prop}
    {Q : β → Prop} (hf : Attempts f P) (hg : ∀ a, P a → Attempts (fun fuel => g fuel a) Q) :
    Attempts (fun fuel => attempt (f fuel) (g fuel)) Q := by
  obtain ⟨r, hr, hP⟩ := hf
  cases r with
  | none => exact ⟨none, hr.bind (Yields.const none), Ensures.none Q⟩
  | some a =>
      obtain ⟨r, hr', hQ⟩ := hg a (hP a rfl)
      exact ⟨r, hr.bind hr', hQ⟩

theorem fold {f : ℕ → σ → α → Option (Option σ)} {P : List α → σ → Prop} {l : List α} {s : σ}
    (hs : P [] s) (hstep : ∀ done a rest s, done ++ a :: rest = l → P done s →
      Attempts (fun fuel => f fuel s a) fun s' => P (done ++ [a]) s') :
    Attempts (fun fuel => attemptFold (f fuel) l s) (P l) := by
  suffices h : ∀ (todo done : List α) (s : σ), done ++ todo = l → P done s →
      Attempts (fun fuel => attemptFold (f fuel) todo s) (P l) from h l [] s rfl hs
  intro todo
  induction todo with
  | nil =>
      intro done s hdone hs
      rw [List.append_nil] at hdone
      exact of_ensures (Ensures.some (hdone ▸ hs))
  | cons a todo ih =>
      intro done s hdone hs
      apply (hstep done a todo s hdone hs).bind
      intro s' hs'
      apply ih (done ++ [a]) s' _ hs'
      rw [List.append_assoc, List.singleton_append, hdone]

/-- A loop whose steps keep an invariant and descend in a well-founded order ends or gives up. -/
theorem loop {step : σ → Option (Option σ)} {r : σ → σ → Prop} (hr : WellFounded r)
    {I Q : σ → Prop} (hstep : ∀ s, I s → Ensures (step s) fun next =>
      match next with
      | none => Q s
      | some s' => I s' ∧ r s' s) {s : σ} (hs : I s) :
    Attempts (fun fuel => attemptLoop step fuel s) Q := by
  induction s using hr.induction with
  | _ s ih =>
  have h := hstep s hs
  cases hnext : step s with
  | none =>
      refine ⟨none, Yields.succ (Yields.const none) fun fuel => ?_, Ensures.none Q⟩
      simp only [attemptLoop, hnext]
  | some next =>
      have hpost := h next hnext
      cases next with
      | none =>
          refine ⟨some s, Yields.succ (Yields.const (some s)) fun fuel => ?_, Ensures.some hpost⟩
          simp only [attemptLoop, hnext]
      | some s' =>
          obtain ⟨r, hr, hQ⟩ := ih s' hpost.2 hpost.1
          refine ⟨r, Yields.succ hr fun fuel => ?_, hQ⟩
          simp only [attemptLoop, hnext]

end Attempts

end GlrMask
