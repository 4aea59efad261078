import GlrMask.RuntimeWeightPool

/-!
# What the bytes of a pool list

The bodies of a pool list runs: those of a token set, and those of a weight with the
token sets they refer to. The readers of the listings refuse bytes with an error and
never panic. A decoder panics where a listing can be read and its runs are not in
canonical form.
-/

namespace GlrMask

namespace WeightPool

/-! ## Readers that never panic -/

section Graceful

variable {α β : Type}

/-- Whatever is read, the reader ends with a value or with an error. -/
def Graceful (m : Cursor Failure α) : Prop :=
  ∀ pos failure, m pos = .error failure → ∃ message, failure = .error message

theorem bind_eq_error {m : Cursor Failure α} {f : α → Cursor Failure β} {pos : ℕ}
    {failure : Failure} (h : (m >>= f) pos = .error failure) :
    m pos = .error failure ∨ ∃ a pos', m pos = .ok (a, pos') ∧ f a pos' = .error failure := by
  change (m pos >>= fun p => f p.1 p.2) = .error failure at h
  cases hm : m pos with
  | error failure' =>
      rw [hm] at h
      obtain rfl : failure' = failure := Except.error.inj h
      exact Or.inl rfl
  | ok p =>
      rw [hm] at h
      exact Or.inr ⟨p.1, p.2, rfl, h⟩

theorem eq_error_of_fst {x : Except Failure (α × ℕ)} {failure : Failure}
    (h : (do let decoded ← x; pure decoded.1 : Except Failure α) = .error failure) :
    x = .error failure := by
  cases x with
  | error failure' =>
      obtain rfl : failure' = failure := Except.error.inj h
      rfl
  | ok p => cases h

theorem eq_ok_of_fst {x : Except Failure (α × ℕ)} {a : α}
    (h : (do let decoded ← x; pure decoded.1 : Except Failure α) = .ok a) :
    ∃ pos, x = .ok (a, pos) := by
  cases x with
  | error failure => cases h
  | ok p =>
      obtain rfl : p.1 = a := Except.ok.inj h
      exact ⟨p.2, rfl⟩

theorem Graceful.pure (a : α) : Graceful (pure a : Cursor Failure α) := by
  intro pos failure h
  cases h

theorem Graceful.throw (message : String) :
    Graceful (throw (.error message) : Cursor Failure α) := by
  intro pos failure h
  exact ⟨message, (Except.error.inj h).symm⟩

theorem Graceful.bind {m : Cursor Failure α} {f : α → Cursor Failure β} (hm : Graceful m)
    (hf : ∀ a, Graceful (f a)) : Graceful (m >>= f) := by
  intro pos failure h
  rcases bind_eq_error h with h | h
  · exact hm pos failure h
  · obtain ⟨a, pos', -, h⟩ := h
    exact hf a pos' failure h

theorem graceful_takeByte (input : List UInt8) (message : String) :
    Graceful (takeByte input (Failure.error message)) := by
  intro pos failure h
  unfold takeByte at h
  split at h
  · cases h
  · exact ⟨message, (Except.error.inj h).symm⟩

theorem graceful_takeVar (input : List UInt8) (truncated overflowing : String)
    (last remaining shift value : ℕ) :
    Graceful (takeVar input (.error truncated) (.error overflowing) last remaining shift value) := by
  induction remaining generalizing shift value with
  | zero => exact Graceful.throw overflowing
  | succ remaining ih =>
      apply (graceful_takeByte input truncated).bind
      intro byte
      split_ifs
      · exact Graceful.throw overflowing
      · exact Graceful.pure _
      · exact ih _ _

theorem graceful_take_var_u32 (input : List UInt8) : Graceful (take_var_u32 input) := by
  unfold take_var_u32
  apply graceful_takeVar

theorem graceful_take_var_u64 (input : List UInt8) : Graceful (take_var_u64 input) := by
  unfold take_var_u64
  apply graceful_takeVar

theorem graceful_take_run (input : List UInt8) (errors : RangeErrors) {item : Cursor Failure α}
    (hitem : Graceful item) (prev : ℕ) : Graceful (take_run input errors item prev) := by
  apply (graceful_take_var_u64 input).bind
  intro gap
  dsimp only
  split_ifs
  · exact Graceful.throw _
  · exact Graceful.throw _
  · apply (graceful_take_var_u32 input).bind
    intro len
    split_ifs
    · exact Graceful.throw _
    · apply hitem.bind
      intro val
      exact Graceful.pure _

theorem graceful_take_runs (input : List UInt8) (errors : RangeErrors) {item : Cursor Failure α}
    (hitem : Graceful item) (count prev : ℕ) :
    Graceful (take_runs input errors item count prev) := by
  induction count generalizing prev with
  | zero => exact Graceful.pure []
  | succ count ih =>
      apply (graceful_take_run input errors hitem prev).bind
      intro run
      apply (ih _).bind
      intro runs
      exact Graceful.pure _

theorem graceful_expect_end (input : List UInt8) (message : String) :
    Graceful (expect_end input message) := by
  intro pos failure h
  unfold expect_end at h
  split_ifs at h
  exact ⟨message, (Except.error.inj h).symm⟩

theorem graceful_take_span (input : List UInt8) (label : String) :
    Graceful (take_span input label) := by
  apply (graceful_take_var_u32 input).bind
  intro len pos failure h
  dsimp only at h
  split at h
  · cases h
  · exact ⟨_, (Except.error.inj h).symm⟩

theorem graceful_take_each {item : Cursor Failure α} (hitem : Graceful item) (count : ℕ) :
    Graceful (take_each item count) := by
  induction count with
  | zero => exact Graceful.pure []
  | succ count ih =>
      apply hitem.bind
      intro val
      apply ih.bind
      intro vals
      exact Graceful.pure _

end Graceful

/-! ## The listings -/

/-- The runs of the body of a token set. -/
def listed_token_set (body : List UInt8) : Except Failure (List (Run Unit)) := do
  let decoded ← (do
    let runs ← take_token_ranges body
    expect_end body "trailing bytes in packed token set"
    pure runs : Cursor Failure (List (Run Unit))) 0
  pure decoded.1

/-- The runs of the body of a weight. -/
def listed_weight (token_sets : List TokenSet) (body : List UInt8) :
    Except Failure (List (Run TokenSet)) := do
  let decoded ← take_tagged body (take_full body) (take_entries_v3 body token_sets) 0
  pure decoded.1

theorem graceful_take_token_set (input : List UInt8) (token_sets : List TokenSet) :
    Graceful (take_token_set input token_sets) := by
  apply (graceful_take_var_u32 input).bind
  intro token_set_idx
  split
  · exact Graceful.pure _
  · exact Graceful.throw _

theorem listed_token_set_graceful {body : List UInt8} {failure : Failure}
    (h : listed_token_set body = .error failure) : ∃ message, failure = .error message := by
  have hread : Graceful (do
      let runs ← take_token_ranges body
      expect_end body "trailing bytes in packed token set"
      pure runs : Cursor Failure (List (Run Unit))) := by
    apply Graceful.bind
    · apply (graceful_take_var_u32 body).bind
      intro count
      exact graceful_take_runs body _ (Graceful.pure ()) count 0
    · intro runs
      apply (graceful_expect_end body _).bind
      intro _
      exact Graceful.pure runs
  exact hread 0 failure (eq_error_of_fst h)

theorem graceful_take_tagged {body : List UInt8} {full entries : Cursor Failure (List (Run TokenSet))}
    (hfull : Graceful full) (hentries : Graceful entries) :
    Graceful (take_tagged body full entries) := by
  apply (graceful_takeByte body _).bind
  intro tag
  split_ifs
  · exact hfull
  · exact hentries
  · exact Graceful.throw _

theorem graceful_take_entries_v3 (body : List UInt8) (token_sets : List TokenSet) :
    Graceful (take_entries_v3 body token_sets) := by
  apply (graceful_take_var_u32 body).bind
  intro entry_count
  split_ifs
  · apply (graceful_expect_end body _).bind
    intro _
    exact Graceful.pure _
  · apply (graceful_take_runs body _ (graceful_take_token_set body token_sets) _ 0).bind
    intro runs
    apply (graceful_expect_end body _).bind
    intro _
    exact Graceful.pure _

theorem listed_weight_graceful {token_sets : List TokenSet} {body : List UInt8} {failure : Failure}
    (h : listed_weight token_sets body = .error failure) :
    ∃ message, failure = .error message := by
  have hfull : Graceful (take_full body) := by
    apply (graceful_expect_end body _).bind
    intro _
    exact Graceful.pure _
  exact graceful_take_tagged hfull (graceful_take_entries_v3 body token_sets) 0 failure
    (eq_error_of_fst h)

/-! ## What is listed -/

theorem low_bits_le (byte : UInt8) : (byte &&& 0x7f).toNat ≤ byte.toNat ∧ (byte &&& 0x7f).toNat ≤ 127 := by
  rw [UInt8.toNat_and]
  exact ⟨Nat.and_le_left, Nat.and_le_right⟩

/-- A number has no more bits than its bytes have room for. -/
theorem takeVar_lt {input : List UInt8} {truncated overflowing : Failure}
    {last remaining shift value n pos pos' : ℕ}
    (h : takeVar input truncated overflowing last (remaining + 1) shift value pos = .ok (n, pos'))
    (hvalue : value < 2 ^ shift) : n < (last + 1) * 2 ^ (7 * remaining) * 2 ^ shift := by
  induction remaining generalizing shift value pos with
  | zero =>
      obtain ⟨byte, pos₁, -, h⟩ := bind_eq_ok h
      split_ifs at h with hlast hdone
      · cases h
      · obtain ⟨rfl, -⟩ := Prod.mk.inj (Except.ok.inj h)
        have hbits := (low_bits_le byte).1
        have hle : byte.toNat ≤ last := Nat.le_of_not_lt fun hlt => hlast ⟨rfl, hlt⟩
        have hmul : ((byte &&& 0x7f).toNat + 1) * 2 ^ shift ≤ (last + 1) * 2 ^ shift := by
          apply Nat.mul_le_mul_right
          omega
        rw [or_shiftLeft hvalue, Nat.mul_zero, pow_zero, Nat.mul_one]
        rw [Nat.add_mul, Nat.one_mul] at hmul
        omega
      · cases h
  | succ remaining ih =>
      obtain ⟨byte, pos₁, -, h⟩ := bind_eq_ok h
      have hbits := (low_bits_le byte).2
      have hnext : value ||| ((byte &&& 0x7f).toNat <<< shift) < 2 ^ (shift + 7) := by
        have hmul := Nat.mul_le_mul_right (2 ^ shift) hbits
        rw [or_shiftLeft hvalue, pow_add]
        omega
      have hroom : (last + 1) * 2 ^ (7 * (remaining + 1)) * 2 ^ shift =
          (last + 1) * 2 ^ (7 * remaining) * 2 ^ (shift + 7) := by ring
      rw [hroom]
      rw [if_neg fun hlast => Nat.succ_ne_zero remaining hlast.1] at h
      split_ifs at h with hdone
      · obtain ⟨rfl, -⟩ := Prod.mk.inj (Except.ok.inj h)
        have hone : 1 ≤ (last + 1) * 2 ^ (7 * remaining) := Nat.mul_pos (Nat.succ_pos _) (by positivity)
        have hmul := Nat.mul_le_mul_right (2 ^ (shift + 7)) hone
        omega
      · exact ih h hnext

theorem take_var_u32_le {input : List UInt8} {n pos pos' : ℕ}
    (h : take_var_u32 input pos = .ok (n, pos')) : n ≤ u32Max := by
  have hlt := takeVar_lt h (by decide)
  unfold u32Max
  omega

/-- A framed body has a length of `u32` and stands behind it. -/
theorem take_span_eq_ok {input : List UInt8} {label : String} {pos pos' : ℕ}
    {span : ℕ × List UInt8} (h : take_span input label pos = .ok (span, pos')) :
    span.2.length ≤ u32Max ∧ slice input span.1 span.2.length = some span.2 := by
  obtain ⟨len, pos₁, hlen, h⟩ := bind_eq_ok h
  cases hslice : slice input pos₁ len with
  | none => simp only [hslice, reduceCtorEq] at h
  | some body =>
      simp only [hslice] at h
      obtain ⟨rfl, -⟩ := Prod.mk.inj (Except.ok.inj h)
      have hlength : body.length = len := by
        unfold slice at hslice
        split_ifs at hslice with hle
        obtain rfl := Option.some.inj hslice
        rw [List.length_take, List.length_drop]
        omega
      simp only [hlength]
      exact ⟨take_var_u32_le hlen, hslice⟩

section Runs

variable {V W : Type} {input : List UInt8} {errors : RangeErrors} {item : Cursor Failure V}

theorem take_run_ok {prev pos pos' : ℕ} {run : Run V}
    (h : take_run input errors item prev pos = .ok (run, pos')) :
    prev ≤ run.lo ∧ run.lo ≤ run.hi ∧ run.hi ≤ u32Max := by
  obtain ⟨gap, pos₁, -, h⟩ := bind_eq_ok h
  dsimp only at h
  split_ifs at h
  · cases h
  · cases h
  · obtain ⟨len, pos₂, -, h⟩ := bind_eq_ok h
    split_ifs at h with hstop
    · cases h
    · obtain ⟨val, pos₃, -, h⟩ := bind_eq_ok h
      obtain ⟨rfl, -⟩ := Prod.mk.inj (Except.ok.inj h)
      refine ⟨Nat.le_add_right _ _, Nat.le_add_right _ _, ?_⟩
      unfold u32Max
      simp only
      omega

/-- As many runs as the count says, in order. -/
theorem take_runs_ok {count prev pos pos' : ℕ} {runs : List (Run V)}
    (h : take_runs input errors item count prev pos = .ok (runs, pos')) :
    runs.length = count ∧ RunsFrom prev runs := by
  induction count generalizing prev pos pos' runs with
  | zero =>
      obtain ⟨rfl, -⟩ := Prod.mk.inj (Except.ok.inj h)
      exact ⟨rfl, by simp [Ordered], by simp, by simp⟩
  | succ count ih =>
      obtain ⟨run, pos₁, hrun, hrest⟩ := bind_eq_ok h
      obtain ⟨rest, pos₂, hruns, hpure⟩ := bind_eq_ok hrest
      obtain ⟨rfl, -⟩ := Prod.mk.inj (Except.ok.inj hpure)
      obtain ⟨hlen, hfrom⟩ := ih hruns
      obtain ⟨hprev, hle, hmax⟩ := take_run_ok hrun
      refine ⟨congrArg Nat.succ hlen, ⟨?_, ?_⟩, ?_, ?_⟩
      · intro r hr
        rcases List.mem_cons.mp hr with rfl | hr
        · exact hle
        · exact hfrom.ordered.1 r hr
      · exact List.pairwise_cons.mpr ⟨fun r hr => hfrom.from_lo r hr, hfrom.ordered.2⟩
      · intro r hr
        rcases List.mem_cons.mp hr with rfl | hr
        · exact hprev
        · have := hfrom.from_lo r hr
          omega
      · intro r hr
        rcases List.mem_cons.mp hr with rfl | hr
        · exact hmax
        · exact hfrom.bounded r hr

theorem from_sorted_disjoint_panic [DecidableEq V] {runs : List (Run V)} (h : ¬ Canonical runs) :
    from_sorted_disjoint runs = .error (.panic "ranges must be sorted and disjoint") :=
  dif_neg fun hruns => h hruns.1

end Runs

end WeightPool

end GlrMask
