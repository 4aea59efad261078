import GlrMask.UnitRepeat

/-!
# The arithmetic runtime is the unrolled automaton

The state of every count is one number below the reserved bit, stepping moves from one
count to the next, and what a state accepts and may still accept is read off its count.
-/

namespace GlrMask

namespace UnrolledRepeat

variable (u : UnrolledRepeat)

/-- Some more bytes complete the terminal exactly below the maximum. -/
theorem future_iff (hbody : u.body.Nonempty) (hmin : u.min ≤ u.max) {count terminal : ℕ}
    (hcount : count ≤ u.max) : u.Future count terminal ↔ count < u.max ∧ terminal = u.terminal := by
  constructor
  · intro h
    obtain ⟨bytes, last, hne, hrun, hterminal⟩ := h
    obtain ⟨hlast, -, hmax⟩ := u.run_eq_some_iff.mp hrun
    have hpos : 0 < bytes.length := List.length_pos_of_ne_nil hne
    have hle : last ≤ u.max := hmax.resolve_left hne
    refine ⟨by omega, ?_⟩
    unfold finalizers at hterminal
    split_ifs at hterminal
    · exact Finset.mem_singleton.mp hterminal
    · exact absurd hterminal (Finset.notMem_empty _)
  · intro h
    obtain ⟨hlt, rfl⟩ := h
    obtain ⟨byte, hbyte⟩ := hbody
    refine ⟨List.replicate (u.max - count) byte, u.max, ?_, ?_, ?_⟩
    · rw [Ne, List.replicate_eq_nil_iff]
      omega
    · rw [run_eq_some_iff, List.length_replicate]
      refine ⟨by omega, ?_, Or.inr le_rfl⟩
      intro b hb
      rw [List.eq_of_mem_replicate hb]
      exact hbyte
    · rw [finalizers, if_pos hmin]
      exact Finset.mem_singleton_self _

end UnrolledRepeat

namespace VirtualZeroMinUnitRepeatRuntime

/-- What the constructor has checked. -/
structure Fits (r : VirtualZeroMinUnitRepeatRuntime) : Prop where
  body : r.body.Nonempty
  max_pos : 0 < r.max
  min_le : r.min ≤ r.max
  root : r.root_state < r.physical_state_count
  ids : r.physical_state_count + r.max ≤ VIRTUAL_STATE_LIMIT
  accepting : r.accepting = {r.terminal}
  live : r.live = {r.terminal}
  dead : r.dead = ∅
  accepting_list : r.accepting_list = [r.terminal]

theorem new_fits {body : U8Set} {min max terminal num_terminals physical_state_count root_state : ℕ}
    {r : VirtualZeroMinUnitRepeatRuntime}
    (h : new body min max terminal num_terminals physical_state_count root_state = some r) :
    r.Fits := by
  unfold new at h
  split_ifs at h with hrefused
  cases h
  simp only [Bool.or_eq_true, not_or, Bool.not_eq_true', Bool.not_eq_false, decide_eq_true_eq,
    beq_iff_eq] at hrefused
  obtain ⟨⟨⟨⟨⟨⟨hbody, hmax⟩, hmin⟩, -⟩, hroot⟩, hids⟩, -⟩ := hrefused
  refine ⟨?_, by simp only; omega, by simp only; omega, by simp only; omega, ?_, rfl, rfl, rfl, rfl⟩
  · rw [Finset.nonempty_iff_ne_empty]
    intro hempty
    have hempty : body = ∅ := hempty
    rw [hempty] at hbody
    exact hbody rfl
  · unfold virtual_unit_repeat_state_ids_fit at hids
    split at hids
    · cases hids
    · rename_i virtual_count hcount
      unfold tryFromU32 at hcount
      split_ifs at hcount
      cases hcount
      obtain ⟨last, hadd, hlast⟩ := (Option.any_eq_true _ _).mp (Bool.and_eq_true_iff.mp hids).2
      rw [← checkedAdd_eq_some hadd] at hlast
      exact of_decide_eq_true hlast

variable {r : VirtualZeroMinUnitRepeatRuntime}

/-- The state of a count. -/
def stateOf (r : VirtualZeroMinUnitRepeatRuntime) (count : ℕ) : ℕ :=
  if count = 0 then r.root_state else r.physical_state_count + (count - 1)

def unrolled (r : VirtualZeroMinUnitRepeatRuntime) : UnrolledRepeat where
  body := r.body
  min := r.min
  max := r.max
  terminal := r.terminal

theorem unrolled_step (r : VirtualZeroMinUnitRepeatRuntime) (count : ℕ) (byte : Byte) :
    r.unrolled.step count byte =
      if count < r.max ∧ byte ∈ r.body then some (count + 1) else none := rfl

theorem unrolled_finalizers (r : VirtualZeroMinUnitRepeatRuntime) (count : ℕ) :
    r.unrolled.finalizers count = if r.min ≤ count then {r.terminal} else ∅ := rfl

theorem new_fields {body : U8Set} {min max terminal num_terminals physical_state_count root_state : ℕ}
    {r : VirtualZeroMinUnitRepeatRuntime}
    (h : new body min max terminal num_terminals physical_state_count root_state = some r) :
    r.unrolled = UnrolledRepeat.mk body min max terminal ∧ r.root_state = root_state ∧
      r.physical_state_count = physical_state_count ∧ r.min = min ∧ r.max = max := by
  unfold new at h
  split_ifs at h
  cases h
  exact ⟨rfl, rfl, rfl, rfl, rfl⟩

theorem Fits.stateOf_lt (h : r.Fits) {count : ℕ} (hcount : count ≤ r.max) :
    r.stateOf count < VIRTUAL_STATE_LIMIT := by
  have hids := h.ids
  have hroot := h.root
  have hmax := h.max_pos
  unfold stateOf
  split_ifs <;> omega

/-- No addition of the encoding overflows. -/
theorem Fits.encode_positive (h : r.Fits) {count : ℕ} (hpos : 0 < count) (hcount : count ≤ r.max) :
    r.encode_positive count = some (r.stateOf count) := by
  have hids := h.ids
  have hlimit : VIRTUAL_STATE_LIMIT ≤ u32Max := by decide
  rw [VirtualZeroMinUnitRepeatRuntime.encode_positive, if_neg (by omega), tryFromU32,
    if_pos (by omega), Option.bind_some, checkedAdd, if_pos (by omega), Option.bind_some,
    if_pos (by omega), stateOf, if_neg (by omega)]

theorem Fits.consumed_stateOf (h : r.Fits) {count : ℕ} (hcount : count ≤ r.max) :
    r.consumed (r.stateOf count) = some count := by
  have hroot := h.root
  unfold consumed stateOf checkedSub
  by_cases hzero : count = 0
  · rw [if_pos hzero, if_pos rfl, hzero]
  · rw [if_neg hzero, if_neg (by omega), if_neg (by omega), if_pos (by omega), Option.bind_some,
      if_pos (by omega)]
    congr 1
    omega

theorem Fits.step_stateOf (h : r.Fits) {count : ℕ} (hcount : count ≤ r.max) (byte : Byte) :
    r.step (r.stateOf count) byte = (r.unrolled.step count byte).map r.stateOf := by
  rw [step, h.consumed_stateOf hcount, Option.bind_some, unrolled_step]
  by_cases hstep : count < r.max ∧ byte ∈ r.body
  · have hgo : ¬(r.max ≤ count ∨ byte ∉ r.body) := by
      rw [not_or, not_le, not_not]
      exact hstep
    rw [if_neg hgo, h.encode_positive (by omega) (by omega), if_pos hstep, Option.map_some]
  · have hrefuse : r.max ≤ count ∨ byte ∉ r.body := by
      by_contra hgo
      rw [not_or, not_le, not_not] at hgo
      exact hstep hgo
    rw [if_pos hrefuse, if_neg hstep, Option.map_none]

theorem Fits.run_stateOf (h : r.Fits) {count : ℕ} (hcount : count ≤ r.max) (bytes : List Byte) :
    r.run (r.stateOf count) bytes = (r.unrolled.run count bytes).map r.stateOf := by
  induction bytes generalizing count with
  | nil => rfl
  | cons byte bytes ih =>
      rw [run, UnrolledRepeat.run, h.step_stateOf hcount, unrolled_step]
      split_ifs with hstep
      · exact ih hstep.1
      · rfl

theorem Fits.accepts_stateOf (h : r.Fits) {count : ℕ} (hcount : count ≤ r.max) :
    r.accepts (r.stateOf count) = decide (r.min ≤ count) := by
  rw [accepts, h.consumed_stateOf hcount]
  rfl

theorem Fits.finalizers_stateOf (h : r.Fits) {count : ℕ} (hpos : 0 < count)
    (hcount : count ≤ r.max) :
    r.finalizers (r.stateOf count) = some (r.unrolled.finalizers count) := by
  rw [finalizers, h.accepts_stateOf hcount, unrolled_finalizers, h.accepting, h.dead,
    if_pos (by rw [stateOf, if_neg (by omega)]; omega)]
  simp only [decide_eq_true_eq]

theorem Fits.finalizer_list_stateOf (h : r.Fits) {count : ℕ} (hpos : 0 < count)
    (hcount : count ≤ r.max) :
    r.finalizer_list (r.stateOf count) =
      some ((r.unrolled.finalizers count).sort (· ≤ ·)) := by
  rw [finalizer_list, h.accepts_stateOf hcount, unrolled_finalizers, h.accepting_list,
    if_pos (by rw [stateOf, if_neg (by omega)]; omega)]
  simp only [decide_eq_true_eq]
  split_ifs
  · rw [Finset.sort_singleton]
  · rw [Finset.sort_empty]

theorem Fits.futures_eq (h : r.Fits) {count : ℕ} (hcount : count ≤ r.max) :
    r.futures (r.stateOf count) = some (if count < r.max then {r.terminal} else ∅) := by
  have hroot := h.root
  have hours : ¬(r.stateOf count ≠ r.root_state ∧ r.stateOf count < r.physical_state_count) := by
    unfold stateOf
    split_ifs
    · simp
    · omega
  rw [futures, if_neg hours, h.consumed_stateOf hcount, h.live, h.dead]

theorem Fits.futures_stateOf (h : r.Fits) {count : ℕ} (hcount : count ≤ r.max) :
    ∃ set, r.futures (r.stateOf count) = some set ∧
      ∀ terminal, terminal ∈ set ↔ r.unrolled.Future count terminal := by
  refine ⟨_, h.futures_eq hcount, ?_⟩
  intro terminal
  rw [r.unrolled.future_iff h.body h.min_le hcount]
  unfold unrolled
  split_ifs with hlt
  · simp [hlt]
  · simp [hlt]

theorem count_le {r : VirtualZeroMinUnitRepeatRuntime} {bytes : List Byte} {count : ℕ}
    (h : r.unrolled.run 0 bytes = some count) : count ≤ r.max ∧ (bytes ≠ [] → 0 < count) := by
  obtain ⟨hlast, -, hmax⟩ := r.unrolled.run_eq_some_iff.mp h
  rw [Nat.zero_add] at hlast
  constructor
  · cases hmax with
    | inl hnil =>
        rw [hlast, hnil]
        exact Nat.zero_le _
    | inr hle => exact hle
  · intro hne
    rw [hlast]
    exact List.length_pos_of_ne_nil hne

end VirtualZeroMinUnitRepeatRuntime

end GlrMask
