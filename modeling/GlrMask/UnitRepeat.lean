import GlrMask.LexerExpr
import GlrMask.WeightBuilder

/-!
# Arithmetic unit repetitions

A bounded repetition of a body that consumes one byte, run without materialised states:
the reset state is physical, and the state after a positive number of bytes is the
number itself, encoded behind the physical states.
-/

namespace GlrMask

/-- The high bit of a raw tokenizer state is reserved. -/
def VIRTUAL_STATE_LIMIT : ℕ := 2 ^ 31

def tryFromU32 (n : ℕ) : Option ℕ := if n ≤ u32Max then some n else none

def checkedSub (a b : ℕ) : Option ℕ := if b ≤ a then some (a - b) else none

def virtual_unit_repeat_state_ids_fit (max physical_state_count : ℕ) : Bool :=
  match tryFromU32 max with
  | none => false
  | some virtual_count =>
      decide (0 < physical_state_count) && decide (physical_state_count < VIRTUAL_STATE_LIMIT) &&
        (checkedAdd physical_state_count virtual_count).any fun last => last ≤ VIRTUAL_STATE_LIMIT

structure VirtualZeroMinUnitRepeatRuntime where
  body : U8Set
  min : ℕ
  max : ℕ
  physical_state_count : ℕ
  root_state : ℕ
  terminal : ℕ
  accepting : Finset ℕ
  live : Finset ℕ
  dead : Finset ℕ
  accepting_list : List ℕ

namespace VirtualZeroMinUnitRepeatRuntime

def new (body : U8Set) (min max terminal num_terminals physical_state_count root_state : ℕ) :
    Option VirtualZeroMinUnitRepeatRuntime :=
  if body.is_empty || max == 0 || decide (max < min) || physical_state_count == 0 ||
      decide (physical_state_count ≤ root_state) ||
      !virtual_unit_repeat_state_ids_fit max physical_state_count ||
      decide (num_terminals ≤ terminal) then none
  else
    some
      { body, min, max, physical_state_count, root_state, terminal
        accepting := {terminal}
        live := {terminal}
        dead := ∅
        accepting_list := [terminal] }

variable (r : VirtualZeroMinUnitRepeatRuntime)

def consumed (state : ℕ) : Option ℕ :=
  if state = r.root_state then some 0
  else if state < r.physical_state_count then none
  else
    (checkedSub state r.physical_state_count).bind fun index =>
      if index < r.max then some (index + 1) else none

def encode_positive (consumed : ℕ) : Option ℕ :=
  if consumed = 0 ∨ r.max < consumed then none
  else
    (tryFromU32 (consumed - 1)).bind fun index =>
      (checkedAdd r.physical_state_count index).bind fun id =>
        if id < VIRTUAL_STATE_LIMIT then some id else none

def step (state : ℕ) (byte : Byte) : Option ℕ :=
  (r.consumed state).bind fun consumed =>
    if r.max ≤ consumed ∨ byte ∉ r.body then none else r.encode_positive (consumed + 1)

def is_virtual_state (state : ℕ) : Bool :=
  decide (r.physical_state_count ≤ state) && (r.consumed state).isSome

def handles_state (state : ℕ) : Bool := state == r.root_state || r.is_virtual_state state

def accepts (state : ℕ) : Bool := (r.consumed state).any fun consumed => r.min ≤ consumed

def finalizers (state : ℕ) : Option (Finset ℕ) :=
  if r.physical_state_count ≤ state then
    some (if r.accepts state then r.accepting else r.dead)
  else none

def finalizer_list (state : ℕ) : Option (List ℕ) :=
  if r.physical_state_count ≤ state then
    some (if r.accepts state then r.accepting_list else [])
  else none

def futures (state : ℕ) : Option (Finset ℕ) :=
  if state ≠ r.root_state ∧ state < r.physical_state_count then none
  else
    match r.consumed state with
    | none => some r.dead
    | some consumed => some (if consumed < r.max then r.live else r.dead)

def transition_target (state : ℕ) : Option ℕ :=
  (r.consumed state).bind fun consumed =>
    if consumed < r.max then r.encode_positive (consumed + 1) else none

/-- The state after a byte string. -/
def run (state : ℕ) : List Byte → Option ℕ
  | [] => some state
  | byte :: bytes => (r.step state byte).bind fun next => run next bytes

end VirtualZeroMinUnitRepeatRuntime

/-! ## The unrolled automaton -/

/-- The counter of a repetition of one-byte bodies, one state for each number of bytes. -/
structure UnrolledRepeat where
  body : U8Set
  min : ℕ
  max : ℕ
  terminal : ℕ

namespace UnrolledRepeat

variable (u : UnrolledRepeat)

def step (count : ℕ) (byte : Byte) : Option ℕ :=
  if count < u.max ∧ byte ∈ u.body then some (count + 1) else none

def run (count : ℕ) : List Byte → Option ℕ
  | [] => some count
  | byte :: bytes => (u.step count byte).bind fun next => run next bytes

def finalizers (count : ℕ) : Finset ℕ := if u.min ≤ count then {u.terminal} else ∅

/-- The terminals that some further bytes can still complete. -/
def Future (count terminal : ℕ) : Prop :=
  ∃ bytes last, bytes ≠ [] ∧ u.run count bytes = some last ∧ terminal ∈ u.finalizers last

theorem run_eq_some_iff {count last : ℕ} {bytes : List Byte} :
    u.run count bytes = some last ↔
      last = count + bytes.length ∧ (∀ b ∈ bytes, b ∈ u.body) ∧ (bytes = [] ∨ last ≤ u.max) := by
  induction bytes generalizing count with
  | nil => simp [run, eq_comm]
  | cons byte bytes ih =>
      rw [run, step]
      split_ifs with hstep
      · rw [Option.bind_some, ih]
        simp only [List.length_cons, List.mem_cons, forall_eq_or_imp, false_or]
        cases bytes with
        | nil => simp; grind
        | cons next bytes => simp; grind
      · simp only [Option.bind_none, reduceCtorEq, List.length_cons, List.mem_cons,
          forall_eq_or_imp, false_or, false_iff]
        grind

theorem mem_u8Class_pow {body : U8Set} {bytes : List Byte} {n : ℕ} :
    bytes ∈ (Expr.u8Class body).language ^ n ↔ bytes.length = n ∧ ∀ b ∈ bytes, b ∈ body := by
  induction n generalizing bytes with
  | zero =>
      rw [pow_zero, Language.mem_one, List.length_eq_zero_iff]
      constructor
      · intro hnil
        rw [hnil]
        exact ⟨rfl, List.forall_mem_nil _⟩
      · intro hnil
        exact hnil.1
  | succ n ih =>
      rw [pow_succ', Language.mem_mul]
      constructor
      · intro h
        obtain ⟨first, hfirst, rest, hrest, rfl⟩ := h
        obtain ⟨b, hb, rfl⟩ := Expr.mem_u8Class.mp hfirst
        obtain ⟨hlength, hall⟩ := ih.mp hrest
        exact ⟨congrArg Nat.succ hlength, List.forall_mem_cons.mpr ⟨hb, hall⟩⟩
      · intro h
        obtain ⟨hlength, hall⟩ := h
        cases bytes with
        | nil => cases hlength
        | cons b rest =>
            obtain ⟨hb, hrest⟩ := List.forall_mem_cons.mp hall
            exact ⟨[b], Expr.mem_u8Class.mpr ⟨b, hb, rfl⟩, rest,
              ih.mpr ⟨Nat.succ.inj hlength, hrest⟩, rfl⟩

/-- The counter accepts the words of the bounded repetition. -/
theorem accepts_iff {body : U8Set} {min max terminal : ℕ} {bytes : List Byte} :
    (∃ count, (mk body min max terminal).run 0 bytes = some count ∧
      terminal ∈ (mk body min max terminal).finalizers count) ↔
      bytes ∈ (Expr.repeated (Expr.u8Class body) min (some max)).language := by
  have hfinal : ∀ count, terminal ∈ (mk body min max terminal).finalizers count ↔ min ≤ count := by
    intro count
    unfold finalizers
    split_ifs with hmin
    · simp [hmin]
    · simp [hmin]
  rw [Expr.mem_repeated]
  constructor
  · intro h
    obtain ⟨count, hrun, hterminal⟩ := h
    obtain ⟨hcount, hall, hmax⟩ := (mk body min max terminal).run_eq_some_iff.mp hrun
    rw [Nat.zero_add] at hcount
    refine ⟨count, (hfinal count).mp hterminal, ?_, mem_u8Class_pow.mpr ⟨hcount.symm, hall⟩⟩
    intro m hm
    cases hm
    cases hmax with
    | inl hnil =>
        rw [hcount, hnil]
        exact Nat.zero_le _
    | inr hle => exact hle
  · intro h
    obtain ⟨n, hmin, hmax, hmem⟩ := h
    obtain ⟨hlength, hall⟩ := mem_u8Class_pow.mp hmem
    refine ⟨n, ?_, (hfinal n).mpr hmin⟩
    rw [run_eq_some_iff, Nat.zero_add]
    exact ⟨hlength.symm, hall, Or.inr (hmax max rfl)⟩

end UnrolledRepeat

end GlrMask
