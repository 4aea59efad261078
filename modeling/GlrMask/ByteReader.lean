import Mathlib.Data.List.Basic
import Mathlib.Data.Nat.Bitwise
import Mathlib.Tactic

/-!
# Reading bytes from a position

A reader moves a position forward through an input, or fails. What a writer put
at the position determines what the reader returns, whatever bytes come before
and after it.
-/

namespace GlrMask

variable {ε α β : Type}

/-- Read from a position of an input, and move it behind what was read. -/
abbrev Cursor (ε : Type) := StateT ℕ (Except ε)

/-- The bytes stand in the input at the position. -/
def At (input bytes : List UInt8) (pos : ℕ) : Prop := bytes <+: input.drop pos

theorem at_append {input bytes bytes' : List UInt8} {pos : ℕ} :
    At input (bytes ++ bytes') pos ↔ At input bytes pos ∧ At input bytes' (pos + bytes.length) := by
  unfold At
  rw [← List.drop_drop]
  constructor
  · intro h
    obtain ⟨rest, hrest⟩ := h
    rw [← hrest, List.append_assoc]
    exact ⟨List.prefix_append _ _, by simp⟩
  · intro h
    obtain ⟨⟨rest, hrest⟩, h'⟩ := h
    rw [← hrest, List.drop_left] at h'
    rw [← hrest]
    exact (List.prefix_append_right_inj bytes).mpr h'

theorem At.get {input bytes : List UInt8} {byte : UInt8} {pos : ℕ}
    (h : At input (byte :: bytes) pos) : input[pos]? = some byte := by
  obtain ⟨rest, hrest⟩ := h
  have hhead : (input.drop pos)[0]? = some byte := by
    rw [← hrest]
    rfl
  rwa [List.getElem?_drop, Nat.add_zero] at hhead

theorem At.slice {input bytes : List UInt8} {pos : ℕ} (h : At input bytes pos) :
    (input.drop pos).take bytes.length = bytes := by
  obtain ⟨rest, hrest⟩ := h
  rw [← hrest, List.take_left]

theorem At.length_le {input bytes : List UInt8} {pos : ℕ} (h : At input bytes pos)
    (hne : bytes ≠ []) : pos + bytes.length ≤ input.length := by
  have hle := List.IsPrefix.length_le h
  have hpos := List.length_pos_iff.mpr hne
  rw [List.length_drop] at hle
  omega

/-- At every position where the bytes stand the reader returns the value and stops behind them. -/
def Reads (input : List UInt8) (reader : Cursor ε α) (bytes : List UInt8) (value : α) : Prop :=
  ∀ pos, At input bytes pos → reader pos = .ok (value, pos + bytes.length)

namespace Reads

variable {input bytes bytes' : List UInt8}

theorem pure (value : α) : Reads input (pure value : Cursor ε α) [] value := fun _ _ => rfl

theorem bind {reader : Cursor ε α} {next : α → Cursor ε β} {a : α} {b : β}
    (h : Reads input reader bytes a) (h' : Reads input (next a) bytes' b) :
    Reads input (reader >>= next) (bytes ++ bytes') b := by
  intro pos hat
  obtain ⟨hhead, htail⟩ := at_append.mp hat
  change (reader pos >>= fun p => next p.1 p.2) = _
  rw [h pos hhead]
  change next a (pos + bytes.length) = _
  rw [h' _ htail, List.length_append, Nat.add_assoc]

/-- A reader that ends by computing from what the last one read. -/
theorem map {reader : Cursor ε α} {a : α} (h : Reads input reader bytes a) (f : α → β) :
    Reads input (reader >>= fun x => Pure.pure (f x)) bytes (f a) := by
  have hbind := @Reads.bind _ _ _ input bytes [] reader (fun x => Pure.pure (f x)) a (f a) h
    (Reads.pure (f a))
  rwa [List.append_nil] at hbind

/-- What is read does not depend on the name of the position. -/
theorem congr {reader : Cursor ε α} {a : α} (h : Reads input reader bytes a)
    (hbytes : bytes = bytes') : Reads input reader bytes' a := hbytes ▸ h

end Reads

/-! ## Numbers of variable length -/

/-- Seven bits a byte, the lowest first; all bytes but the last have the high bit. -/
def putVar (value : ℕ) : List UInt8 :=
  if value < 0x80 then [UInt8.ofNat value]
  else (UInt8.ofNat value ||| 0x80) :: putVar (value >>> 7)
termination_by value
decreasing_by
  rw [Nat.shiftRight_eq_div_pow]
  omega

def takeByte (input : List UInt8) (truncated : ε) : Cursor ε UInt8 := fun pos =>
  match input[pos]? with
  | some byte => .ok (byte, pos + 1)
  | none => .error truncated

/-- Read at most `remaining` bytes, the last possible one of them at most `last`. -/
def takeVar (input : List UInt8) (truncated overflowing : ε) (last : ℕ) :
    ℕ → ℕ → ℕ → Cursor ε ℕ
  | 0, _, _ => throw overflowing
  | remaining + 1, shift, value => do
      let byte ← takeByte input truncated
      if remaining = 0 ∧ last < byte.toNat then throw overflowing
      else
        let value := value ||| ((byte &&& 0x7f).toNat <<< shift)
        if byte &&& 0x80 = 0 then pure value
        else takeVar input truncated overflowing last remaining (shift + 7) value

theorem putVar_small {value : ℕ} (h : value < 0x80) : putVar value = [UInt8.ofNat value] := by
  rw [putVar, if_pos h]

theorem putVar_ne_nil (value : ℕ) : putVar value ≠ [] := by
  rw [putVar]
  split_ifs <;> simp

theorem reads_takeByte (input : List UInt8) (truncated : ε) (byte : UInt8) :
    Reads input (takeByte input truncated) [byte] byte := by
  intro pos hat
  rw [takeByte, hat.get]
  rfl

theorem low_byte (value : ℕ) (h : value < 0x80) :
    (UInt8.ofNat value).toNat = value ∧ UInt8.ofNat value &&& 0x7f = UInt8.ofNat value ∧
      UInt8.ofNat value &&& 0x80 = 0 := by
  have hall : ∀ i : Fin 128, (UInt8.ofNat i).toNat = i ∧
      UInt8.ofNat i &&& 0x7f = UInt8.ofNat i ∧ UInt8.ofNat i &&& 0x80 = 0 := by
    decide +kernel
  exact hall ⟨value, h⟩

theorem high_byte (value : ℕ) :
    ((UInt8.ofNat value ||| 0x80) &&& 0x7f).toNat = value % 0x80 ∧
      (UInt8.ofNat value ||| 0x80) &&& 0x80 ≠ 0 := by
  have hall : ∀ i : Fin 256, ((UInt8.ofNat i ||| 0x80) &&& 0x7f).toNat = i % 0x80 ∧
      (UInt8.ofNat i ||| 0x80) &&& 0x80 ≠ 0 := by
    decide +kernel
  have hmod : UInt8.ofNat value = UInt8.ofNat (value % 256) := by
    apply UInt8.toNat_inj.mp
    rw [UInt8.toNat_ofNat', UInt8.toNat_ofNat', Nat.mod_mod]
  have hvalue := hall ⟨value % 256, Nat.mod_lt _ (by decide)⟩
  rw [hmod]
  refine ⟨hvalue.1.trans ?_, hvalue.2⟩
  change value % 256 % 128 = value % 128
  omega

/-- The bits that were read and those of the next byte do not overlap. -/
theorem or_shiftLeft {value shift bits : ℕ} (h : value < 2 ^ shift) :
    value ||| (bits <<< shift) = value + bits * 2 ^ shift := by
  rw [Nat.lor_comm, ← Nat.shiftLeft_add_eq_or_of_lt h, Nat.shiftLeft_eq, Nat.add_comm]

/-- A number that the bytes have room for is read back. -/
theorem reads_takeVar (input : List UInt8) (truncated overflowing : ε) {last : ℕ}
    (hlast : last < 0x80) {remaining shift value v : ℕ} (hvalue : value < 2 ^ shift)
    (hv : v < (last + 1) * 0x80 ^ remaining) :
    Reads input (takeVar input truncated overflowing last (remaining + 1) shift value) (putVar v)
      (value + v * 2 ^ shift) := by
  induction remaining generalizing shift value v with
  | zero =>
      rw [pow_zero, mul_one] at hv
      obtain ⟨hnat, hbits, hdone⟩ := low_byte v (by omega)
      rw [putVar, if_pos (by omega)]
      have hread : Reads input (pure (value + v * 2 ^ shift) : Cursor ε ℕ) [] _ := Reads.pure _
      apply (reads_takeByte input truncated (UInt8.ofNat v)).bind
      rw [if_neg (by omega), hbits, if_pos hdone, hnat, or_shiftLeft hvalue]
      exact hread
  | succ remaining ih =>
      rw [putVar]
      split_ifs with hsmall
      · obtain ⟨hnat, hbits, hdone⟩ := low_byte v hsmall
        have hread : Reads input (pure (value + v * 2 ^ shift) : Cursor ε ℕ) [] _ := Reads.pure _
        apply (reads_takeByte input truncated (UInt8.ofNat v)).bind
        rw [if_neg (by omega), hbits, if_pos hdone, hnat, or_shiftLeft hvalue]
        exact hread
      · obtain ⟨hbits, hmore⟩ := high_byte v
        have hbound : value + v % 0x80 * 2 ^ shift < 2 ^ (shift + 7) := by
          have hmod : v % 0x80 ≤ 127 := by omega
          have hmul := Nat.mul_le_mul_right (2 ^ shift) hmod
          rw [pow_add]
          omega
        have hrest : v >>> 7 < (last + 1) * 0x80 ^ remaining := by
          rw [Nat.shiftRight_eq_div_pow]
          apply Nat.div_lt_of_lt_mul
          calc v < (last + 1) * 0x80 ^ (remaining + 1) := hv
            _ = 2 ^ 7 * ((last + 1) * 0x80 ^ remaining) := by ring
        have hsum : value + v * 2 ^ shift =
            value + v % 0x80 * 2 ^ shift + v >>> 7 * 2 ^ (shift + 7) := by
          have hdiv : v = v % 0x80 + 0x80 * (v >>> 7) := by
            rw [Nat.shiftRight_eq_div_pow]
            omega
          calc value + v * 2 ^ shift
              = value + (v % 0x80 + 0x80 * (v >>> 7)) * 2 ^ shift := by rw [← hdiv]
            _ = value + v % 0x80 * 2 ^ shift + v >>> 7 * 2 ^ (shift + 7) := by ring
        have hread := ih hbound hrest
        rw [← hsum] at hread
        apply (reads_takeByte input truncated (UInt8.ofNat v ||| 0x80)).bind
        rw [if_neg (by omega), if_neg hmore, hbits, or_shiftLeft hvalue]
        exact hread

end GlrMask
