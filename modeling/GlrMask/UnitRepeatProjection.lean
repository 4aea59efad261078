import GlrMask.UnitRepeatRuntime

/-!
# The mask projection of the arithmetic runtime

The positive counts fall into four regions: a deep lower class, exact counts below the
minimum, an interior class of accepted counts, and exact counts up to the maximum. The
projection sends a state to its place in the layout of these regions.
-/

namespace GlrMask

structure VirtualZeroMinUnitRepeatMaskProjection where
  full_min : ℕ
  full_max : ℕ
  full_physical_state_count : ℕ
  mask_state_count : ℕ
  deep_lower_state : ℕ
  lower_start : ℕ
  lower_offset : ℕ
  interior_state : ℕ
  upper_start : ℕ
  upper_offset : ℕ

namespace VirtualZeroMinUnitRepeatMaskProjection

/-- The next state for a class that is there; `u32::MAX` stands for one that is not. -/
def allocate (present : Prop) [Decidable present] (next : ℕ) : Option (ℕ × ℕ) :=
  if present then (checkedAdd next 1).map fun later => (next, later) else some (u32Max, next)

def layout (full_min full_max horizon full_physical_state_count : ℕ) :
    Option VirtualZeroMinUnitRepeatMaskProjection :=
  let lower_start := max (full_min - horizon) 1
  let lower_count := full_min - lower_start
  let accepted_start := max full_min 1
  let upper_start := max (full_max - horizon) accepted_start
  (checkedSub full_max upper_start).bind fun upper_rest =>
    (checkedAdd upper_rest 1).bind fun upper_count =>
      (allocate (1 < lower_start) full_physical_state_count).bind fun deep =>
        (checkedAdd deep.2 lower_count).bind fun lower_end =>
          (allocate (accepted_start < upper_start) lower_end).bind fun interior =>
            (checkedAdd interior.2 upper_count).bind fun next =>
              if next ≤ VIRTUAL_STATE_LIMIT then
                some
                  { full_min, full_max, full_physical_state_count
                    mask_state_count := next
                    deep_lower_state := deep.1
                    lower_start
                    lower_offset := deep.2
                    interior_state := interior.1
                    upper_start
                    upper_offset := interior.2 }
              else none

def new (full_min full_max horizon full_physical_state_count : ℕ) :
    Option VirtualZeroMinUnitRepeatMaskProjection :=
  (tryFromU32 full_min).bind fun full_min =>
    (tryFromU32 full_max).bind fun full_max =>
      (tryFromU32 horizon).bind fun horizon =>
        if full_max < full_min ∨ full_max = 0 then none
        else layout full_min full_max horizon full_physical_state_count

variable (p : VirtualZeroMinUnitRepeatMaskProjection)

def project (full_state : ℕ) : Option ℕ :=
  if full_state < p.full_physical_state_count then some full_state
  else
    (checkedSub full_state p.full_physical_state_count).bind fun offset =>
      (checkedAdd offset 1).bind fun consumed =>
        if p.full_max < consumed then none
        else if consumed < p.full_min then
          if p.deep_lower_state ≠ u32Max ∧ consumed < p.lower_start then some p.deep_lower_state
          else (checkedSub consumed p.lower_start).bind fun place => checkedAdd p.lower_offset place
        else if p.interior_state ≠ u32Max ∧ consumed < p.upper_start then some p.interior_state
        else (checkedSub consumed p.upper_start).bind fun place => checkedAdd p.upper_offset place

/-- A write to a vector; `none` is the panic of an index beyond its end. -/
def writeSlot (slots : List ℕ) (index value : ℕ) : Option (List ℕ) :=
  if index < slots.length then some (slots.set index value) else none

def writeIf (condition : Prop) [Decidable condition] (slots : List ℕ) (index value : ℕ) :
    Option (List ℕ) :=
  if condition then writeSlot slots index value else some slots

def multiplicities : Option (List ℕ) :=
  (writeIf (p.deep_lower_state ≠ u32Max) (List.replicate p.mask_state_count 1) p.deep_lower_state
    (p.lower_start - 1)).bind fun counts =>
      writeIf (p.interior_state ≠ u32Max) counts p.interior_state
        (p.upper_start - max p.full_min 1)

/-- One exact count, at its place behind `offset`; `none` is an overflow. -/
def writeExact (offset start : ℕ) (unique : List ℕ) (consumed : ℕ) : Option (List ℕ) :=
  (checkedAdd offset consumed).bind fun behind =>
    (checkedSub behind start).bind fun mask_state =>
      (checkedAdd p.full_physical_state_count consumed).bind fun full =>
        (checkedSub full 1).bind fun full_state => writeSlot unique mask_state full_state

def physicalSlots : Option (List ℕ) :=
  if p.full_physical_state_count ≤ p.mask_state_count then
    some (List.range p.full_physical_state_count ++
      List.replicate (p.mask_state_count - p.full_physical_state_count) u32Max)
  else none

/-- The interior class, when a single count is in it. -/
def writeInterior (unique : List ℕ) : Option (List ℕ) :=
  if p.interior_state ≠ u32Max ∧ p.upper_start - max p.full_min 1 = 1 then
    (checkedAdd p.full_physical_state_count (max p.full_min 1)).bind fun full =>
      (checkedSub full 1).bind fun full_state => writeSlot unique p.interior_state full_state
  else some unique

def unique_full_states : Option (List ℕ) :=
  p.physicalSlots.bind fun unique =>
    (writeIf (p.deep_lower_state ≠ u32Max ∧ p.lower_start = 2) unique p.deep_lower_state
      p.full_physical_state_count).bind fun unique =>
        ((List.range' p.lower_start (p.full_min - p.lower_start)).foldlM
          (p.writeExact p.lower_offset p.lower_start) unique).bind fun unique =>
            (p.writeInterior unique).bind fun unique =>
              (List.range' p.upper_start (p.full_max + 1 - p.upper_start)).foldlM
                (p.writeExact p.upper_offset p.upper_start) unique

end VirtualZeroMinUnitRepeatMaskProjection

end GlrMask
