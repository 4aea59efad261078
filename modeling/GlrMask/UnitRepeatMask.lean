import GlrMask.UnitRepeatFibres

/-!
# The virtual repetition and its mask

The runtime runs as the unrolled automaton, two states with one projection cannot be told
apart within the horizon, and the tables of the projection are the sizes of its fibres and
the states of its singleton fibres.
-/

namespace GlrMask

namespace VirtualZeroMinUnitRepeatMaskProjection

variable {p : VirtualZeroMinUnitRepeatMaskProjection} {horizon : ℕ}

/-! ## The tables -/

theorem writeIf_eq {condition : Prop} [Decidable condition] {slots : List ℕ} {index : ℕ}
    (value : ℕ) (h : condition → index < slots.length) :
    ∃ written, writeIf condition slots index value = some written ∧
      written.length = slots.length ∧
      ∀ k, written[k]? = if condition ∧ k = index then some value else slots[k]? := by
  unfold writeIf writeSlot
  by_cases hcondition : condition
  · rw [if_pos hcondition, if_pos (h hcondition)]
    refine ⟨_, rfl, List.length_set, ?_⟩
    intro k
    rw [List.getElem?_set]
    by_cases hindex : k = index
    · rw [if_pos hindex.symm, if_pos (h hcondition), if_pos ⟨hcondition, hindex⟩]
    · rw [if_neg (Ne.symm hindex), if_neg fun hboth => hindex hboth.2]
  · rw [if_neg hcondition]
    refine ⟨_, rfl, rfl, ?_⟩
    intro k
    rw [if_neg fun hboth => hcondition hboth.1]

/-- The marked classes lie among the mask states, the deep one first. -/
theorem Layout.marked (h : p.Layout horizon) :
    p.full_physical_state_count ≤ p.lower_offset ∧
      p.lower_offset + (p.full_min - p.lower_start) ≤ p.upper_offset ∧
      p.upper_offset < p.mask_state_count ∧
      (p.deep_lower_state ≠ u32Max →
        p.full_physical_state_count ≤ p.deep_lower_state ∧ p.deep_lower_state < p.lower_offset) ∧
      (p.interior_state ≠ u32Max →
        p.lower_offset + (p.full_min - p.lower_start) = p.interior_state ∧
          p.interior_state < p.upper_offset) ∧
      p.mask_state_count < u32Max := by
  have hdeep := h.deep
  have hinterior := h.interior
  have hcount := h.count
  have hlimit := h.limit
  have hu32 : VIRTUAL_STATE_LIMIT < u32Max := by decide
  refine ⟨by omega, by omega, by omega, ?_, ?_, by omega⟩
  · intro hpresent
    omega
  · intro hpresent
    omega

theorem Layout.multiplicities_eq (h : p.Layout horizon) :
    ∃ counts, p.multiplicities = some counts ∧ counts.length = p.mask_state_count ∧
      (∀ k < p.full_physical_state_count, counts[k]? = some 1) ∧
      ∀ k, p.full_physical_state_count ≤ k → k < p.mask_state_count →
        counts[k]? = some (p.classOf k).2 := by
  obtain ⟨hlower, hupper, hnext, hdeep, hinterior, hu32⟩ := h.marked
  have hdeepIndex : p.deep_lower_state ≠ u32Max →
      p.deep_lower_state < (List.replicate p.mask_state_count 1).length := by
    intro hpresent
    rw [List.length_replicate]
    have hstate := hdeep hpresent
    omega
  obtain ⟨deep, hwriteDeep, hdeepLength, hdeepAt⟩ :=
    writeIf_eq (p.lower_start - 1) hdeepIndex
  rw [List.length_replicate] at hdeepLength
  have hinteriorIndex : p.interior_state ≠ u32Max → p.interior_state < deep.length := by
    intro hpresent
    have hstate := hinterior hpresent
    omega
  obtain ⟨counts, hwriteInterior, hlength, hat⟩ :=
    writeIf_eq (p.upper_start - max p.full_min 1) hinteriorIndex
  refine ⟨counts, ?_, hlength.trans hdeepLength, ?_, ?_⟩
  · rw [multiplicities, hwriteDeep, Option.bind_some, hwriteInterior]
  · intro k hk
    rw [hat, if_neg, hdeepAt, if_neg, List.getElem?_replicate, if_pos (by omega)]
    · intro hboth
      have hstate := hdeep hboth.1
      omega
    · intro hboth
      have hstate := hinterior hboth.1
      omega
  · intro k hk hkcount
    rw [hat, hdeepAt, List.getElem?_replicate, if_pos hkcount]
    unfold classOf
    split_ifs <;> first | rfl | omega

theorem writeExact_eq {offset start consumed : ℕ} {unique : List ℕ} (hpos : 0 < start)
    (hstart : start ≤ consumed) (hoffset : offset + consumed ≤ u32Max)
    (hfull : p.full_physical_state_count + consumed ≤ u32Max)
    (hindex : offset + (consumed - start) < unique.length) :
    p.writeExact offset start unique consumed =
      some (unique.set (offset + (consumed - start))
        (p.full_physical_state_count + consumed - 1)) := by
  unfold writeExact checkedAdd checkedSub writeSlot
  rw [if_pos hoffset, Option.bind_some, if_pos (by omega), Option.bind_some, if_pos hfull,
    Option.bind_some, if_pos (by omega), Option.bind_some, Nat.add_sub_assoc hstart,
    if_pos hindex]

/-- The loop over one exact region fills the region and nothing else. -/
theorem writeExact_range (offset : ℕ) {start : ℕ} (hpos : 0 < start) (unique : List ℕ) (n : ℕ)
    (hoffset : offset + start + n ≤ u32Max + 1)
    (hfull : p.full_physical_state_count + start + n ≤ u32Max + 1)
    (hlength : offset + n ≤ unique.length) :
    ∃ written, (List.range' start n).foldlM (p.writeExact offset start) unique = some written ∧
      written.length = unique.length ∧
      ∀ k, written[k]? = if offset ≤ k ∧ k < offset + n then
        some (p.full_physical_state_count + (k - offset + start) - 1) else unique[k]? := by
  induction n with
  | zero =>
      refine ⟨unique, rfl, rfl, ?_⟩
      intro k
      rw [if_neg (by omega)]
  | succ n ih =>
      obtain ⟨before, hfold, hsame, hat⟩ := ih (by omega) (by omega) (by omega)
      have hwrite : p.writeExact offset start before (start + n) =
          some (before.set (offset + n) (p.full_physical_state_count + (start + n) - 1)) := by
        rw [writeExact_eq hpos (Nat.le_add_right _ _) (by omega) (by omega) (by omega),
          Nat.add_sub_cancel_left]
      refine ⟨before.set (offset + n) (p.full_physical_state_count + (start + n) - 1), ?_,
        List.length_set.trans hsame, ?_⟩
      · rw [List.range'_1_concat, List.foldlM_append, hfold]
        simpa using hwrite
      · intro k
        rw [List.getElem?_set, hat]
        split_ifs <;> first | rfl | (congr 1; omega)

/-- The only full state of a class of one count. -/
def uniqueOf (p : VirtualZeroMinUnitRepeatMaskProjection) (mask_state : ℕ) : ℕ :=
  if (p.classOf mask_state).2 = 1 then
    p.full_physical_state_count + (p.classOf mask_state).1 - 1
  else u32Max

theorem physicalSlots_eq (h : p.full_physical_state_count ≤ p.mask_state_count) :
    ∃ unique, p.physicalSlots = some unique ∧ unique.length = p.mask_state_count ∧
      ∀ k < p.mask_state_count, unique[k]? =
        some (if k < p.full_physical_state_count then k else u32Max) := by
  refine ⟨_, if_pos h, ?_, ?_⟩
  · rw [List.length_append, List.length_range, List.length_replicate, Nat.add_sub_cancel' h]
  · intro k hk
    rw [List.getElem?_append, List.length_range]
    split_ifs with hphysical
    · rw [List.getElem?_range hphysical]
    · rw [List.getElem?_replicate, if_pos (by omega)]

theorem writeInterior_eq (unique : List ℕ)
    (hfull : p.full_physical_state_count + max p.full_min 1 ≤ u32Max)
    (h : p.interior_state ≠ u32Max → p.interior_state < unique.length) :
    ∃ written, p.writeInterior unique = some written ∧ written.length = unique.length ∧
      ∀ k, written[k]? =
        if (p.interior_state ≠ u32Max ∧ p.upper_start - max p.full_min 1 = 1) ∧
            k = p.interior_state then
          some (p.full_physical_state_count + max p.full_min 1 - 1) else unique[k]? := by
  have hpos : 1 ≤ max p.full_min 1 := le_max_right _ _
  have hwrite : p.writeInterior unique =
      writeIf (p.interior_state ≠ u32Max ∧ p.upper_start - max p.full_min 1 = 1) unique
        p.interior_state (p.full_physical_state_count + max p.full_min 1 - 1) := by
    unfold writeInterior writeIf checkedAdd checkedSub
    split_ifs with hsingle
    · rw [Option.bind_some, if_pos (by omega), Option.bind_some]
    · rfl
  rw [hwrite]
  exact writeIf_eq _ fun hsingle => h hsingle.1

theorem Layout.unique_full_states_eq (h : p.Layout horizon)
    (hids : p.full_physical_state_count + p.full_max ≤ VIRTUAL_STATE_LIMIT) :
    ∃ unique, p.unique_full_states = some unique ∧ unique.length = p.mask_state_count ∧
      (∀ k < p.full_physical_state_count, unique[k]? = some k) ∧
      ∀ k, p.full_physical_state_count ≤ k → k < p.mask_state_count →
        unique[k]? = some (p.uniqueOf k) := by
  obtain ⟨hlower, hupper, hnext, hdeep, hinterior, hu32⟩ := h.marked
  obtain ⟨lower_count, accepted_start, hlowerCount, haccepted, hregions, hone, hone', hle, hle'⟩ :=
    h.regions
  have hcount := h.count
  have hlimit := h.limit
  have htop : VIRTUAL_STATE_LIMIT + VIRTUAL_STATE_LIMIT = u32Max + 1 := by decide
  obtain ⟨physical, hphysical, hphysicalLength, hphysicalAt⟩ :=
    physicalSlots_eq (p := p) (by omega)
  have hdeepIndex : p.deep_lower_state ≠ u32Max ∧ p.lower_start = 2 →
      p.deep_lower_state < physical.length := by
    intro hpresent
    have hstate := hdeep hpresent.1
    omega
  obtain ⟨deep, hwriteDeep, hdeepLength, hdeepAt⟩ :=
    writeIf_eq p.full_physical_state_count hdeepIndex
  obtain ⟨exact_lower, hwriteLower, hlowerLength, hlowerAt⟩ :=
    writeExact_range (p := p) p.lower_offset hone deep
      (p.full_min - p.lower_start) (by omega) (by omega) (by omega)
  obtain ⟨interior, hwriteInterior, hinteriorLength, hinteriorAt⟩ :=
    writeInterior_eq (p := p) exact_lower (by omega) (by
      intro hpresent
      have hstate := hinterior hpresent
      omega)
  obtain ⟨unique, hwriteUpper, hupperLength, hupperAt⟩ :=
    writeExact_range (p := p) p.upper_offset (hone'.trans hle) interior
      (p.full_max + 1 - p.upper_start) (by omega) (by omega) (by omega)
  refine ⟨unique, ?_, by omega, ?_, ?_⟩
  · rw [unique_full_states, hphysical, Option.bind_some, hwriteDeep, Option.bind_some, hwriteLower,
      Option.bind_some, hwriteInterior, Option.bind_some, hwriteUpper]
  · intro k hk
    rw [hupperAt, if_neg (by omega), hinteriorAt, if_neg, hlowerAt, if_neg (by omega), hdeepAt,
      if_neg, hphysicalAt k (by omega), if_pos hk]
    · intro hboth
      have hstate := hdeep hboth.1.1
      omega
    · intro hboth
      have hstate := hinterior hboth.1.1
      omega
  · intro k hk hkcount
    rw [hupperAt, hinteriorAt, hlowerAt, hdeepAt, hphysicalAt k hkcount]
    have hdeepClass := h.deep
    have hinteriorClass := h.interior
    unfold uniqueOf classOf
    rw [hlowerCount, haccepted] at *
    clear h hlowerCount haccepted hwriteDeep hwriteLower hwriteInterior hwriteUpper hupperAt
      hinteriorAt hlowerAt hdeepAt hphysicalAt hphysical
    -- the region of the mask state decides which of the loops writes it
    by_cases hisDeep : k = p.deep_lower_state
    · rw [if_pos hisDeep, if_neg (by omega), if_neg (by omega), if_neg (by omega)]
      split_ifs <;> first | rfl | omega
    simp only [hisDeep, and_false, if_false]
    by_cases hisInterior : k = p.interior_state
    · rw [if_pos hisInterior, if_neg (by omega)]
      split_ifs <;> first | rfl | omega
    simp only [hisInterior, and_false, if_false]
    by_cases hisLower : k < p.lower_offset + lower_count
    · rw [if_pos hisLower, if_neg (by omega), if_pos (by omega), if_pos rfl]
    · rw [if_neg hisLower, if_pos (by omega), if_pos rfl]

/-! ## The fibres through the tables -/

theorem Layout.multiplicities_card (h : p.Layout horizon)
    (hids : p.full_physical_state_count + p.full_max ≤ VIRTUAL_STATE_LIMIT) :
    ∃ counts, p.multiplicities = some counts ∧ counts.length = p.mask_state_count ∧
      ∀ k < p.mask_state_count, counts[k]? = some (p.fibre k).card := by
  obtain ⟨counts, hcounts, hlength, hphysical, hvirtual⟩ := h.multiplicities_eq
  refine ⟨counts, hcounts, hlength, ?_⟩
  intro k hk
  rcases Nat.lt_or_ge k p.full_physical_state_count with hbelow | hbehind
  · rw [hphysical k hbelow, h.fibre_physical hids hbelow, Finset.card_singleton]
  · rw [hvirtual k hbehind hk, h.card_fibre hids hbehind hk]

/-- The table holds the preimage of a singleton fibre and `u32::MAX` for every other. -/
theorem Layout.unique_full_states_fibre (h : p.Layout horizon)
    (hids : p.full_physical_state_count + p.full_max ≤ VIRTUAL_STATE_LIMIT) :
    ∃ unique, p.unique_full_states = some unique ∧ unique.length = p.mask_state_count ∧
      ∀ k < p.mask_state_count, (∀ full_state, p.fibre k = {full_state} →
          unique[k]? = some full_state) ∧
        ((p.fibre k).card ≠ 1 → unique[k]? = some u32Max) := by
  obtain ⟨unique, hunique, hlength, hphysical, hvirtual⟩ := h.unique_full_states_eq hids
  refine ⟨unique, hunique, hlength, ?_⟩
  intro k hk
  rcases Nat.lt_or_ge k p.full_physical_state_count with hbelow | hbehind
  · rw [hphysical k hbelow, h.fibre_physical hids hbelow]
    constructor
    · intro full_state hsingle
      rw [Finset.singleton_inj.mp hsingle]
    · intro hcard
      exact absurd (Finset.card_singleton k) hcard
  · rw [hvirtual k hbehind hk, uniqueOf, ← h.card_fibre hids hbehind hk]
    constructor
    · intro full_state hsingle
      have hcard : (p.fibre k).card = 1 := by rw [hsingle, Finset.card_singleton]
      have hmem : full_state ∈ p.fibre k := by
        rw [hsingle]
        exact Finset.mem_singleton_self _
      have hbounds := (h.mem_fibre hids hbehind hk).mp hmem
      rw [← h.card_fibre hids hbehind hk, hcard] at hbounds
      rw [if_pos hcard]
      congr 1
      omega
    · intro hcard
      rw [if_neg hcard]

end VirtualZeroMinUnitRepeatMaskProjection

namespace VirtualZeroMinUnitRepeatRuntime

variable {r : VirtualZeroMinUnitRepeatRuntime}

/-- What is seen after a byte string: that the state survives, what it accepts and what
it may still accept. -/
def observe (r : VirtualZeroMinUnitRepeatRuntime) (state : ℕ) (bytes : List Byte) :
    Option (Option (Finset ℕ) × Option (Finset ℕ)) :=
  (r.run state bytes).map fun last => (r.finalizers last, r.futures last)

/-- What is seen from a positive count. -/
theorem Fits.observe_stateOf (h : r.Fits) {count : ℕ} (hpos : 0 < count) (hcount : count ≤ r.max)
    (bytes : List Byte) :
    r.observe (r.stateOf count) bytes =
      if count + bytes.length ≤ r.max ∧ ∀ b ∈ bytes, b ∈ r.body then
        some (some (if r.min ≤ count + bytes.length then {r.terminal} else ∅),
          some (if count + bytes.length < r.max then {r.terminal} else ∅))
      else none := by
  rw [observe, h.run_stateOf hcount]
  by_cases hreads : count + bytes.length ≤ r.max ∧ ∀ b ∈ bytes, b ∈ r.body
  · obtain ⟨hmax, hbytes⟩ := hreads
    have hrun : r.unrolled.run count bytes = some (count + bytes.length) :=
      r.unrolled.run_eq_some_iff.mpr ⟨rfl, hbytes, Or.inr hmax⟩
    rw [if_pos ⟨hmax, hbytes⟩, hrun, Option.map_some, Option.map_some,
      h.finalizers_stateOf (by omega) hmax, h.futures_eq hmax, unrolled_finalizers]
  · rw [if_neg hreads]
    cases hrun : r.unrolled.run count bytes with
    | none => rfl
    | some last =>
        obtain ⟨hlast, hbytes, hmax⟩ := r.unrolled.run_eq_some_iff.mp hrun
        refine absurd ⟨?_, hbytes⟩ hreads
        cases hmax with
        | inl hnil =>
            rw [hnil]
            exact hcount
        | inr hle =>
            rw [← hlast]
            exact hle

/-- Two states with one projection look the same up to the horizon. -/
theorem Fits.observe_eq_of_project (h : r.Fits) {horizon : ℕ}
    {p : VirtualZeroMinUnitRepeatMaskProjection}
    (hp : VirtualZeroMinUnitRepeatMaskProjection.new r.min r.max horizon r.physical_state_count =
      some p) {left right mask_state : ℕ} (hleft : p.project left = some mask_state)
    (hright : p.project right = some mask_state) {bytes : List Byte}
    (hbytes : bytes.length ≤ horizon) : r.observe left bytes = r.observe right bytes := by
  obtain ⟨hlayout, hmin, hmax, hcount⟩ := VirtualZeroMinUnitRepeatMaskProjection.new_layout hp
  have hids : p.full_physical_state_count + p.full_max ≤ VIRTUAL_STATE_LIMIT := by
    rw [hmax, hcount]
    exact h.ids
  have hminle := h.min_le
  -- the state of a positive count, or a physical state that is its own projection
  have hshape : ∀ {state}, p.project state = some mask_state →
      (state < p.full_physical_state_count ∧ mask_state = state) ∨
        ∃ count, 0 < count ∧ count ≤ r.max ∧ state = r.stateOf count ∧ p.Place count mask_state := by
    intro state hproject
    by_cases hphysical : state < p.full_physical_state_count
    · rw [p.project_physical hphysical] at hproject
      exact Or.inl ⟨hphysical, (Option.some.inj hproject).symm⟩
    · right
      have hrange := p.project_lt hproject
      obtain ⟨count, place, hstate, hpos, hle, hplace, hat⟩ :=
        hlayout.project_behind hids (not_lt.mp hphysical) hrange
      rw [hproject] at hplace
      rw [← Option.some.inj hplace] at hat
      refine ⟨count, hpos, by omega, ?_, hat⟩
      rw [hstate, stateOf, if_neg (by omega), hcount]
  have hapart : ∀ {count}, 0 < count → count ≤ r.max → p.Place count mask_state →
      p.full_physical_state_count ≤ mask_state := by
    intro count hpos hle hplace
    exact (hlayout.place_lt hpos (by omega) hplace).1
  rcases hshape hleft with ⟨hown, hsame⟩ | ⟨c, hc, hcmax, hcstate, hcplace⟩
  · rcases hshape hright with ⟨-, hsame'⟩ | ⟨d, hd, hdmax, -, hdplace⟩
    · rw [← hsame, ← hsame']
    · have hbehind := hapart hd hdmax hdplace
      omega
  · rcases hshape hright with ⟨hown, hsame⟩ | ⟨d, hd, hdmax, hdstate, hdplace⟩
    · have hbehind := hapart hc hcmax hcplace
      omega
    · rw [hcstate, hdstate, h.observe_stateOf hc hcmax, h.observe_stateOf hd hdmax]
      rcases hlayout.same_place hc (by omega) hd hcplace hdplace with heq | hdeep | hinterior
      · rw [heq]
      · simp only [show c + bytes.length ≤ r.max by omega, show d + bytes.length ≤ r.max by omega,
          show ¬r.min ≤ c + bytes.length by omega, show ¬r.min ≤ d + bytes.length by omega,
          show c + bytes.length < r.max by omega, show d + bytes.length < r.max by omega]
      · simp only [show c + bytes.length ≤ r.max by omega, show d + bytes.length ≤ r.max by omega,
          show r.min ≤ c + bytes.length by omega, show r.min ≤ d + bytes.length by omega,
          show c + bytes.length < r.max by omega, show d + bytes.length < r.max by omega]

end VirtualZeroMinUnitRepeatRuntime

/-- The arithmetic runtime survives, accepts and may still accept what the unrolled
automaton does after every byte string that is not empty; at the empty one the reset
state is physical and its own row answers for what it accepts. The ids stay below the
reserved bit, and the mask projection merges no two states within the horizon, with its
tables exact. -/
theorem virtual_repeat_runs_unrolled {body : U8Set}
    {min max terminal num_terminals physical_state_count root_state : ℕ}
    {r : VirtualZeroMinUnitRepeatRuntime}
    (h : VirtualZeroMinUnitRepeatRuntime.new body min max terminal num_terminals
      physical_state_count root_state = some r) :
    (∀ bytes, (∃ count, (UnrolledRepeat.mk body min max terminal).run 0 bytes = some count ∧
        terminal ∈ (UnrolledRepeat.mk body min max terminal).finalizers count) ↔
      bytes ∈ (Expr.repeated (Expr.u8Class body) min (some max)).language) ∧
    (∀ bytes, r.run root_state bytes =
      ((UnrolledRepeat.mk body min max terminal).run 0 bytes).map r.stateOf) ∧
    (∀ bytes count, (UnrolledRepeat.mk body min max terminal).run 0 bytes = some count →
      (bytes ≠ [] →
        r.finalizers (r.stateOf count) =
            some ((UnrolledRepeat.mk body min max terminal).finalizers count) ∧
          r.finalizer_list (r.stateOf count) =
            some (((UnrolledRepeat.mk body min max terminal).finalizers count).sort (· ≤ ·))) ∧
      (bytes = [] → r.stateOf count = root_state ∧ r.finalizers root_state = none) ∧
      ∃ set, r.futures (r.stateOf count) = some set ∧ ∀ other, other ∈ set ↔
        (UnrolledRepeat.mk body min max terminal).Future count other) ∧
    (∀ count, 0 < count → count ≤ max →
      r.encode_positive count = some (physical_state_count + (count - 1)) ∧
        physical_state_count + (count - 1) < VIRTUAL_STATE_LIMIT) ∧
    ∀ horizon p,
      VirtualZeroMinUnitRepeatMaskProjection.new min max horizon physical_state_count = some p →
      (∀ full_state < physical_state_count + max,
        ∃ mask_state < p.mask_state_count, p.project full_state = some mask_state) ∧
      (∀ left right mask_state, p.project left = some mask_state →
        p.project right = some mask_state → ∀ bytes : List Byte, bytes.length ≤ horizon →
          r.observe left bytes = r.observe right bytes) ∧
      (∃ counts, p.multiplicities = some counts ∧ counts.length = p.mask_state_count ∧
        ∀ k < p.mask_state_count, counts[k]? = some (p.fibre k).card) ∧
      ∃ unique, p.unique_full_states = some unique ∧ unique.length = p.mask_state_count ∧
        ∀ k < p.mask_state_count, (∀ full_state, p.fibre k = {full_state} →
            unique[k]? = some full_state) ∧
          ((p.fibre k).card ≠ 1 → unique[k]? = some u32Max) := by
  have hfits := VirtualZeroMinUnitRepeatRuntime.new_fits h
  obtain ⟨hunrolled, hroot, hphysical, hminimum, hmaximum⟩ :=
    VirtualZeroMinUnitRepeatRuntime.new_fields h
  rw [← hunrolled, ← hroot, ← hphysical]
  refine ⟨?_, ?_, ?_, ?_, ?_⟩
  · intro bytes
    rw [hunrolled]
    exact UnrolledRepeat.accepts_iff
  · exact hfits.run_stateOf (Nat.zero_le _)
  · intro bytes count hrun
    obtain ⟨hcount, hpos⟩ := VirtualZeroMinUnitRepeatRuntime.count_le hrun
    refine ⟨?_, ?_, hfits.futures_stateOf hcount⟩
    · intro hne
      exact ⟨hfits.finalizers_stateOf (hpos hne) hcount,
        hfits.finalizer_list_stateOf (hpos hne) hcount⟩
    · intro hnil
      rw [hnil] at hrun
      cases hrun
      exact ⟨rfl, if_neg (not_le.mpr hfits.root)⟩
  · intro count hpos hle
    have hle : count ≤ r.max := by rw [hmaximum]; exact hle
    have hstate : r.stateOf count = r.physical_state_count + (count - 1) := by
      rw [VirtualZeroMinUnitRepeatRuntime.stateOf, if_neg (by omega)]
    rw [← hstate]
    exact ⟨hfits.encode_positive hpos hle, hfits.stateOf_lt hle⟩
  · intro horizon p hp
    rw [← hminimum, ← hmaximum] at hp
    obtain ⟨hlayout, -, hmax, hcount⟩ := VirtualZeroMinUnitRepeatMaskProjection.new_layout hp
    have hids : p.full_physical_state_count + p.full_max ≤ VIRTUAL_STATE_LIMIT := by
      rw [hmax, hcount]
      exact hfits.ids
    refine ⟨?_, ?_, hlayout.multiplicities_card hids, hlayout.unique_full_states_fibre hids⟩
    · intro full_state hfull
      exact hlayout.project_total hids (by rw [hmax, hcount, hmaximum]; exact hfull)
    · intro left right mask_state hleft hright bytes hbytes
      exact hfits.observe_eq_of_project hp hleft hright hbytes

theorem virtual_repeat_runs_unrolled_two_to_five :
    ∃ r p counts, VirtualZeroMinUnitRepeatRuntime.new {97} 2 5 0 1 1 0 = some r ∧
      VirtualZeroMinUnitRepeatMaskProjection.new 2 5 1 1 = some p ∧
      r.run 0 [97, 97] = some 2 ∧ p.multiplicities = some counts ∧
      ∀ k < p.mask_state_count, counts[k]? = some (p.fibre k).card := by
  have hnew : VirtualZeroMinUnitRepeatRuntime.new {97} 2 5 0 1 1 0 =
      some ⟨{97}, 2, 5, 1, 0, 0, {0}, {0}, ∅, [0]⟩ := rfl
  have hproject : VirtualZeroMinUnitRepeatMaskProjection.new 2 5 1 1 =
      some ⟨2, 5, 1, 5, u32Max, 1, 1, 2, 4, 3⟩ := rfl
  obtain ⟨-, hrun, -, -, hmask⟩ := virtual_repeat_runs_unrolled hnew
  obtain ⟨-, -, ⟨counts, hcounts, -, hfibre⟩, -⟩ := hmask 1 _ hproject
  refine ⟨_, _, counts, hnew, hproject, ?_, hcounts, hfibre⟩
  rw [hrun]
  rfl

/-- Of no bytes at all, an optional repetition accepts the empty word and its runtime says
nothing. -/
theorem virtual_repeat_silent_at_reset :
    ∃ r, VirtualZeroMinUnitRepeatRuntime.new {97} 0 1 0 1 1 0 = some r ∧
      (UnrolledRepeat.mk {97} 0 1 0).run 0 [] = some 0 ∧
      (UnrolledRepeat.mk {97} 0 1 0).finalizers 0 = {0} ∧ r.run 0 [] = some 0 ∧
      r.finalizers 0 = none :=
  ⟨⟨{97}, 0, 1, 1, 0, 0, {0}, {0}, ∅, [0]⟩, rfl, rfl, rfl, rfl, rfl⟩

end GlrMask
