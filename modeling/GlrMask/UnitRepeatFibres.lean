import GlrMask.UnitRepeatProjection

/-!
# The fibres of the mask projection

Two states with the same projection cannot be told apart within the horizon, the
multiplicities count the states of each class, and the unique states are the states of
the classes that have one.
-/

namespace GlrMask

namespace VirtualZeroMinUnitRepeatMaskProjection

/-- Where the constructor puts the regions. -/
structure Layout (p : VirtualZeroMinUnitRepeatMaskProjection) (horizon : ℕ) : Prop where
  min_le : p.full_min ≤ p.full_max
  max_pos : 0 < p.full_max
  lower_start : p.lower_start = max (p.full_min - horizon) 1
  upper_start : p.upper_start = max (p.full_max - horizon) (max p.full_min 1)
  deep : (1 < p.lower_start ∧ p.deep_lower_state = p.full_physical_state_count ∧
      p.lower_offset = p.full_physical_state_count + 1) ∨
    (p.lower_start = 1 ∧ p.deep_lower_state = u32Max ∧
      p.lower_offset = p.full_physical_state_count)
  interior : (max p.full_min 1 < p.upper_start ∧
      p.interior_state = p.lower_offset + (p.full_min - p.lower_start) ∧
      p.upper_offset = p.interior_state + 1) ∨
    (p.upper_start = max p.full_min 1 ∧ p.interior_state = u32Max ∧
      p.upper_offset = p.lower_offset + (p.full_min - p.lower_start))
  count : p.mask_state_count = p.upper_offset + (p.full_max - p.upper_start + 1)
  limit : p.mask_state_count ≤ VIRTUAL_STATE_LIMIT

theorem allocate_some {present : Prop} [Decidable present] {next : ℕ} {r : ℕ × ℕ}
    (h : allocate present next = some r) :
    (present ∧ r.1 = next ∧ r.2 = next + 1) ∨ (¬present ∧ r.1 = u32Max ∧ r.2 = next) := by
  unfold allocate at h
  split_ifs at h with hpresent
  · obtain ⟨later, hadd, rfl⟩ := Option.map_eq_some_iff.mp h
    exact Or.inl ⟨hpresent, rfl, (checkedAdd_eq_some hadd).symm⟩
  · cases h
    exact Or.inr ⟨hpresent, rfl, rfl⟩

theorem new_layout {full_min full_max horizon full_physical_state_count : ℕ}
    {p : VirtualZeroMinUnitRepeatMaskProjection}
    (h : new full_min full_max horizon full_physical_state_count = some p) :
    p.Layout horizon ∧ p.full_min = full_min ∧ p.full_max = full_max ∧
      p.full_physical_state_count = full_physical_state_count := by
  have htry : ∀ {n k : ℕ}, tryFromU32 n = some k → k = n := by
    intro n k hk
    unfold tryFromU32 at hk
    split_ifs at hk
    exact (Option.some.inj hk).symm
  unfold new at h
  obtain ⟨checked_min, hmin, h⟩ := Option.bind_eq_some_iff.mp h
  obtain ⟨checked_max, hmax, h⟩ := Option.bind_eq_some_iff.mp h
  obtain ⟨checked_horizon, hhorizon, h⟩ := Option.bind_eq_some_iff.mp h
  rw [htry hmin, htry hmax, htry hhorizon] at h
  split_ifs at h with hrefused
  unfold layout at h
  simp only at h
  obtain ⟨upper_rest, hrest, h⟩ := Option.bind_eq_some_iff.mp h
  obtain ⟨upper_count, hcount, h⟩ := Option.bind_eq_some_iff.mp h
  obtain ⟨deep, hdeep, h⟩ := Option.bind_eq_some_iff.mp h
  obtain ⟨lower_end, hlower, h⟩ := Option.bind_eq_some_iff.mp h
  obtain ⟨interior, hinterior, h⟩ := Option.bind_eq_some_iff.mp h
  obtain ⟨next, hnext, h⟩ := Option.bind_eq_some_iff.mp h
  split_ifs at h with hlimit
  cases h
  have hcount := checkedAdd_eq_some hcount
  have hlower := checkedAdd_eq_some hlower
  have hnext := checkedAdd_eq_some hnext
  have hrest : upper_rest = full_max - max (full_max - horizon) (max full_min 1) := by
    unfold checkedSub at hrest
    split_ifs at hrest
    exact (Option.some.inj hrest).symm
  refine ⟨?_, rfl, rfl, rfl⟩
  constructor
  · simp only
    omega
  · simp only
    omega
  · rfl
  · rfl
  · cases allocate_some hdeep with
    | inl hpresent => exact Or.inl hpresent
    | inr habsent =>
        refine Or.inr ⟨?_, habsent.2⟩
        simp only
        omega
  · cases allocate_some hinterior with
    | inl hpresent =>
        obtain ⟨hpresent, hstate, hoffset⟩ := hpresent
        refine Or.inl ⟨hpresent, ?_, ?_⟩
        · simp only
          omega
        · simp only
          omega
    | inr habsent =>
        obtain ⟨habsent, hstate, hoffset⟩ := habsent
        refine Or.inr ⟨?_, hstate, ?_⟩
        · simp only
          omega
        · simp only
          omega
  · simp only
    omega
  · exact hlimit

variable {p : VirtualZeroMinUnitRepeatMaskProjection} {horizon : ℕ}

/-- The place of a positive count in the layout. -/
def Place (p : VirtualZeroMinUnitRepeatMaskProjection) (consumed mask_state : ℕ) : Prop :=
  (consumed < p.full_min ∧ consumed < p.lower_start ∧ mask_state = p.deep_lower_state) ∨
    (consumed < p.full_min ∧ p.lower_start ≤ consumed ∧
      mask_state = p.lower_offset + (consumed - p.lower_start)) ∨
    (p.full_min ≤ consumed ∧ consumed < p.upper_start ∧ mask_state = p.interior_state) ∨
    (p.full_min ≤ consumed ∧ p.upper_start ≤ consumed ∧
      mask_state = p.upper_offset + (consumed - p.upper_start))

theorem project_physical {full_state : ℕ} (h : full_state < p.full_physical_state_count) :
    p.project full_state = some full_state := if_pos h

theorem project_lt {full_state mask_state : ℕ} (h : p.project full_state = some mask_state) :
    full_state < p.full_physical_state_count + p.full_max := by
  unfold project at h
  by_cases hphysical : full_state < p.full_physical_state_count
  · omega
  · rw [if_neg hphysical] at h
    obtain ⟨offset, hoffset, h⟩ := Option.bind_eq_some_iff.mp h
    obtain ⟨consumed, hconsumed, h⟩ := Option.bind_eq_some_iff.mp h
    have hadd := checkedAdd_eq_some hconsumed
    unfold checkedSub at hoffset
    split_ifs at hoffset
    have hsub := Option.some.inj hoffset
    have hle : ¬p.full_max < consumed := by
      intro hlt
      rw [if_pos hlt] at h
      cases h
    omega

theorem Layout.project_virtual (h : p.Layout horizon)
    (hids : p.full_physical_state_count + p.full_max ≤ VIRTUAL_STATE_LIMIT) {consumed : ℕ}
    (hpos : 0 < consumed) (hmax : consumed ≤ p.full_max) :
    ∃ mask_state, p.project (p.full_physical_state_count + (consumed - 1)) = some mask_state ∧
      Place p consumed mask_state := by
  obtain ⟨hminle, hmaxpos, hlower, hupper, hdeep, hinterior, hcount, hlimit⟩ := h
  have hu32 : VIRTUAL_STATE_LIMIT < u32Max := by decide
  have hadd : ∀ a b, a + b ≤ u32Max → checkedAdd a b = some (a + b) := fun _ _ hle => if_pos hle
  have hsub : ∀ a b, b ≤ a → checkedSub a b = some (a - b) := fun _ _ hle => if_pos hle
  have hone : consumed - 1 + 1 = consumed := by omega
  rw [project, if_neg (by omega), hsub _ _ (by omega), Option.bind_some, Nat.add_sub_cancel_left,
    hadd _ _ (by omega), Option.bind_some, hone, if_neg (by omega)]
  unfold Place
  split_ifs with hbelow hclass hclass
  · exact ⟨_, rfl, Or.inl ⟨hbelow, hclass.2, rfl⟩⟩
  · have hstart : p.lower_start ≤ consumed := by omega
    rw [hsub _ _ hstart, Option.bind_some, hadd _ _ (by omega)]
    exact ⟨_, rfl, Or.inr (Or.inl ⟨hbelow, hstart, rfl⟩)⟩
  · exact ⟨_, rfl, Or.inr (Or.inr (Or.inl ⟨not_lt.mp hbelow, hclass.2, rfl⟩))⟩
  · have hstart : p.upper_start ≤ consumed := by omega
    rw [hsub _ _ hstart, Option.bind_some, hadd _ _ (by omega)]
    exact ⟨_, rfl, Or.inr (Or.inr (Or.inr ⟨not_lt.mp hbelow, hstart, rfl⟩))⟩

/-- The regions with the truncated differences named. -/
theorem Layout.regions (h : p.Layout horizon) :
    ∃ lower_count accepted_start, p.full_min - p.lower_start = lower_count ∧
      max p.full_min 1 = accepted_start ∧
      (p.full_min = 0 ∧ p.lower_start = 1 ∧ lower_count = 0 ∧ accepted_start = 1 ∨
        p.lower_start + lower_count = p.full_min ∧ accepted_start = p.full_min) ∧
      1 ≤ p.lower_start ∧ 1 ≤ accepted_start ∧ accepted_start ≤ p.upper_start ∧
      p.upper_start ≤ p.full_max := by
  have hmin := h.min_le
  have hmax := h.max_pos
  have hlower := h.lower_start
  have hupper := h.upper_start
  refine ⟨_, _, rfl, rfl, ?_, ?_, le_max_right _ _, ?_, ?_⟩
  · rcases Nat.eq_zero_or_pos p.full_min with hzero | hpos
    · left
      omega
    · right
      rw [max_eq_left (Nat.succ_le_of_lt hpos)]
      omega
  · rw [hlower]
    exact le_max_right _ _
  · rw [hupper]
    exact le_max_right _ _
  · rw [hupper]
    exact max_le (Nat.sub_le _ _) (max_le hmin hmax)

theorem place_unique {consumed mask_state other : ℕ}
    (hplace : Place p consumed mask_state) (hother : Place p consumed other) :
    mask_state = other := by
  unfold Place at hplace hother
  omega

/-- The first count of a class and the number of its counts. -/
def classOf (p : VirtualZeroMinUnitRepeatMaskProjection) (mask_state : ℕ) : ℕ × ℕ :=
  if mask_state = p.deep_lower_state then (1, p.lower_start - 1)
  else if mask_state = p.interior_state then
    (max p.full_min 1, p.upper_start - max p.full_min 1)
  else if mask_state < p.lower_offset + (p.full_min - p.lower_start) then
    (mask_state - p.lower_offset + p.lower_start, 1)
  else (mask_state - p.upper_offset + p.upper_start, 1)

theorem Layout.place_iff (h : p.Layout horizon) {consumed mask_state : ℕ} (hpos : 0 < consumed)
    (hphysical : p.full_physical_state_count ≤ mask_state)
    (hcount : mask_state < p.mask_state_count) :
    Place p consumed mask_state ↔ (p.classOf mask_state).1 ≤ consumed ∧
      consumed < (p.classOf mask_state).1 + (p.classOf mask_state).2 := by
  obtain ⟨lower_count, accepted_start, hlower, haccepted, hregions, hone, hone', hle, hle'⟩ :=
    h.regions
  have hdeep := h.deep
  have hinterior := h.interior
  have hnext := h.count
  have hlimit := h.limit
  have hu32 : VIRTUAL_STATE_LIMIT < u32Max := by decide
  unfold classOf Place
  rw [hlower, haccepted] at *
  clear h hlower haccepted
  generalize VIRTUAL_STATE_LIMIT = limit at *
  generalize u32Max = top at *
  rcases hdeep with hdeep | hdeep <;> rcases hinterior with hinterior | hinterior <;>
    rcases hregions with hregions | hregions <;>
    split_ifs <;> simp only <;> omega

/-- A class is a run of positive counts. -/
theorem Layout.classOf_bounds (h : p.Layout horizon) {mask_state : ℕ}
    (hphysical : p.full_physical_state_count ≤ mask_state)
    (hcount : mask_state < p.mask_state_count) :
    0 < (p.classOf mask_state).1 ∧
      (p.classOf mask_state).1 + (p.classOf mask_state).2 ≤ p.full_max + 1 := by
  obtain ⟨lower_count, accepted_start, hlower, haccepted, hregions, hone, hone', hle, hle'⟩ :=
    h.regions
  have hdeep := h.deep
  have hinterior := h.interior
  have hnext := h.count
  have hmin := h.min_le
  unfold classOf
  rw [hlower, haccepted] at *
  clear h hlower haccepted
  split_ifs <;> simp only <;> omega

theorem Layout.place_lt (h : p.Layout horizon) {consumed mask_state : ℕ} (hpos : 0 < consumed)
    (hmax : consumed ≤ p.full_max) (hplace : Place p consumed mask_state) :
    p.full_physical_state_count ≤ mask_state ∧ mask_state < p.mask_state_count := by
  obtain ⟨lower_count, accepted_start, hlower, haccepted, hregions, hone, hone', hle, hle'⟩ :=
    h.regions
  have hdeep := h.deep
  have hinterior := h.interior
  have hnext := h.count
  unfold Place at hplace
  rw [hlower, haccepted] at *
  clear h hlower haccepted
  omega

/-- A class of more than one count keeps the horizon away from the next bound. -/
theorem Layout.classOf_wide (h : p.Layout horizon) {mask_state consumed : ℕ}
    (hwide : (p.classOf mask_state).2 ≠ 1) (hfirst : (p.classOf mask_state).1 ≤ consumed)
    (hlast : consumed < (p.classOf mask_state).1 + (p.classOf mask_state).2) :
    (mask_state = p.deep_lower_state ∧ consumed + horizon < p.full_min) ∨
      (mask_state ≠ p.deep_lower_state ∧ p.full_min ≤ consumed ∧
        consumed + horizon < p.full_max) := by
  have hlower := h.lower_start
  have hupper := h.upper_start
  unfold classOf at hwide hfirst hlast
  split_ifs at hwide hfirst hlast with hdeep hinterior
  · exact Or.inl ⟨hdeep, by simp only at *; omega⟩
  · exact Or.inr ⟨hdeep, by simp only at *; omega⟩
  · exact absurd rfl hwide
  · exact absurd rfl hwide

/-- A full state behind the physical ones is a positive count. -/
theorem Layout.project_behind (h : p.Layout horizon)
    (hids : p.full_physical_state_count + p.full_max ≤ VIRTUAL_STATE_LIMIT) {full_state : ℕ}
    (hbehind : p.full_physical_state_count ≤ full_state)
    (hfull : full_state < p.full_physical_state_count + p.full_max) :
    ∃ consumed place, full_state = p.full_physical_state_count + (consumed - 1) ∧ 0 < consumed ∧
      consumed ≤ p.full_max ∧ p.project full_state = some place ∧ Place p consumed place := by
  have hpos : 0 < full_state - p.full_physical_state_count + 1 := Nat.succ_pos _
  have hmax : full_state - p.full_physical_state_count + 1 ≤ p.full_max := by omega
  obtain ⟨place, hplace, hat⟩ := h.project_virtual hids hpos hmax
  have hstate : full_state = p.full_physical_state_count +
      (full_state - p.full_physical_state_count + 1 - 1) := by omega
  rw [← hstate] at hplace
  exact ⟨_, place, hstate, hpos, hmax, hplace, hat⟩

theorem Layout.project_total (h : p.Layout horizon)
    (hids : p.full_physical_state_count + p.full_max ≤ VIRTUAL_STATE_LIMIT) {full_state : ℕ}
    (hfull : full_state < p.full_physical_state_count + p.full_max) :
    ∃ mask_state < p.mask_state_count, p.project full_state = some mask_state := by
  by_cases hphysical : full_state < p.full_physical_state_count
  · refine ⟨full_state, ?_, project_physical hphysical⟩
    have hdeep := h.deep
    have hinterior := h.interior
    have hcount := h.count
    omega
  · obtain ⟨consumed, place, -, hpos, hmax, hplace, hat⟩ :=
      h.project_behind hids (not_lt.mp hphysical) hfull
    exact ⟨place, (h.place_lt hpos hmax hat).2, hplace⟩

/-- Two counts at one place are the same, or both are in one of the two wide classes. -/
theorem Layout.same_place (h : p.Layout horizon) {c d mask_state : ℕ} (hc : 0 < c)
    (hcmax : c ≤ p.full_max) (hd : 0 < d) (hcp : Place p c mask_state)
    (hdp : Place p d mask_state) :
    c = d ∨ (c + horizon < p.full_min ∧ d + horizon < p.full_min) ∨
      (p.full_min ≤ c ∧ p.full_min ≤ d ∧ c + horizon < p.full_max ∧ d + horizon < p.full_max) := by
  obtain ⟨hphysical, hcount⟩ := h.place_lt hc hcmax hcp
  obtain ⟨hcfirst, hclast⟩ := (h.place_iff hc hphysical hcount).mp hcp
  obtain ⟨hdfirst, hdlast⟩ := (h.place_iff hd hphysical hcount).mp hdp
  by_cases hwide : (p.classOf mask_state).2 = 1
  · left
    omega
  · right
    have hcwide := h.classOf_wide hwide hcfirst hclast
    have hdwide := h.classOf_wide hwide hdfirst hdlast
    omega

/-- The full states that are projected to a mask state. -/
def fibre (p : VirtualZeroMinUnitRepeatMaskProjection) (mask_state : ℕ) : Finset ℕ :=
  (Finset.range (p.full_physical_state_count + p.full_max)).filter
    fun full_state => p.project full_state = some mask_state

theorem Layout.fibre_physical (h : p.Layout horizon)
    (hids : p.full_physical_state_count + p.full_max ≤ VIRTUAL_STATE_LIMIT) {mask_state : ℕ}
    (hphysical : mask_state < p.full_physical_state_count) : p.fibre mask_state = {mask_state} := by
  ext full_state
  rw [fibre, Finset.mem_filter, Finset.mem_range, Finset.mem_singleton]
  constructor
  · intro hfull
    obtain ⟨hrange, hproject⟩ := hfull
    by_cases hown : full_state < p.full_physical_state_count
    · rw [project_physical hown] at hproject
      exact Option.some.inj hproject
    · obtain ⟨consumed, place, -, hpos, hmax, hplace, hat⟩ :=
        h.project_behind hids (not_lt.mp hown) hrange
      rw [hproject] at hplace
      have hbelow := (h.place_lt hpos hmax hat).1
      rw [← Option.some.inj hplace] at hbelow
      omega
  · intro hsame
    rw [hsame]
    exact ⟨by omega, project_physical hphysical⟩

theorem Layout.mem_fibre (h : p.Layout horizon)
    (hids : p.full_physical_state_count + p.full_max ≤ VIRTUAL_STATE_LIMIT)
    {mask_state full_state : ℕ} (hphysical : p.full_physical_state_count ≤ mask_state)
    (hcount : mask_state < p.mask_state_count) :
    full_state ∈ p.fibre mask_state ↔
      p.full_physical_state_count + (p.classOf mask_state).1 ≤ full_state + 1 ∧
        full_state + 1 < p.full_physical_state_count + (p.classOf mask_state).1 +
          (p.classOf mask_state).2 := by
  have hbounds := h.classOf_bounds hphysical hcount
  rw [fibre, Finset.mem_filter, Finset.mem_range]
  by_cases hown : full_state < p.full_physical_state_count
  · rw [project_physical hown, Option.some.injEq]
    omega
  · by_cases hrange : full_state < p.full_physical_state_count + p.full_max
    · obtain ⟨consumed, place, hstate, hpos, hmax, hplace, hat⟩ :=
        h.project_behind hids (not_lt.mp hown) hrange
      have hiff := h.place_iff hpos hphysical hcount
      rw [hplace, Option.some.injEq]
      constructor
      · intro hfull
        rw [hfull.2] at hat
        have hclass := hiff.mp hat
        omega
      · intro hclass
        have hthere := hiff.mpr (by omega)
        exact ⟨hrange, place_unique hat hthere⟩
    · omega

theorem Layout.card_fibre (h : p.Layout horizon)
    (hids : p.full_physical_state_count + p.full_max ≤ VIRTUAL_STATE_LIMIT) {mask_state : ℕ}
    (hphysical : p.full_physical_state_count ≤ mask_state)
    (hcount : mask_state < p.mask_state_count) :
    (p.fibre mask_state).card = (p.classOf mask_state).2 := by
  have hbounds := h.classOf_bounds hphysical hcount
  have hfibre : p.fibre mask_state =
      Finset.Ico (p.full_physical_state_count + (p.classOf mask_state).1 - 1)
        (p.full_physical_state_count + (p.classOf mask_state).1 - 1 +
          (p.classOf mask_state).2) := by
    ext full_state
    rw [h.mem_fibre hids hphysical hcount, Finset.mem_Ico]
    omega
  rw [hfibre, Nat.card_Ico, Nat.add_sub_cancel_left]

end VirtualZeroMinUnitRepeatMaskProjection

end GlrMask
