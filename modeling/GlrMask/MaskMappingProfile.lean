import GlrMask.MaskMappingOps

/-!
# Profiled writes

The profiled conversion of a dense selection takes the same steps and counts them.
Without its counters it is the fast conversion.
-/

namespace GlrMask

namespace MaskMapping

open WordBitmap BitScan

/-- The mask after a write, and the counters after it if something was written. -/
def counted (written : Words × Bool)
    (count : DenseToBufProfileStats → DenseToBufProfileStats) (stats : DenseToBufProfileStats) :
    Words × DenseToBufProfileStats :=
  (written.1, if written.2 then count stats else stats)

def count_group_or (entries : ℕ) (stats : DenseToBufProfileStats) : DenseToBufProfileStats :=
  { stats with group_or_sparse_entries := stats.group_or_sparse_entries + entries }

def count_group_andnot (entries : ℕ) (stats : DenseToBufProfileStats) : DenseToBufProfileStats :=
  { stats with group_andnot_sparse_entries := stats.group_andnot_sparse_entries + entries }

def visit_words (words : ℕ) (stats : DenseToBufProfileStats) : DenseToBufProfileStats :=
  { stats with dense_words_visited := stats.dense_words_visited + words }

def hit_full_words (words : ℕ) (stats : DenseToBufProfileStats) : DenseToBufProfileStats :=
  { stats with normal_full_word_hits := stats.normal_full_word_hits + words }

namespace FinalMaskMapping

variable (mapping : FinalMaskMapping)

def andnot_bits (base : ℕ) (bits : BitVec 64) (state : Words × DenseToBufProfileStats) :
    Words × DenseToBufProfileStats :=
  if bits = BitVec.allOnes 64 then
    counted (mapping.andnot_word_group (base / 64) state.1) (fun stats =>
      count_group_andnot (entry_count mapping.word_group_entries (base / 64))
        { stats with complement_full_word_hits := stats.complement_full_word_hits + 1 }) state.2
  else
    let word32s := fullLanes 32 2 (fun lane state =>
      counted (mapping.andnot_word32_group (base / 32 + lane) state.1)
        (count_group_andnot (entry_count mapping.word32_group_entries (base / 32 + lane))) state.2)
      (bits, state)
    let halfwords := fullLanes 16 4 (fun lane state =>
      counted (mapping.andnot_halfword_group (base / 16 + lane) state.1)
        (count_group_andnot (entry_count mapping.halfword_group_entries (base / 16 + lane))) state.2)
      word32s
    let bytes := fullLanes 8 8 (fun lane state =>
      let cleared := counted (mapping.andnot_byte_group (base / 8 + lane) state.1)
        (count_group_andnot (entry_count mapping.byte_group_entries (base / 8 + lane))) state.2
      (cleared.1, { cleared.2 with
        complement_full_byte_groups := cleared.2.complement_full_byte_groups + 1 })) halfwords
    let quads := lanePatterns 4 16 (fun lane pattern state =>
      let cleared := counted (mapping.andnot_quad_pattern (base / 4 + lane) pattern state.1)
        (count_group_andnot
          (entry_count mapping.quad_pattern_entries ((base / 4 + lane) * 16 + pattern))) state.2
      (cleared.1, if pattern = 15 then { cleared.2 with
        complement_full_nibble_groups := cleared.2.complement_full_nibble_groups + 1 }
        else cleared.2)) bytes
    forEachBit (fun bit state =>
      (mapping.andnot_token (base + bit) state.1, { state.2 with
        complement_token_iterations := state.2.complement_token_iterations + 1
        complement_sparse_entries :=
          state.2.complement_sparse_entries + entry_count mapping.token_entries (base + bit) }))
      64 quads.1 quads.2

def or_bits (base : ℕ) (bits : BitVec 64) (state : Words × DenseToBufProfileStats)
    (allow_complement_clear : Bool) : Words × DenseToBufProfileStats :=
  match (if allow_complement_clear then mapping.group_complement_bits base bits else none) with
  | some (group_id, missing) =>
      mapping.andnot_bits base missing
        (counted (mapping.or_full_group_run group_id (group_id + 1) state.1 false) (fun stats =>
          { stats with
            normal_group_complement_hits := stats.normal_group_complement_hits + 1
            normal_group_complement_sparse_entries :=
              stats.normal_group_complement_sparse_entries +
                entry_count mapping.word_group_entries group_id }) state.2)
  | none =>
      let bytes := fullLanes 8 8 (fun lane state =>
        counted (mapping.or_byte_group (base / 8 + lane) state.1)
          (count_group_or (entry_count mapping.byte_group_entries (base / 8 + lane))) state.2)
        (bits, state)
      let quads := lanePatterns 4 16 (fun lane pattern state =>
        counted (mapping.or_quad_pattern (base / 4 + lane) pattern state.1)
          (count_group_or
            (entry_count mapping.quad_pattern_entries ((base / 4 + lane) * 16 + pattern))) state.2)
        bytes
      forEachBit (fun bit state =>
        let visited := { state.2 with
          normal_token_iterations := state.2.normal_token_iterations + 1 }
        counted (mapping.or_token (base + bit) state.1) (fun stats => { stats with
          normal_sparse_entries :=
            stats.normal_sparse_entries + entry_count mapping.token_entries (base + bit) }) visited)
        64 quads.1 quads.2

def or_selected_loop (dense : List (BitVec 64)) (buf_zeroed : Bool) (seed : Option (ℕ × ℕ)) :
    ℕ → ℕ → Bool → Words × DenseToBufProfileStats → Words × DenseToBufProfileStats
  | 0, _, _, state => state
  | fuel + 1, wi, wrote, state =>
      match dense[wi]? with
      | none => state
      | some word =>
          let n_internal := mapping.token_entries.len
          let base := wi * 64
          if n_internal ≤ base then state
          else
            match seed.filter (fun run => wi == run.1) with
            | some run =>
                or_selected_loop dense buf_zeroed seed fuel run.2 wrote
                  (state.1, visit_words (run.2 - run.1) state.2)
            | none =>
                let visited := visit_words 1 state.2
                let bits := word &&& valid_mask n_internal base
                if bits = 0#64 then
                  or_selected_loop dense buf_zeroed seed fuel (wi + 1) wrote (state.1, visited)
                else if bits = valid_mask n_internal base ∧ 64 ≤ n_internal - base then
                  let stop := run_end n_internal (BitVec.allOnes 64) (wi + 1) (dense.drop (wi + 1))
                  or_selected_loop dense buf_zeroed seed fuel stop true
                    ((mapping.or_full_group_run wi stop state.1 (buf_zeroed && !wrote)).1,
                      hit_full_words (stop - wi) (visit_words (stop - (wi + 1)) visited))
                else
                  or_selected_loop dense buf_zeroed seed fuel (wi + 1) true
                    (mapping.or_bits base bits (state.1, visited) buf_zeroed)

def or_selected_dense (dense : List (BitVec 64)) (state : Words × DenseToBufProfileStats)
    (buf_zeroed : Bool) : Words × DenseToBufProfileStats :=
  let seed := if buf_zeroed then first_full_dense_run mapping.token_entries.len 0 dense else none
  match seed with
  | some run =>
      mapping.or_selected_loop dense buf_zeroed seed dense.length 0 true
        ((mapping.or_full_group_run run.1 run.2 state.1 true).1,
          hit_full_words (run.2 - run.1) state.2)
  | none => mapping.or_selected_loop dense buf_zeroed seed dense.length 0 false state

def andnot_missing_loop (dense : List (BitVec 64)) :
    ℕ → ℕ → Words × DenseToBufProfileStats → Words × DenseToBufProfileStats
  | 0, _, state => state
  | fuel + 1, wi, state =>
      match dense[wi]? with
      | none => state
      | some word =>
          let n_internal := mapping.token_entries.len
          let base := wi * 64
          if n_internal ≤ base then state
          else
            let visited := visit_words 1 state.2
            let missing := ~~~word &&& valid_mask n_internal base
            if missing = 0#64 then andnot_missing_loop dense fuel (wi + 1) (state.1, visited)
            else if 64 ≤ n_internal - base ∧ missing = BitVec.allOnes 64 then
              let stop := run_end n_internal 0#64 (wi + 1) (dense.drop (wi + 1))
              andnot_missing_loop dense fuel stop
                (counted (mapping.andnot_word_group_run wi stop state.1) (fun stats => { stats with
                  complement_full_word_hits := stats.complement_full_word_hits + (stop - wi) })
                  (visit_words (stop - (wi + 1)) visited))
            else
              andnot_missing_loop dense fuel (wi + 1)
                (mapping.andnot_bits base missing (state.1, visited))

def andnot_missing_dense (dense : List (BitVec 64)) (state : Words × DenseToBufProfileStats) :
    Words × DenseToBufProfileStats :=
  mapping.andnot_missing_loop dense dense.length 0 state

def or_dense_to_buf (dense : List (BitVec 64)) (buf : Words) (buf_zeroed : Bool) :
    Words × DenseToBufProfileStats :=
  let stats : DenseToBufProfileStats := {}
  let n_internal := mapping.token_entries.len
  if n_internal = 0 ∨ dense = [] then (buf, stats)
  else
    let n_set := mapping.count_dense_set_bits 0 dense
    if n_internal ≤ n_set ∧ mapping.all_tokens_mask ≠ [] then
      (if buf_zeroed then copy_dense buf mapping.all_tokens_mask
        else or_dense buf mapping.all_tokens_mask, stats)
    else if n_set = 0 then (buf, stats)
    else if buf_zeroed && mapping.few_missing n_set then
      if mapping.add_is_cheaper dense n_set then
        mapping.or_selected_dense dense (buf, stats) buf_zeroed
      else
        mapping.andnot_missing_dense dense
          (copy_dense buf mapping.all_tokens_mask, { stats with complement_path_used := true })
    else mapping.or_selected_dense dense (buf, stats) buf_zeroed

/-! ## Without the counters -/

variable {mapping}

theorem andnot_bits_fst (base : ℕ) (bits : BitVec 64) (state : Words × DenseToBufProfileStats) :
    (mapping.andnot_bits base bits state).1 = mapping.andnot_bits_fast base bits state.1 := by
  unfold andnot_bits andnot_bits_fast
  split
  · rfl
  · apply forEachBit_map (g := Prod.fst)
    · apply lanePatterns_map
      · apply fullLanes_map
        · apply fullLanes_map
          · apply fullLanes_map
            · rfl
            · exact fun _ _ => rfl
          · exact fun _ _ => rfl
        · exact fun _ _ => rfl
      · exact fun _ _ _ => rfl
    · exact fun _ _ => rfl

theorem or_bits_fst (base : ℕ) (bits : BitVec 64) (state : Words × DenseToBufProfileStats)
    (allow : Bool) :
    (mapping.or_bits base bits state allow).1 = mapping.or_bits_fast base bits state.1 allow := by
  unfold or_bits or_bits_fast
  generalize (if allow = true then mapping.group_complement_bits base bits else none) = group
  cases group with
  | some group => exact andnot_bits_fst _ _ _
  | none =>
    apply forEachBit_map (g := Prod.fst)
    · apply lanePatterns_map
      · apply fullLanes_map
        · rfl
        · exact fun _ _ => rfl
      · exact fun _ _ _ => rfl
    · exact fun _ _ => rfl

theorem or_selected_loop_fst (dense : List (BitVec 64)) (buf_zeroed : Bool)
    (seed : Option (ℕ × ℕ)) (fuel wi : ℕ) (wrote : Bool)
    (state : Words × DenseToBufProfileStats) :
    (mapping.or_selected_loop dense buf_zeroed seed fuel wi wrote state).1 =
      mapping.or_selected_loop_fast dense buf_zeroed seed fuel wi wrote state.1 := by
  induction fuel generalizing wi wrote state with
  | zero => rfl
  | succ fuel ih =>
    unfold or_selected_loop or_selected_loop_fast
    cases dense[wi]? with
    | none => rfl
    | some word =>
      dsimp only
      split
      · rfl
      · cases seed.filter (fun run => wi == run.1) with
        | some run => exact ih _ _ _
        | none =>
          dsimp only
          split
          · exact ih _ _ _
          · split
            · exact ih _ _ _
            · rw [ih, or_bits_fst]

theorem or_selected_dense_fst (dense : List (BitVec 64)) (state : Words × DenseToBufProfileStats)
    (buf_zeroed : Bool) : (mapping.or_selected_dense dense state buf_zeroed).1 =
      mapping.or_selected_dense_fast dense state.1 buf_zeroed := by
  unfold or_selected_dense or_selected_dense_fast
  dsimp only
  generalize (if buf_zeroed = true then first_full_dense_run mapping.token_entries.len 0 dense
    else none) = seed
  cases seed with
  | some run => exact or_selected_loop_fst ..
  | none => exact or_selected_loop_fst ..

theorem andnot_missing_loop_fst (dense : List (BitVec 64)) (fuel wi : ℕ)
    (state : Words × DenseToBufProfileStats) :
    (mapping.andnot_missing_loop dense fuel wi state).1 =
      mapping.andnot_missing_loop_fast dense fuel wi state.1 := by
  induction fuel generalizing wi state with
  | zero => rfl
  | succ fuel ih =>
    unfold andnot_missing_loop andnot_missing_loop_fast
    cases dense[wi]? with
    | none => rfl
    | some word =>
      dsimp only
      split
      · rfl
      · -- the fast loop asks for an empty word last
        by_cases hzero : ~~~word &&& valid_mask mapping.token_entries.len (wi * 64) = 0#64
        · have hnot : ¬(64 ≤ mapping.token_entries.len - wi * 64 ∧
              ~~~word &&& valid_mask mapping.token_entries.len (wi * 64) = BitVec.allOnes 64) := by
            rw [hzero]
            intro hall
            exact absurd hall.2 (by decide)
          rw [if_pos hzero, if_neg hnot, if_neg (not_not.mpr hzero)]
          exact ih _ _
        · rw [if_neg hzero, if_pos hzero]
          split
          · exact ih _ _
          · rw [ih, andnot_bits_fst]

/-- Profiling does not change what is written. -/
theorem or_dense_to_buf_fst (dense : List (BitVec 64)) (buf : Words) (buf_zeroed : Bool) :
    (mapping.or_dense_to_buf dense buf buf_zeroed).1 =
      mapping.or_dense_to_buf_fast dense buf buf_zeroed := by
  unfold or_dense_to_buf or_dense_to_buf_fast
  dsimp only
  split
  · rfl
  · split
    · rfl
    · split
      · rfl
      · split
        · split
          · exact or_selected_dense_fst ..
          · exact andnot_missing_loop_fst ..
        · exact or_selected_dense_fst ..

end FinalMaskMapping

end MaskMapping

end GlrMask
