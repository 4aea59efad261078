import GlrMask.MaskMapping

/-!
# Writing selections of internal tokens

A selection is given by internal ids or by dense words of 64 tokens. Costs decide
whether the selected tokens are added in groups, or the missing ones are cleared
from the mask of all tokens.

The profiled operations count what they do; they write the same mask.
-/

namespace GlrMask

namespace MaskMapping

open WordBitmap BitScan

structure DenseToBufProfileStats where
  dense_words_visited : ℕ := 0
  normal_full_word_hits : ℕ := 0
  normal_group_complement_hits : ℕ := 0
  complement_full_word_hits : ℕ := 0
  complement_full_byte_groups : ℕ := 0
  complement_full_nibble_groups : ℕ := 0
  complement_remaining_bits : ℕ := 0
  normal_token_iterations : ℕ := 0
  complement_token_iterations : ℕ := 0
  normal_sparse_entries : ℕ := 0
  normal_group_complement_sparse_entries : ℕ := 0
  complement_sparse_entries : ℕ := 0
  complement_heavy_dense_clears : ℕ := 0
  complement_max_sparse_span : ℕ := 0
  group_or_sparse_entries : ℕ := 0
  group_andnot_sparse_entries : ℕ := 0
  complement_path_used : Bool := false

structure DenseSelectionStats where
  n_set : ℕ := 0
  selected_entry_cost : ℕ := 0

def saturating_mul (a b : ℕ) : ℕ := min (a * b) (2 ^ 64 - 1)

/-- The tokens of the word at `base`, all 64 or those that are left. -/
def valid_mask (n_internal base : ℕ) : BitVec 64 :=
  let valid_bits := min (n_internal - base) 64
  if valid_bits = 64 then BitVec.allOnes 64 else (1#64 <<< valid_bits) - 1#64

/-- The end of a run of complete words with the value, from `wi` on. -/
def run_end (n_internal : ℕ) (value : BitVec 64) : ℕ → List (BitVec 64) → ℕ
  | wi, [] => wi
  | wi, word :: rest =>
      let base := wi * 64
      if n_internal ≤ base then wi
      else if n_internal - base < 64 ∨ word ≠ value then wi
      else run_end n_internal value (wi + 1) rest

def first_full_dense_run (n_internal : ℕ) : ℕ → List (BitVec 64) → Option (ℕ × ℕ)
  | _, [] => none
  | wi, word :: rest =>
      let base := wi * 64
      if n_internal ≤ base then none
      else if 64 ≤ n_internal - base ∧ word = BitVec.allOnes 64 then
        some (wi, run_end n_internal (BitVec.allOnes 64) (wi + 1) rest)
      else first_full_dense_run n_internal (wi + 1) rest

/-! ## Groups -/

/-- Add a group from its dense mask, or from its entries. -/
def or_group (dense : List (Option Words)) (entries : EntryTable) (group_id : ℕ) (out : Words) :
    Words × Bool :=
  match dense[group_id]? with
  | some (some dense) => (or_dense out dense, true)
  | _ =>
      match entries.get group_id with
      | some entries => (or_sparse out entries, !entries.isEmpty)
      | none => (out, false)

/-- Clear a group by its dense mask, or by its entries. -/
def andnot_group (dense : List (Option Words)) (entries : EntryTable) (group_id : ℕ) (out : Words) :
    Words × Bool :=
  match dense[group_id]? with
  | some (some dense) => (andnot_dense out dense, true)
  | _ =>
      match entries.get group_id with
      | some entries => (andnot_sparse out entries, !entries.isEmpty)
      | none => (out, false)

/-- The number of entries of a group. -/
def entry_count (table : EntryTable) (group_id : ℕ) : ℕ :=
  match table.get group_id with
  | some entries => entries.length
  | none => 0

namespace FinalMaskMapping

variable (mapping : FinalMaskMapping)

def internal_len : ℕ := mapping.token_entries.len

def or_token (internal_id : ℕ) (out : Words) : Words × Bool :=
  match mapping.token_entries.get internal_id with
  | some entries => (or_sparse out entries, !entries.isEmpty)
  | none => (out, false)

def andnot_token (internal_id : ℕ) (out : Words) : Words :=
  match mapping.token_entries.get internal_id with
  | some entries => andnot_sparse out entries
  | none => out

def or_quad_pattern (group_id pattern : ℕ) (out : Words) : Words × Bool :=
  or_group mapping.quad_pattern_dense mapping.quad_pattern_entries (group_id * 16 + pattern) out

def or_quad_group (group_id : ℕ) (out : Words) : Words × Bool :=
  or_group mapping.quad_group_dense mapping.quad_group_entries group_id out

def or_byte_group (group_id : ℕ) (out : Words) : Words × Bool :=
  or_group mapping.byte_group_dense mapping.byte_group_entries group_id out

def andnot_quad_pattern (group_id pattern : ℕ) (out : Words) : Words × Bool :=
  andnot_group mapping.quad_pattern_dense mapping.quad_pattern_entries (group_id * 16 + pattern) out

def andnot_byte_group (group_id : ℕ) (out : Words) : Words × Bool :=
  andnot_group mapping.byte_group_dense mapping.byte_group_entries group_id out

def andnot_halfword_group (group_id : ℕ) (out : Words) : Words × Bool :=
  andnot_group mapping.halfword_group_dense mapping.halfword_group_entries group_id out

def andnot_word32_group (group_id : ℕ) (out : Words) : Words × Bool :=
  andnot_group mapping.word32_group_dense mapping.word32_group_entries group_id out

def andnot_word_group (group_id : ℕ) (out : Words) : Words × Bool :=
  match mapping.word_group_entries.get group_id with
  | none => (out, false)
  | some entries =>
      match mapping.word_group_dense[group_id]? with
      | some (some dense) => (andnot_dense out dense, true)
      | _ =>
          if entries.length > mapping.buf_words / 4 ∧
              group_id + 1 < mapping.word_group_dense_prefix.length then
            let before := mapping.word_group_dense_prefix.getD group_id []
            let after := mapping.word_group_dense_prefix.getD (group_id + 1) []
            (andnot_prefix_diff out before after, true)
          else (andnot_sparse out entries, !entries.isEmpty)

def group_entries_in (start stop : ℕ) : ℕ :=
  match mapping.word_group_entry_prefix[stop]?, mapping.word_group_entry_prefix[start]? with
  | some stop, some start => stop - start
  | _, _ => ((List.range' start (stop - start)).map (entry_count mapping.word_group_entries)).sum

/-- Add the entries of the word groups one after the other. -/
def or_word_groups (start stop : ℕ) (out : Words) : Words × Bool :=
  (List.range' start (stop - start)).foldl (fun state group_id =>
    match mapping.word_group_entries.get group_id with
    | some entries => (or_sparse state.1 entries, state.2 || !entries.isEmpty)
    | none => state) (out, false)

def or_full_group_run (start stop : ℕ) (out : Words) (can_copy : Bool) : Words × Bool :=
  if stop ≤ start then (out, false)
  else
    match (if stop = start + 1 then mapping.word_group_dense[start]? else none) with
    | some (some dense) => (if can_copy then copy_dense out dense else or_dense out dense, true)
    | _ =>
        if mapping.group_entries_in start stop > mapping.buf_words / 4 ∧
            stop < mapping.word_group_dense_prefix.length then
          let before := mapping.word_group_dense_prefix.getD start []
          let after := mapping.word_group_dense_prefix.getD stop []
          (if can_copy then copy_prefix_diff out before after else or_prefix_diff out before after,
            true)
        else mapping.or_word_groups start stop out

/-- Clear the entries of the word groups one after the other. -/
def andnot_word_groups (start stop : ℕ) (out : Words) : Words × Bool :=
  (List.range' start (stop - start)).foldl (fun state group_id =>
    match mapping.word_group_entries.get group_id with
    | some entries => (andnot_sparse state.1 entries, state.2 || !entries.isEmpty)
    | none => state) (out, false)

def andnot_word_group_run (start stop : ℕ) (out : Words) : Words × Bool :=
  if stop ≤ start then (out, false)
  else if stop = start + 1 then mapping.andnot_word_group start out
  else if mapping.group_entries_in start stop > mapping.buf_words / 4 ∧
      stop < mapping.word_group_dense_prefix.length then
    let before := mapping.word_group_dense_prefix.getD start []
    let after := mapping.word_group_dense_prefix.getD stop []
    (andnot_prefix_diff out before after, true)
  else mapping.andnot_word_groups start stop out

/-! ## Costs -/

def count_dense_set_bits : ℕ → List (BitVec 64) → ℕ
  | _, [] => 0
  | wi, word :: rest =>
      let n_internal := mapping.token_entries.len
      let base := wi * 64
      if n_internal ≤ base then 0
      else (word &&& valid_mask n_internal base).cpop.toNat + count_dense_set_bits (wi + 1) rest

def entry_cost_for_bits (base : ℕ) (bits : BitVec 64) : ℕ :=
  forEachBit (fun bit cost => cost + mapping.token_entry_lens.getD (base + bit) 0) 64 bits 0

def estimate_andnot_bits_cost (base : ℕ) (bits : BitVec 64) : ℕ :=
  let word32s := fullLanes 32 2 (fun lane cost =>
    cost + entry_count mapping.word32_group_entries (base / 32 + lane)) (bits, 0)
  let halfwords := fullLanes 16 4 (fun lane cost =>
    cost + entry_count mapping.halfword_group_entries (base / 16 + lane)) word32s
  let bytes := fullLanes 8 8 (fun lane cost =>
    cost + entry_count mapping.byte_group_entries (base / 8 + lane)) halfwords
  let quads := lanePatterns 4 16 (fun lane pattern cost =>
    cost + entry_count mapping.quad_pattern_entries ((base / 4 + lane) * 16 + pattern)) bytes
  quads.2 + mapping.entry_cost_for_bits base quads.1

def estimate_missing_loop (dense : List (BitVec 64)) : ℕ → ℕ → ℕ → ℕ
  | 0, _, cost => cost
  | fuel + 1, wi, cost =>
      match dense[wi]? with
      | none => cost
      | some word =>
          let n_internal := mapping.token_entries.len
          let base := wi * 64
          if n_internal ≤ base then cost
          else
            let missing := ~~~word &&& valid_mask n_internal base
            if missing = 0#64 then estimate_missing_loop dense fuel (wi + 1) cost
            else if 64 ≤ n_internal - base ∧ missing = BitVec.allOnes 64 then
              let stop := run_end n_internal 0#64 (wi + 1) (dense.drop (wi + 1))
              estimate_missing_loop dense fuel stop
                (cost + min (mapping.group_entries_in wi stop) mapping.buf_words)
            else
              estimate_missing_loop dense fuel (wi + 1)
                (cost + mapping.estimate_andnot_bits_cost base missing)

def estimate_missing_dense_clear_cost (dense : List (BitVec 64)) : ℕ :=
  mapping.estimate_missing_loop dense dense.length 0 0

def selection_loop : ℕ → List (BitVec 64) → DenseSelectionStats → DenseSelectionStats
  | _, [], stats => stats
  | wi, word :: rest, stats =>
      let n_internal := mapping.token_entries.len
      let base := wi * 64
      if n_internal ≤ base then stats
      else
        let valid_bits := min (n_internal - base) 64
        let selected := word &&& valid_mask n_internal base
        let missing := ~~~word &&& valid_mask n_internal base
        let selected_count := selected.cpop.toNat
        let missing_count := valid_bits - selected_count
        let word_sum := mapping.word_entry_len_sums.getD wi 0
        let missing_cost := mapping.entry_cost_for_bits base missing
        let selected_cost :=
          if selected_count ≤ missing_count then mapping.entry_cost_for_bits base selected
          else word_sum - missing_cost
        selection_loop (wi + 1) rest
          ⟨stats.n_set + selected_count, stats.selected_entry_cost + selected_cost⟩

def dense_selection_stats (dense : List (BitVec 64)) : DenseSelectionStats :=
  mapping.selection_loop 0 dense {}

def group_complement_bits (base : ℕ) (bits : BitVec 64) : Option (ℕ × BitVec 64) :=
  if mapping.token_entries.len < base then none
  else if mapping.token_entries.len - base < 64 then none
  else if bits.cpop.toNat < 48 then none
  else
    let missing := ~~~bits
    let selected_cost := mapping.entry_cost_for_bits base bits
    let missing_cost := mapping.entry_cost_for_bits base missing
    let group_id := base / 64
    let group_sparse_cost := entry_count mapping.word_group_entries group_id
    let group_or_cost :=
      if group_sparse_cost > mapping.buf_words / 4 then mapping.buf_words else group_sparse_cost
    if group_or_cost + missing_cost < selected_cost then some (group_id, missing) else none

/-! ## Tokens of one word -/

def andnot_bits_fast (base : ℕ) (bits : BitVec 64) (out : Words) : Words :=
  if bits = BitVec.allOnes 64 then (mapping.andnot_word_group (base / 64) out).1
  else
    let word32s := fullLanes 32 2 (fun lane out =>
      (mapping.andnot_word32_group (base / 32 + lane) out).1) (bits, out)
    let halfwords := fullLanes 16 4 (fun lane out =>
      (mapping.andnot_halfword_group (base / 16 + lane) out).1) word32s
    let bytes := fullLanes 8 8 (fun lane out =>
      (mapping.andnot_byte_group (base / 8 + lane) out).1) halfwords
    let quads := lanePatterns 4 16 (fun lane pattern out =>
      (mapping.andnot_quad_pattern (base / 4 + lane) pattern out).1) bytes
    forEachBit (fun bit out => mapping.andnot_token (base + bit) out) 64 quads.1 quads.2

def or_bits_fast (base : ℕ) (bits : BitVec 64) (out : Words) (allow_complement_clear : Bool) :
    Words :=
  match (if allow_complement_clear then mapping.group_complement_bits base bits else none) with
  | some (group_id, missing) =>
      mapping.andnot_bits_fast base missing
        (mapping.or_full_group_run group_id (group_id + 1) out false).1
  | none =>
      let bytes := fullLanes 8 8 (fun lane out =>
        (mapping.or_byte_group (base / 8 + lane) out).1) (bits, out)
      let quads := lanePatterns 4 16 (fun lane pattern out =>
        (mapping.or_quad_pattern (base / 4 + lane) pattern out).1) bytes
      forEachBit (fun bit out => (mapping.or_token (base + bit) out).1) 64 quads.1 quads.2

/-! ## Dense selections -/

def or_selected_loop_fast (dense : List (BitVec 64)) (buf_zeroed : Bool) (seed : Option (ℕ × ℕ)) :
    ℕ → ℕ → Bool → Words → Words
  | 0, _, _, out => out
  | fuel + 1, wi, wrote, out =>
      match dense[wi]? with
      | none => out
      | some word =>
          let n_internal := mapping.token_entries.len
          let base := wi * 64
          if n_internal ≤ base then out
          else
            match seed.filter (fun run => wi == run.1) with
            | some run => or_selected_loop_fast dense buf_zeroed seed fuel run.2 wrote out
            | none =>
                let bits := word &&& valid_mask n_internal base
                if bits = 0#64 then
                  or_selected_loop_fast dense buf_zeroed seed fuel (wi + 1) wrote out
                else if bits = valid_mask n_internal base ∧ 64 ≤ n_internal - base then
                  let stop := run_end n_internal (BitVec.allOnes 64) (wi + 1) (dense.drop (wi + 1))
                  or_selected_loop_fast dense buf_zeroed seed fuel stop true
                    (mapping.or_full_group_run wi stop out (buf_zeroed && !wrote)).1
                else
                  or_selected_loop_fast dense buf_zeroed seed fuel (wi + 1) true
                    (mapping.or_bits_fast base bits out buf_zeroed)

def or_selected_dense_fast (dense : List (BitVec 64)) (out : Words) (buf_zeroed : Bool) : Words :=
  let seed := if buf_zeroed then first_full_dense_run mapping.token_entries.len 0 dense else none
  match seed with
  | some run =>
      mapping.or_selected_loop_fast dense buf_zeroed seed dense.length 0 true
        (mapping.or_full_group_run run.1 run.2 out true).1
  | none => mapping.or_selected_loop_fast dense buf_zeroed seed dense.length 0 false out

def andnot_missing_loop_fast (dense : List (BitVec 64)) : ℕ → ℕ → Words → Words
  | 0, _, out => out
  | fuel + 1, wi, out =>
      match dense[wi]? with
      | none => out
      | some word =>
          let n_internal := mapping.token_entries.len
          let base := wi * 64
          if n_internal ≤ base then out
          else
            let missing := ~~~word &&& valid_mask n_internal base
            if 64 ≤ n_internal - base ∧ missing = BitVec.allOnes 64 then
              let stop := run_end n_internal 0#64 (wi + 1) (dense.drop (wi + 1))
              andnot_missing_loop_fast dense fuel stop (mapping.andnot_word_group_run wi stop out).1
            else if missing ≠ 0#64 then
              andnot_missing_loop_fast dense fuel (wi + 1)
                (mapping.andnot_bits_fast base missing out)
            else andnot_missing_loop_fast dense fuel (wi + 1) out

def andnot_missing_dense_fast (dense : List (BitVec 64)) (out : Words) : Words :=
  mapping.andnot_missing_loop_fast dense dense.length 0 out

/-- Whether clearing the missing tokens is tried. -/
def few_missing (n_set : ℕ) : Bool :=
  let n_internal := mapping.token_entries.len
  !mapping.all_tokens_mask.isEmpty && saturating_mul n_internal 3 ≤ saturating_mul n_set 5 &&
    n_internal - n_set ≤ 800

/-- Whether adding the selected tokens is nevertheless cheaper. -/
def add_is_cheaper (dense : List (BitVec 64)) (n_set : ℕ) : Bool :=
  let selected_entry_cost := (mapping.dense_selection_stats dense).selected_entry_cost
  let clear_cost := mapping.estimate_missing_dense_clear_cost dense
  let scattered_dense_selected :=
    saturating_mul mapping.token_entries.len 2 ≤ saturating_mul n_set 3 &&
      saturating_mul mapping.buf_words 3 < selected_entry_cost
  !scattered_dense_selected && selected_entry_cost ≤ mapping.buf_words + clear_cost

def or_dense_to_buf_fast (dense : List (BitVec 64)) (buf : Words) (buf_zeroed : Bool) : Words :=
  let n_internal := mapping.token_entries.len
  if n_internal = 0 ∨ dense = [] then buf
  else
    let n_set := mapping.count_dense_set_bits 0 dense
    if n_internal ≤ n_set ∧ mapping.all_tokens_mask ≠ [] then
      if buf_zeroed then copy_dense buf mapping.all_tokens_mask
      else or_dense buf mapping.all_tokens_mask
    else if n_set = 0 then buf
    else if buf_zeroed && mapping.few_missing n_set then
      if mapping.add_is_cheaper dense n_set then
        mapping.or_selected_dense_fast dense buf buf_zeroed
      else mapping.andnot_missing_dense_fast dense (copy_dense buf mapping.all_tokens_mask)
    else mapping.or_selected_dense_fast dense buf buf_zeroed

def fill_dense_words (dense : List (BitVec 64)) (out : Words) : Words :=
  mapping.or_dense_to_buf_fast dense out true

def fill_dense_words_complement (dense : List (BitVec 64)) (out : Words) : Words :=
  mapping.andnot_missing_dense_fast dense (copy_dense out mapping.all_tokens_mask)

/-! ## Internal ids -/

/-- The state of a walk through a run of internal ids. -/
structure RunWalk where
  start : ℕ
  wrote : Bool
  out : Words

/-- `while` the condition holds at the start: act, and move the start on by `step`. -/
def walk (cond : ℕ → Bool) (step : ℕ) (act : ℕ → Words → Words × Bool) : ℕ → RunWalk → RunWalk
  | 0, state => state
  | fuel + 1, state =>
      if cond state.start then
        let written := act state.start state.out
        walk cond step act fuel
          ⟨state.start + step, state.wrote || written.2, written.1⟩
      else state

def or_internal_run (start stop : ℕ) (out : Words) (can_copy : Bool) : Words × Bool :=
  let tokens_4 := walk (fun start => start < stop && start % 4 != 0) 1 mapping.or_token
    stop ⟨start, false, out⟩
  let quads_8 := walk (fun start => start + 4 ≤ stop && start % 8 != 0) 4
    (fun start => mapping.or_quad_group (start / 4)) stop tokens_4
  let tokens_8 := walk (fun start => start < stop && start % 8 != 0) 1 mapping.or_token stop quads_8
  let bytes_64 := walk (fun start => start + 8 ≤ stop && start % 64 != 0) 8
    (fun start => mapping.or_byte_group (start / 8)) stop tokens_8
  let tokens_64 := walk (fun start => start < stop && start % 64 != 0) 1 mapping.or_token
    stop bytes_64
  let group_start := tokens_64.start / 64
  let group_end := stop / 64
  let groups :=
    if group_start < group_end then
      let written := mapping.or_full_group_run group_start group_end tokens_64.out
        (can_copy && !tokens_64.wrote)
      ⟨group_end * 64, tokens_64.wrote || written.2, written.1⟩
    else tokens_64
  let bytes := walk (fun start => start + 8 ≤ stop) 8
    (fun start => mapping.or_byte_group (start / 8)) stop groups
  let quads := walk (fun start => start + 4 ≤ stop) 4
    (fun start => mapping.or_quad_group (start / 4)) stop bytes
  let tokens := walk (fun start => start < stop) 1 mapping.or_token stop quads
  (tokens.out, tokens.wrote)

/-- The end of the run of consecutive ids, and the ids behind it. -/
def id_run : ℕ → List ℕ → ℕ × List ℕ
  | run_end, [] => (run_end, [])
  | run_end, id :: rest => if id = run_end then id_run (run_end + 1) rest else (run_end, id :: rest)

def or_tokens (internal_ids : List ℕ) (out : Words) : Words × Bool :=
  internal_ids.foldl (fun state internal_id =>
    let written := mapping.or_token internal_id state.1
    (written.1, state.2 || written.2)) (out, false)

def fill_runs_loop : ℕ → List ℕ → Bool → Words → Words
  | _, [], _, out => out
  | 0, _, _, out => out
  | fuel + 1, run_start :: rest, wrote, out =>
      let run := id_run (run_start + 1) rest
      let written :=
        if mapping.token_entries.len < run.1 then
          mapping.or_tokens ((run_start :: rest).take (run.1 - run_start)) out
        else mapping.or_internal_run run_start run.1 out !wrote
      fill_runs_loop fuel run.2 (wrote || written.2) written.1

def fill_internal_ids_by_runs (internal_ids : List ℕ) (out : Words) : Words :=
  mapping.fill_runs_loop internal_ids.length internal_ids false out

/-- Clear the tokens from `expected` up to `stop`. -/
def andnot_tokens (expected stop : ℕ) (out : Words) : Words :=
  (List.range' expected (stop - expected)).foldl (fun out id => mapping.andnot_token id out) out

def andnot_missing_ids_loop : ℕ → List ℕ → Words → Words
  | expected, [], out => mapping.andnot_tokens expected mapping.token_entries.len out
  | expected, selected :: rest, out =>
      if mapping.token_entries.len < selected then
        mapping.andnot_tokens expected mapping.token_entries.len out
      else andnot_missing_ids_loop (selected + 1) rest (mapping.andnot_tokens expected selected out)

def andnot_missing_ids (internal_ids : List ℕ) (out : Words) : Words :=
  mapping.andnot_missing_ids_loop 0 internal_ids out

def fill_internal_ids (internal_ids : List ℕ) (out : Words) : Words :=
  let n_internal := mapping.token_entries.len
  let selected := min internal_ids.length n_internal
  let missing := n_internal - selected
  if n_internal ≤ selected ∨ (n_internal * 4 ≤ selected * 5 ∧ missing ≤ 128) then
    mapping.andnot_missing_ids internal_ids (copy_dense out mapping.all_tokens_mask)
  else mapping.fill_internal_ids_by_runs internal_ids out

end FinalMaskMapping

end MaskMapping

end GlrMask
