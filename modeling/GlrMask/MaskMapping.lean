import GlrMask.BitScan
import GlrMask.WordBitmap
import Mathlib.Data.List.Sort

/-!
# Mapping internal tokens to the output mask

Each internal token stands for a list of original token ids. The mapping keeps,
for single tokens, for patterns of four and for groups of 4, 8, 16, 32 and 64,
the words of the output mask they touch, and dense masks where these are many.
-/

namespace GlrMask

namespace MaskMapping

open WordBitmap BitScan

/-- A mask of `u32` words. -/
abbrev Words := List (BitVec 32)

def zeros (buf_words : ℕ) : Words := List.replicate buf_words 0#32

structure SparseEntry where
  word_idx : BitVec 16
  mask : BitVec 32
deriving DecidableEq

structure EntryRange where
  start : BitVec 32
  len : BitVec 32

structure EntryTable where
  ranges : List EntryRange
  entries : List SparseEntry

namespace EntryTable

def push (table : EntryTable) (group : List SparseEntry) : EntryTable :=
  let start := table.entries.length
  let entries := table.entries ++ group
  ⟨table.ranges ++ [⟨BitVec.ofNat 32 start, BitVec.ofNat 32 (entries.length - start)⟩], entries⟩

def from_groups (groups : List (List SparseEntry)) : EntryTable := groups.foldl push ⟨[], []⟩

def len (table : EntryTable) : ℕ := table.ranges.length

def get (table : EntryTable) (index : ℕ) : Option (List SparseEntry) :=
  table.ranges[index]?.map (fun range =>
    (table.entries.drop range.start.toNat).take range.len.toNat)

end EntryTable

/-! ## Words of a mask -/

def or_sparse (out : Words) (entries : List SparseEntry) : Words :=
  entries.foldl (fun out entry => out.modify entry.word_idx.toNat (· ||| entry.mask)) out

def andnot_sparse (out : Words) (entries : List SparseEntry) : Words :=
  entries.foldl (fun out entry => out.modify entry.word_idx.toNat (· &&& ~~~entry.mask)) out

def or_dense (out mask : Words) : Words :=
  updateWords (fun _ b _ m => b ||| m) (min out.length mask.length) out [] mask

def andnot_dense (out mask : Words) : Words :=
  updateWords (fun _ b _ m => b &&& ~~~m) (min out.length mask.length) out [] mask

def copy_dense (out dense : Words) : Words :=
  let n := min out.length dense.length
  dense.take n ++ out.drop n

def or_prefix_diff (out before after : Words) : Words :=
  updateWords (fun _ b s e => b ||| (e &&& ~~~s))
    (min (min out.length before.length) after.length) out before after

def copy_prefix_diff (out before after : Words) : Words :=
  updateWords (fun _ _ s e => e &&& ~~~s)
    (min (min out.length before.length) after.length) out before after

def andnot_prefix_diff (out before after : Words) : Words :=
  updateWords (fun _ b s e => b &&& ~~~(e &&& ~~~s))
    (min (min out.length before.length) after.length) out before after

/-! ## Tables -/

def div_ceil (n d : ℕ) : ℕ := (n + d - 1) / d

/-- The entry of the word gets the bits, or a new entry where there is none. -/
def add_mask (word_idx : BitVec 16) (mask : BitVec 32) : List SparseEntry → List SparseEntry
  | [] => [⟨word_idx, mask⟩]
  | entry :: entries =>
      if entry.word_idx = word_idx then { entry with mask := entry.mask ||| mask } :: entries
      else entry :: add_mask word_idx mask entries

def token_entry (buf_words : ℕ) (original_ids : List ℕ) : List SparseEntry :=
  original_ids.foldl (fun entries original =>
    let word_idx := original / 32
    if buf_words ≤ word_idx then entries
    else add_mask (BitVec.ofNat 16 word_idx) (1#32 <<< (original % 32)) entries) []

def compute_token_entries (internal_to_original : List (List ℕ)) (buf_words : ℕ) :
    List (List SparseEntry) :=
  internal_to_original.map (token_entry buf_words)

/-- Add an entry to the dense words, and list its word if that was empty. -/
def touch (state : Words × List ℕ) (entry : SparseEntry) : Words × List ℕ :=
  let word_idx := entry.word_idx.toNat
  let touched := if state.1.getD word_idx 0#32 = 0#32 then state.2 ++ [word_idx] else state.2
  (state.1.modify word_idx (· ||| entry.mask), touched)

/-- Drop each value that the next one repeats. -/
def dedup : List ℕ → List ℕ
  | a :: b :: rest => if a = b then dedup (b :: rest) else a :: dedup (b :: rest)
  | rest => rest

/-- The entries of several tokens as one entry a word, in ascending order of the words. -/
def merge_entries (buf_words : ℕ) (token_entries : List (List SparseEntry)) : List SparseEntry :=
  let state := token_entries.foldl (fun state entries => entries.foldl touch state)
    (zeros buf_words, [])
  (dedup (state.2.insertionSort (· ≤ ·))).map
    (fun word_idx => ⟨BitVec.ofNat 16 word_idx, state.1.getD word_idx 0#32⟩)

def compute_block_entries (token_entries : List (List SparseEntry)) (buf_words block_size : ℕ) :
    List (List SparseEntry) :=
  (List.range (div_ceil token_entries.length block_size)).map (fun group_id =>
    let start := group_id * block_size
    let stop := min (start + block_size) token_entries.length
    merge_entries buf_words ((token_entries.take stop).drop start))

def build_group (token_entries : List (List SparseEntry)) (buf_words group_id : ℕ) :
    List (List SparseEntry) :=
  let start := group_id * 4
  let stop := min (start + 4) token_entries.length
  [] :: (List.range' 1 15).map (fun pattern =>
    merge_entries buf_words ((List.range 4).filterMap (fun bit =>
      if pattern.testBit bit = false then none
      else if stop ≤ start + bit then none
      else token_entries[start + bit]?)))

def compute_quad_pattern_entries (token_entries : List (List SparseEntry)) (buf_words : ℕ) :
    List (List SparseEntry) :=
  (List.range (div_ceil token_entries.length 4)).flatMap (build_group token_entries buf_words)

def compute_entry_prefix (group_entries : List (List SparseEntry)) : List ℕ :=
  group_entries.scanl (fun total group => total + group.length) 0

def compute_dense_prefix (group_entries : List (List SparseEntry)) (buf_words : ℕ) : List Words :=
  group_entries.scanl or_sparse (zeros buf_words)

def dense_group_threshold (buf_words : ℕ) : ℕ := max (buf_words / 4) 64

def compute_heavy_group_dense (group_entries : List (List SparseEntry)) (buf_words threshold : ℕ) :
    List (Option Words) :=
  group_entries.map (fun entries =>
    if entries.length ≤ threshold then none else some (or_sparse (zeros buf_words) entries))

/-- The sums of the chunks of 64. -/
def chunk_sums (lens : List ℕ) : List ℕ :=
  (List.range (div_ceil lens.length 64)).map (fun wi => ((lens.drop (wi * 64)).take 64).sum)

structure FinalMaskMapping where
  token_entries : EntryTable
  token_entry_lens : List ℕ
  word_entry_len_sums : List ℕ
  quad_pattern_entries : EntryTable
  quad_pattern_dense : List (Option Words)
  quad_group_entries : EntryTable
  quad_group_dense : List (Option Words)
  byte_group_entries : EntryTable
  byte_group_dense : List (Option Words)
  halfword_group_entries : EntryTable
  halfword_group_dense : List (Option Words)
  word32_group_entries : EntryTable
  word32_group_dense : List (Option Words)
  word_group_entries : EntryTable
  word_group_dense : List (Option Words)
  word_group_entry_prefix : List ℕ
  word_group_dense_prefix : List Words
  all_tokens_mask : Words
  buf_words : ℕ

namespace FinalMaskMapping

def new (internal_to_original : List (List ℕ)) (buf_words : ℕ) : FinalMaskMapping :=
  let token_entries := compute_token_entries internal_to_original buf_words
  let token_entry_lens := token_entries.map List.length
  let quad_pattern_entries := compute_quad_pattern_entries token_entries buf_words
  let quad_group_entries := compute_block_entries token_entries buf_words 4
  let byte_group_entries := compute_block_entries token_entries buf_words 8
  let halfword_group_entries := compute_block_entries token_entries buf_words 16
  let word32_group_entries := compute_block_entries token_entries buf_words 32
  let word_group_entries := compute_block_entries token_entries buf_words 64
  let threshold := dense_group_threshold buf_words
  let word_group_dense_prefix := compute_dense_prefix word_group_entries buf_words
  { token_entries := EntryTable.from_groups token_entries
    token_entry_lens := token_entry_lens
    word_entry_len_sums := chunk_sums token_entry_lens
    quad_pattern_entries := EntryTable.from_groups quad_pattern_entries
    quad_pattern_dense := compute_heavy_group_dense quad_pattern_entries buf_words threshold
    quad_group_entries := EntryTable.from_groups quad_group_entries
    quad_group_dense := compute_heavy_group_dense quad_group_entries buf_words threshold
    byte_group_entries := EntryTable.from_groups byte_group_entries
    byte_group_dense := compute_heavy_group_dense byte_group_entries buf_words threshold
    halfword_group_entries := EntryTable.from_groups halfword_group_entries
    halfword_group_dense := compute_heavy_group_dense halfword_group_entries buf_words threshold
    word32_group_entries := EntryTable.from_groups word32_group_entries
    word32_group_dense := compute_heavy_group_dense word32_group_entries buf_words threshold
    word_group_entries := EntryTable.from_groups word_group_entries
    word_group_dense := compute_heavy_group_dense word_group_entries buf_words threshold
    word_group_entry_prefix := compute_entry_prefix word_group_entries
    word_group_dense_prefix := word_group_dense_prefix
    all_tokens_mask := word_group_dense_prefix.getLast?.getD (zeros buf_words)
    buf_words := buf_words }

end FinalMaskMapping

end MaskMapping

end GlrMask
