import Mathlib.Data.List.Lex
import Mathlib.Data.List.Sort
import Mathlib.Data.List.TakeWhile
import Mathlib.Data.Finset.Lattice.Fold
import Mathlib.Tactic

/-!
# The vocabulary prefix tree

A compressed radix tree over the byte strings of a vocabulary. A node stores its
whole prefix, the token that ends there, the ids below it and a mask of the
bytes below it. The tree is built from sorted entries: a group of entries with
the same next byte becomes one child, whose prefix is what its first and its
last entry have in common.
-/

namespace GlrMask

abbrev Byte := Fin 256

instance (priority := high) byte_neZero : NeZero (256 : ℕ) := ⟨by decide⟩

abbrev VocabEntry := ℕ × List Byte

/-! ## Byte masks -/

/-- Four machine words with one bit for each byte. -/
abbrev ByteMask := Fin 4 → BitVec 64

def wordOf (byte : Byte) : Fin 4 := ⟨byte.val / 64, by have := byte.isLt; omega⟩

def insert_byte (mask : ByteMask) (byte : Byte) : ByteMask :=
  Function.update mask (wordOf byte) (mask (wordOf byte) ||| (1#64 <<< (byte.val % 64)))

def insert_bytes_into_mask (mask : ByteMask) (bytes : List Byte) : ByteMask :=
  bytes.foldl insert_byte mask

def mergeMasks (a b : ByteMask) : ByteMask := fun word => a word ||| b word

def ByteMask.contains (mask : ByteMask) (byte : Byte) : Bool :=
  (mask (wordOf byte)).getLsbD (byte.val % 64)

/-! ## Nodes -/

inductive VocabPrefixTreeNode
  | mk (token_id : ℕ) (has_token : Bool) (prefixBytes : List Byte)
      (children : List VocabPrefixTreeNode) (reachable_token_ids : Finset ℕ)
      (subtree_bytes : ByteMask)

namespace VocabPrefixTreeNode

def token_id : VocabPrefixTreeNode → ℕ | mk id _ _ _ _ _ => id

def has_token : VocabPrefixTreeNode → Bool | mk _ has _ _ _ _ => has

def prefixBytes : VocabPrefixTreeNode → List Byte | mk _ _ bytes _ _ _ => bytes

def children : VocabPrefixTreeNode → List VocabPrefixTreeNode | mk _ _ _ children _ _ => children

def reachable_token_ids : VocabPrefixTreeNode → Finset ℕ | mk _ _ _ _ ids _ => ids

def subtree_bytes : VocabPrefixTreeNode → ByteMask | mk _ _ _ _ _ bytes => bytes

/-- The child whose edge starts with a byte; the children are sorted by that byte. -/
def find_child (self : VocabPrefixTreeNode) (next_byte : Byte) : Option VocabPrefixTreeNode :=
  self.children.find? fun child => child.prefixBytes[self.prefixBytes.length]? = some next_byte

def child_edge_label (self child : VocabPrefixTreeNode) : List Byte :=
  child.prefixBytes.drop self.prefixBytes.length

end VocabPrefixTreeNode

open VocabPrefixTreeNode

/-- Add the bytes of the edge to a child and everything the child has recorded. -/
def merge_child_metadata (parent_prefix_len : ℕ) (metadata : Finset ℕ × ByteMask)
    (child : VocabPrefixTreeNode) : Finset ℕ × ByteMask :=
  (metadata.1 ∪ child.reachable_token_ids,
    mergeMasks (insert_bytes_into_mask metadata.2 (child.prefixBytes.drop parent_prefix_len))
      child.subtree_bytes)

/-! ## Building -/

/-- The number of leading positions at which two byte strings agree. -/
def commonLen : List Byte → List Byte → ℕ
  | a :: as, b :: bs => if a = b then commonLen as bs + 1 else 0
  | _, _ => 0

def lcp_len (a b : List Byte) (start : ℕ) : ℕ := start + commonLen (a.drop start) (b.drop start)

/-- The entries of one group: there is one, and all have the same byte at `position`. -/
structure Group (entries : List VocabEntry) (position : ℕ) : Prop where
  ne : entries ≠ []
  shared : ∃ byte, ∀ e ∈ entries, e.2[position]? = some byte

def sharesByte (position : ℕ) (byte : Byte) (e : VocabEntry) : Bool := e.2[position]? = some byte

def bytesLeft (entries : List VocabEntry) (position : ℕ) : ℕ :=
  (entries.map fun e => e.2.length + 1 - position).sum

theorem group_takeWhile {e : VocabEntry} {entries : List VocabEntry} {position : ℕ} {byte : Byte}
    (he : e.2[position]? = some byte) :
    Group (e :: entries.takeWhile (sharesByte position byte)) position := by
  refine ⟨by simp, byte, ?_⟩
  intro x hx
  rcases List.mem_cons.mp hx with rfl | hx
  · exact he
  · simpa [sharesByte] using List.mem_takeWhile_imp hx

theorem commonLen_pos {a b : List Byte} {byte : Byte} (ha : a[0]? = some byte)
    (hb : b[0]? = some byte) : 0 < commonLen a b := by
  cases a with
  | nil => simp at ha
  | cons x a =>
      cases b with
      | nil => simp at hb
      | cons y b =>
          simp only [List.getElem?_cons_zero, Option.some.injEq] at ha hb
          rw [commonLen, if_pos (ha.trans hb.symm)]
          omega

theorem Group.lt_lcp_len {entries : List VocabEntry} {position : ℕ} (h : Group entries position) :
    position < lcp_len (entries.head h.ne).2 (entries.getLast h.ne).2 position := by
  obtain ⟨byte, hb⟩ := h.shared
  have hfirst := hb _ (List.head_mem h.ne)
  have hlast := hb _ (List.getLast_mem h.ne)
  have hpos := @commonLen_pos ((entries.head h.ne).2.drop position)
    ((entries.getLast h.ne).2.drop position) byte (by simpa using hfirst) (by simpa using hlast)
  rw [lcp_len]
  omega

theorem bytesLeft_anti (entries : List VocabEntry) {p q : ℕ} (h : p ≤ q) :
    bytesLeft entries q ≤ bytesLeft entries p := by
  apply List.sum_le_sum
  intro e _
  omega

theorem bytesLeft_split (p : VocabEntry → Bool) (entries : List VocabEntry) (position : ℕ) :
    bytesLeft (entries.takeWhile p) position + bytesLeft (entries.dropWhile p) position =
      bytesLeft entries position := by
  simp only [bytesLeft, ← List.sum_append, ← List.map_append, List.takeWhile_append_dropWhile]

theorem Group.bytesLeft_lt {entries : List VocabEntry} {position q : ℕ} (h : Group entries position)
    (hq : position < q) : bytesLeft entries q < bytesLeft entries position := by
  obtain ⟨byte, hb⟩ := h.shared
  cases entries with
  | nil => exact absurd rfl h.ne
  | cons e entries =>
      have hlt := (List.getElem?_eq_some_iff.mp (hb e List.mem_cons_self)).1
      have htl := bytesLeft_anti entries hq.le
      simp only [bytesLeft, List.map_cons, List.sum_cons] at htl ⊢
      omega

theorem bytesLeft_tail (entries : List VocabEntry) (position : ℕ) :
    bytesLeft entries.tail position ≤ bytesLeft entries position := by
  cases entries with
  | nil => exact le_rfl
  | cons e entries =>
      simp only [bytesLeft, List.tail_cons, List.map_cons, List.sum_cons]
      omega

mutual

/-- One child for each maximal group of consecutive entries with the same next byte. The
source indexes past the end of an entry that has no next byte. -/
def build_children (entries : List VocabEntry) (parent_prefix_len : ℕ) :
    List VocabPrefixTreeNode :=
  match entries with
  | [] => []
  | e :: rest =>
      match he : e.2[parent_prefix_len]? with
      | none => []
      | some next_byte =>
          build_subtree (e :: rest.takeWhile (sharesByte parent_prefix_len next_byte))
              parent_prefix_len (group_takeWhile he) ::
            build_children (rest.dropWhile (sharesByte parent_prefix_len next_byte))
              parent_prefix_len
termination_by 2 * bytesLeft entries parent_prefix_len + 1
decreasing_by
  all_goals
    have hsplit := bytesLeft_split (sharesByte parent_prefix_len next_byte) rest parent_prefix_len
    have hlt := (List.getElem?_eq_some_iff.mp he).1
    simp only [bytesLeft, List.map_cons, List.sum_cons] at hsplit ⊢
    omega

def build_subtree (entries : List VocabEntry) (parent_prefix_len : ℕ)
    (h : Group entries parent_prefix_len) : VocabPrefixTreeNode :=
  let first := entries.head h.ne
  let last := entries.getLast h.ne
  let prefix_len := lcp_len first.2 last.2 parent_prefix_len
  let has_token := first.2.length = prefix_len
  let token_id := if has_token then first.1 else 0
  let child_entries := if has_token then entries.tail else entries
  let children := build_children child_entries prefix_len
  let metadata := children.foldl (merge_child_metadata prefix_len)
    (if has_token then {token_id} else ∅, fun _ => 0#64)
  .mk token_id has_token (first.2.take prefix_len) children metadata.1 metadata.2
termination_by 2 * bytesLeft entries parent_prefix_len
decreasing_by
  have hlt := h.bytesLeft_lt h.lt_lcp_len
  have htl := bytesLeft_tail entries (lcp_len (entries.head h.ne).2 (entries.getLast h.ne).2
    parent_prefix_len)
  split_ifs <;> omega

end

structure VocabPrefixTree where
  root : VocabPrefixTreeNode
  max_token_id : ℕ
  has_empty_string_token : Bool

def build_presorted (tokens : List VocabEntry) : VocabPrefixTree :=
  let max_token_id := (tokens.map Prod.fst).foldr max 0
  match tokens with
  | [] => ⟨.mk 0 false [] [] ∅ fun _ => 0#64, max_token_id, false⟩
  | first :: rest =>
      let has_empty := first.2.isEmpty
      let entries := if has_empty then rest else first :: rest
      let children := build_children entries 0
      let metadata := children.foldl (merge_child_metadata 0)
        (if has_empty then {first.1} else ∅, fun _ => 0#64)
      ⟨.mk (if has_empty then first.1 else 0) has_empty [] children metadata.1 metadata.2,
        max_token_id, has_empty⟩

/-- Of neighbours with the same bytes the last id is kept. -/
def dedup_tokens : List VocabEntry → List VocabEntry
  | [] => []
  | [e] => [e]
  | e :: e' :: entries =>
      if e.2 = e'.2 then dedup_tokens ((e'.1, e.2) :: entries)
      else e :: dedup_tokens (e' :: entries)
termination_by entries => entries.length

def sort_and_dedup_tokens (tokens : List VocabEntry) : List VocabEntry :=
  dedup_tokens (tokens.insertionSort fun left right => left.2 ≤ right.2)

def build_owned (tokens : List VocabEntry) : VocabPrefixTree :=
  build_presorted (sort_and_dedup_tokens tokens)

/-! ## Lookups -/

def next_matching_child (current : VocabPrefixTreeNode) (remaining : List Byte) :
    Option (VocabPrefixTreeNode × List Byte) :=
  match remaining with
  | [] => none
  | next_byte :: _ =>
      match current.find_child next_byte with
      | none => none
      | some child =>
          let edge := current.child_edge_label child
          if edge <+: remaining then some (child, remaining.drop edge.length) else none

theorem find_child_eq_some {n c : VocabPrefixTreeNode} {byte : Byte}
    (h : n.find_child byte = some c) :
    c ∈ n.children ∧ c.prefixBytes[n.prefixBytes.length]? = some byte :=
  ⟨List.mem_of_find?_eq_some h, by simpa using List.find?_some h⟩

theorem next_matching_child_eq_some {n c : VocabPrefixTreeNode} {remaining rest : List Byte}
    (h : next_matching_child n remaining = some (c, rest)) :
    c ∈ n.children ∧ remaining = n.child_edge_label c ++ rest ∧
      rest.length < remaining.length := by
  unfold next_matching_child at h
  split at h
  · cases h
  · rename_i byte bytes
    split at h
    · cases h
    · rename_i child hchild
      obtain ⟨hmem, hbyte⟩ := find_child_eq_some hchild
      dsimp only at h
      split_ifs at h with hpre
      obtain ⟨rfl, rfl⟩ := Prod.mk.inj (Option.some.inj h)
      obtain ⟨s, hs⟩ := hpre
      have hlt := (List.getElem?_eq_some_iff.mp hbyte).1
      have hedge : 0 < (n.child_edge_label child).length := by
        rw [child_edge_label, List.length_drop]
        omega
      refine ⟨hmem, ?_, ?_⟩
      · rw [← hs, List.drop_left]
      · rw [List.length_drop, List.length_cons]
        omega

def findFrom (current : VocabPrefixTreeNode) (remaining : List Byte) : Option ℕ :=
  match _h : next_matching_child current remaining with
  | none => none
  | some (child, rest) =>
      if rest.isEmpty then if child.has_token then some child.token_id else none
      else findFrom child rest
termination_by remaining.length
decreasing_by exact (next_matching_child_eq_some _h).2.2

def VocabPrefixTree.find_token (self : VocabPrefixTree) (bytes : List Byte) : Option ℕ :=
  if bytes.isEmpty then if self.has_empty_string_token then some self.root.token_id else none
  else findFrom self.root bytes

/-- Walk down while edges match, remembering the last token on the way. -/
def longestFrom (current : VocabPrefixTreeNode) (remaining : List Byte)
    (best : Option VocabEntry) : Option VocabEntry :=
  match _h : next_matching_child current remaining with
  | none => best
  | some (child, rest) =>
      longestFrom child rest
        (if child.has_token then some (child.token_id, child.prefixBytes) else best)
termination_by remaining.length
decreasing_by exact (next_matching_child_eq_some _h).2.2

def VocabPrefixTree.find_longest_prefix_token (self : VocabPrefixTree) (bytes : List Byte) :
    Option VocabEntry :=
  longestFrom self.root bytes
    (if self.has_empty_string_token then some (self.root.token_id, self.root.prefixBytes) else none)

/-! ## The entries of a node -/

mutual

def VocabPrefixTreeNode.tokens : VocabPrefixTreeNode → List VocabEntry
  | .mk token_id has_token prefixBytes children _ _ =>
      (if has_token then [(token_id, prefixBytes)] else []) ++ forestTokens children

def forestTokens : List VocabPrefixTreeNode → List VocabEntry
  | [] => []
  | c :: children => c.tokens ++ forestTokens children

end

mutual

/-- The node itself and every node below it. -/
def VocabPrefixTreeNode.nodes : VocabPrefixTreeNode → List VocabPrefixTreeNode
  | .mk token_id has_token prefixBytes children ids bytes =>
      .mk token_id has_token prefixBytes children ids bytes :: forestNodes children

def forestNodes : List VocabPrefixTreeNode → List VocabPrefixTreeNode
  | [] => []
  | c :: children => c.nodes ++ forestNodes children

end

end GlrMask
