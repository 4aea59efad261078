import GlrMask.GssUpper
import GlrMask.SortedMap

/-!
# The accumulator of the mask walk

An accumulator has a bitmap of tokens for each tokenizer state, the bitmaps as lists of
words. Merging takes the bits of both, where a list that has ended has no bits.
-/

namespace GlrMask

structure DenseMaskAcc where
  entries : SortedMap ℕ (List (BitVec 64))
deriving DecidableEq

namespace DenseMaskAcc

/-- The words of both lists, up to the end of the longer one. -/
def combine : List (BitVec 64) → List (BitVec 64) → List (BitVec 64)
  | [], right => right
  | left, [] => left
  | a :: left, b :: right => (a ||| b) :: combine left right

def is_empty (acc : DenseMaskAcc) : Bool := acc.entries.entries.isEmpty

/-- Put the bitmap of a state into its place. -/
def merge_entry (merged : SortedMap ℕ (List (BitVec 64))) (e : ℕ × List (BitVec 64)) :
    SortedMap ℕ (List (BitVec 64)) :=
  match merged.get e.1 with
  | some dense => merged.insert e.1 (combine dense e.2)
  | none => merged.insert e.1 e.2

def merge (acc other : DenseMaskAcc) : DenseMaskAcc :=
  if acc.is_empty then other
  else if other.is_empty then acc
  else
    match acc.entries.entries, other.entries.entries with
    | [(left_key, left_dense)], [(right_key, right_dense)] =>
        if left_key ≠ right_key then
          ⟨(SortedMap.empty.insert left_key left_dense).insert right_key right_dense⟩
        else if left_dense = right_dense then acc
        else ⟨SortedMap.empty.insert left_key (combine left_dense right_dense)⟩
    | _, entries => ⟨entries.foldl merge_entry acc.entries⟩

theorem combine_nil (left : List (BitVec 64)) : combine left [] = left := by
  cases left <;> rfl

theorem combine_comm (left right : List (BitVec 64)) : combine left right = combine right left := by
  fun_induction combine left right with
  | case1 right => exact (combine_nil right).symm
  | case2 left => rfl
  | case3 a left b right ih => rw [combine, ih, BitVec.or_comm]

theorem combine_assoc (left middle right : List (BitVec 64)) :
    combine (combine left middle) right = combine left (combine middle right) := by
  induction left generalizing middle right with
  | nil => rfl
  | cons a left ih =>
      cases middle with
      | nil => rfl
      | cons b middle =>
          cases right with
          | nil => rfl
          | cons c right => simp only [combine, ih, BitVec.or_assoc]

theorem combine_self (dense : List (BitVec 64)) : combine dense dense = dense := by
  induction dense with
  | nil => rfl
  | cons a dense ih => rw [combine, ih, BitVec.or_self]

open SortedMap

theorem get_foldl_merge_entry {entries : List (ℕ × List (BitVec 64))}
    (h : entries.Pairwise fun a b => a.1 < b.1) (merged : SortedMap ℕ (List (BitVec 64)))
    (tsid : ℕ) :
    (entries.foldl merge_entry merged).get tsid =
      joinValues combine (merged.get tsid) (lookupEntry entries tsid) := by
  induction entries generalizing merged with
  | nil =>
      rw [List.foldl_nil]
      cases merged.get tsid <;> rfl
  | cons e entries ih =>
      have hput : (merge_entry merged e).get tsid = if e.1 = tsid then
          joinValues combine (merged.get tsid) (some e.2) else merged.get tsid := by
        unfold merge_entry
        by_cases htsid : e.1 = tsid
        · subst htsid
          cases hget : merged.get e.1 <;> simp [get_insert, joinValues]
        · cases hget : merged.get e.1 <;> simp [get_insert, htsid]
      rw [List.foldl_cons, ih h.tail, hput, lookupEntry_cons]
      split_ifs with htsid
      · have hnone : lookupEntry entries tsid = none := by
          apply lookupEntry_of_lt
          intro e' he'
          exact htsid ▸ List.rel_of_pairwise_cons h he'
        rw [hnone]
        cases merged.get tsid <;> rfl
      · rfl

/-- Merging takes the bits of both at every tokenizer state. -/
theorem get_merge (acc other : DenseMaskAcc) (tsid : ℕ) :
    (acc.merge other).entries.get tsid =
      joinValues combine (acc.entries.get tsid) (other.entries.get tsid) := by
  have hgeneral := get_foldl_merge_entry other.entries.sorted acc.entries tsid
  obtain ⟨⟨left, hleft⟩⟩ := acc
  obtain ⟨⟨right, hright⟩⟩ := other
  unfold merge is_empty
  dsimp only
  split_ifs with hl hr
  · obtain rfl := List.isEmpty_iff.mp hl
    change lookupEntry right tsid = joinValues combine none (lookupEntry right tsid)
    cases lookupEntry right tsid <;> rfl
  · obtain rfl := List.isEmpty_iff.mp hr
    change lookupEntry left tsid = joinValues combine (lookupEntry left tsid) none
    cases lookupEntry left tsid <;> rfl
  · split
    · rename_i left_key left_dense right_key right_dense
      change SortedMap.get (DenseMaskAcc.entries (ite _ _ (ite _ _ _))) tsid =
        joinValues combine (if left_key = tsid then some left_dense else none)
          (if right_key = tsid then some right_dense else none)
      by_cases hkey : left_key = right_key
      · subst hkey
        rw [if_neg (not_not.mpr rfl)]
        by_cases hdense : left_dense = right_dense
        · subst hdense
          rw [if_pos rfl]
          change (if left_key = tsid then some left_dense else none) = _
          split_ifs
          · exact congrArg some (combine_self left_dense).symm
          · rfl
        · rw [if_neg hdense, get_insert]
          split_ifs <;> rfl
      · rw [if_pos hkey, get_insert, get_insert]
        split_ifs with hright hleft
        · exact absurd (hleft.trans hright.symm) hkey
        all_goals rfl
    · exact hgeneral

instance : Max DenseMaskAcc := ⟨merge⟩

theorem ext_get {acc other : DenseMaskAcc}
    (h : ∀ tsid, acc.entries.get tsid = other.entries.get tsid) : acc = other := by
  obtain ⟨entries⟩ := acc
  obtain ⟨entries'⟩ := other
  exact congrArg mk (SortedMap.ext_get h)

/-- The trait keeps its default, by which no accumulator is known to subsume another. -/
instance : Merge DenseMaskAcc where
  toSemilatticeSup := SemilatticeSup.mk'
    (fun acc other => ext_get fun tsid => by
      change (merge acc other).entries.get tsid = (merge other acc).entries.get tsid
      rw [get_merge, get_merge]
      cases acc.entries.get tsid <;> cases other.entries.get tsid <;>
        simp [joinValues, combine_comm])
    (fun acc other third => ext_get fun tsid => by
      change (merge (merge acc other) third).entries.get tsid =
        (merge acc (merge other third)).entries.get tsid
      simp only [get_merge]
      cases acc.entries.get tsid <;> cases other.entries.get tsid <;>
        cases third.entries.get tsid <;> simp [joinValues, combine_assoc])
    (fun acc => ext_get fun tsid => by
      change (merge acc acc).entries.get tsid = acc.entries.get tsid
      rw [get_merge]
      cases acc.entries.get tsid <;> simp [joinValues, combine_self])
  subsumes _ _ := false
  le_of_subsumes h := by cases h

end DenseMaskAcc

end GlrMask
