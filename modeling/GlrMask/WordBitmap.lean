import Mathlib

/-!
# Bitmaps stored in words

A list of words of `w` bits holds a set of numbers: number `n` is bit `n % w` of
word `n / w`. Updates are described by the set they add or clear.
-/

namespace GlrMask

namespace WordBitmap

variable {w : ℕ}

def bitAt (words : List (BitVec w)) (n : ℕ) : Bool := (words.getD (n / w) 0#w).getLsbD (n % w)

/-- The numbers whose bits are set. -/
def members (words : List (BitVec w)) : Set ℕ := {n | bitAt words n = true}

@[simp] theorem mem_members {words : List (BitVec w)} {n : ℕ} :
    n ∈ members words ↔ bitAt words n = true := Iff.rfl

theorem bitAt_eq_false_of_le {words : List (BitVec w)} {n : ℕ} (h : words.length ≤ n / w) :
    bitAt words n = false := by
  unfold bitAt
  rw [List.getD_eq_default _ _ h, BitVec.getLsbD_zero]

theorem div_lt_of_mem {words : List (BitVec w)} {n : ℕ} (h : n ∈ members words) :
    n / w < words.length := by
  by_contra hle
  rw [mem_members, bitAt_eq_false_of_le (not_lt.mp hle)] at h
  contradiction

@[simp] theorem members_zeros (k : ℕ) : members (List.replicate k 0#w) = ∅ := by
  ext n
  simp [bitAt, List.getD_eq_getElem?_getD, List.getElem?_replicate]
  split <;> simp

/-! ## One word -/

/-- The numbers that a mask stands for in a word. -/
def maskBits (i : ℕ) (mask : BitVec w) : Set ℕ := {n | n / w = i ∧ mask.getLsbD (n % w) = true}

theorem getD_modify {words : List (BitVec w)} (i k : ℕ) (f : BitVec w → BitVec w)
    (hi : i < words.length) :
    (words.modify i f).getD k 0#w = if i = k then f (words.getD k 0#w) else words.getD k 0#w := by
  simp only [List.getD_eq_getElem?_getD, List.getElem?_modify]
  by_cases hik : i = k
  · subst hik
    simp [hi]
  · simp [hik]

theorem members_modify_or {words : List (BitVec w)} {i : ℕ} (mask : BitVec w)
    (hi : i < words.length) :
    members (words.modify i (· ||| mask)) = members words ∪ maskBits i mask := by
  ext n
  simp only [mem_members, bitAt, getD_modify _ _ _ hi, maskBits, Set.mem_union, Set.mem_ofPred_eq]
  by_cases hn : i = n / w
  · simp [hn]
  · have hne : ¬n / w = i := fun h => hn h.symm
    simp [hn, hne]

theorem members_modify_andnot {words : List (BitVec w)} {i : ℕ} (mask : BitVec w)
    (hi : i < words.length) :
    members (words.modify i (· &&& ~~~mask)) = members words \ maskBits i mask := by
  ext n
  simp only [mem_members, bitAt, getD_modify _ _ _ hi, maskBits, Set.mem_sdiff, Set.mem_ofPred_eq]
  by_cases hn : i = n / w
  · rcases Nat.eq_zero_or_pos w with hw | hw
    · subst hw
      simp [BitVec.getLsbD_of_ge]
    · simp [hn, Nat.mod_lt n hw]
  · have hne : ¬n / w = i := fun h => hn h.symm
    simp [hn, hne]

/-! ## Many words, two at a time -/

/-- Words `offset` and `offset + 1` as one double word, the first in the low half. -/
def readPair (words : List (BitVec w)) (offset : ℕ) : BitVec (w + w) :=
  words.getD (offset + 1) 0#w ++ words.getD offset 0#w

def writePair (words : List (BitVec w)) (offset : ℕ) (pair : BitVec (w + w)) : List (BitVec w) :=
  (words.set offset (pair.extractLsb' 0 w)).set (offset + 1) (pair.extractLsb' w w)

/-- A word operation of any width that acts on each bit by `f`. -/
def Bitwise (op : (v : ℕ) → BitVec v → BitVec v → BitVec v → BitVec v)
    (f : Bool → Bool → Bool → Bool) : Prop :=
  ∀ v x y z i, i < v → (op v x y z).getLsbD i = f (x.getLsbD i) (y.getLsbD i) (z.getLsbD i)

/-- Update the first `n` words from two other lists: in double words, and a last
single word where `n` is odd. -/
def updateWords (op : (v : ℕ) → BitVec v → BitVec v → BitVec v → BitVec v) (n : ℕ)
    (words left right : List (BitVec w)) : List (BitVec w) :=
  let n_pairs := n / 2
  let paired := (List.range n_pairs).foldl (fun words i =>
    let offset := i * 2
    writePair words offset
      (op (w + w) (readPair words offset) (readPair left offset) (readPair right offset))) words
  (List.range' (n_pairs * 2) (n - n_pairs * 2)).foldl (fun words i =>
    words.set i (op w (words.getD i 0#w) (left.getD i 0#w) (right.getD i 0#w))) paired

theorem getD_set (words : List (BitVec w)) (i k : ℕ) (x : BitVec w) (hi : i < words.length) :
    (words.set i x).getD k 0#w = if i = k then x else words.getD k 0#w := by
  simp only [List.getD_eq_getElem?_getD, List.getElem?_set]
  by_cases hik : i = k
  · subst hik
    simp [hi]
  · simp [hik]

section Pairs

variable {op : (v : ℕ) → BitVec v → BitVec v → BitVec v → BitVec v} {f : Bool → Bool → Bool → Bool}

/-- On a double word a bitwise operation acts on the two halves. -/
theorem Bitwise.append (hop : Bitwise op f) (a b c d e g : BitVec w) :
    op (w + w) (a ++ b) (c ++ d) (e ++ g) = op w a c e ++ op w b d g := by
  apply BitVec.eq_of_getLsbD_eq
  intro i hi
  rw [hop _ _ _ _ i hi, BitVec.getLsbD_append, BitVec.getLsbD_append, BitVec.getLsbD_append,
    BitVec.getLsbD_append]
  by_cases hlow : i < w
  · simp only [hlow, if_true]
    exact (hop _ _ _ _ i hlow).symm
  · simp only [hlow, if_false]
    exact (hop _ _ _ _ (i - w) (by omega)).symm

theorem writePair_append (words : List (BitVec w)) (offset : ℕ) (x y : BitVec w) :
    writePair words offset (x ++ y) = (words.set offset y).set (offset + 1) x := by
  unfold writePair
  rw [BitVec.extractLsb'_append_eq_of_add_le (by omega),
    BitVec.extractLsb'_append_eq_of_le (le_refl w)]
  simp

/-- The words where `op` was applied to those below `k`. -/
def UpdatedBelow (op : (v : ℕ) → BitVec v → BitVec v → BitVec v → BitVec v) (k : ℕ)
    (words left right words' : List (BitVec w)) : Prop :=
  words'.length = words.length ∧ ∀ i, words'.getD i 0#w =
    if i < k then op w (words.getD i 0#w) (left.getD i 0#w) (right.getD i 0#w)
    else words.getD i 0#w

theorem UpdatedBelow.step {words left right words' : List (BitVec w)} {k : ℕ}
    (h : UpdatedBelow op k words left right words') (hk : k < words.length) :
    UpdatedBelow op (k + 1) words left right
      (words'.set k (op w (words'.getD k 0#w) (left.getD k 0#w) (right.getD k 0#w))) := by
  refine ⟨by rw [List.length_set, h.1], ?_⟩
  intro i
  rw [getD_set _ _ _ _ (by rw [h.1]; exact hk), h.2 k, if_neg (lt_irrefl k), h.2 i]
  by_cases hik : k = i
  · subst hik
    simp
  · rw [if_neg hik]
    by_cases hi : i < k
    · rw [if_pos hi, if_pos (by omega)]
    · rw [if_neg hi, if_neg (by omega)]

/-- A double word is two single words. -/
theorem UpdatedBelow.pair {words left right words' : List (BitVec w)} {k : ℕ}
    (hop : Bitwise op f) (h : UpdatedBelow op k words left right words')
    (hk : k + 1 < words.length) :
    UpdatedBelow op (k + 2) words left right (writePair words' k
      (op (w + w) (readPair words' k) (readPair left k) (readPair right k))) := by
  have hfirst := h.step (by omega)
  have hsecond := hfirst.step hk
  have hlen : k < words'.length := by rw [h.1]; omega
  rw [getD_set _ _ _ _ hlen, if_neg (by omega)] at hsecond
  unfold readPair
  rw [hop.append, writePair_append]
  exact hsecond

theorem updatedBelow_updateWords (hop : Bitwise op f) {n : ℕ} {words left right : List (BitVec w)}
    (hn : n ≤ words.length) :
    UpdatedBelow op n words left right (updateWords op n words left right) := by
  have hpairs : ∀ k, k * 2 ≤ words.length → UpdatedBelow op (k * 2) words left right
      ((List.range k).foldl (fun words i => writePair words (i * 2) (op (w + w)
        (readPair words (i * 2)) (readPair left (i * 2)) (readPair right (i * 2)))) words) := by
    intro k
    induction k with
    | zero =>
      intro _
      exact ⟨rfl, fun i => by simp⟩
    | succ k ih =>
      intro hk
      rw [List.range_succ, List.foldl_append, Nat.succ_mul]
      exact (ih (by omega)).pair hop (by omega)
  have hpaired := hpairs (n / 2) (by omega)
  unfold updateWords
  rcases Nat.mod_two_eq_zero_or_one n with heven | hodd
  · have heq : n / 2 * 2 = n := by omega
    have hnone : n - n / 2 * 2 = 0 := by omega
    rw [heq] at hpaired
    simpa only [hnone, List.range'_zero, List.foldl_nil] using hpaired
  · have heq : n / 2 * 2 + 1 = n := by omega
    have hone : n - n / 2 * 2 = 1 := by omega
    have hlast := hpaired.step (by omega)
    rw [heq] at hlast
    simpa only [hone, List.range'_one, List.foldl_cons, List.foldl_nil] using hlast

theorem length_updateWords (hop : Bitwise op f) {n : ℕ} {words left right : List (BitVec w)}
    (hn : n ≤ words.length) : (updateWords op n words left right).length = words.length :=
  (updatedBelow_updateWords hop hn).1

theorem bitAt_updateWords (hop : Bitwise op f) {n : ℕ} {words left right : List (BitVec w)}
    (hn : n ≤ words.length) (hw : 0 < w) (m : ℕ) :
    bitAt (updateWords op n words left right) m =
      if m / w < n then f (bitAt words m) (bitAt left m) (bitAt right m) else bitAt words m := by
  unfold bitAt
  rw [(updatedBelow_updateWords hop hn).2]
  split
  · exact hop _ _ _ _ _ (Nat.mod_lt m hw)
  · rfl

/-- An update of all words acts on every bit, where it leaves unset bits unset. -/
theorem bitAt_updateWords_all (hop : Bitwise op f) (hw : 0 < w) (hf : f false false false = false)
    {words left right : List (BitVec w)} (hleft : left.length ≤ words.length)
    (hright : right.length ≤ words.length) (m : ℕ) :
    bitAt (updateWords op words.length words left right) m =
      f (bitAt words m) (bitAt left m) (bitAt right m) := by
  rw [bitAt_updateWords hop (le_refl _) hw]
  split
  · rfl
  · rename_i hout
    rw [bitAt_eq_false_of_le (not_lt.mp hout), bitAt_eq_false_of_le (hleft.trans (not_lt.mp hout)),
      bitAt_eq_false_of_le (hright.trans (not_lt.mp hout)), hf]

end Pairs

/-! ## Adding and clearing sets -/

/-- The second bitmap is the first with the set added. -/
structure Adds (words words' : List (BitVec w)) (s : Set ℕ) : Prop where
  length_eq : words'.length = words.length
  members_eq : members words' = members words ∪ s

/-- The second bitmap is the first with the set cleared. -/
structure Clears (words words' : List (BitVec w)) (s : Set ℕ) : Prop where
  length_eq : words'.length = words.length
  members_eq : members words' = members words \ s

section Updates

variable {words words' words'' : List (BitVec w)} {s t : Set ℕ}

@[simp] theorem Adds.refl (words : List (BitVec w)) : Adds words words ∅ :=
  ⟨rfl, (Set.union_empty _).symm⟩

@[simp] theorem Clears.refl (words : List (BitVec w)) : Clears words words ∅ :=
  ⟨rfl, Set.sdiff_empty.symm⟩

theorem Adds.trans (h : Adds words words' s) (h' : Adds words' words'' t) :
    Adds words words'' (s ∪ t) :=
  ⟨h'.length_eq.trans h.length_eq, by rw [h'.members_eq, h.members_eq, Set.union_assoc]⟩

theorem Clears.trans (h : Clears words words' s) (h' : Clears words' words'' t) :
    Clears words words'' (s ∪ t) :=
  ⟨h'.length_eq.trans h.length_eq, by rw [h'.members_eq, h.members_eq, Set.sdiff_sdiff]⟩

/-- Adding a set and clearing a part of it adds the rest, where nothing of the
set was there before. -/
theorem Adds.clear (h : Adds words words' s) (h' : Clears words' words'' t)
    (hdisjoint : Disjoint (members words) t) : Adds words words'' (s \ t) := by
  refine ⟨h'.length_eq.trans h.length_eq, ?_⟩
  rw [h'.members_eq, h.members_eq, Set.union_sdiff_distrib, hdisjoint.sdiff_eq_left]

/-- What is set already may be counted as added. -/
theorem Adds.of_subset (h : Adds words words' s) (ht : t ⊆ members words) :
    Adds words words' (t ∪ s) := by
  refine ⟨h.length_eq, ?_⟩
  rw [h.members_eq, ← Set.union_assoc, Set.union_eq_left.mpr ht]

end Updates

/-! ## Lists of masks -/

section Entries

variable {ε : Type} (index : ε → ℕ) (mask : ε → BitVec w)

/-- The numbers that a list of indexed masks stands for. -/
def entryBits (entries : List ε) : Set ℕ :=
  {n | ∃ entry ∈ entries, n ∈ maskBits (index entry) (mask entry)}

@[simp] theorem entryBits_nil : entryBits index mask [] = ∅ := by simp [entryBits]

@[simp] theorem entryBits_cons (entry : ε) (entries : List ε) :
    entryBits index mask (entry :: entries) =
      maskBits (index entry) (mask entry) ∪ entryBits index mask entries := by
  ext n
  simp [entryBits]

theorem entryBits_append (entries entries' : List ε) :
    entryBits index mask (entries ++ entries') =
      entryBits index mask entries ∪ entryBits index mask entries' := by
  induction entries with
  | nil => simp
  | cons entry entries ih => rw [List.cons_append, entryBits_cons, entryBits_cons, ih, Set.union_assoc]

theorem adds_foldl_modify (entries : List ε) (words : List (BitVec w))
    (h : ∀ entry ∈ entries, index entry < words.length) :
    Adds words (entries.foldl (fun words entry =>
      words.modify (index entry) (· ||| mask entry)) words) (entryBits index mask entries) := by
  induction entries generalizing words with
  | nil => simp
  | cons entry entries ih =>
    have hfirst : Adds words (words.modify (index entry) (· ||| mask entry))
        (maskBits (index entry) (mask entry)) :=
      ⟨List.length_modify .., members_modify_or _ (h entry List.mem_cons_self)⟩
    have hrest := ih (words.modify (index entry) (· ||| mask entry)) (by
      intro e he
      rw [List.length_modify]
      exact h e (List.mem_cons_of_mem _ he))
    rw [List.foldl_cons, entryBits_cons]
    exact hfirst.trans hrest

theorem clears_foldl_modify (entries : List ε) (words : List (BitVec w))
    (h : ∀ entry ∈ entries, index entry < words.length) :
    Clears words (entries.foldl (fun words entry =>
      words.modify (index entry) (· &&& ~~~mask entry)) words) (entryBits index mask entries) := by
  induction entries generalizing words with
  | nil => simp
  | cons entry entries ih =>
    have hfirst : Clears words (words.modify (index entry) (· &&& ~~~mask entry))
        (maskBits (index entry) (mask entry)) :=
      ⟨List.length_modify .., members_modify_andnot _ (h entry List.mem_cons_self)⟩
    have hrest := ih (words.modify (index entry) (· &&& ~~~mask entry)) (by
      intro e he
      rw [List.length_modify]
      exact h e (List.mem_cons_of_mem _ he))
    rw [List.foldl_cons, entryBits_cons]
    exact hfirst.trans hrest

end Entries

end WordBitmap

end GlrMask
