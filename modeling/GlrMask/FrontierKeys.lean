import GlrMask.GssHeads
import GlrMask.RangeMapJoin

/-!
# Frontier keys

A key numbers the heads of a graph-structured stack: the end of a stack with its
accumulator, or a top value with the numbers of the heads below it. The heads
below several children of one value are put into one set, but two heads with the
same value are not joined. Keys tell whether two stacks branch alike, which is
more than that they stand for the same stacks.
-/

namespace GlrMask

inductive FrontierKeyNode (T A : Type)
  | Bottom (accumulator : A)
  | Cons (state : T) (children : List ℕ)
deriving DecidableEq

/-- The nodes, of which the number is the position, and what is remembered of visited nodes. -/
structure GssFrontierKeyInterner (T A : Type) where
  interned : List (FrontierKeyNode T A)
  upper_memo : List (Upper T A × List ℕ)
  lower_memo : List ((Lower T × A) × List ℕ)

namespace GssFrontierKeyInterner

variable {T A : Type}

def new : GssFrontierKeyInterner T A := ⟨[], [], []⟩

variable [DecidableEq T] [DecidableEq A]

def intern (node : FrontierKeyNode T A) (s : GssFrontierKeyInterner T A) :
    ℕ × GssFrontierKeyInterner T A :=
  if node ∈ s.interned then (s.interned.idxOf node, s)
  else (s.interned.length, { s with interned := s.interned ++ [node] })

def intern_bottom (accumulator : A) (s : GssFrontierKeyInterner T A) :
    ℕ × GssFrontierKeyInterner T A :=
  s.intern (.Bottom accumulator)

def intern_cons (state : T) (children : List ℕ) (s : GssFrontierKeyInterner T A) :
    ℕ × GssFrontierKeyInterner T A :=
  s.intern (.Cons state (sortDedup children))

variable [Sharing]

open Sharing

/-- Numbers that are computed once for every allocation and accumulator. -/
def remember_lower (node : Lower T) (accumulator : A)
    (compute : GssFrontierKeyInterner T A → List ℕ × GssFrontierKeyInterner T A)
    (s : GssFrontierKeyInterner T A) : List ℕ × GssFrontierKeyInterner T A :=
  match s.lower_memo.find? fun e => same e.1.1 node && decide (e.1.2 = accumulator) with
  | some e => (e.2, s)
  | none =>
      let r := compute s
      (r.1, { r.2 with lower_memo := ((node, accumulator), r.1) :: r.2.lower_memo })

def remember_upper (node : Upper T A)
    (compute : GssFrontierKeyInterner T A → List ℕ × GssFrontierKeyInterner T A)
    (s : GssFrontierKeyInterner T A) : List ℕ × GssFrontierKeyInterner T A :=
  match s.upper_memo.find? fun e => same e.1 node with
  | some e => (e.2, s)
  | none =>
      let r := compute s
      (r.1, { r.2 with upper_memo := (node, r.1) :: r.2.upper_memo })

/-- The number of the end of a stack, if there is one. -/
def bottom_elems (accumulator : Option A) (s : GssFrontierKeyInterner T A) :
    List ℕ × GssFrontierKeyInterner T A :=
  match accumulator with
  | some a => ([(s.intern_bottom a).1], (s.intern_bottom a).2)
  | none => ([], s)

/-- The number of a value on top of numbered heads. -/
def cons_elems (value : T) (r : List ℕ × GssFrontierKeyInterner T A) :
    List ℕ × GssFrontierKeyInterner T A :=
  ([(r.2.intern_cons value r.1).1], (r.2.intern_cons value r.1).2)

/-- The numbers that are computed after others. -/
def add_elems (r : List ℕ × GssFrontierKeyInterner T A)
    (compute : GssFrontierKeyInterner T A → List ℕ × GssFrontierKeyInterner T A) :
    List ℕ × GssFrontierKeyInterner T A :=
  (r.1 ++ (compute r.2).1, (compute r.2).2)

mutual

def lower_elems (accumulator : A) :
    Lower T → GssFrontierKeyInterner T A → List ℕ × GssFrontierKeyInterner T A
  | .segment values next max_depth segments_len =>
      remember_lower (.segment values next max_depth segments_len) accumulator fun s =>
        values.foldr cons_elems (lower_elems accumulator next s)
  | .general children empty max_depth =>
      remember_lower (.general children empty max_depth) accumulator fun s =>
        let elems := (Slot.values children).foldl
          (fun r v => add_elems r fun s => cons_elems v (lower_kids accumulator children v s))
          (bottom_elems (if empty then some accumulator else none) s)
        (sortDedup elems.1, elems.2)

/-- The numbers of the heads of the nodes of a value. -/
def lower_kids (accumulator : A) :
    List (Slot T (Lower T)) → T → GssFrontierKeyInterner T A → List ℕ × GssFrontierKeyInterner T A
  | [], _, s => ([], s)
  | ⟨value, _, child⟩ :: kids, v, s =>
      if value = v then add_elems (lower_elems accumulator child s) (lower_kids accumulator kids v)
      else lower_kids accumulator kids v s

end

mutual

def upper_elems : Upper T A → GssFrontierKeyInterner T A → List ℕ × GssFrontierKeyInterner T A
  | .interface inner acc => remember_upper (.interface inner acc) (lower_elems acc inner)
  | .branch children empty max_depth =>
      remember_upper (.branch children empty max_depth) fun s =>
        let elems := (Slot.values children).foldl
          (fun r v => add_elems r fun s => cons_elems v (upper_kids children v s))
          (bottom_elems empty s)
        (sortDedup elems.1, elems.2)

def upper_kids :
    List (Slot T (Upper T A)) → T → GssFrontierKeyInterner T A → List ℕ × GssFrontierKeyInterner T A
  | [], _, s => ([], s)
  | ⟨value, _, child⟩ :: kids, v, s =>
      if value = v then add_elems (upper_elems child s) (upper_kids kids v)
      else upper_kids kids v s

end

def key (g : LeveledGSS T A) (s : GssFrontierKeyInterner T A) :
    List ℕ × GssFrontierKeyInterner T A :=
  (sortDedup (upper_elems g.inner s).1, (upper_elems g.inner s).2)

/-- The keys of several graph-structured stacks, one after the other. -/
def keys : List (LeveledGSS T A) → GssFrontierKeyInterner T A → List (List ℕ)
  | [], _ => []
  | g :: rest, s => (s.key g).1 :: keys rest (s.key g).2

end GssFrontierKeyInterner

/-! ## What the numbers stand for -/

section

variable {T A : Type} [DecidableEq T]

/-- The number of a head: a node with the end of its stack, or with its value and the numbers of
the heads below it. -/
inductive KeyedHead (interned : List (FrontierKeyNode T A)) : Head T A → ℕ → Prop
  | bottom {a : A} {i : ℕ} (node : interned[i]? = some (.Bottom a)) :
      KeyedHead interned (.bottom a) i
  | cons {v : T} {kids : List (Upper T A)} {ids : List ℕ} {i : ℕ} (id : Head T A → ℕ)
      (head : ℕ → Head T A) (node : interned[i]? = some (.Cons v ids))
      (sorted : ids.Pairwise (· < ·)) (id_mem : ∀ h ∈ kids.flatMap Upper.heads, id h ∈ ids)
      (id_keyed : ∀ h ∈ kids.flatMap Upper.heads, KeyedHead interned h (id h))
      (head_mem : ∀ j ∈ ids, head j ∈ kids.flatMap Upper.heads)
      (head_keyed : ∀ j ∈ ids, KeyedHead interned (head j) j) :
      KeyedHead interned (.cons v kids) i

/-- The numbers are those of the heads. -/
def Keyed (interned : List (FrontierKeyNode T A)) (hs : List (Head T A)) (ids : List ℕ) : Prop :=
  (∀ h ∈ hs, ∃ i ∈ ids, KeyedHead interned h i) ∧ ∀ i ∈ ids, ∃ h ∈ hs, KeyedHead interned h i

variable {interned longer : List (FrontierKeyNode T A)}

theorem KeyedHead.of_keyed {v : T} {kids : List (Upper T A)} {ids : List ℕ} {i : ℕ}
    (node : interned[i]? = some (.Cons v ids)) (sorted : ids.Pairwise (· < ·))
    (h : Keyed interned (kids.flatMap Upper.heads) ids) : KeyedHead interned (.cons v kids) i := by
  have : Nonempty (Head T A) := ⟨.cons v []⟩
  obtain ⟨hid, hhead⟩ := h
  choose! id hid using hid
  choose! head hhead using hhead
  exact KeyedHead.cons id head node sorted (fun h hh => (hid h hh).1) (fun h hh => (hid h hh).2)
    (fun j hj => (hhead j hj).1) fun j hj => (hhead j hj).2

theorem KeyedHead.cons_inv {v : T} {kids : List (Upper T A)} {i : ℕ}
    (h : KeyedHead interned (.cons v kids) i) : ∃ ids, interned[i]? = some (.Cons v ids) ∧
      ids.Pairwise (· < ·) ∧ Keyed interned (kids.flatMap Upper.heads) ids := by
  cases h with
  | cons id head node sorted id_mem id_keyed head_mem head_keyed =>
      exact ⟨_, node, sorted, fun h hh => ⟨id h, id_mem h hh, id_keyed h hh⟩,
        fun j hj => ⟨head j, head_mem j hj, head_keyed j hj⟩⟩

omit [DecidableEq T] in
theorem getElem?_later (h : interned <+: longer) {i : ℕ} {node : FrontierKeyNode T A}
    (hi : interned[i]? = some node) : longer[i]? = some node := by
  obtain ⟨more, rfl⟩ := h
  exact List.getElem?_append_left (List.getElem?_eq_some_iff.mp hi).1 ▸ hi

/-- Numbers do not change when nodes are added. -/
theorem KeyedHead.later (hlater : interned <+: longer) {h : Head T A} {i : ℕ}
    (hh : KeyedHead interned h i) : KeyedHead longer h i := by
  induction hh with
  | bottom node => exact KeyedHead.bottom (getElem?_later hlater node)
  | cons id head node sorted id_mem _ head_mem _ ih_id ih_head =>
      exact KeyedHead.cons id head (getElem?_later hlater node) sorted id_mem ih_id head_mem ih_head

theorem Keyed.later (hlater : interned <+: longer) {hs : List (Head T A)} {ids : List ℕ}
    (h : Keyed interned hs ids) : Keyed longer hs ids := by
  constructor
  · intro k hk
    obtain ⟨i, hi, hkeyed⟩ := h.1 k hk
    exact ⟨i, hi, hkeyed.later hlater⟩
  · intro i hi
    obtain ⟨k, hk, hkeyed⟩ := h.2 i hi
    exact ⟨k, hk, hkeyed.later hlater⟩

theorem Keyed.append {hs hs' : List (Head T A)} {ids ids' : List ℕ} (h : Keyed interned hs ids)
    (h' : Keyed interned hs' ids') : Keyed interned (hs ++ hs') (ids ++ ids') := by
  constructor
  · intro k hk
    obtain hk | hk := List.mem_append.mp hk
    · obtain ⟨i, hi, hkeyed⟩ := h.1 k hk
      exact ⟨i, List.mem_append_left _ hi, hkeyed⟩
    · obtain ⟨i, hi, hkeyed⟩ := h'.1 k hk
      exact ⟨i, List.mem_append_right _ hi, hkeyed⟩
  · intro i hi
    obtain hi | hi := List.mem_append.mp hi
    · obtain ⟨k, hk, hkeyed⟩ := h.2 i hi
      exact ⟨k, List.mem_append_left _ hk, hkeyed⟩
    · obtain ⟨k, hk, hkeyed⟩ := h'.2 i hi
      exact ⟨k, List.mem_append_right _ hk, hkeyed⟩

theorem Keyed.sorted {hs : List (Head T A)} {ids : List ℕ} (h : Keyed interned hs ids) :
    Keyed interned hs (sortDedup ids) := by
  unfold Keyed
  simp only [mem_sortDedup]
  exact h

/-- Sorted lists with the same elements are the same. -/
theorem eq_of_sorted {ids ids' : List ℕ} (h : ids.Pairwise (· < ·)) (h' : ids'.Pairwise (· < ·))
    (hmem : ∀ i, i ∈ ids ↔ i ∈ ids') : ids = ids' := by
  have hperm : ids.Perm ids' := by
    apply (List.perm_ext_iff_of_nodup _ _).mpr hmem
    · exact h.imp fun hlt => hlt.ne
    · exact h'.imp fun hlt => hlt.ne
  exact hperm.eq_of_pairwise (fun a b _ _ hab hba => absurd hab hba.not_gt) h h'

/-- Heads that branch alike have one number. -/
theorem KeyedHead.eq_of_bisimulation (hnodup : interned.Nodup) {R : Head T A → Head T A → Prop}
    (hR : Head.Bisimulation R) {h h' : Head T A} {i j : ℕ} (hh : KeyedHead interned h i)
    (hh' : KeyedHead interned h' j) (hrel : R h h') : i = j := by
  have hunique : ∀ {node : FrontierKeyNode T A} {i j : ℕ}, interned[i]? = some node →
      interned[j]? = some node → i = j := by
    intro node i j hi hj
    obtain ⟨hi, hieq⟩ := List.getElem?_eq_some_iff.mp hi
    obtain ⟨hj, hjeq⟩ := List.getElem?_eq_some_iff.mp hj
    exact (hnodup.getElem_inj_iff).mp (hieq.trans hjeq.symm)
  induction hh generalizing h' j with
  | bottom node =>
      rw [hR.bottom _ _ hrel] at hh'
      cases hh' with
      | bottom node' => exact hunique node node'
  | @cons v kids ids i id head node sorted id_mem id_keyed head_mem head_keyed ih_id ih_head =>
      obtain ⟨kids', rfl, hmatches⟩ := hR.cons _ _ _ hrel
      obtain ⟨ids', node', sorted', hkeyed⟩ := hh'.cons_inv
      have hids : ∀ x, x ∈ ids ↔ x ∈ ids' := by
        intro x
        constructor
        · intro hx
          obtain ⟨k', hk', hk⟩ := hmatches.1 _ (head_mem x hx)
          obtain ⟨y, hy, hyk⟩ := hkeyed.1 k' hk'
          rw [ih_head x hx hyk hk]
          exact hy
        · intro hx
          obtain ⟨k', hk', hxk⟩ := hkeyed.2 x hx
          obtain ⟨k, hk, hkk⟩ := hmatches.2 k' hk'
          rw [← ih_id k hk hxk hkk]
          exact id_mem k hk
      rw [eq_of_sorted sorted sorted' hids] at node
      exact hunique node node'

/-- Having one number is a bisimulation. -/
theorem bisimulation_keyed (interned : List (FrontierKeyNode T A)) :
    Head.Bisimulation fun h h' : Head T A => ∃ i, KeyedHead interned h i ∧ KeyedHead interned h' i := by
  constructor
  · intro a h ⟨i, hi, hi'⟩
    cases hi with
    | bottom node =>
        cases hi' with
        | bottom node' =>
            rw [node] at node'
            cases node'
            rfl
        | cons _ _ node' =>
            rw [node] at node'
            cases node'
  · intro v kids h ⟨i, hi, hi'⟩
    obtain ⟨ids, node, -, hkeyed⟩ := hi.cons_inv
    cases h with
    | bottom a =>
        cases hi' with
        | bottom node' =>
            rw [node] at node'
            cases node'
    | cons w kids' =>
        obtain ⟨ids', node', -, hkeyed'⟩ := hi'.cons_inv
        rw [node] at node'
        cases node'
        refine ⟨kids', rfl, fun k hk => ?_, fun k' hk' => ?_⟩
        · obtain ⟨j, hj, hkj⟩ := hkeyed.1 k hk
          obtain ⟨k', hk', hkj'⟩ := hkeyed'.2 j hj
          exact ⟨k', hk', j, hkj, hkj'⟩
        · obtain ⟨j, hj, hkj'⟩ := hkeyed'.1 k' hk'
          obtain ⟨k, hk, hkj⟩ := hkeyed.2 j hj
          exact ⟨k, hk, j, hkj, hkj'⟩

/-- Sorted numbers of heads are equal exactly when the heads branch alike. -/
theorem Keyed.eq_iff (hnodup : interned.Nodup) {hs hs' : List (Head T A)} {ids ids' : List ℕ}
    (h : Keyed interned hs ids) (h' : Keyed interned hs' ids') (sorted : ids.Pairwise (· < ·))
    (sorted' : ids'.Pairwise (· < ·)) :
    ids = ids' ↔ ∃ R, Head.Bisimulation R ∧ Head.Matches R hs hs' := by
  constructor
  · rintro rfl
    refine ⟨_, bisimulation_keyed interned, fun k hk => ?_, fun k' hk' => ?_⟩
    · obtain ⟨j, hj, hkj⟩ := h.1 k hk
      obtain ⟨k', hk', hkj'⟩ := h'.2 j hj
      exact ⟨k', hk', j, hkj, hkj'⟩
    · obtain ⟨j, hj, hkj'⟩ := h'.1 k' hk'
      obtain ⟨k, hk, hkj⟩ := h.2 j hj
      exact ⟨k, hk, j, hkj, hkj'⟩
  · rintro ⟨R, hR, hmatches⟩
    apply eq_of_sorted sorted sorted'
    intro i
    constructor
    · intro hi
      obtain ⟨k, hk, hki⟩ := h.2 i hi
      obtain ⟨k', hk', hkk⟩ := hmatches.1 k hk
      obtain ⟨j, hj, hkj⟩ := h'.1 k' hk'
      rw [hki.eq_of_bisimulation hnodup hR hkj hkk]
      exact hj
    · intro hi
      obtain ⟨k', hk', hki⟩ := h'.2 i hi
      obtain ⟨k, hk, hkk⟩ := hmatches.2 k' hk'
      obtain ⟨j, hj, hkj⟩ := h.1 k hk
      rw [← hkj.eq_of_bisimulation hnodup hR hki hkk]
      exact hj

end

end GlrMask
