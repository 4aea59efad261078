import Mathlib.Data.Finset.Card
import Mathlib.Logic.Relation
import Mathlib.Tactic

/-!
# Searching a finite graph with a stack

Two depth-first loops over the successors of a finite set of states: one collects every
state that is reached, marking a state when it is pushed; the other tests every state that
is reached, marking it when it is popped, and stops at the first that fails.
-/

namespace GlrMask

namespace StackSearch

variable {S : Type*} [DecidableEq S] (succ : S → List S) (U : Finset S)

/-! ## Collecting -/

def discover (found : Finset S × List S) (target : S) : Finset S × List S :=
  if target ∈ U ∧ target ∉ found.1 then (insert target found.1, target :: found.2) else found

/-- What a search has still to do. -/
def size (found : Finset S × List S) : ℕ := (U \ found.1).card + found.2.length

theorem size_discover (found : Finset S × List S) (target : S) :
    size U (discover U found target) = size U found := by
  unfold discover
  split_ifs with hnew
  · have hmem : target ∈ U \ found.1 := Finset.mem_sdiff.mpr hnew
    have hpos : 0 < (U \ found.1).card := Finset.card_pos.mpr ⟨target, hmem⟩
    have herase : U \ insert target found.1 = (U \ found.1).erase target := by
      ext x
      simp only [Finset.mem_sdiff, Finset.mem_insert, Finset.mem_erase]
      tauto
    rw [size, size, herase, Finset.card_erase_of_mem hmem, List.length_cons]
    omega
  · rfl

theorem size_foldl (targets : List S) (found : Finset S × List S) :
    size U (targets.foldl (discover U) found) = size U found := by
  induction targets generalizing found with
  | nil => rfl
  | cons target targets ih => rw [List.foldl_cons, ih, size_discover]

def closeFrom (found : Finset S × List S) (closed : List S) : List S :=
  match _h : found.2 with
  | [] => closed
  | s :: rest =>
      closeFrom ((succ s).foldl (discover U) (found.1, rest)) (closed ++ [s])
termination_by size U found
decreasing_by
  rw [size_foldl, size, size, _h, List.length_cons]
  exact Nat.lt_succ_self _

def collect (roots : List S) : List S :=
  closeFrom succ U (roots.foldl (discover U) (∅, [])) []

theorem mem_foldl_discover {targets : List S} {found : Finset S × List S} {x : S} :
    x ∈ (targets.foldl (discover U) found).1 ↔ x ∈ found.1 ∨ x ∈ targets ∧ x ∈ U := by
  induction targets generalizing found with
  | nil => simp
  | cons target targets ih =>
      rw [List.foldl_cons, ih, discover]
      split_ifs with hnew
      · rw [Finset.mem_insert, List.mem_cons]
        constructor
        · intro h
          rcases h with (rfl | h) | h
          · exact Or.inr ⟨Or.inl rfl, hnew.1⟩
          · exact Or.inl h
          · exact Or.inr ⟨Or.inr h.1, h.2⟩
        · intro h
          rcases h with h | ⟨rfl | h, hU⟩
          · exact Or.inl (Or.inr h)
          · exact Or.inl (Or.inl rfl)
          · exact Or.inr ⟨h, hU⟩
      · rw [List.mem_cons]
        constructor
        · intro h
          exact h.imp_right fun h => ⟨Or.inr h.1, h.2⟩
        · intro h
          rcases h with h | ⟨rfl | h, hU⟩
          · exact Or.inl h
          · exact Or.inl (by_contra fun hseen => hnew ⟨hU, hseen⟩)
          · exact Or.inr ⟨h, hU⟩

/-- A step between states of the universe. -/
def Step (s t : S) : Prop := t ∈ succ s ∧ t ∈ U

/-- The seen states are the closed ones and the stacked ones, and a step from a closed
state leads to a seen one. -/
structure Collecting (roots : List S) (found : Finset S × List S) (closed : List S) : Prop where
  seen : ∀ x, x ∈ found.1 ↔ x ∈ closed ∨ x ∈ found.2
  reached : ∀ x ∈ found.1, ∃ r ∈ roots, r ∈ U ∧ Relation.ReflTransGen (Step succ U) r x
  rooted : ∀ r ∈ roots, r ∈ U → r ∈ found.1
  steps : ∀ x ∈ closed, ∀ y, Step succ U x y → y ∈ found.1

theorem mem_discover_stack {targets : List S} {found : Finset S × List S} {closed : List S}
    (h : ∀ x, x ∈ found.1 ↔ x ∈ closed ∨ x ∈ found.2) (x : S) :
    x ∈ (targets.foldl (discover U) found).1 ↔
      x ∈ closed ∨ x ∈ (targets.foldl (discover U) found).2 := by
  induction targets generalizing found with
  | nil => exact h x
  | cons target targets ih =>
      rw [List.foldl_cons]
      apply ih
      intro y
      unfold discover
      split_ifs
      · rw [Finset.mem_insert, h y, List.mem_cons]
        tauto
      · exact h y

variable {succ U}

theorem Collecting.start (roots : List S) :
    Collecting succ U roots (roots.foldl (discover U) (∅, [])) [] where
  seen := mem_discover_stack U (by simp)
  reached x hx := by
    rcases (mem_foldl_discover U).mp hx with hx | hx
    · exact absurd hx (Finset.notMem_empty x)
    · exact ⟨x, hx.1, hx.2, Relation.ReflTransGen.refl⟩
  rooted r hr hU := (mem_foldl_discover U).mpr (Or.inr ⟨hr, hU⟩)
  steps x hx := absurd hx List.not_mem_nil

theorem Collecting.pop {roots : List S} {found : Finset S × List S} {closed rest : List S} {s : S}
    (h : Collecting succ U roots found closed) (hstack : found.2 = s :: rest) :
    Collecting succ U roots ((succ s).foldl (discover U) (found.1, rest)) (closed ++ [s]) := by
  have hseen : ∀ x, x ∈ found.1 ↔ x ∈ closed ++ [s] ∨ x ∈ rest := by
    intro x
    rw [h.seen, hstack, List.mem_cons, List.mem_append, List.mem_singleton, or_assoc]
  constructor
  · exact mem_discover_stack U hseen
  · intro x hx
    rcases (mem_foldl_discover U).mp hx with hx | ⟨hx, hU⟩
    · exact h.reached x hx
    · have hs : s ∈ found.1 := (h.seen s).mpr (Or.inr (by rw [hstack]; exact List.mem_cons_self))
      obtain ⟨r, hr, hrU, hreach⟩ := h.reached s hs
      exact ⟨r, hr, hrU, hreach.tail ⟨hx, hU⟩⟩
  · intro r hr hU
    exact (mem_foldl_discover U).mpr (Or.inl (h.rooted r hr hU))
  · intro x hx y hy
    rcases List.mem_append.mp hx with hx | hx
    · exact (mem_foldl_discover U).mpr (Or.inl (h.steps x hx y hy))
    · rw [List.mem_singleton.mp hx] at hy
      exact (mem_foldl_discover U).mpr (Or.inr hy)

theorem mem_closeFrom {roots : List S} {found : Finset S × List S} {closed : List S}
    (h : Collecting succ U roots found closed) (x : S) :
    x ∈ closeFrom succ U found closed ↔
      ∃ r ∈ roots, r ∈ U ∧ Relation.ReflTransGen (Step succ U) r x := by
  induction found, closed using closeFrom.induct succ U with
  | case1 found closed hstack =>
      unfold closeFrom
      split
      · have hclosed : ∀ y, y ∈ found.1 ↔ y ∈ closed := by
          intro y
          rw [h.seen, hstack, or_iff_left List.not_mem_nil]
        constructor
        · intro hx
          exact h.reached x ((hclosed x).mpr hx)
        · intro hx
          obtain ⟨r, hr, hU, hreach⟩ := hx
          apply (hclosed x).mp
          induction hreach with
          | refl => exact h.rooted r hr hU
          | tail _ hstep ih => exact h.steps _ ((hclosed _).mp ih) _ hstep
      · rename_i s rest hcons
        rw [hstack] at hcons
        cases hcons
  | case2 found closed s rest hstack ih =>
      unfold closeFrom
      split
      · rename_i hnil
        rw [hstack] at hnil
        cases hnil
      · rename_i s' rest' hcons
        rw [hstack] at hcons
        cases hcons
        exact ih (h.pop hstack)

/-- The states collected are the ones reached within the universe. -/
theorem mem_collect {roots : List S} {x : S} :
    x ∈ collect succ U roots ↔ ∃ r ∈ roots, r ∈ U ∧ Relation.ReflTransGen (Step succ U) r x :=
  mem_closeFrom (Collecting.start roots) x

/-! ## Testing -/

variable (succ U)

def allReached (test : S → Bool) (seen : Finset S) (pending : List S) : Bool :=
  match pending with
  | [] => true
  | s :: rest =>
      if _hU : s ∈ U then
        if _hseen : s ∈ seen then allReached test seen rest
        else if test s then allReached test (insert s seen) ((succ s).reverse ++ rest)
        else false
      else false
termination_by ((U \ seen).card, pending.length)
decreasing_by
  · exact Prod.Lex.right _ (Nat.lt_succ_self _)
  · apply Prod.Lex.left
    apply Finset.card_lt_card
    rw [Finset.ssubset_iff_of_subset (Finset.sdiff_subset_sdiff le_rfl (Finset.subset_insert _ _))]
    exact ⟨s, Finset.mem_sdiff.mpr ⟨_hU, _hseen⟩, fun hs =>
      (Finset.mem_sdiff.mp hs).2 (Finset.mem_insert_self _ _)⟩

variable {succ U}

/-- Everything reached from the pending states passes, given that what is seen passes and
leads to states that are seen or pending. -/
theorem allReached_sound {test : S → Bool} {seen : Finset S} {pending : List S}
    (h : allReached succ U test seen pending = true)
    (hpass : ∀ s ∈ seen, s ∈ U ∧ test s = true)
    (hsteps : ∀ s ∈ seen, ∀ t ∈ succ s, t ∈ seen ∨ t ∈ pending) {r x : S}
    (hr : r ∈ seen ∨ r ∈ pending) (hreach : Relation.ReflTransGen (fun s t => t ∈ succ s) r x) :
    x ∈ U ∧ test x = true := by
  induction seen, pending using allReached.induct succ U test generalizing r with
  | case1 seen =>
      have hmem : x ∈ seen := by
        induction hreach with
        | refl => exact hr.resolve_right List.not_mem_nil
        | tail _ hstep ih => exact (hsteps _ ih _ hstep).resolve_right List.not_mem_nil
      exact hpass x hmem
  | case2 seen s rest hU hseen ih =>
      rw [allReached, dif_pos hU, dif_pos hseen] at h
      apply ih h hpass _ _ hreach
      · intro t ht u hu
        rcases hsteps t ht u hu with hu | hu
        · exact Or.inl hu
        · rcases List.mem_cons.mp hu with rfl | hu
          · exact Or.inl hseen
          · exact Or.inr hu
      · rcases hr with hr | hr
        · exact Or.inl hr
        · rcases List.mem_cons.mp hr with rfl | hr
          · exact Or.inl hseen
          · exact Or.inr hr
  | case3 seen s rest hU hseen htest ih =>
      rw [allReached, dif_pos hU, dif_neg hseen, if_pos htest] at h
      apply ih h _ _ _ hreach
      · intro t ht
        rcases Finset.mem_insert.mp ht with rfl | ht
        · exact ⟨hU, htest⟩
        · exact hpass t ht
      · intro t ht u hu
        rcases Finset.mem_insert.mp ht with rfl | ht
        · exact Or.inr (List.mem_append_left _ (List.mem_reverse.mpr hu))
        · rcases hsteps t ht u hu with hu | hu
          · exact Or.inl (Finset.mem_insert_of_mem hu)
          · rcases List.mem_cons.mp hu with rfl | hu
            · exact Or.inl (Finset.mem_insert_self _ _)
            · exact Or.inr (List.mem_append_right _ hu)
      · rcases hr with hr | hr
        · exact Or.inl (Finset.mem_insert_of_mem hr)
        · rcases List.mem_cons.mp hr with rfl | hr
          · exact Or.inl (Finset.mem_insert_self _ _)
          · exact Or.inr (List.mem_append_right _ hr)
  | case4 seen s rest hU hseen htest =>
      rw [allReached, dif_pos hU, dif_neg hseen, if_neg htest] at h
      cases h
  | case5 seen s rest hU =>
      rw [allReached, dif_neg hU] at h
      cases h

end StackSearch

end GlrMask
