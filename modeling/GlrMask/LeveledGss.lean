import GlrMask.GssPartition

/-!
# Graph-structured stacks

The operations on whole stacks, each with the invariant of its nodes.
-/

namespace GlrMask

namespace LeveledGSS

variable {T A B : Type}

def empty : LeveledGSS T A := ⟨Upper.empty_upper_inner, Upper.empty_upper_inner_wf⟩

def is_empty (g : LeveledGSS T A) : Bool := g.inner.is_empty

theorem floor_spec [Sharing] : (Lower.new_lower [] true : Lower T).WF ∧
    (Lower.new_lower [] true : Lower T).children = [] ∧
      (Lower.new_lower [] true : Lower T).empty = true := by
  have hfamily : Lower.Family ([] : List (Slot T (Lower T))) :=
    ⟨List.nodup_nil, (fun _ hs => by cases hs), fun _ hs => by cases hs⟩
  exact Lower.new_lower_spec hfamily true

variable [DecidableEq T]

/-- The accumulator of a stack, listed from the top down, or nothing. -/
def acc [SemilatticeSup A] (stack : List T) (g : LeveledGSS T A) : WithBot A := g.inner.acc stack

variable [Sharing]

/-- The values are listed from the bottom up. -/
def from_single_stack (values : List T) (acc : A) : LeveledGSS T A where
  inner :=
    if values.isEmpty then Upper.interface (Lower.new_lower [] true) acc
    else Upper.interface (Lower.new_segment values.reverse (Lower.new_lower [] true)) acc
  wf := by
    split_ifs with h
    · exact Upper.WF.interface floor_spec.1
    · apply Upper.WF.interface
      apply Lower.WF.segment
      · simpa using h
      · exact floor_spec.1
      · rfl
      · exact add_comm _ _

section

variable [DecidableEq A] [Merge A]

def merge (g other : LeveledGSS T A) : LeveledGSS T A :=
  if g.is_empty then other
  else if other.is_empty then g
  else ⟨Upper.merge_upper g.inner other.inner, (Upper.merge_upper_spec g.wf other.wf).wf⟩

omit [Sharing] [DecidableEq A] in
theorem acc_of_is_empty {g : LeveledGSS T A} (h : g.is_empty = true) (stack : List T) :
    g.acc stack = ⊥ := by
  obtain ⟨inner, wf⟩ := g
  cases inner with
  | interface => cases h
  | branch children empty max_depth =>
      rw [is_empty, Upper.is_empty, Bool.and_eq_true, List.isEmpty_iff,
        Option.isNone_iff_eq_none] at h
      obtain ⟨rfl, rfl⟩ := h
      cases stack <;> rfl

omit [Sharing] [DecidableEq A] in
theorem acc_empty (stack : List T) : (empty : LeveledGSS T A).acc stack = ⊥ :=
  acc_of_is_empty rfl stack

/-- Merging joins the accumulators of every stack. -/
theorem acc_merge (g other : LeveledGSS T A) (stack : List T) :
    (g.merge other).acc stack = g.acc stack ⊔ other.acc stack := by
  unfold merge
  split_ifs with hg hother
  · rw [acc_of_is_empty hg, bot_sup_eq]
  · rw [acc_of_is_empty hother, sup_bot_eq]
  · exact (Upper.merge_upper_spec g.wf other.wf).acc stack

def apply_and_prune_no_promote (f : A → Option A) (g : LeveledGSS T A) : LeveledGSS T A :=
  ⟨Upper.apply_and_prune_no_promote f g.inner,
    (Upper.apply_and_prune_no_promote_spec f g.wf).wf⟩

end

section

variable [DecidableEq B] [Merge B]

def apply_and_prune (f : A → Option B) (g : LeveledGSS T A) : LeveledGSS T B :=
  ⟨Upper.apply_and_prune f g.inner, (Upper.apply_and_prune_spec f g.wf).wf⟩

def apply_transform_and_decompose (f : A → Option B) (g : LeveledGSS T A) :
    List (T × LeveledGSS T B) × List B :=
  ((Upper.apply_transform_and_decompose f g.inner).1.pmap (fun p h => (p.1, ⟨p.2, h⟩))
    (Upper.apply_transform_and_decompose_wf f g.wf),
    (Upper.apply_transform_and_decompose f g.inner).2)

/-- The accumulator of a stack in a decomposed graph-structured stack. -/
def decomposedAcc (parts : List (T × LeveledGSS T B) × List B) : List T → WithBot B :=
  Upper.decomposedAcc (parts.1.map fun p => (p.1, p.2.inner), parts.2)

/-- The mapped accumulator of a stack, joined over its occurrences, or nothing when none of them
is kept. -/
def kept (f : A → Option B) (stack : List T) (g : LeveledGSS T A) : WithBot B :=
  Upper.keptAcc f stack g.inner

end

section

variable [DecidableEq A]

/-- Keep one accumulator. -/
def candidate (a : A) : A → Option Unit := fun c => if c = a then some () else none

def partition_by_accumulator_at_most (max_accumulators max_upper_nodes : ℕ∞) (g : LeveledGSS T A) :
    Option (List (LeveledGSS T Unit × A)) :=
  (Upper.partition_accumulators max_accumulators max_upper_nodes g.inner).map fun accumulators =>
    accumulators.map fun a => (g.apply_and_prune (candidate a), a)

/-- A partition without limits, which always has a result. -/
def partition_by_accumulator (g : LeveledGSS T A) : List (LeveledGSS T Unit × A) :=
  (g.partition_by_accumulator_at_most ⊤ ⊤).getD []

/-- One part for every accumulator, with exactly the stacks that occur with it. -/
structure Partitions (g : LeveledGSS T A) (parts : List (LeveledGSS T Unit × A)) : Prop where
  nodup : (parts.map Prod.snd).Nodup
  paths : ∀ a stack, (∃ paths, (paths, a) ∈ parts ∧ paths.acc stack ≠ ⊥) ↔
    g.kept (candidate a) stack ≠ ⊥

end

/-! ## When nothing is lost -/

section

variable [DecidableEq A] [DecidableEq B] [Merge B]

omit [Sharing] [DecidableEq A] [DecidableEq B] in
theorem exact_iff (f : A → Option B) (g : LeveledGSS T A) {made : Upper T B}
    (h : Upper.Pruned f g.inner made) :
    (∀ stack, made.acc stack = g.kept f stack) ↔ Upper.Absorbed f g.inner := by
  apply forall_congr'
  intro stack
  rw [h.acc]
  constructor
  · exact fun heq => heq.ge
  · exact fun hle => le_antisymm (Upper.visibleAcc_le f g.wf stack) hle

omit [Sharing] [DecidableEq A] [DecidableEq B] in
/-- Only the accumulators of its nodes matter for what is kept of a node. -/
theorem keptAcc_eq_bot_of_carries {f : A → Option B} {node : Upper T A}
    (h : ∀ a, Upper.Carries a node → f a = none) (hwf : node.WF) (stack : List T) :
    Upper.keptAcc f stack node = ⊥ := by
  induction hwf generalizing stack with
  | interface =>
      have hf := h _ (Upper.Carries.interface _)
      cases stack <;> rw [Upper.keptAcc, hf] <;> exact ite_self _
  | branch _ _ _ _ ih =>
      rename_i children empty max_depth _ _ _ _
      cases stack with
      | nil =>
          cases empty with
          | none => rfl
          | some a => exact h a (Upper.Carries.empty children max_depth)
      | cons v stack =>
          apply le_bot_iff.mp
          apply Slot.joined_le_iff.mpr
          intro s hs _
          exact (ih s hs (fun a ha => h a (Upper.Carries.child hs ha)) stack).le

omit [DecidableEq T] [Sharing] [DecidableEq A] [DecidableEq B] [Merge B] in
theorem eq_of_ne_bot_iff {x y : WithBot Unit} (h : x ≠ ⊥ ↔ y ≠ ⊥) : x = y := by
  cases x with
  | bot =>
      cases y with
      | bot => rfl
      | coe y => exact absurd rfl (h.mpr (WithBot.coe_ne_bot))
  | coe x =>
      cases y with
      | bot => exact absurd rfl (h.mp (WithBot.coe_ne_bot))
      | coe y => rfl

theorem partitions_iff (max_accumulators max_upper_nodes : ℕ∞) (g : LeveledGSS T A) :
    Ensures (g.partition_by_accumulator_at_most max_accumulators max_upper_nodes) fun parts =>
      (g.Partitions parts ↔ ∀ a, Upper.Absorbed (candidate a) g.inner) := by
  apply Ensures.map
  refine (Upper.partition_accumulators_spec max_accumulators max_upper_nodes g.inner).mono
    fun accumulators haccs => ?_
  obtain ⟨hnodup, hmem⟩ := haccs
  have hpart : ∀ a stack, (∃ paths, (paths, a) ∈ accumulators.map (fun a =>
        (g.apply_and_prune (candidate a), a)) ∧ paths.acc stack ≠ ⊥) ↔
      Upper.Carries a g.inner ∧ (g.apply_and_prune (candidate a)).acc stack ≠ ⊥ := by
    intro a stack
    simp only [List.mem_map, Prod.mk.injEq, hmem]
    constructor
    · rintro ⟨paths, ⟨_, ha, rfl, rfl⟩, hstack⟩
      exact ⟨ha, hstack⟩
    · exact fun ⟨ha, hstack⟩ => ⟨_, ⟨a, ha, rfl, rfl⟩, hstack⟩
  have hexact : ∀ a, (∀ stack, (g.apply_and_prune (candidate a)).acc stack =
      g.kept (candidate a) stack) ↔ Upper.Absorbed (candidate a) g.inner := fun a =>
    exact_iff (candidate a) g (Upper.apply_and_prune_spec (candidate a) g.wf)
  -- An accumulator that no node carries has no stacks.
  have hcarries : ∀ a stack, ¬Upper.Carries a g.inner → g.kept (candidate a) stack = ⊥ := by
    intro a stack hnot
    apply keptAcc_eq_bot_of_carries _ g.wf
    intro b hb
    apply if_neg
    intro he
    exact hnot (he ▸ hb)
  constructor
  · intro h a
    rw [← hexact]
    intro stack
    by_cases ha : Upper.Carries a g.inner
    · have hiff := (hpart a stack).symm.trans (h.paths a stack)
      apply eq_of_ne_bot_iff
      rwa [and_iff_right ha] at hiff
    · have hle : (g.apply_and_prune (candidate a)).acc stack ≤ g.kept (candidate a) stack :=
        ((Upper.apply_and_prune_spec (candidate a) g.wf).acc stack).trans_le
          (Upper.visibleAcc_le (candidate a) g.wf stack)
      rw [hcarries a stack ha] at hle ⊢
      exact le_bot_iff.mp hle
  · intro h
    refine ⟨?_, fun a stack => ?_⟩
    · rw [List.map_map]
      exact (List.map_id accumulators).symm ▸ hnodup
    · rw [hpart, (hexact a).mpr (h a) stack]
      apply and_iff_right_of_imp
      intro hkept
      by_contra hnot
      exact hkept (hcarries a stack hnot)

omit [DecidableEq A] in
theorem decomposed_exact_iff (f : A → Option B) (g : LeveledGSS T A) :
    (∀ stack, decomposedAcc (g.apply_transform_and_decompose f) stack = g.kept f stack) ↔
      Upper.DecomposeAbsorbed f g.inner := by
  rw [← Upper.apply_transform_and_decompose_spec f g.wf]
  have hparts : ((g.apply_transform_and_decompose f).1.map fun p => (p.1, p.2.inner)) =
      (Upper.apply_transform_and_decompose f g.inner).1 := by
    rw [apply_transform_and_decompose, List.map_pmap]
    exact List.pmap_eq_self.mpr fun _ _ => rfl
  rw [show @decomposedAcc T B _ _ (g.apply_transform_and_decompose f) = _ from
    congrArg (fun parts => Upper.decomposedAcc (parts, _)) hparts]
  rfl

end

end LeveledGSS

/-! ## A lost stack -/

/-- Flags that only ever become true. -/
instance : Merge Bool where
  subsumes a b := a || !b
  le_of_subsumes {a b} h := by
    cases a <;> cases b <;> first | exact Bool.false_le _ | exact le_rfl | cases h

namespace LeveledGSS

/-- Two stacks with the same top value, one of them hidden behind a deeper stack. -/
def overwritten : LeveledGSS ℕ Bool :=
  letI := Sharing.default
  ((from_single_stack [4, 3, 2, 1] false).merge (from_single_stack [5, 1] true)).merge
    (from_single_stack [6, 1] true)

def keep_true (a : Bool) : Option Bool := if a then some a else none

end LeveledGSS

end GlrMask
