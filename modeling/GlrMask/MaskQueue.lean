import GlrMask.DenseMaskAcc
import GlrMask.GssFuse
import GlrMask.SortedMap
import GlrMask.TokenSets

/-!
# The queue of the mask walk

The walk holds stack structures that wait for a target state of the automaton. They are
kept by target or by depth, and may be merged while they wait. Whatever the mode, the
structures handed out and those that wait stand for the ones that came in.
-/

namespace GlrMask

open OrderDual

/-- A structure that is not empty stands for some stack. -/
structure DenseMaskGSS (A : Type) [Merge A] where
  gss : LeveledGSS ℕ A
  holds : gss.is_empty = false → ∃ stack, gss.acc stack ≠ ⊥

namespace DenseMaskGSS

variable {A : Type} [Merge A]

def is_empty (g : DenseMaskGSS A) : Bool := g.gss.is_empty

def max_depth (g : DenseMaskGSS A) : ℕ := g.gss.max_depth

def acc (stack : List ℕ) (g : DenseMaskGSS A) : WithBot A := g.gss.acc stack

def empty : DenseMaskGSS A := ⟨LeveledGSS.empty, fun h => by cases h⟩

theorem is_empty_eq_false_iff {g : DenseMaskGSS A} :
    g.is_empty = false ↔ ∃ stack, g.acc stack ≠ ⊥ := by
  constructor
  · exact g.holds
  · intro h
    obtain ⟨stack, hstack⟩ := h
    cases hempty : g.is_empty with
    | false => rfl
    | true => exact absurd (LeveledGSS.acc_of_is_empty hempty stack) hstack

variable [Sharing] [DecidableEq A]

def merge (g other : DenseMaskGSS A) : DenseMaskGSS A where
  gss := g.gss.merge other.gss
  holds h := by
    simp only [LeveledGSS.acc_merge, ne_eq, sup_eq_bot_iff]
    cases hg : g.gss.is_empty with
    | false =>
        obtain ⟨stack, hstack⟩ := g.holds hg
        exact ⟨stack, fun hbot => hstack hbot.1⟩
    | true =>
        rw [LeveledGSS.merge, if_pos hg] at h
        obtain ⟨stack, hstack⟩ := other.holds h
        exact ⟨stack, fun hbot => hstack hbot.2⟩

theorem acc_merge (g other : DenseMaskGSS A) (stack : List ℕ) :
    (g.merge other).acc stack = g.acc stack ⊔ other.acc stack :=
  LeveledGSS.acc_merge g.gss other.gss stack

theorem merge_not_empty {g : DenseMaskGSS A} (h : g.is_empty = false) (other : DenseMaskGSS A) :
    (g.merge other).is_empty = false := by
  obtain ⟨stack, hstack⟩ := is_empty_eq_false_iff.mp h
  apply is_empty_eq_false_iff.mpr
  refine ⟨stack, ?_⟩
  rw [acc_merge, ne_eq, sup_eq_bot_iff]
  exact fun hbot => hstack hbot.1

theorem max_depth_merge {g other : DenseMaskGSS A} (h : g.max_depth = other.max_depth) :
    (g.merge other).max_depth = g.max_depth :=
  LeveledGSS.max_depth_merge h

/-- `fuse(Some(1))`. -/
def fuse_top (g : DenseMaskGSS A) : DenseMaskGSS A where
  gss := g.gss.fuse_top
  holds h := by
    simp only [LeveledGSS.acc_fuse_top]
    apply g.holds
    cases hempty : g.gss.is_empty with
    | false => rfl
    | true => exact absurd (LeveledGSS.fuse_top_is_empty hempty) (by simp [h])

theorem acc_fuse_top (g : DenseMaskGSS A) (stack : List ℕ) : g.fuse_top.acc stack = g.acc stack :=
  LeveledGSS.acc_fuse_top g.gss stack

theorem fuse_top_not_empty {g : DenseMaskGSS A} (h : g.is_empty = false) :
    g.fuse_top.is_empty = false := by
  obtain ⟨stack, hstack⟩ := is_empty_eq_false_iff.mp h
  apply is_empty_eq_false_iff.mpr
  refine ⟨stack, ?_⟩
  rw [acc_fuse_top]
  exact hstack

/-- The structures of a target, merged in the order in which they are listed. -/
def merge_of (target : ℕ) (items : List (ℕ × DenseMaskGSS A)) : DenseMaskGSS A :=
  ((items.filter fun e => e.1 = target).map Prod.snd).foldl merge empty

theorem acc_foldl_merge_le_iff {first : DenseMaskGSS A} {rest : List (DenseMaskGSS A)}
    {stack : List ℕ} {x : WithBot A} :
    (rest.foldl merge first).acc stack ≤ x ↔
      first.acc stack ≤ x ∧ ∀ g ∈ rest, g.acc stack ≤ x := by
  induction rest generalizing first with
  | nil => simp
  | cons g rest ih => rw [List.foldl_cons, ih, acc_merge, sup_le_iff, List.forall_mem_cons, and_assoc]

theorem acc_merge_of_le_iff {target : ℕ} {items : List (ℕ × DenseMaskGSS A)} {stack : List ℕ}
    {x : WithBot A} :
    (merge_of target items).acc stack ≤ x ↔ ∀ g, (target, g) ∈ items → g.acc stack ≤ x := by
  rw [merge_of, acc_foldl_merge_le_iff]
  have hempty : (empty : DenseMaskGSS A).acc stack = ⊥ := LeveledGSS.acc_empty stack
  simp [hempty]

end DenseMaskGSS
inductive MaskQueueMode
  | Target
  | Depth
  | DepthMerge
  | DepthBatch4

def DEPTH_BATCH_MERGE_THRESHOLD : ℕ := 4

/-- Depths are listed from the greatest down, and targets and structures from the last pushed. -/
inductive MaskQueueInner (A : Type) [Merge A]
  | target (by_target : SortedMap ℕ (DenseMaskGSS A)) (ready_by_depth : SortedMap ℕᵒᵈ (List ℕ))
  | depth (by_depth : SortedMap ℕᵒᵈ (SortedMap ℕ (List (DenseMaskGSS A))))

structure MaskQueue (A : Type) [Merge A] where
  mode : MaskQueueMode
  inner : MaskQueueInner A

/-! ## The operations -/

section

variable {A : Type} [Merge A]

def MaskQueue.new_with_mode (mode : MaskQueueMode) : MaskQueue A :=
  match mode with
  | .Target => ⟨mode, .target .empty .empty⟩
  | .Depth | .DepthMerge | .DepthBatch4 => ⟨mode, .depth .empty⟩

/-- The first target of a depth that is not stale, with the targets after it. -/
def next_ready (by_target : SortedMap ℕ (DenseMaskGSS A)) (depth : ℕ) :
    List ℕ → Option (ℕ × DenseMaskGSS A × List ℕ)
  | [] => none
  | target :: targets =>
      match by_target.get target with
      | none => next_ready by_target depth targets
      | some current =>
          if current.max_depth ≠ depth then next_ready by_target depth targets
          else some (target, current, targets)

/-- The target to hand out, and the schedule without what was looked at. -/
def pop_ready (by_target : SortedMap ℕ (DenseMaskGSS A)) :
    List (ℕᵒᵈ × List ℕ) → Option (ℕ × DenseMaskGSS A) × List (ℕᵒᵈ × List ℕ)
  | [] => (none, [])
  | (depth, targets) :: rest =>
      match next_ready by_target (ofDual depth) targets with
      | none => pop_ready by_target rest
      | some (target, gss, []) => (some (target, gss), rest)
      | some (target, gss, later) => (some (target, gss), (depth, later) :: rest)

variable [Runtime]

/-- Nothing is returned where the code panics. -/
def pop_bucket : List (ℕᵒᵈ × SortedMap ℕ (List (DenseMaskGSS A))) →
    Option (Option (ℕ × DenseMaskGSS A) × List (ℕᵒᵈ × SortedMap ℕ (List (DenseMaskGSS A))))
  | [] => some (none, [])
  | (depth, bucket) :: rest =>
      match (Runtime.reorder bucket.keys).head? with
      | none => pop_bucket rest
      | some target =>
          match bucket.get target with
          | none | some [] => none
          | some (gss :: items) =>
              let bucket := if items.isEmpty then bucket.remove target
                else bucket.insert target items
              some (some (target, gss),
                if bucket.entries.isEmpty then rest else (depth, bucket) :: rest)

omit [Runtime] in
theorem pop_ready_sublist (by_target : SortedMap ℕ (DenseMaskGSS A))
    (ready : List (ℕᵒᵈ × List ℕ)) :
    ((pop_ready by_target ready).2.map Prod.fst).Sublist (ready.map Prod.fst) := by
  fun_induction pop_ready by_target ready with
  | case1 => exact List.Sublist.refl _
  | case2 depth targets rest hnone ih => exact ih.cons depth
  | case3 depth targets rest target gss hnext => exact List.sublist_cons_self _ _
  | case4 depth targets rest target gss later hnext hlater => exact List.Sublist.refl _

theorem pop_bucket_sublist {buckets rest : List (ℕᵒᵈ × SortedMap ℕ (List (DenseMaskGSS A)))}
    {popped : Option (ℕ × DenseMaskGSS A)} (h : pop_bucket buckets = some (popped, rest)) :
    (rest.map Prod.fst).Sublist (buckets.map Prod.fst) := by
  induction buckets with
  | nil =>
      obtain ⟨-, rfl⟩ := Prod.mk.inj (Option.some.inj h)
      exact List.Sublist.refl _
  | cons e buckets ih =>
      obtain ⟨depth, bucket⟩ := e
      rw [pop_bucket] at h
      split at h
      · exact (ih h).cons depth
      · split at h
        · cases h
        · cases h
        · obtain ⟨-, rfl⟩ := Prod.mk.inj (Option.some.inj h)
          split_ifs
          all_goals first
            | exact List.Sublist.refl _
            | exact List.sublist_cons_self _ _

end

namespace MaskQueue

variable {A : Type} [Merge A]

section

variable [Sharing] [DecidableEq A]

/-- The structure to merge with, and the structures that stay as they are. -/
def existing_item (mode : MaskQueueMode) (items : List (DenseMaskGSS A)) :
    Option (DenseMaskGSS A) × List (DenseMaskGSS A) :=
  match mode, items with
  | .DepthMerge, last :: rest => (some last, rest)
  | .DepthBatch4, last :: rest =>
      if DEPTH_BATCH_MERGE_THRESHOLD ≤ items.length + 1 then
        (some (rest.foldl DenseMaskGSS.merge last), [])
      else (none, items)
  | _, _ => (none, items)

def push_item (mode : MaskQueueMode) (items : List (DenseMaskGSS A)) (gss : DenseMaskGSS A) :
    List (DenseMaskGSS A) :=
  match existing_item mode items with
  | (some existing, rest) => existing.merge gss :: rest
  | (none, rest) => gss :: rest

def enqueue (queue : MaskQueue A) (target : ℕ) (gss : DenseMaskGSS A) : MaskQueue A :=
  if gss.is_empty then queue
  else
    match queue.inner with
    | .target by_target ready_by_depth =>
        let merged := match by_target.get target with
          | some existing => (existing.merge gss).fuse_top
          | none => gss
        let depth := toDual merged.max_depth
        ⟨queue.mode, .target (by_target.insert target merged)
          (ready_by_depth.insert depth (target :: (ready_by_depth.get depth).getD []))⟩
    | .depth by_depth =>
        let depth := toDual gss.max_depth
        let bucket := (by_depth.get depth).getD .empty
        let items := (bucket.get target).getD []
        ⟨queue.mode, .depth (by_depth.insert depth
          (bucket.insert target (push_item queue.mode items gss)))⟩

end

section

variable [Runtime]

/-- Nothing is returned where the code panics. -/
def pop_next (queue : MaskQueue A) : Option (Option (ℕ × DenseMaskGSS A) × MaskQueue A) :=
  match queue.inner with
  | .target by_target ready_by_depth =>
      let ready := ready_by_depth.restrict (pop_ready by_target ready_by_depth.entries).2
        (pop_ready_sublist by_target ready_by_depth.entries)
      match (pop_ready by_target ready_by_depth.entries).1 with
      | none => some (none, ⟨queue.mode, .target by_target ready⟩)
      | some (target, gss) =>
          some (some (target, gss), ⟨queue.mode, .target (by_target.remove target) ready⟩)
  | .depth by_depth =>
      match h : pop_bucket by_depth.entries with
      | none => none
      | some (popped, rest) =>
          some (popped, ⟨queue.mode, .depth (by_depth.restrict rest (pop_bucket_sublist h))⟩)

end

/-! ## What waits -/

def bucket_items (bucket : SortedMap ℕ (List (DenseMaskGSS A))) : List (ℕ × DenseMaskGSS A) :=
  bucket.entries.flatMap fun e => e.2.map (Prod.mk e.1)

/-- The structures that wait, with their targets. -/
def held (queue : MaskQueue A) : List (ℕ × DenseMaskGSS A) :=
  match queue.inner with
  | .target by_target _ => by_target.entries
  | .depth by_depth => by_depth.entries.flatMap fun e => bucket_items e.2

/-- Every waiting target is in the schedule at its depth. -/
def Scheduled (by_target : SortedMap ℕ (DenseMaskGSS A)) (ready : List (ℕᵒᵈ × List ℕ)) : Prop :=
  ∀ target gss, by_target.get target = some gss →
    ∃ e ∈ ready, e.1 = toDual gss.max_depth ∧ target ∈ e.2

/-- A bucket lists structures of its depth, and at least one for each of its targets. -/
def Bucketed (depth : ℕᵒᵈ) (bucket : SortedMap ℕ (List (DenseMaskGSS A))) : Prop :=
  ∀ target items, bucket.get target = some items →
    items ≠ [] ∧ ∀ gss ∈ items, gss.is_empty = false ∧ toDual gss.max_depth = depth

/-- What holds of a queue at every moment. -/
def Sound (queue : MaskQueue A) : Prop :=
  match queue.inner with
  | .target by_target ready_by_depth =>
      (∀ target gss, by_target.get target = some gss → gss.is_empty = false) ∧
        Scheduled by_target ready_by_depth.entries
  | .depth by_depth => ∀ depth bucket, by_depth.get depth = some bucket → Bucketed depth bucket

theorem mem_bucket_items {bucket : SortedMap ℕ (List (DenseMaskGSS A))}
    {item : ℕ × DenseMaskGSS A} :
    item ∈ bucket_items bucket ↔ ∃ items, bucket.get item.1 = some items ∧ item.2 ∈ items := by
  obtain ⟨target, gss⟩ := item
  simp only [bucket_items, List.mem_flatMap, List.mem_map, Prod.mk.injEq]
  constructor
  · intro h
    obtain ⟨e, he, g, hg, htarget, rfl⟩ := h
    obtain ⟨key, items⟩ := e
    obtain rfl := htarget
    exact ⟨items, SortedMap.get_eq_some_iff.mpr he, hg⟩
  · intro h
    obtain ⟨items, hget, hg⟩ := h
    exact ⟨_, SortedMap.get_eq_some_iff.mp hget, gss, hg, rfl, rfl⟩

/-! ## Coming in -/

section

variable [Sharing] [DecidableEq A]

theorem push_item_le_iff {mode : MaskQueueMode} {items : List (DenseMaskGSS A)}
    {gss : DenseMaskGSS A} {stack : List ℕ} {x : WithBot A} :
    (∀ g ∈ push_item mode items gss, g.acc stack ≤ x) ↔
      (∀ g ∈ items, g.acc stack ≤ x) ∧ gss.acc stack ≤ x := by
  have hpush : ∀ rest : List (DenseMaskGSS A), (∀ g ∈ gss :: rest, g.acc stack ≤ x) ↔
      (∀ g ∈ rest, g.acc stack ≤ x) ∧ gss.acc stack ≤ x := by
    intro rest
    rw [List.forall_mem_cons, and_comm]
  unfold push_item existing_item
  cases items with
  | nil => cases mode <;> exact hpush []
  | cons last rest =>
      cases mode with
      | Target => exact hpush _
      | Depth => exact hpush _
      | DepthMerge =>
          simp only [List.forall_mem_cons, DenseMaskGSS.acc_merge, sup_le_iff]
          tauto
      | DepthBatch4 =>
          dsimp only
          split_ifs with hbatch
          · simp only [List.forall_mem_cons, DenseMaskGSS.acc_merge, sup_le_iff,
              DenseMaskGSS.acc_foldl_merge_le_iff]
            simp
          · exact hpush _

theorem push_item_good (mode : MaskQueueMode) {items : List (DenseMaskGSS A)}
    {gss : DenseMaskGSS A} (hgss : gss.is_empty = false)
    (h : ∀ g ∈ items, g.is_empty = false ∧ g.max_depth = gss.max_depth) :
    push_item mode items gss ≠ [] ∧
      ∀ g ∈ push_item mode items gss, g.is_empty = false ∧ g.max_depth = gss.max_depth := by
  have hpush : gss :: items ≠ [] ∧
      ∀ g ∈ gss :: items, g.is_empty = false ∧ g.max_depth = gss.max_depth :=
    ⟨List.cons_ne_nil _ _, List.forall_mem_cons.mpr ⟨⟨hgss, rfl⟩, h⟩⟩
  have hmerge : ∀ {g other : DenseMaskGSS A}, g.is_empty = false ∧ g.max_depth = gss.max_depth →
      other.max_depth = gss.max_depth →
        (g.merge other).is_empty = false ∧ (g.merge other).max_depth = gss.max_depth := by
    intro g other hg hother
    refine ⟨DenseMaskGSS.merge_not_empty hg.1 other, ?_⟩
    rw [DenseMaskGSS.max_depth_merge (hg.2.trans hother.symm), hg.2]
  unfold push_item existing_item
  cases items with
  | nil => cases mode <;> exact hpush
  | cons last rest =>
      obtain ⟨hlast, hrest⟩ := List.forall_mem_cons.mp h
      cases mode with
      | Target => exact hpush
      | Depth => exact hpush
      | DepthMerge =>
          exact ⟨List.cons_ne_nil _ _, List.forall_mem_cons.mpr ⟨hmerge hlast rfl, hrest⟩⟩
      | DepthBatch4 =>
          dsimp only
          split_ifs with hbatch
          · refine ⟨List.cons_ne_nil _ _, List.forall_mem_cons.mpr ⟨?_, List.forall_mem_nil _⟩⟩
            apply hmerge _ rfl
            clear h hpush hbatch
            induction rest generalizing last with
            | nil => exact hlast
            | cons g rest ih =>
                obtain ⟨hg, hrest⟩ := List.forall_mem_cons.mp hrest
                exact ih _ (hmerge hlast hg.2) hrest
          · exact hpush

end

/-- The structures of a depth and a target. -/
def waiting (by_depth : SortedMap ℕᵒᵈ (SortedMap ℕ (List (DenseMaskGSS A)))) (depth : ℕᵒᵈ)
    (target : ℕ) : List (DenseMaskGSS A) :=
  (((by_depth.get depth).getD .empty).get target).getD []

theorem mem_held_depth {mode : MaskQueueMode}
    {by_depth : SortedMap ℕᵒᵈ (SortedMap ℕ (List (DenseMaskGSS A)))}
    {item : ℕ × DenseMaskGSS A} :
    item ∈ (⟨mode, .depth by_depth⟩ : MaskQueue A).held ↔
      ∃ depth, item.2 ∈ waiting by_depth depth item.1 := by
  change item ∈ by_depth.entries.flatMap (fun e => bucket_items e.2) ↔ _
  rw [List.mem_flatMap]
  constructor
  · intro h
    obtain ⟨e, he, hitem⟩ := h
    obtain ⟨items, hget, hmem⟩ := mem_bucket_items.mp hitem
    refine ⟨e.1, ?_⟩
    rw [waiting, SortedMap.get_eq_some_iff.mpr he, Option.getD_some, hget]
    exact hmem
  · intro h
    obtain ⟨depth, hmem⟩ := h
    unfold waiting at hmem
    cases hbucket : by_depth.get depth with
    | none =>
        rw [hbucket] at hmem
        cases hmem
    | some bucket =>
        rw [hbucket, Option.getD_some] at hmem
        cases hitems : bucket.get item.1 with
        | none =>
            rw [hitems] at hmem
            cases hmem
        | some items =>
            rw [hitems] at hmem
            exact ⟨(depth, bucket), SortedMap.get_eq_some_iff.mp hbucket,
              mem_bucket_items.mpr ⟨items, hitems, hmem⟩⟩

/-- Putting structures into a bucket changes one depth and one target. -/
theorem waiting_insert (by_depth : SortedMap ℕᵒᵈ (SortedMap ℕ (List (DenseMaskGSS A))))
    (depth depth' : ℕᵒᵈ) (target target' : ℕ) (items : List (DenseMaskGSS A)) :
    waiting (by_depth.insert depth
        (((by_depth.get depth).getD .empty).insert target items)) depth' target' =
      if depth = depth' ∧ target = target' then items else waiting by_depth depth' target' := by
  unfold waiting
  rw [SortedMap.get_insert]
  by_cases hdepth : depth = depth'
  · subst hdepth
    rw [if_pos rfl, Option.getD_some, SortedMap.get_insert]
    by_cases htarget : target = target'
    · rw [if_pos htarget, if_pos ⟨rfl, htarget⟩, Option.getD_some]
    · rw [if_neg htarget, if_neg fun h => htarget h.2]
  · rw [if_neg hdepth, if_neg fun h => hdepth h.1]

section

variable [Sharing] [DecidableEq A]

/-- What comes in is added to what waits for its target. -/
theorem held_enqueue_le_iff (queue : MaskQueue A) (target target' : ℕ) (gss : DenseMaskGSS A)
    (stack : List ℕ) (x : WithBot A) :
    (∀ g, (target', g) ∈ (queue.enqueue target gss).held → g.acc stack ≤ x) ↔
      (∀ g, (target', g) ∈ queue.held → g.acc stack ≤ x) ∧
        (target = target' → gss.acc stack ≤ x) := by
  obtain ⟨mode, inner⟩ := queue
  unfold enqueue
  split_ifs with hempty
  · have hbot : gss.acc stack ≤ x := by
      rw [DenseMaskGSS.acc, LeveledGSS.acc_of_is_empty hempty]
      exact bot_le
    exact (and_iff_left fun _ => hbot).symm
  · cases inner with
    | target by_target ready_by_depth =>
        have hmem : ∀ (by_target : SortedMap ℕ (DenseMaskGSS A)) ready target g,
            (target, g) ∈ (⟨mode, .target by_target ready⟩ : MaskQueue A).held ↔
              by_target.get target = some g := by
          intro by_target ready target g
          exact SortedMap.get_eq_some_iff.symm
        simp only [hmem, SortedMap.get_insert]
        by_cases htarget : target = target'
        · subst htarget
          cases hget : by_target.get target with
          | none => simp
          | some existing =>
              simp [DenseMaskGSS.acc_fuse_top, DenseMaskGSS.acc_merge]
        · simp [htarget]
    | depth by_depth =>
        simp only [mem_held_depth, forall_exists_index, waiting_insert]
        constructor
        · intro h
          have hnew : target = target' →
              (∀ g ∈ waiting by_depth (toDual gss.max_depth) target, g.acc stack ≤ x) ∧
                gss.acc stack ≤ x := by
            intro htarget
            apply push_item_le_iff.mp
            intro g hg
            apply h g (toDual gss.max_depth)
            rw [if_pos ⟨rfl, htarget⟩]
            exact hg
          refine ⟨?_, fun htarget => (hnew htarget).2⟩
          intro g depth hg
          by_cases hput : toDual gss.max_depth = depth ∧ target = target'
          · obtain ⟨rfl, rfl⟩ := hput
            exact (hnew rfl).1 g hg
          · apply h g depth
            rw [if_neg hput]
            exact hg
        · intro h
          obtain ⟨hold, hgss⟩ := h
          intro g depth hg
          split_ifs at hg with hput
          · obtain ⟨rfl, rfl⟩ := hput
            exact push_item_le_iff.mpr ⟨fun g hg => hold g _ hg, hgss rfl⟩ g hg
          · exact hold g depth hg

omit [Sharing] [DecidableEq A] in
theorem waiting_good {mode : MaskQueueMode}
    {by_depth : SortedMap ℕᵒᵈ (SortedMap ℕ (List (DenseMaskGSS A)))}
    (h : (⟨mode, .depth by_depth⟩ : MaskQueue A).Sound) (depth : ℕᵒᵈ) (target : ℕ) :
    ∀ g ∈ waiting by_depth depth target, g.is_empty = false ∧ g.max_depth = ofDual depth := by
  intro g hg
  unfold waiting at hg
  cases hbucket : by_depth.get depth with
  | none =>
      rw [hbucket] at hg
      cases hg
  | some bucket =>
      rw [hbucket, Option.getD_some] at hg
      cases hitems : bucket.get target with
      | none =>
          rw [hitems] at hg
          cases hg
      | some items =>
          rw [hitems] at hg
          obtain ⟨hnonempty, heq⟩ := (h depth bucket hbucket target items hitems).2 g hg
          exact ⟨hnonempty, congrArg ofDual heq⟩

omit [Sharing] [DecidableEq A] in
theorem scheduled_pushed (ready_by_depth : SortedMap ℕᵒᵈ (List ℕ)) (depth : ℕᵒᵈ) (target : ℕ) :
    ∃ e ∈ (ready_by_depth.insert depth
      (target :: (ready_by_depth.get depth).getD [])).entries, e.1 = depth ∧ target ∈ e.2 := by
  refine ⟨(depth, target :: (ready_by_depth.get depth).getD []),
    SortedMap.get_eq_some_iff.mp ?_, rfl, List.mem_cons_self⟩
  rw [SortedMap.get_insert, if_pos rfl]

omit [Sharing] [DecidableEq A] in
/-- Putting a target on the schedule takes none off. -/
theorem scheduled_push {ready_by_depth : SortedMap ℕᵒᵈ (List ℕ)} {depth : ℕᵒᵈ} {target : ℕ}
    (depth' : ℕᵒᵈ) (target' : ℕ)
    (h : ∃ e ∈ ready_by_depth.entries, e.1 = depth ∧ target ∈ e.2) :
    ∃ e ∈ (ready_by_depth.insert depth'
      (target' :: (ready_by_depth.get depth').getD [])).entries, e.1 = depth ∧ target ∈ e.2 := by
  obtain ⟨e, he, rfl, hmem⟩ := h
  obtain ⟨depth, targets⟩ := e
  have hold := SortedMap.get_eq_some_iff.mpr he
  by_cases hdepth : depth' = depth
  · subst hdepth
    refine ⟨(depth', target' :: targets), SortedMap.get_eq_some_iff.mp ?_, rfl,
      List.mem_cons_of_mem _ hmem⟩
    rw [SortedMap.get_insert, if_pos rfl, hold, Option.getD_some]
  · refine ⟨(depth, targets), SortedMap.get_eq_some_iff.mp ?_, rfl, hmem⟩
    rw [SortedMap.get_insert, if_neg hdepth, hold]

theorem enqueue_sound {queue : MaskQueue A} (h : queue.Sound) (target : ℕ)
    (gss : DenseMaskGSS A) : (queue.enqueue target gss).Sound := by
  obtain ⟨mode, inner⟩ := queue
  unfold enqueue
  split_ifs with hempty
  · exact h
  · have hgss : gss.is_empty = false := by simpa using hempty
    cases inner with
    | target by_target ready_by_depth =>
        obtain ⟨hheld, hscheduled⟩ := h
        constructor
        · intro target' g hget
          rw [SortedMap.get_insert] at hget
          split_ifs at hget with htarget
          · obtain rfl := Option.some.inj hget
            cases hexisting : by_target.get target with
            | none => exact hgss
            | some existing =>
                apply DenseMaskGSS.fuse_top_not_empty
                exact DenseMaskGSS.merge_not_empty (hheld target existing hexisting) gss
          · exact hheld target' g hget
        · intro target' g hget
          rw [SortedMap.get_insert] at hget
          split_ifs at hget with htarget
          · obtain rfl := Option.some.inj hget
            subst htarget
            exact scheduled_pushed _ _ _
          · exact scheduled_push _ _ (hscheduled target' g hget)
    | depth by_depth =>
        have hgood := push_item_good mode hgss
          (waiting_good h (toDual gss.max_depth) target)
        intro depth bucket hbucket
        rw [SortedMap.get_insert] at hbucket
        split_ifs at hbucket with hdepth
        · obtain rfl := Option.some.inj hbucket
          subst hdepth
          intro target' items hitems
          rw [SortedMap.get_insert] at hitems
          split_ifs at hitems with htarget
          · obtain rfl := Option.some.inj hitems
            refine ⟨hgood.1, ?_⟩
            intro g hg
            obtain ⟨hnonempty, heq⟩ := hgood.2 g hg
            exact ⟨hnonempty, congrArg toDual heq⟩
          · cases hold : by_depth.get (toDual gss.max_depth) with
            | none =>
                rw [hold] at hitems
                cases hitems
            | some bucket =>
                rw [hold] at hitems
                exact h _ _ hold target' items hitems
        · exact h depth bucket hbucket

end

/-! ## Going out -/

theorem next_ready_none {by_target : SortedMap ℕ (DenseMaskGSS A)} {depth : ℕ} {targets : List ℕ}
    (h : next_ready by_target depth targets = none) :
    ∀ target ∈ targets, ∀ gss, by_target.get target = some gss → gss.max_depth ≠ depth := by
  fun_induction next_ready by_target depth targets with
  | case1 =>
      intro target htarget
      cases htarget
  | case2 target targets hget ih =>
      refine List.forall_mem_cons.mpr ⟨?_, ih h⟩
      intro gss hgss
      rw [hget] at hgss
      cases hgss
  | case3 target targets current hget hstale ih =>
      refine List.forall_mem_cons.mpr ⟨?_, ih h⟩
      intro gss hgss
      rw [hget] at hgss
      obtain rfl := Option.some.inj hgss
      exact hstale
  | case4 => cases h

/-- The targets before the one that is handed out are stale. -/
theorem next_ready_some {by_target : SortedMap ℕ (DenseMaskGSS A)} {depth target : ℕ}
    {targets later : List ℕ} {gss : DenseMaskGSS A}
    (h : next_ready by_target depth targets = some (target, gss, later)) :
    by_target.get target = some gss ∧ gss.max_depth = depth ∧
      ∀ target' ∈ targets, ∀ gss', by_target.get target' = some gss' → gss'.max_depth = depth →
        target' = target ∨ target' ∈ later := by
  fun_induction next_ready by_target depth targets with
  | case1 => cases h
  | case2 first targets hget ih =>
      obtain ⟨hfound, hdepth, hrest⟩ := ih h
      refine ⟨hfound, hdepth, List.forall_mem_cons.mpr ⟨?_, hrest⟩⟩
      intro gss' hgss'
      rw [hget] at hgss'
      cases hgss'
  | case3 first targets current hget hstale ih =>
      obtain ⟨hfound, hdepth, hrest⟩ := ih h
      refine ⟨hfound, hdepth, List.forall_mem_cons.mpr ⟨?_, hrest⟩⟩
      intro gss' hgss' hdepth'
      rw [hget] at hgss'
      obtain rfl := Option.some.inj hgss'
      exact absurd hdepth' hstale
  | case4 first targets current hget hfresh =>
      obtain ⟨rfl, hrest⟩ := Prod.mk.inj (Option.some.inj h)
      obtain ⟨rfl, rfl⟩ := Prod.mk.inj hrest
      refine ⟨hget, not_not.mp hfresh, List.forall_mem_cons.mpr ⟨?_, ?_⟩⟩
      · exact fun _ _ _ => Or.inl rfl
      · exact fun target' htarget' _ _ _ => Or.inr htarget'

/-- What is handed out of a schedule, and what is left of it. -/
structure Dispatched (by_target : SortedMap ℕ (DenseMaskGSS A)) (target : ℕ)
    (gss : DenseMaskGSS A) (ready : List (ℕᵒᵈ × List ℕ)) : Prop where
  found : by_target.get target = some gss
  deepest : ∀ target' gss', by_target.get target' = some gss' → gss'.max_depth ≤ gss.max_depth
  scheduled : Scheduled (by_target.remove target) ready

/-- Depths whose targets are all stale may be taken off the schedule. -/
theorem scheduled_skip {by_target : SortedMap ℕ (DenseMaskGSS A)} {depth : ℕᵒᵈ}
    {targets : List ℕ} {rest : List (ℕᵒᵈ × List ℕ)}
    (h : Scheduled by_target ((depth, targets) :: rest))
    (hnone : next_ready by_target (ofDual depth) targets = none) : Scheduled by_target rest := by
  intro target gss hget
  obtain ⟨e, he, hdepth, hmem⟩ := h target gss hget
  obtain rfl | he := List.mem_cons.mp he
  · exact absurd (congrArg ofDual hdepth).symm (next_ready_none hnone target hmem gss hget)
  · exact ⟨e, he, hdepth, hmem⟩

theorem dispatched_of_next_ready {by_target : SortedMap ℕ (DenseMaskGSS A)} {depth : ℕᵒᵈ}
    {target : ℕ} {targets later : List ℕ} {rest ready : List (ℕᵒᵈ × List ℕ)}
    {gss : DenseMaskGSS A} (h : Scheduled by_target ((depth, targets) :: rest))
    (hsorted : ((depth, targets) :: rest).Pairwise fun a b => a.1 < b.1)
    (hnext : next_ready by_target (ofDual depth) targets = some (target, gss, later))
    (hrest : ∀ e ∈ rest, e ∈ ready) (hlater : later ≠ [] → (depth, later) ∈ ready) :
    Dispatched by_target target gss ready := by
  obtain ⟨hfound, hgss, hstale⟩ := next_ready_some hnext
  refine ⟨hfound, ?_, ?_⟩
  · intro target' gss' hget
    obtain ⟨e, he, hdepth, -⟩ := h target' gss' hget
    rw [hgss]
    obtain rfl | he := List.mem_cons.mp he
    · exact (congrArg ofDual hdepth).ge
    · have hlt : depth < e.1 := List.rel_of_pairwise_cons hsorted he
      rw [hdepth] at hlt
      exact (ofDual_lt_ofDual.mpr hlt).le
  · intro target' gss' hget
    rw [SortedMap.get_remove] at hget
    split_ifs at hget with htarget
    obtain ⟨e, he, hdepth, hmem⟩ := h target' gss' hget
    obtain rfl | he := List.mem_cons.mp he
    · obtain heq | hmem := hstale target' hmem gss' hget (congrArg ofDual hdepth).symm
      · exact absurd heq.symm htarget
      · exact ⟨(depth, later), hlater (List.ne_nil_of_mem hmem), hdepth, hmem⟩
    · exact ⟨e, hrest e he, hdepth, hmem⟩

theorem pop_ready_spec {by_target : SortedMap ℕ (DenseMaskGSS A)}
    {ready : List (ℕᵒᵈ × List ℕ)} (h : Scheduled by_target ready)
    (hsorted : ready.Pairwise fun a b => a.1 < b.1) :
    ((pop_ready by_target ready).1 = none → by_target.entries = []) ∧
      ∀ target gss, (pop_ready by_target ready).1 = some (target, gss) →
        Dispatched by_target target gss (pop_ready by_target ready).2 := by
  fun_induction pop_ready by_target ready with
  | case1 =>
      refine ⟨fun _ => ?_, (fun _ _ hnone => by cases hnone)⟩
      apply List.eq_nil_iff_forall_not_mem.mpr
      intro e he
      obtain ⟨_, hmem, -⟩ := h e.1 e.2 (SortedMap.get_eq_some_iff.mpr he)
      cases hmem
  | case2 depth targets rest hnone ih => exact ih (scheduled_skip h hnone) hsorted.tail
  | case3 depth targets rest target gss hnext =>
      refine ⟨(fun hnone => by cases hnone), ?_⟩
      intro target' gss' heq
      obtain ⟨rfl, rfl⟩ := Prod.mk.inj (Option.some.inj heq)
      exact dispatched_of_next_ready h hsorted hnext (fun _ he => he) fun hne => absurd rfl hne
  | case4 depth targets rest target gss later hlater hnext =>
      refine ⟨(fun hnone => by cases hnone), ?_⟩
      intro target' gss' heq
      obtain ⟨rfl, rfl⟩ := Prod.mk.inj (Option.some.inj heq)
      exact dispatched_of_next_ready h hsorted hnext (fun _ he => List.mem_cons_of_mem _ he)
        fun _ => List.mem_cons_self

/-! ## Buckets -/

theorem bucket_items_perm_remove {bucket : SortedMap ℕ (List (DenseMaskGSS A))} {target : ℕ}
    {items : List (DenseMaskGSS A)} (h : bucket.get target = some items) :
    (bucket_items bucket).Perm
      (items.map (Prod.mk target) ++ bucket_items (bucket.remove target)) :=
  (SortedMap.entries_perm_remove h).flatMap_right _

/-- Taking one structure out of a bucket leaves the others. -/
theorem bucket_items_perm_pop {bucket : SortedMap ℕ (List (DenseMaskGSS A))} {target : ℕ}
    {gss : DenseMaskGSS A} {items : List (DenseMaskGSS A)}
    (h : bucket.get target = some (gss :: items)) :
    (bucket_items bucket).Perm ((target, gss) :: bucket_items
      (if items.isEmpty then bucket.remove target else bucket.insert target items)) := by
  have hold := bucket_items_perm_remove h
  split_ifs with hitems
  · obtain rfl := List.isEmpty_iff.mp hitems
    exact hold
  · have hnew : (bucket_items (bucket.insert target items)).Perm
        (items.map (Prod.mk target) ++ bucket_items (bucket.remove target)) :=
      (SortedMap.entries_insert_perm_remove bucket target items).flatMap_right _
    exact hold.trans (hnew.symm.cons _)

theorem bucketed_pop {depth : ℕᵒᵈ} {bucket : SortedMap ℕ (List (DenseMaskGSS A))} {target : ℕ}
    {gss : DenseMaskGSS A} {items : List (DenseMaskGSS A)} (h : Bucketed depth bucket)
    (hget : bucket.get target = some (gss :: items)) :
    Bucketed depth
      (if items.isEmpty then bucket.remove target else bucket.insert target items) := by
  intro target' items' hitems'
  split_ifs at hitems' with hitems
  · rw [SortedMap.get_remove] at hitems'
    split_ifs at hitems'
    exact h target' items' hitems'
  · rw [SortedMap.get_insert] at hitems'
    split_ifs at hitems'
    · obtain rfl := Option.some.inj hitems'
      refine ⟨fun heq => hitems (by rw [heq]; rfl), ?_⟩
      intro g hg
      exact (h target _ hget).2 g (List.mem_cons_of_mem _ hg)
    · exact h target' items' hitems'

def all_items (buckets : List (ℕᵒᵈ × SortedMap ℕ (List (DenseMaskGSS A)))) :
    List (ℕ × DenseMaskGSS A) :=
  buckets.flatMap fun e => bucket_items e.2

/-- What is handed out of the buckets, and what is left of them. -/
structure Taken (buckets rest : List (ℕᵒᵈ × SortedMap ℕ (List (DenseMaskGSS A))))
    (popped : Option (ℕ × DenseMaskGSS A)) : Prop where
  bucketed : ∀ e ∈ rest, Bucketed e.1 e.2
  all : popped = none → all_items buckets = []
  items : (all_items buckets).Perm (popped.toList ++ all_items rest)
  nonempty : ∀ item ∈ popped, item.2.is_empty = false
  deepest : ∀ item ∈ popped, ∀ e ∈ all_items buckets, e.2.max_depth ≤ item.2.max_depth

theorem max_depth_of_bucketed {depth : ℕᵒᵈ} {bucket : SortedMap ℕ (List (DenseMaskGSS A))}
    (h : Bucketed depth bucket) {item : ℕ × DenseMaskGSS A} (hitem : item ∈ bucket_items bucket) :
    item.2.is_empty = false ∧ item.2.max_depth = ofDual depth := by
  obtain ⟨items, hget, hmem⟩ := mem_bucket_items.mp hitem
  obtain ⟨hnonempty, hdepth⟩ := (h item.1 items hget).2 item.2 hmem
  exact ⟨hnonempty, congrArg ofDual hdepth⟩

/-- A structure of the first bucket is as deep as any. -/
theorem taken_of_bucket {depth : ℕᵒᵈ} {bucket left : SortedMap ℕ (List (DenseMaskGSS A))}
    {buckets : List (ℕᵒᵈ × SortedMap ℕ (List (DenseMaskGSS A)))} {item : ℕ × DenseMaskGSS A}
    (hbucket : Bucketed depth bucket) (hbuckets : ∀ e ∈ buckets, Bucketed e.1 e.2)
    (hsorted : ((depth, bucket) :: buckets).Pairwise fun a b => a.1 < b.1)
    (hleft : Bucketed depth left)
    (hperm : (bucket_items bucket).Perm (item :: bucket_items left)) :
    Taken ((depth, bucket) :: buckets)
      (if left.entries.isEmpty then buckets else (depth, left) :: buckets) (some item) := by
  have hrest : all_items (if left.entries.isEmpty then buckets else (depth, left) :: buckets) =
      bucket_items left ++ all_items buckets := by
    split_ifs with hempty
    · rw [bucket_items, List.isEmpty_iff.mp hempty]
      rfl
    · rfl
  obtain ⟨hnonempty, hdepth⟩ :=
    max_depth_of_bucketed hbucket (hperm.mem_iff.mpr List.mem_cons_self)
  refine ⟨?_, (fun hnone => by cases hnone), ?_, ?_, ?_⟩
  · intro e he
    split_ifs at he
    · exact hbuckets e he
    · obtain rfl | he := List.mem_cons.mp he
      · exact hleft
      · exact hbuckets e he
  · rw [hrest]
    exact hperm.append_right (all_items buckets)
  · intro item' hitem'
    obtain rfl := Option.some.inj hitem'
    exact hnonempty
  · intro item' hitem' e he
    obtain rfl := Option.some.inj hitem'
    rw [hdepth]
    obtain he | he := List.mem_append.mp he
    · exact (max_depth_of_bucketed hbucket he).2.le
    · obtain ⟨later, hlater, he⟩ := List.mem_flatMap.mp he
      have hlt : depth < later.1 := List.rel_of_pairwise_cons hsorted hlater
      rw [(max_depth_of_bucketed (hbuckets later hlater) he).2]
      exact (ofDual_lt_ofDual.mpr hlt).le

theorem pop_bucket_spec [Runtime] {buckets : List (ℕᵒᵈ × SortedMap ℕ (List (DenseMaskGSS A)))}
    (h : ∀ e ∈ buckets, Bucketed e.1 e.2) (hsorted : buckets.Pairwise fun a b => a.1 < b.1) :
    ∃ popped rest, pop_bucket buckets = some (popped, rest) ∧ Taken buckets rest popped := by
  induction buckets with
  | nil =>
      refine ⟨none, [], rfl, (fun _ he => by cases he), fun _ => rfl, List.Perm.refl _, ?_, ?_⟩
      · exact fun _ hitem => by cases hitem
      · exact fun _ hitem => by cases hitem
  | cons e buckets ih =>
      obtain ⟨depth, bucket⟩ := e
      obtain ⟨hbucket, hrest⟩ := List.forall_mem_cons.mp h
      rw [pop_bucket]
      cases htarget : (Runtime.reorder bucket.keys).head? with
      | none =>
          have hkeys : bucket.keys = [] := by
            rw [List.head?_eq_none_iff] at htarget
            exact (htarget ▸ Runtime.reorder_perm bucket.keys).nil_eq.symm
          have hempty : bucket_items bucket = [] := by
            rw [bucket_items, List.map_eq_nil_iff.mp hkeys, List.flatMap_nil]
          obtain ⟨popped, rest, hpop, htaken⟩ := ih hrest hsorted.tail
          have hall : all_items ((depth, bucket) :: buckets) = all_items buckets := by
            rw [all_items, List.flatMap_cons, hempty, List.nil_append, all_items]
          refine ⟨popped, rest, hpop, htaken.bucketed, ?_, ?_, htaken.nonempty, ?_⟩
          · rw [hall]
            exact htaken.all
          · rw [hall]
            exact htaken.items
          · rw [hall]
            exact htaken.deepest
      | some target =>
          have hkey : target ∈ bucket.keys :=
            (Runtime.reorder_perm bucket.keys).mem_iff.mp (List.mem_of_head? htarget)
          obtain ⟨items, hget⟩ := SortedMap.mem_keys_iff.mp hkey
          obtain ⟨hne, hgood⟩ := hbucket target items hget
          cases items with
          | nil => exact absurd rfl hne
          | cons gss items =>
              dsimp only
              rw [hget]
              refine ⟨_, _, rfl, ?_⟩
              apply taken_of_bucket hbucket hrest hsorted (bucketed_pop hbucket hget)
              exact bucket_items_perm_pop hget

/-- What one call hands out, and the queue it leaves. -/
structure Pops (queue queue' : MaskQueue A) (popped : Option (ℕ × DenseMaskGSS A)) : Prop where
  sound : queue'.Sound
  all : popped = none → queue.held = []
  items : queue.held.Perm (popped.toList ++ queue'.held)
  nonempty : ∀ item ∈ popped, item.2.is_empty = false
  deepest : ∀ item ∈ popped, ∀ e ∈ queue.held, e.2.max_depth ≤ item.2.max_depth

theorem pop_next_spec [Runtime] {queue : MaskQueue A} (h : queue.Sound) :
    ∃ popped queue', queue.pop_next = some (popped, queue') ∧ Pops queue queue' popped := by
  obtain ⟨mode, inner⟩ := queue
  cases inner with
  | target by_target ready_by_depth =>
      obtain ⟨hheld, hscheduled⟩ := h
      obtain ⟨hnone, hsome⟩ := pop_ready_spec hscheduled ready_by_depth.sorted
      unfold pop_next
      dsimp only
      cases hpopped : (pop_ready by_target ready_by_depth.entries).1 with
      | none =>
          have hempty := hnone hpopped
          refine ⟨none, _, rfl, ⟨hheld, ?_⟩, fun _ => hempty, List.Perm.refl _, ?_, ?_⟩
          · intro target gss hget
            have hmem := SortedMap.get_eq_some_iff.mp hget
            rw [hempty] at hmem
            cases hmem
          · exact fun _ hitem => by cases hitem
          · exact fun _ hitem => by cases hitem
      | some item =>
          obtain ⟨target, gss⟩ := item
          have hdispatched := hsome target gss hpopped
          refine ⟨some (target, gss), _, rfl, ⟨?_, hdispatched.scheduled⟩,
            (fun hnone => by cases hnone), SortedMap.entries_perm_remove hdispatched.found, ?_, ?_⟩
          · intro target' gss' hget
            rw [SortedMap.get_remove] at hget
            split_ifs at hget
            exact hheld target' gss' hget
          · intro item hitem
            obtain rfl := Option.some.inj hitem
            exact hheld target gss hdispatched.found
          · intro item hitem e he
            obtain rfl := Option.some.inj hitem
            exact hdispatched.deepest e.1 e.2 (SortedMap.get_eq_some_iff.mpr he)
  | depth by_depth =>
      have hbuckets : ∀ e ∈ by_depth.entries, Bucketed e.1 e.2 := fun e he =>
        h e.1 e.2 (SortedMap.get_eq_some_iff.mpr he)
      obtain ⟨popped, rest, hpop, htaken⟩ := pop_bucket_spec hbuckets by_depth.sorted
      have hnext : (⟨mode, .depth by_depth⟩ : MaskQueue A).pop_next = some (popped,
          ⟨mode, .depth (by_depth.restrict rest (pop_bucket_sublist hpop))⟩) := by
        unfold pop_next
        dsimp only
        split
        · rename_i hnone
          rw [hpop] at hnone
          cases hnone
        · rename_i popped' rest' hsome
          have heq := hpop.symm.trans hsome
          obtain ⟨rfl, rfl⟩ := Prod.mk.inj (Option.some.inj heq)
          rfl
      refine ⟨popped, _, hnext, ?_, htaken.all, htaken.items, htaken.nonempty, htaken.deepest⟩
      intro depth bucket hget
      exact htaken.bucketed (depth, bucket) (SortedMap.get_eq_some_iff.mp hget)

/-! ## Runs -/

theorem new_with_mode_held (mode : MaskQueueMode) :
    (new_with_mode mode : MaskQueue A).held = [] := by
  cases mode <;> rfl

theorem new_with_mode_sound (mode : MaskQueueMode) :
    (new_with_mode mode : MaskQueue A).Sound := by
  cases mode
  · exact ⟨(fun _ _ hget => by cases hget), (fun _ _ hget => by cases hget)⟩
  all_goals
    intro depth bucket hget
    cases hget

variable [DecidableEq A]

/-- The queues of a walk, with what came in and what was handed out so far. What is one
allocation, and the order of a hash map, may change from call to call. -/
inductive Reaches : MaskQueue A → List (ℕ × DenseMaskGSS A) → List (ℕ × DenseMaskGSS A) → Prop
  | new (mode : MaskQueueMode) : Reaches (new_with_mode mode) [] []
  | enqueue {queue : MaskQueue A} {enqueued popped : List (ℕ × DenseMaskGSS A)}
      (h : Reaches queue enqueued popped) (sharing : Sharing) (target : ℕ)
      (gss : DenseMaskGSS A) :
      Reaches (queue.enqueue target gss) (enqueued ++ [(target, gss)]) popped
  | pop_next {queue queue' : MaskQueue A} {enqueued popped : List (ℕ × DenseMaskGSS A)}
      {next : Option (ℕ × DenseMaskGSS A)} (h : Reaches queue enqueued popped)
      (runtime : Runtime) (hnext : queue.pop_next = some (next, queue')) :
      Reaches queue' enqueued (popped ++ next.toList)

variable {queue : MaskQueue A} {enqueued popped : List (ℕ × DenseMaskGSS A)}

theorem Reaches.sound (h : Reaches queue enqueued popped) : queue.Sound := by
  induction h with
  | new mode => exact new_with_mode_sound mode
  | enqueue h sharing target gss ih => exact enqueue_sound ih target gss
  | pop_next h runtime hnext ih =>
      obtain ⟨next, queue', hspec, hpops⟩ := pop_next_spec ih
      obtain ⟨rfl, rfl⟩ := Prod.mk.inj (Option.some.inj (hspec.symm.trans hnext))
      exact hpops.sound

/-- Every call keeps the bounds of what went out and what waits. -/
theorem Reaches.le_iff (h : Reaches queue enqueued popped) (target : ℕ) (stack : List ℕ)
    (x : WithBot A) :
    (∀ g, (target, g) ∈ popped ++ queue.held → g.acc stack ≤ x) ↔
      ∀ g, (target, g) ∈ enqueued → g.acc stack ≤ x := by
  induction h with
  | new mode => rw [new_with_mode_held, List.append_nil]
  | @enqueue queue enqueued popped h sharing target' gss ih =>
      have hcomes := held_enqueue_le_iff queue target' target gss stack x
      simp only [List.mem_append, or_imp, forall_and] at ih ⊢
      rw [hcomes, ← and_assoc, ih]
      apply and_congr_right'
      simp only [List.mem_singleton, Prod.mk.injEq]
      constructor
      · intro hgss g heq
        obtain ⟨htarget, rfl⟩ := heq
        exact hgss htarget.symm
      · intro hgss htarget
        exact hgss gss ⟨htarget.symm, rfl⟩
  | @pop_next queue queue' enqueued popped next h runtime hnext ih =>
      obtain ⟨next', queue'', hspec, hpops⟩ := pop_next_spec h.sound
      obtain ⟨rfl, rfl⟩ := Prod.mk.inj (Option.some.inj (hspec.symm.trans hnext))
      rw [← ih, List.append_assoc]
      apply forall_congr'
      intro g
      rw [(hpops.items.append_left popped).mem_iff]

/-- No structure that came in is lost or moved to another target, and a call hands out a
deepest structure as long as one waits. -/
theorem queue_run [Sharing] (h : Reaches queue enqueued popped) :
    (∀ target stack, (DenseMaskGSS.merge_of target (popped ++ queue.held)).acc stack =
      (DenseMaskGSS.merge_of target enqueued).acc stack) ∧
    ∀ _ : Runtime, ∃ next queue', queue.pop_next = some (next, queue') ∧
      (next = none ↔ ∀ item ∈ queue.held, item.2.is_empty = true) ∧
      ∀ item, next = some item → item.2.is_empty = false ∧
        queue.held.Perm (item :: queue'.held) ∧
          ∀ other ∈ queue.held, other.2.max_depth ≤ item.2.max_depth := by
  constructor
  · intro target stack
    apply eq_of_forall_ge_iff
    intro x
    rw [DenseMaskGSS.acc_merge_of_le_iff, DenseMaskGSS.acc_merge_of_le_iff]
    exact h.le_iff target stack x
  · intro _
    obtain ⟨next, queue', hnext, hpops⟩ := pop_next_spec h.sound
    refine ⟨next, queue', hnext, ?_, ?_⟩
    · constructor
      · intro hnone
        rw [hpops.all hnone]
        exact fun _ hitem => by cases hitem
      · intro hempty
        cases next with
        | none => rfl
        | some item =>
            have hheld := hpops.items.mem_iff.mpr List.mem_cons_self
            have hitem := hpops.nonempty item rfl
            rw [hempty item hheld] at hitem
            cases hitem
    · rintro item rfl
      exact ⟨hpops.nonempty item rfl, hpops.items, hpops.deepest item rfl⟩

/-- Two structures with one stack and one token each. -/
def first_stack : DenseMaskGSS DenseMaskAcc :=
  letI := Sharing.default
  ⟨.from_single_stack [0, 1] ⟨.ofList [(0, [1])]⟩, fun _ => ⟨[1, 0], by decide⟩⟩

def second_stack : DenseMaskGSS DenseMaskAcc :=
  letI := Sharing.default
  ⟨.from_single_stack [0, 2] ⟨.ofList [(0, [2])]⟩, fun _ => ⟨[2, 0], by decide⟩⟩

theorem queue_run_two : letI := Sharing.default
    let queue := ((new_with_mode .DepthMerge).enqueue 7 first_stack).enqueue 7 second_stack
    (∀ target stack, (DenseMaskGSS.merge_of target queue.held).acc stack =
      (DenseMaskGSS.merge_of target [(7, first_stack), (7, second_stack)]).acc stack) ∧
    ∀ _ : Runtime, ∃ next queue', queue.pop_next = some (next, queue') ∧
      (next = none ↔ ∀ item ∈ queue.held, item.2.is_empty = true) ∧
      ∀ item, next = some item → item.2.is_empty = false ∧
        queue.held.Perm (item :: queue'.held) ∧
          ∀ other ∈ queue.held, other.2.max_depth ≤ item.2.max_depth :=
  letI := Sharing.default
  queue_run (((Reaches.new .DepthMerge).enqueue Sharing.default 7 first_stack).enqueue
    Sharing.default 7 second_stack)

end MaskQueue

end GlrMask
