import GlrMask.LeveledGss

/-!
# Fusing the top of a graph-structured stack

The children of a top value differ in depth. Fusing one level merges them into one
child of the value, and keeps what every stack stands for.
-/

namespace GlrMask

variable {T A : Type} [DecidableEq T] [Sharing] [DecidableEq A] [Merge A]

namespace Upper

/-- One child for each value. -/
def fuse_children (children : List (Slot T (Upper T A))) : List (Slot T (Upper T A)) :=
  (Slot.values children).filterMap fun v =>
    (merge_kids merge_upper (Slot.kids v children)).map fun merged =>
      ⟨v, merged.max_depth, merged⟩

def has_multi_depth_slots (children : List (Slot T (Upper T A))) : Bool :=
  (Slot.values children).any fun v => 1 < (Slot.kids v children).length

/-- `fuse(Some(1))`: the children of the top node are taken as they are. -/
def fuse_top (node : Upper T A) : Upper T A :=
  match node with
  | interface .. => node
  | branch children empty _ =>
      if has_multi_depth_slots children then try_promote (new_branch (fuse_children children) empty)
      else node

variable {children : List (Slot T (Upper T A))}

/-- The merged nodes of a value stand for what the value stands for. -/
theorem merge_kids_upper (h : Family children) {v : T} (hv : v ∈ Slot.values children) :
    ∃ merged, merge_kids merge_upper (Slot.kids v children) = some merged ∧ merged.WF ∧
      ∀ stack, acc stack merged = Slot.joined (acc stack) v children := by
  obtain ⟨merged, hmerged, hwf, hacc⟩ := merge_kids_spec (W := Upper.WF) (F := Upper.acc)
    (fun n m hn hm => (merge_upper_spec hn hm).wf)
    (fun stack n m hn hm => (merge_upper_spec hn hm).acc stack) (Slot.kids_ne_nil hv)
    fun n hn => by
      obtain ⟨s, hs, -, rfl⟩ := Slot.mem_kids.mp hn
      exact h.wf s hs
  refine ⟨merged, hmerged, hwf, ?_⟩
  intro stack
  rw [hacc, Slot.joined_eq_kids]

theorem fuse_children_family (h : Family children) : Family (fuse_children children) := by
  have hmem : ∀ s ∈ fuse_children children, s.depth = s.node.max_depth ∧ s.node.WF := by
    intro s hs
    obtain ⟨v, hv, hs⟩ := List.mem_filterMap.mp hs
    obtain ⟨merged, hmerged, hwf, -⟩ := merge_kids_upper h hv
    rw [hmerged] at hs
    obtain rfl := Option.some.inj hs
    exact ⟨rfl, hwf⟩
  refine ⟨?_, fun s hs => (hmem s hs).1.symm, fun s hs => (hmem s hs).2⟩
  have hvalues : ((fuse_children children).map Slot.value).Sublist (Slot.values children) := by
    unfold fuse_children
    induction Slot.values children with
    | nil => exact List.Sublist.slnil
    | cons v vs ih =>
        rw [List.filterMap_cons]
        cases merge_kids merge_upper (Slot.kids v children) with
        | none => exact ih.cons v
        | some merged => exact ih.cons_cons v
  have hnodup := Slot.values_nodup.sublist hvalues
  apply List.Nodup.of_map Prod.fst
  rw [List.map_map]
  exact hnodup

theorem joined_fuse_children (h : Family children) (v : T) (stack : List T) :
    Slot.joined (acc stack) v (fuse_children children) = Slot.joined (acc stack) v children := by
  rw [fuse_children, Slot.joined_filterMap]
  split_ifs with hv
  · obtain ⟨merged, hmerged, -, hacc⟩ := merge_kids_upper h hv
    rw [hmerged]
    exact hacc stack
  · exact (Slot.joined_eq_bot hv).symm

theorem fuse_top_spec {node : Upper T A} (h : node.WF) :
    (fuse_top node).WF ∧ ∀ stack, acc stack (fuse_top node) = acc stack node := by
  cases h with
  | interface hwf => exact ⟨WF.interface hwf, fun _ => rfl⟩
  | branch hdistinct hdeep hwf hdepth =>
      rename_i children empty max_depth
      simp only [fuse_top]
      split_ifs with hmulti
      · have hfamily : Family children := ⟨hdistinct, hdeep, hwf⟩
        obtain ⟨hpromoted, -, hacc⟩ :=
          try_promote_spec (new_branch_wf (fuse_children_family hfamily) empty)
        refine ⟨hpromoted, ?_⟩
        intro stack
        rw [hacc]
        cases stack with
        | nil => rfl
        | cons v stack => exact joined_fuse_children hfamily v stack
      · exact ⟨WF.branch hdistinct hdeep hwf hdepth, fun _ => rfl⟩

end Upper

namespace LeveledGSS

def max_depth (g : LeveledGSS T A) : ℕ := g.inner.max_depth

def fuse_top (g : LeveledGSS T A) : LeveledGSS T A :=
  ⟨Upper.fuse_top g.inner, (Upper.fuse_top_spec g.wf).1⟩

theorem acc_fuse_top (g : LeveledGSS T A) (stack : List T) : g.fuse_top.acc stack = g.acc stack :=
  (Upper.fuse_top_spec g.wf).2 stack

theorem fuse_top_is_empty {g : LeveledGSS T A} (h : g.is_empty = true) :
    g.fuse_top.is_empty = true := by
  obtain ⟨inner, wf⟩ := g
  cases inner with
  | interface => cases h
  | branch children empty max_depth =>
      have hempty := h
      rw [is_empty, Upper.is_empty, Bool.and_eq_true, List.isEmpty_iff] at hempty
      obtain ⟨rfl, -⟩ := hempty
      exact h

/-- The greater depth is that of the merged stacks. -/
theorem max_depth_merge {g other : LeveledGSS T A} (h : g.max_depth = other.max_depth) :
    (g.merge other).max_depth = g.max_depth := by
  unfold merge
  split_ifs
  · exact h.symm
  · rfl
  · rw [max_depth, (Upper.merge_upper_spec g.wf other.wf).depth]
    change max g.max_depth other.max_depth = g.max_depth
    rw [h, max_self]

end LeveledGSS

end GlrMask
