import GlrMask.GssUpper

/-!
# Pruning a graph-structured stack by its accumulators

A partial function maps the accumulators and drops the stacks whose accumulator
it does not keep. A child that loses its longest stacks moves to a slot of
smaller depth. The children of a value are moved one after the other, and of
two that come to one slot the later one stays.
-/

namespace GlrMask

instance : Merge Unit where
  subsumes _ _ := true
  le_of_subsumes _ := le_rfl

/-- A graph-structured stack with right depths. -/
structure LeveledGSS (T A : Type) where
  inner : Upper T A
  wf : inner.WF

namespace Upper

variable {T A B : Type}

theorem Family.nil : Family ([] : List (Slot T (Upper T A))) :=
  ⟨List.nodup_nil, (fun _ hs => by cases hs), fun _ hs => by cases hs⟩

theorem empty_upper_inner_wf : (empty_upper_inner : Upper T A).WF := new_branch_wf Family.nil none

/-! ## The traversals -/

section

variable [DecidableEq T]

mutual

/-- What the traversal makes of a node, where `finish` is applied to every node that is made. -/
def transform_with (finish : Upper T B → Upper T B) (f : A → Option B) :
    Upper T A → Option (Upper T B)
  | interface inner acc => (f acc).map fun new_acc => finish (interface inner new_acc)
  | branch children empty _ =>
      let new_empty := empty.bind f
      let new_children := Slot.putAll (transform_children finish f children)
      if new_children.isEmpty && new_empty.isNone then none
      else some (finish (new_branch new_children new_empty))

/-- The children that keep something, each at its new depth. -/
def transform_children (finish : Upper T B → Upper T B) (f : A → Option B) :
    List (Slot T (Upper T A)) → List (Slot T (Upper T B))
  | [] => []
  | ⟨value, _, child⟩ :: kids =>
      match transform_with finish f child with
      | some nc => ⟨value, nc.max_depth, nc⟩ :: transform_children finish f kids
      | none => transform_children finish f kids

end

/-- The traversal of `apply_and_prune`. -/
def transform [Sharing] [DecidableEq B] : (A → Option B) → Upper T A → Option (Upper T B) :=
  transform_with try_promote

mutual

/-- The traversal of `apply_transform_and_decompose`. -/
def transform_td (f : A → Option B) : Upper T A → Option (Upper T B)
  | interface inner acc => (f acc).map fun new_acc => interface inner new_acc
  | branch children empty _ =>
      let new_empty := empty.bind f
      let kids := transform_td_children f children
      match children, new_empty with
      | [_], none => kids.head?.map fun nc => new_branch [nc] none
      | _, _ =>
          let new_children := Slot.putAll kids
          if new_children.isEmpty && new_empty.isNone then none
          else some (new_branch new_children new_empty)

def transform_td_children (f : A → Option B) :
    List (Slot T (Upper T A)) → List (Slot T (Upper T B))
  | [] => []
  | ⟨value, _, child⟩ :: kids =>
      match transform_td f child with
      | some nc => ⟨value, nc.max_depth, nc⟩ :: transform_td_children f kids
      | none => transform_td_children f kids

end

section

variable [Sharing] [DecidableEq A]

open Sharing

mutual

/-- The traversal of `apply_and_prune_no_promote`, which returns the node itself when nothing
below it has changed. -/
def transform_np (f : A → Option A) : Upper T A → Option (Upper T A)
  | interface inner acc =>
      (f acc).map fun new_acc => if new_acc = acc then interface inner acc else interface inner new_acc
  | branch children empty max_depth =>
      let new_empty := empty.bind f
      let empty_unchanged := decide (new_empty = empty)
      let kids := transform_np_children f children
      match children, new_empty with
      | [_], none => kids.1.head?.map fun nc =>
          if empty_unchanged && kids.2 then branch children empty max_depth
          else new_branch [nc] none
      | _, _ =>
          let new_children := Slot.putAll kids.1
          if new_children.isEmpty && new_empty.isNone then none
          else if empty_unchanged && kids.2 && decide (new_children.length = children.length) then
            some (branch children empty max_depth)
          else some (new_branch new_children new_empty)

/-- The children that keep something, and whether none was dropped or changed. -/
def transform_np_children (f : A → Option A) :
    List (Slot T (Upper T A)) → List (Slot T (Upper T A)) × Bool
  | [] => ([], true)
  | ⟨value, _, child⟩ :: kids =>
      let rest := transform_np_children f kids
      match transform_np f child with
      | some nc => (⟨value, nc.max_depth, nc⟩ :: rest.1, same nc child && rest.2)
      | none => (rest.1, false)

end

end

/-! ## What is kept and what is seen -/

mutual

/-- The length of the longest stacks that are kept. -/
def keptDepth (f : A → Option B) : Upper T A → Option ℕ
  | interface inner acc => (f acc).map fun _ => inner.max_depth
  | branch children empty _ =>
      let kept := keptChildren f children
      if kept.isEmpty && (empty.bind f).isNone then none else some (Slot.levels kept)

/-- The children of which something is kept, in the slots they move to. -/
def keptChildren (f : A → Option B) : List (Slot T (Upper T A)) → List (Slot T (Upper T A))
  | [] => []
  | ⟨value, _, child⟩ :: kids =>
      match keptDepth f child with
      | some depth => ⟨value, depth, child⟩ :: keptChildren f kids
      | none => keptChildren f kids

end

/-- The children that no later child comes to the slot of. -/
def visibleChildren (f : A → Option B) (children : List (Slot T (Upper T A))) :
    List (Slot T (Upper T A)) :=
  Slot.survivors (keptChildren f children)

variable [SemilatticeSup B]

/-- The mapped accumulator of a stack: the join of those of all its occurrences. -/
def keptAcc (f : A → Option B) : List T → Upper T A → WithBot B
  | stack, interface inner acc => if inner.has stack then f acc else ⊥
  | [], branch _ empty _ => empty.bind f
  | v :: stack, branch children _ _ => Slot.joined (keptAcc f stack) v children

/-- The mapped accumulator of a stack, when only the visible children are looked at. -/
def visibleAcc (f : A → Option B) : List T → Upper T A → WithBot B
  | stack, interface inner acc => if inner.has stack then f acc else ⊥
  | [], branch _ empty _ => empty.bind f
  | v :: stack, branch children _ _ => Slot.joined (visibleAcc f stack) v (visibleChildren f children)

/-- Whatever moves out of sight is also to be seen elsewhere. -/
def Absorbed (f : A → Option B) (node : Upper T A) : Prop :=
  ∀ stack, keptAcc f stack node ≤ visibleAcc f stack node

omit [SemilatticeSup B] [DecidableEq T] in
theorem keptChildren_eq (f : A → Option B) (children : List (Slot T (Upper T A))) :
    keptChildren f children = children.filterMap fun s =>
      (keptDepth f s.node).map fun depth => ⟨s.value, depth, s.node⟩ := by
  induction children with
  | nil => rfl
  | cons s children ih =>
      rw [keptChildren, ih, List.filterMap_cons]
      cases keptDepth f s.node <;> rfl

omit [SemilatticeSup B] in
theorem transform_children_eq (finish : Upper T B → Upper T B) (f : A → Option B)
    (children : List (Slot T (Upper T A))) :
    transform_children finish f children = children.filterMap fun s =>
      (transform_with finish f s.node).map fun nc => ⟨s.value, nc.max_depth, nc⟩ := by
  induction children with
  | nil => rfl
  | cons s children ih =>
      rw [transform_children, ih, List.filterMap_cons]
      cases transform_with finish f s.node <;> rfl

/-- A node that keeps nothing has nothing to keep. -/
theorem keptAcc_eq_bot (f : A → Option B) {node : Upper T A} (h : node.WF)
    (hnone : keptDepth f node = none) (stack : List T) : keptAcc f stack node = ⊥ := by
  induction h generalizing stack with
  | interface hwf =>
      rename_i inner acc
      rw [keptDepth, Option.map_eq_none_iff] at hnone
      cases stack <;> rw [keptAcc, hnone] <;> exact ite_self _
  | branch hdistinct hdeep hwf hdepth ih =>
      rename_i children empty max_depth
      rw [keptDepth] at hnone
      split_ifs at hnone with hkept
      rw [Bool.and_eq_true, List.isEmpty_iff, Option.isNone_iff_eq_none] at hkept
      cases stack with
      | nil =>
          rw [keptAcc, hkept.2]
          rfl
      | cons v stack =>
          rw [keptAcc]
          apply le_bot_iff.mp
          apply Slot.joined_le_iff.mpr
          intro s hs _
          apply le_of_eq
          apply ih s hs
          -- Were the child kept, it would be among the kept children.
          by_contra hsome
          obtain ⟨depth, hdepth⟩ := Option.ne_none_iff_exists'.mp hsome
          have hmem : (⟨s.value, depth, s.node⟩ : Slot T (Upper T A)) ∈ keptChildren f children := by
            rw [keptChildren_eq]
            exact List.mem_filterMap.mpr ⟨s, hs, by rw [hdepth]; rfl⟩
          rw [hkept.1] at hmem
          cases hmem

theorem visibleAcc_le (f : A → Option B) {node : Upper T A} (h : node.WF) (stack : List T) :
    visibleAcc f stack node ≤ keptAcc f stack node := by
  induction h generalizing stack with
  | interface hwf => cases stack <;> exact le_rfl
  | branch hdistinct hdeep hwf hdepth ih =>
      rename_i children empty max_depth
      cases stack with
      | nil => exact le_rfl
      | cons v stack =>
          rw [visibleAcc, keptAcc]
          apply Slot.joined_le_iff.mpr
          intro s hs hv
          have hkept := Slot.mem_of_mem_survivors hs
          rw [keptChildren_eq] at hkept
          obtain ⟨t, ht, hst⟩ := List.mem_filterMap.mp hkept
          obtain ⟨depth, -, rfl⟩ := Option.map_eq_some_iff.mp hst
          exact (ih t ht stack).trans (Slot.joined_le_iff.mp le_rfl t ht hv)

/-! ## What the traversals make -/

/-- A node made by a traversal. -/
structure Transformed (f : A → Option B) (node : Upper T A) (made : Upper T B) : Prop where
  wf : made.WF
  depth : keptDepth f node = some made.max_depth
  acc : ∀ stack, acc stack made = visibleAcc f stack node

/-- Finishing a node keeps what it stands for. -/
def Finishing (finish : Upper T B → Upper T B) : Prop :=
  ∀ node : Upper T B, node.WF → (finish node).WF ∧ (finish node).max_depth = node.max_depth ∧
    ∀ stack, Upper.acc stack (finish node) = Upper.acc stack node

theorem Transformed.finish {finish : Upper T B → Upper T B} (hfinish : Finishing finish)
    {f : A → Option B} {node : Upper T A} {made : Upper T B} (h : Transformed f node made) :
    Transformed f node (finish made) := by
  obtain ⟨hwf, hdepth, hacc⟩ := hfinish made h.wf
  exact ⟨hwf, hdepth ▸ h.depth, fun stack => (hacc stack).trans (h.acc stack)⟩

/-- A traversal makes a node exactly when something is kept. -/
theorem transform_with_spec {finish : Upper T B → Upper T B} (hfinish : Finishing finish)
    (f : A → Option B) {node : Upper T A} (h : node.WF) :
    (transform_with finish f node = none ∧ keptDepth f node = none) ∨
      ∃ made, transform_with finish f node = some made ∧ Transformed f node made := by
  induction h with
  | interface hwf =>
      rename_i inner acc
      rw [transform_with, keptDepth]
      cases hf : f acc with
      | none => exact Or.inl ⟨rfl, rfl⟩
      | some new_acc =>
          refine Or.inr ⟨_, rfl, Transformed.finish hfinish ⟨WF.interface hwf, ?_, ?_⟩⟩
          · rw [keptDepth, hf]
            rfl
          · intro stack
            cases stack <;> rw [visibleAcc, hf] <;> rfl
  | branch hdistinct hdeep hwf hdepth ih =>
      rename_i children empty max_depth
      obtain ⟨hrelated, hgood⟩ : List.Forall₂ (fun s t : Slot T _ =>
          s.key = t.key ∧ ∀ stack, acc stack s.node = visibleAcc f stack t.node)
            (transform_children finish f children) (keptChildren f children) ∧
          ∀ s ∈ transform_children finish f children, Good s.depth s.node := by
        clear hdistinct hdeep hwf hdepth
        induction children with
        | nil => exact ⟨List.Forall₂.nil, fun _ hs => by cases hs⟩
        | cons s children ihc =>
            obtain ⟨hrest, hgood⟩ := ihc fun t ht => ih t (List.mem_cons_of_mem _ ht)
            obtain ⟨hnone, hkept⟩ | ⟨made, hmade, ht⟩ := ih s List.mem_cons_self
            · rw [transform_children, hnone, keptChildren, hkept]
              exact ⟨hrest, hgood⟩
            · rw [transform_children, hmade, keptChildren, ht.depth]
              exact ⟨List.Forall₂.cons ⟨rfl, ht.acc⟩ hrest,
                List.forall_mem_cons.mpr ⟨⟨ht.wf, rfl⟩, hgood⟩⟩
      have hkeys := Slot.keys_eq_of_related (fun s t h => h.1) hrelated
      have hempty : (Slot.putAll (transform_children finish f children)).isEmpty =
          (keptChildren f children).isEmpty := by
        rw [Bool.eq_iff_iff, List.isEmpty_iff, List.isEmpty_iff, Slot.putAll_eq_nil_iff,
          ← List.map_eq_nil_iff (f := Slot.key), hkeys, List.map_eq_nil_iff]
      have hmem : ∀ s ∈ Slot.putAll (transform_children finish f children), Good s.depth s.node :=
        fun s hs => hgood s (Slot.mem_of_mem_survivors (Slot.mem_putAll.mp hs))
      have hfamily : Family (Slot.putAll (transform_children finish f children)) :=
        ⟨Slot.putAll_distinct, fun s hs => (hmem s hs).2, fun s hs => (hmem s hs).1⟩
      rw [transform_with, keptDepth, hempty]
      by_cases hnone : (keptChildren f children).isEmpty && (empty.bind f).isNone
      · rw [if_pos hnone, if_pos hnone]
        exact Or.inl ⟨rfl, rfl⟩
      · rw [if_neg hnone]
        refine Or.inr ⟨_, rfl, Transformed.finish hfinish ⟨new_branch_wf hfamily _, ?_, ?_⟩⟩
        · rw [keptDepth, if_neg hnone]
          change some _ = some (Slot.height _ _)
          rw [hfamily.deep.height_eq_levels, Slot.levels_putAll, Slot.levels_eq_of_keys hkeys]
        · intro stack
          cases stack with
          | nil => rfl
          | cons v stack =>
              have hsurvive := Slot.survivors_related (fun s t h => h.1) hrelated
              rw [new_branch, acc_branch_cons, Slot.joined_putAll]
              apply Slot.joined_related
              exact hsurvive.imp fun s t h => ⟨congrArg Prod.fst h.1, h.2 stack⟩

omit [SemilatticeSup B] [DecidableEq T] in
theorem transform_td_children_eq [DecidableEq T] (f : A → Option B)
    (children : List (Slot T (Upper T A))) :
    transform_td_children f children = children.filterMap fun s =>
      (transform_td f s.node).map fun nc => ⟨s.value, nc.max_depth, nc⟩ := by
  induction children with
  | nil => rfl
  | cons s children ih =>
      rw [transform_td_children, ih, List.filterMap_cons]
      cases transform_td f s.node <;> rfl

omit [SemilatticeSup B] in
/-- A single child needs no slots. -/
theorem putAll_head (kids : List (Slot T (Upper T B))) (h : kids.length ≤ 1) :
    (if (Slot.putAll kids).isEmpty && (none : Option B).isNone then none
      else some (new_branch (Slot.putAll kids) none)) =
    kids.head?.map fun nc => new_branch [nc] none := by
  match kids with
  | [] => rfl
  | [s] => rfl

omit [SemilatticeSup B] in
/-- The traversal without promotion, where the case of a single child is not special. -/
theorem transform_td_eq (f : A → Option B) {node : Upper T A} (h : node.WF) :
    transform_td f node = transform_with id f node := by
  induction h with
  | interface hwf => rfl
  | branch hdistinct hdeep hwf hdepth ih =>
      rename_i children empty max_depth
      have hkids : transform_td_children f children = transform_children id f children := by
        rw [transform_td_children_eq, transform_children_eq]
        apply List.filterMap_congr
        intro s hs
        rw [ih s hs]
      rw [transform_td.eq_def, transform_with]
      dsimp only
      rw [hkids]
      split
      · rename_i s hempty
        rw [hempty]
        refine (putAll_head _ ?_).symm
        rw [transform_children_eq]
        exact List.length_filterMap_le _ _
      · rfl

end

section

variable [Sharing] [DecidableEq T] [DecidableEq A]

open Sharing

theorem transform_np_children_eq (f : A → Option A) (children : List (Slot T (Upper T A))) :
    (transform_np_children f children).1 = children.filterMap (fun s =>
        (transform_np f s.node).map fun nc => ⟨s.value, nc.max_depth, nc⟩) ∧
      ((transform_np_children f children).2 = true →
        ∀ s ∈ children, transform_np f s.node = some s.node) := by
  induction children with
  | nil => exact ⟨rfl, fun _ _ hs => by cases hs⟩
  | cons s children ih =>
      rw [transform_np_children, List.filterMap_cons, ← ih.1]
      cases hs : transform_np f s.node with
      | none => exact ⟨rfl, fun h => by cases h⟩
      | some nc =>
          refine ⟨rfl, fun h => ?_⟩
          rw [Bool.and_eq_true] at h
          apply List.forall_mem_cons.mpr ⟨?_, ih.2 h.2⟩
          rw [hs, eq_of_same h.1]

/-- Returning the node itself makes no difference, since its depths are right. -/
theorem transform_np_eq (f : A → Option A) {node : Upper T A} (h : node.WF) :
    transform_np f node = transform_with id f node := by
  induction h with
  | interface hwf =>
      rename_i inner acc
      rw [transform_np, transform_with]
      congr 1
      funext new_acc
      split_ifs with heq
      · rw [heq]
        rfl
      · rfl
  | branch hdistinct hdeep hwf hdepth ih =>
      rename_i children empty max_depth
      obtain ⟨hfst, hsnd⟩ := transform_np_children_eq f children
      have hkids : (transform_np_children f children).1 = transform_children id f children := by
        rw [hfst, transform_children_eq]
        apply List.filterMap_congr
        intro s hs
        rw [ih s hs]
      -- When nothing has changed, the new node is the old one.
      have hsame : (transform_np_children f children).2 = true →
          transform_children id f children = children := by
        intro hunchanged
        rw [← hkids, hfst]
        have hself : ∀ s ∈ children, (transform_np f s.node).map (fun nc =>
            (⟨s.value, nc.max_depth, nc⟩ : Slot T (Upper T A))) = some s := by
          intro s hs
          rw [hsnd hunchanged s hs, Option.map_some, hdeep s hs]
        rw [List.filterMap_congr hself, List.filterMap_some]
      have hbranch : ∀ new_empty : Option A, new_empty = empty →
          branch children empty max_depth = new_branch children new_empty := by
        intro new_empty he
        rw [he, new_branch, hdepth]
      rw [transform_np.eq_def, transform_with]
      dsimp only
      rw [hkids]
      split
      · rename_i s hempty
        have hlength : (transform_children id f [s]).length ≤ 1 := by
          rw [transform_children_eq]
          exact List.length_filterMap_le _ _
        rw [hempty]
        refine Eq.trans ?_ (putAll_head _ hlength).symm
        apply Option.map_congr
        intro nc hnc
        split_ifs with hunchanged
        · rw [Bool.and_eq_true, decide_eq_true_eq] at hunchanged
          rw [hsame hunchanged.2] at hnc
          rw [hbranch none hunchanged.1, Option.mem_some.mp hnc]
        · rfl
      · split_ifs with hnone hunchanged
        · rfl
        · rw [Bool.and_eq_true, Bool.and_eq_true, decide_eq_true_eq] at hunchanged
          rw [hsame hunchanged.1.2, Slot.putAll_of_distinct hdistinct, id,
            hbranch _ hunchanged.1.1]
        · rfl

end

end Upper

end GlrMask
