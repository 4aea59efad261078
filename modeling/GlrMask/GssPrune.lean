import GlrMask.GssApply
import GlrMask.Fuel

/-!
# Pruning, decomposing and partitioning by accumulators

Pruning is exact for a function when every stack that moves out of sight is to
be seen elsewhere with its accumulator. A partition prunes once for every
accumulator of the upper nodes.
-/

namespace GlrMask

namespace Upper

variable {T A B : Type} [DecidableEq T] [Sharing]

/-! ## Pruning -/

def apply_and_prune [DecidableEq B] (f : A → Option B) : Upper T A → Upper T B
  | interface inner acc =>
      match f acc with
      | some new_acc => interface inner new_acc
      | none => empty_upper_inner
  | branch children empty max_depth =>
      (transform f (branch children empty max_depth)).getD empty_upper_inner

def apply_and_prune_no_promote [DecidableEq A] (f : A → Option A) : Upper T A → Upper T A
  | interface inner acc =>
      match f acc with
      | some new_acc => if new_acc = acc then interface inner acc else interface inner new_acc
      | none => empty_upper_inner
  | branch children empty max_depth =>
      (transform_np f (branch children empty max_depth)).getD empty_upper_inner

omit [Sharing] in
theorem acc_empty_upper_inner [SemilatticeSup B] (stack : List T) :
    acc stack (empty_upper_inner : Upper T B) = ⊥ := by
  cases stack <;> rfl

/-- A node made from another, where the empty node stands for nothing kept. -/
structure Pruned [SemilatticeSup B] (f : A → Option B) (node : Upper T A) (made : Upper T B) : Prop where
  wf : made.WF
  acc : ∀ stack, acc stack made = visibleAcc f stack node

omit [Sharing] in
theorem Pruned.of_transform [SemilatticeSup B] {finish : Upper T B → Upper T B}
    (hfinish : Finishing finish) (f : A → Option B) {node : Upper T A} (h : node.WF) :
    Pruned f node ((transform_with finish f node).getD empty_upper_inner) := by
  obtain ⟨hnone, hkept⟩ | ⟨made, hmade, ht⟩ := transform_with_spec hfinish f h
  · rw [hnone]
    refine ⟨empty_upper_inner_wf, fun stack => ?_⟩
    have hbot : visibleAcc f stack node = ⊥ :=
      le_bot_iff.mp ((visibleAcc_le f h stack).trans_eq (keptAcc_eq_bot f h hkept stack))
    rw [hbot]
    exact acc_empty_upper_inner stack
  · rw [hmade]
    exact ⟨ht.wf, ht.acc⟩

omit [Sharing] in
theorem finishing_id [SemilatticeSup B] : Finishing (id : Upper T B → Upper T B) :=
  fun _ h => ⟨h, rfl, fun _ => rfl⟩

theorem apply_and_prune_spec [DecidableEq B] [SemilatticeSup B] (f : A → Option B)
    {node : Upper T A} (h : node.WF) : Pruned f node (apply_and_prune f node) := by
  cases h with
  | interface hwf =>
      rename_i inner acc
      have hpruned := Pruned.of_transform finishing_id f (@WF.interface T A inner acc hwf)
      rw [transform_with] at hpruned
      rw [apply_and_prune]
      cases hf : f acc <;> rw [hf] at hpruned <;> exact hpruned
  | branch hdistinct hdeep hwf hdepth =>
      exact Pruned.of_transform (fun _ h => try_promote_spec h) f
        (WF.branch hdistinct hdeep hwf hdepth)

theorem apply_and_prune_no_promote_spec [DecidableEq A] [SemilatticeSup A] (f : A → Option A)
    {node : Upper T A} (h : node.WF) : Pruned f node (apply_and_prune_no_promote f node) := by
  have hpruned := Pruned.of_transform finishing_id f h
  rw [← transform_np_eq f h] at hpruned
  cases h with
  | interface hwf =>
      rename_i inner acc
      rw [transform_np] at hpruned
      rw [apply_and_prune_no_promote]
      cases hf : f acc <;> rw [hf] at hpruned <;> exact hpruned
  | branch hdistinct hdeep hwf hdepth => exact hpruned

/-! ## Decomposing -/

section

variable [DecidableEq B] [Merge B]

/-- The nodes of a value, merged into one. -/
def merge_kids {N : Type} (merge : N → N → N) : List N → Option N
  | [] => none
  | first :: rest => some (rest.foldl merge first)

def decompose_interface (inner : Lower T) (new_acc : B) : List (T × Upper T B) :=
  (Slot.values inner.children).filterMap fun v =>
    ((merge_kids Lower.merge_lower (Slot.kids v inner.children)).filter fun lower =>
      !lower.children.isEmpty || lower.empty).map fun lower => (v, interface lower new_acc)

def is_empty : Upper T B → Bool
  | branch children empty _ => children.isEmpty && empty.isNone
  | interface .. => false

def decompose_branch (f : A → Option B) (children : List (Slot T (Upper T A))) :
    List (T × Upper T B) :=
  (Slot.values children).filterMap fun v =>
    ((merge_kids merge_upper ((Slot.kids v children).filterMap (transform_td f))).filter fun merged =>
      !merged.is_empty).map fun merged => (v, merged)

/-- The nodes below every top value, and the accumulator of the empty stack of a branch. -/
def apply_transform_and_decompose (f : A → Option B) :
    Upper T A → List (T × Upper T B) × List B
  | interface inner acc =>
      match f acc with
      | some new_acc => (decompose_interface inner new_acc, [])
      | none => ([], [])
  | branch children empty _ => (decompose_branch f children, empty.toList.filterMap f)

/-- The accumulator of a stack in a decomposed node. -/
def decomposedAcc (parts : List (T × Upper T B) × List B) : List T → WithBot B
  | [] => parts.2.foldr (fun b x => b ⊔ x) ⊥
  | v :: stack => Slot.joined (acc stack) v (parts.1.map fun p => ⟨p.1, p.2.max_depth, p.2⟩)

/-- What a decomposed node keeps: everything but the empty stack of an interface and what moves
out of sight below the top values. -/
def DecomposeAbsorbed (f : A → Option B) : Upper T A → Prop
  | interface inner acc => inner.empty = true → f acc = none
  | branch children _ _ => ∀ v stack, Slot.joined (keptAcc f stack) v children ≤
      Slot.joined (visibleAcc f stack) v children

omit [DecidableEq T] [Sharing] [DecidableEq B] [Merge B] in
/-- Merging the nodes of a value, for all that the nodes stand for. -/
theorem merge_kids_spec {N C I : Type} [SemilatticeSup C] [OrderBot C] {W : N → Prop}
    {merge : N → N → N} {F : I → N → C} (hW : ∀ n m, W n → W m → W (merge n m))
    (hF : ∀ i n m, W n → W m → F i (merge n m) = F i n ⊔ F i m) {kids : List N} (hne : kids ≠ [])
    (hkids : ∀ n ∈ kids, W n) :
    ∃ merged, merge_kids merge kids = some merged ∧ W merged ∧
      ∀ i, F i merged = kids.foldr (fun n x => F i n ⊔ x) ⊥ := by
  match kids, hne with
  | first :: rest, _ =>
      obtain ⟨hfirst, hrest⟩ := List.forall_mem_cons.mp hkids
      exact ⟨_, rfl, Slot.foldl_good hW hfirst hrest,
        fun i => Slot.foldl_join hW (hF i) hfirst hrest⟩

omit [Sharing] [DecidableEq B] in
theorem joined_parts (v : T) (stack : List T) (vs : List T) (g : T → Option (Upper T B)) :
    Slot.joined (acc stack) v ((vs.filterMap fun w => (g w).map fun m => (w, m)).map
      fun p => ⟨p.1, p.2.max_depth, p.2⟩) = if v ∈ vs then (g v).elim ⊥ (acc stack) else ⊥ := by
  rw [List.map_filterMap, ← Slot.joined_filterMap vs g Upper.max_depth]
  congr 1
  apply List.filterMap_congr
  intro w _
  cases g w <;> rfl

omit [DecidableEq B] in
theorem decompose_interface_spec {inner : Lower T} (h : inner.WF) (b : B) :
    (∀ p ∈ decompose_interface inner b, p.2.WF) ∧ ∀ v stack,
      Slot.joined (acc stack) v ((decompose_interface inner b).map
        fun p => ⟨p.1, p.2.max_depth, p.2⟩) =
      give b (Slot.joined (Lower.has stack) v inner.children) := by
  have hmerged : ∀ v ∈ Slot.values inner.children, ∃ lower,
      merge_kids Lower.merge_lower (Slot.kids v inner.children) = some lower ∧ lower.WF ∧
        ∀ stack, lower.has stack = Slot.joined (Lower.has stack) v inner.children := by
    intro v hv
    have hspec := merge_kids_spec (W := Lower.WF) (F := Lower.has)
      (fun n m hn hm => (Lower.merge_lower_spec hn hm).wf)
      (fun stack n m hn hm => (Lower.merge_lower_spec hn hm).has stack) (Slot.kids_ne_nil hv)
      fun n hn => by
        obtain ⟨s, hs, -, rfl⟩ := Slot.mem_kids.mp hn
        exact h.family.wf s hs
    obtain ⟨lower, hlower, hwf, hhas⟩ := hspec
    exact ⟨lower, hlower, hwf, fun stack => (hhas stack).trans Slot.joined_eq_kids.symm⟩
  have heq : decompose_interface inner b = (Slot.values inner.children).filterMap fun v =>
      (((merge_kids Lower.merge_lower (Slot.kids v inner.children)).filter fun lower =>
        !lower.children.isEmpty || lower.empty).map fun lower => interface lower b).map
          fun m => (v, m) := by
    unfold decompose_interface
    simp only [Option.map_map]
    rfl
  rw [heq]
  constructor
  · intro p hp
    obtain ⟨v, hv, hp⟩ := List.mem_filterMap.mp hp
    obtain ⟨lower, hlower, hwf, -⟩ := hmerged v hv
    rw [hlower] at hp
    obtain ⟨m, hm, rfl⟩ := Option.map_eq_some_iff.mp hp
    obtain ⟨l, hl, rfl⟩ := Option.map_eq_some_iff.mp hm
    obtain rfl := Option.some.inj (Option.filter_eq_some_iff.mp hl).1
    exact WF.interface hwf
  · intro v stack
    rw [joined_parts]
    split_ifs with hv
    · obtain ⟨lower, hlower, -, hhas⟩ := hmerged v hv
      rw [hlower, ← hhas]
      -- A merged node that is left out has no stacks.
      cases hkeep : !lower.children.isEmpty || lower.empty with
      | true =>
          rw [Option.filter_some, hkeep]
          exact acc_interface stack lower b
      | false =>
          rw [Option.filter_some, hkeep]
          rw [Bool.or_eq_false_iff, Bool.not_eq_false', List.isEmpty_iff] at hkeep
          have hhas : lower.has stack = false := by
            cases stack with
            | nil => exact hkeep.2
            | cons w stack =>
                rw [Lower.has_cons, hkeep.1]
                rfl
          rw [hhas]
          rfl
    · rw [Slot.joined_eq_bot hv]
      rfl

omit [Sharing] [DecidableEq B] in
/-- Of the nodes of a value, those that keep nothing do not count. -/
theorem foldr_kept (f : A → Option B) (stack : List T) {kids : List (Upper T A)}
    (hkids : ∀ n ∈ kids, (transform_td f n = none ∧ visibleAcc f stack n = ⊥) ∨
      ∃ made, transform_td f n = some made ∧ acc stack made = visibleAcc f stack n) :
    (kids.filterMap (transform_td f)).foldr (fun n x => acc stack n ⊔ x) ⊥ =
      kids.foldr (fun n x => visibleAcc f stack n ⊔ x) ⊥ := by
  induction kids with
  | nil => rfl
  | cons n kids ih =>
      obtain ⟨hn, hrest⟩ := List.forall_mem_cons.mp hkids
      rw [List.filterMap_cons, List.foldr_cons, ← ih hrest]
      obtain ⟨hnone, hbot⟩ | ⟨made, hmade, hacc⟩ := hn
      · rw [hnone, hbot, bot_sup_eq]
      · rw [hmade, List.foldr_cons, hacc]

omit [Sharing] [DecidableEq B] in
theorem transform_td_spec (f : A → Option B) {node : Upper T A} (h : node.WF) :
    (transform_td f node = none ∧ ∀ stack, visibleAcc f stack node = ⊥) ∨
      ∃ made, transform_td f node = some made ∧ Transformed f node made := by
  rw [transform_td_eq f h]
  obtain ⟨hnone, hkept⟩ | hmade := transform_with_spec finishing_id f h
  · refine Or.inl ⟨hnone, fun stack => ?_⟩
    exact le_bot_iff.mp ((visibleAcc_le f h stack).trans_eq (keptAcc_eq_bot f h hkept stack))
  · exact Or.inr hmade

theorem decompose_branch_spec (f : A → Option B) {children : List (Slot T (Upper T A))}
    (h : ∀ s ∈ children, s.node.WF) :
    (∀ p ∈ decompose_branch f children, p.2.WF) ∧ ∀ v stack,
      Slot.joined (acc stack) v ((decompose_branch f children).map
        fun p => ⟨p.1, p.2.max_depth, p.2⟩) =
      Slot.joined (visibleAcc f stack) v children := by
  have hkids : ∀ v, ∀ n ∈ Slot.kids v children, n.WF := by
    intro v n hn
    obtain ⟨s, hs, -, rfl⟩ := Slot.mem_kids.mp hn
    exact h s hs
  have hjoined : ∀ v stack, ((Slot.kids v children).filterMap (transform_td f)).foldr
      (fun n x => acc stack n ⊔ x) ⊥ = Slot.joined (visibleAcc f stack) v children := by
    intro v stack
    rw [Slot.joined_eq_kids]
    apply foldr_kept
    intro n hn
    obtain ⟨hnone, hbot⟩ | ⟨made, hmade, ht⟩ := transform_td_spec f (hkids v n hn)
    · exact Or.inl ⟨hnone, hbot stack⟩
    · exact Or.inr ⟨made, hmade, ht.acc stack⟩
  have hmade : ∀ v, ∀ n ∈ (Slot.kids v children).filterMap (transform_td f), n.WF := by
    intro v n hn
    obtain ⟨kid, hkid, hn⟩ := List.mem_filterMap.mp hn
    obtain ⟨hnone, -⟩ | ⟨made, hmade, ht⟩ := transform_td_spec f (hkids v kid hkid)
    · rw [hnone] at hn
      cases hn
    · rw [hmade] at hn
      exact Option.some.inj hn ▸ ht.wf
  have hmerged : ∀ v, (merge_kids merge_upper ((Slot.kids v children).filterMap
        (transform_td f)) = none ∧ ∀ stack, Slot.joined (visibleAcc f stack) v children = ⊥) ∨
      ∃ merged, merge_kids merge_upper ((Slot.kids v children).filterMap (transform_td f)) =
        some merged ∧ merged.WF ∧
        ∀ stack, acc stack merged = Slot.joined (visibleAcc f stack) v children := by
    intro v
    by_cases hnil : (Slot.kids v children).filterMap (transform_td f) = []
    · refine Or.inl ⟨by rw [hnil]; rfl, fun stack => ?_⟩
      rw [← hjoined, hnil]
      rfl
    · obtain ⟨merged, heq, hwf, hacc⟩ := merge_kids_spec (W := WF) (F := acc)
        (fun n m hn hm => (merge_upper_spec hn hm).wf)
        (fun stack n m hn hm => (merge_upper_spec hn hm).acc stack) hnil (hmade v)
      exact Or.inr ⟨merged, heq, hwf, fun stack => (hacc stack).trans (hjoined v stack)⟩
  constructor
  · intro p hp
    obtain ⟨v, -, hp⟩ := List.mem_filterMap.mp hp
    obtain ⟨hnone, -⟩ | ⟨merged, heq, hwf, -⟩ := hmerged v
    · rw [hnone] at hp
      cases hp
    · rw [heq] at hp
      obtain ⟨m, hm, rfl⟩ := Option.map_eq_some_iff.mp hp
      exact Option.some.inj (Option.filter_eq_some_iff.mp hm).1 ▸ hwf
  · intro v stack
    unfold decompose_branch
    rw [joined_parts]
    split_ifs with hv
    · obtain ⟨hnone, hbot⟩ | ⟨merged, heq, -, hacc⟩ := hmerged v
      · rw [hnone, hbot]
        rfl
      · rw [heq, ← hacc, Option.filter_some]
        cases hempty : merged.is_empty with
        | false => rfl
        | true =>
            -- A merged node that is left out has no accumulators.
            cases merged with
            | interface => cases hempty
            | branch children empty max_depth =>
                rw [is_empty, Bool.and_eq_true, List.isEmpty_iff, Option.isNone_iff_eq_none] at hempty
                obtain ⟨rfl, rfl⟩ := hempty
                cases stack <;> rfl
    · exact (Slot.joined_eq_bot hv).symm

theorem apply_transform_and_decompose_wf (f : A → Option B) {node : Upper T A} (h : node.WF) :
    ∀ p ∈ (apply_transform_and_decompose f node).1, p.2.WF := by
  cases h with
  | interface hwf =>
      rename_i inner acc
      rw [apply_transform_and_decompose]
      cases f acc with
      | none => exact fun _ hp => by cases hp
      | some b => exact (decompose_interface_spec hwf b).1
  | branch hdistinct hdeep hwf hdepth => exact (decompose_branch_spec f hwf).1

/-- When decomposing loses no stack. -/
theorem apply_transform_and_decompose_spec (f : A → Option B) {node : Upper T A} (h : node.WF) :
    (∀ stack, decomposedAcc (apply_transform_and_decompose f node) stack = keptAcc f stack node) ↔
      DecomposeAbsorbed f node := by
  cases h with
  | interface hwf =>
      rename_i inner acc
      rw [apply_transform_and_decompose]
      cases hf : f acc with
      | none =>
          refine ⟨fun _ _ => hf, fun _ stack => ?_⟩
          cases stack <;> rw [keptAcc, hf] <;> exact (ite_self _).symm
      | some b =>
          have hcons : ∀ v stack, decomposedAcc (decompose_interface inner b, []) (v :: stack) =
              keptAcc f (v :: stack) (interface inner acc) := by
            intro v stack
            rw [keptAcc, hf]
            exact (decompose_interface_spec hwf b).2 v stack
          have hnil : keptAcc f [] (interface inner acc) = give b inner.empty := by
            rw [keptAcc, hf]
            rfl
          rw [DecomposeAbsorbed, hf]
          constructor
          · intro h hempty
            have h := h []
            rw [hnil, hempty] at h
            cases h
          · intro h stack
            cases stack with
            | cons v stack => exact hcons v stack
            | nil =>
                cases hempty : inner.empty with
                | true => cases h hempty
                | false =>
                    rw [hnil, hempty]
                    rfl
  | branch hdistinct hdeep hwf hdepth =>
      rename_i children empty max_depth
      have hcons : ∀ v stack, decomposedAcc (apply_transform_and_decompose f
          (branch children empty max_depth)) (v :: stack) =
            Slot.joined (visibleAcc f stack) v children := (decompose_branch_spec f hwf).2
      have hle : ∀ v stack, Slot.joined (visibleAcc f stack) v children ≤
          Slot.joined (keptAcc f stack) v children := by
        intro v stack
        apply Slot.joined_le_iff.mpr
        intro s hs hv
        exact (visibleAcc_le f (hwf s hs) stack).trans (Slot.joined_le_iff.mp le_rfl s hs hv)
      constructor
      · intro h v stack
        exact ((h (v :: stack)).symm.trans (hcons v stack)).le
      · intro h stack
        cases stack with
        | nil =>
            rw [apply_transform_and_decompose, keptAcc]
            cases empty with
            | none => rfl
            | some a =>
                change decomposedAcc (_, [a].filterMap f) [] = f a
                cases hf : f a with
                | none =>
                    rw [List.filterMap_cons, hf]
                    rfl
                | some b =>
                    rw [List.filterMap_cons, hf]
                    exact sup_bot_eq (b : WithBot B)
        | cons v stack => exact (hcons v stack).trans (le_antisymm (hle v stack) (h v stack))

end

end Upper

end GlrMask
