import GlrMask.GssPrune
import Mathlib.Data.ENat.Basic

/-!
# Partitioning a graph-structured stack by its accumulators

The accumulators of the upper nodes are collected, each node once. The stacks
of each are what pruning leaves of it.
-/

namespace GlrMask

namespace Upper

variable {T A : Type}

/-! ## Collecting the accumulators -/

/-- The accumulator stands in the node or in a node below it. -/
inductive Carries (a : A) : Upper T A → Prop
  | interface (inner : Lower T) : Carries a (interface inner a)
  | empty (children : List (Slot T (Upper T A))) (max_depth : ℕ) :
      Carries a (branch children (some a) max_depth)
  | child {children : List (Slot T (Upper T A))} {empty : Option A} {max_depth : ℕ}
      {s : Slot T (Upper T A)} (mem : s ∈ children) (below : Carries a s.node) :
      Carries a (branch children empty max_depth)

mutual

/-- The number of nodes, where a shared node counts each time. -/
def nodes : Upper T A → ℕ
  | interface .. => 1
  | branch children _ _ => nodes_all children + 1

def nodes_all : List (Slot T (Upper T A)) → ℕ
  | [] => 0
  | ⟨_, _, child⟩ :: kids => nodes child + nodes_all kids

end

theorem nodes_all_eq (children : List (Slot T (Upper T A))) :
    nodes_all children = ((children.map Slot.node).map nodes).sum := by
  induction children with
  | nil => rfl
  | cons s children ih =>
      rw [nodes_all, ih]
      rfl

theorem nodes_lt_of_mem {children : List (Slot T (Upper T A))} {s : Slot T (Upper T A)}
    (h : s ∈ children) (empty : Option A) (max_depth : ℕ) :
    nodes s.node < nodes (branch children empty max_depth) := by
  rw [nodes, nodes_all_eq, Nat.lt_succ_iff]
  exact List.single_le_sum (fun _ _ => Nat.zero_le _) _
    (List.mem_map_of_mem (List.mem_map_of_mem h))

/-- What is known while the nodes are visited. -/
structure PartitionState (T A : Type) where
  accumulators : List A
  pending : List (Upper T A)
  visited : List (Upper T A)

section

variable [DecidableEq A]

/-- Add an accumulator, if it is new and there is room. -/
def record (max_accumulators : ℕ∞) (accumulators : List A) (a : A) : Option (List A) :=
  if a ∈ accumulators then some accumulators
  else if (accumulators.length : ℕ∞) = max_accumulators then none
  else some (accumulators ++ [a])

/-- Visit the last pending node. A limit of the largest machine word is no limit. -/
def partition_step [Sharing] (max_accumulators max_upper_nodes : ℕ∞) (s : PartitionState T A) :
    Option (Option (PartitionState T A)) :=
  match s.pending with
  | [] => some none
  | node :: pending =>
      if s.visited.any (Sharing.same node) then some (some { s with pending })
      else
        let visited := node :: s.visited
        if max_upper_nodes < visited.length then none
        else
          match node with
          | interface _ acc =>
              (record max_accumulators s.accumulators acc).map fun accumulators =>
                some ⟨accumulators, pending, visited⟩
          | branch children empty _ =>
              (match empty with
                | some acc => record max_accumulators s.accumulators acc
                | none => some s.accumulators).map fun accumulators =>
                  some ⟨accumulators, (children.map Slot.node).reverse ++ pending, visited⟩

/-- The accumulators of the nodes; every node is visited at most once for each time it occurs. -/
def partition_accumulators [Sharing] (max_accumulators max_upper_nodes : ℕ∞) (node : Upper T A) :
    Option (List A) :=
  ((attemptLoop (partition_step max_accumulators max_upper_nodes) (nodes node + 1)
    ⟨[], [node], []⟩).join).map PartitionState.accumulators

/-- The accumulators found so far are right, and every other one is still below a pending node.
The accumulators of a visited node are below smaller pending nodes, since its children are
visited before another occurrence of it. -/
structure Collecting (root : Upper T A) (s : PartitionState T A) : Prop where
  nodup : s.accumulators.Nodup
  sound : ∀ a ∈ s.accumulators, Carries a root
  pending : ∀ n ∈ s.pending, ∀ a, Carries a n → Carries a root
  found : ∀ a, Carries a root → a ∈ s.accumulators ∨ ∃ n ∈ s.pending, Carries a n
  visited : ∀ n ∈ s.visited, ∀ a, Carries a n →
    a ∈ s.accumulators ∨ ∃ m ∈ s.pending, nodes m < nodes n ∧ Carries a m

theorem record_spec {max_accumulators : ℕ∞} {accumulators : List A} {a : A}
    (h : accumulators.Nodup) : Ensures (record max_accumulators accumulators a) fun after =>
      after.Nodup ∧ ∀ b, b ∈ after ↔ b = a ∨ b ∈ accumulators := by
  unfold record
  split_ifs with hmem hfull
  · refine Ensures.some ⟨h, fun b => ?_⟩
    constructor
    · exact Or.inr
    · rintro (rfl | hb)
      · exact hmem
      · exact hb
  · exact Ensures.none _
  · refine Ensures.some ⟨?_, fun b => ?_⟩
    · exact List.nodup_append.mpr ⟨h, List.nodup_singleton a, fun b hb c hc he => by
        rw [List.mem_singleton.mp hc] at he
        exact hmem (he ▸ hb)⟩
    · rw [List.mem_append, List.mem_singleton, or_comm]

omit [DecidableEq A] in
/-- Skipping a node that has been visited. -/
theorem Collecting.skip {root node : Upper T A} {s : PartitionState T A} {pending : List (Upper T A)}
    (h : Collecting root s) (hpending : s.pending = node :: pending) (hnode : node ∈ s.visited) :
    Collecting root { s with pending } := by
  -- What the node carries is below smaller pending nodes, which are not the node itself.
  have hskip : ∀ a, Carries a node → a ∈ s.accumulators ∨
      ∃ m ∈ pending, nodes m < nodes node ∧ Carries a m := by
    intro a ha
    obtain hfound | ⟨m, hm, hlt, hcarries⟩ := h.visited node hnode a ha
    · exact Or.inl hfound
    · rw [hpending] at hm
      obtain rfl | hm := List.mem_cons.mp hm
      · exact absurd hlt (lt_irrefl _)
      · exact Or.inr ⟨m, hm, hlt, hcarries⟩
  refine ⟨h.nodup, h.sound, fun n hn => h.pending n ?_, fun a ha => ?_, fun n hn a ha => ?_⟩
  · exact hpending ▸ List.mem_cons_of_mem _ hn
  · obtain hfound | ⟨m, hm, hcarries⟩ := h.found a ha
    · exact Or.inl hfound
    · rw [hpending] at hm
      obtain rfl | hm := List.mem_cons.mp hm
      · exact (hskip a hcarries).imp_right fun ⟨m, hm, _, hc⟩ => ⟨m, hm, hc⟩
      · exact Or.inr ⟨m, hm, hcarries⟩
  · obtain hfound | ⟨m, hm, hlt, hcarries⟩ := h.visited n hn a ha
    · exact Or.inl hfound
    · rw [hpending] at hm
      obtain rfl | hm := List.mem_cons.mp hm
      · exact (hskip a hcarries).imp_right fun ⟨k, hk, hlt', hc⟩ => ⟨k, hk, hlt'.trans hlt, hc⟩
      · exact Or.inr ⟨m, hm, hlt, hcarries⟩

omit [DecidableEq A] in
/-- Visiting a node: its own accumulator is found, and its children become pending. -/
theorem Collecting.visit {root node : Upper T A} {s : PartitionState T A}
    {pending new : List (Upper T A)} {accumulators : List A} (h : Collecting root s)
    (hpending : s.pending = node :: pending) (hnodup : accumulators.Nodup)
    (hgrow : ∀ a ∈ s.accumulators, a ∈ accumulators)
    (hsound : ∀ a ∈ accumulators, a ∈ s.accumulators ∨ Carries a node)
    (hnew : ∀ n ∈ new, ∀ a, Carries a n → Carries a node)
    (hnode : ∀ a, Carries a node → a ∈ accumulators ∨
      ∃ m ∈ new, nodes m < nodes node ∧ Carries a m) :
    Collecting root ⟨accumulators, new ++ pending, node :: s.visited⟩ := by
  have hroot : ∀ a, Carries a node → Carries a root :=
    h.pending node (hpending ▸ List.mem_cons_self)
  have hnode' : ∀ a, Carries a node → a ∈ accumulators ∨
      ∃ m ∈ new ++ pending, nodes m < nodes node ∧ Carries a m := fun a ha =>
    (hnode a ha).imp_right fun ⟨m, hm, h⟩ => ⟨m, List.mem_append_left _ hm, h⟩
  refine ⟨hnodup, fun a ha => ?_, fun n hn a ha => ?_, fun a ha => ?_, fun n hn a ha => ?_⟩
  · exact (hsound a ha).elim (h.sound a) (hroot a)
  · obtain hn | hn := List.mem_append.mp hn
    · exact hroot a (hnew n hn a ha)
    · exact h.pending n (hpending ▸ List.mem_cons_of_mem _ hn) a ha
  · obtain hfound | ⟨m, hm, hcarries⟩ := h.found a ha
    · exact Or.inl (hgrow a hfound)
    · rw [hpending] at hm
      obtain rfl | hm := List.mem_cons.mp hm
      · exact (hnode' a hcarries).imp_right fun ⟨m, hm, _, hc⟩ => ⟨m, hm, hc⟩
      · exact Or.inr ⟨m, List.mem_append_right _ hm, hcarries⟩
  · obtain rfl | hn := List.mem_cons.mp hn
    · exact hnode' a ha
    · obtain hfound | ⟨m, hm, hlt, hcarries⟩ := h.visited n hn a ha
      · exact Or.inl (hgrow a hfound)
      · rw [hpending] at hm
        obtain rfl | hm := List.mem_cons.mp hm
        · exact (hnode' a hcarries).imp_right fun ⟨k, hk, hlt', hc⟩ => ⟨k, hk, hlt'.trans hlt, hc⟩
        · exact Or.inr ⟨m, List.mem_append_right _ hm, hlt, hcarries⟩

omit [DecidableEq A] in
theorem Collecting.start (root : Upper T A) : Collecting root ⟨[], [root], []⟩ := by
  refine ⟨List.nodup_nil, (fun _ ha => by cases ha), fun n hn a ha => ?_, fun a ha => ?_,
    fun _ hn => by cases hn⟩
  · exact List.mem_singleton.mp hn ▸ ha
  · exact Or.inr ⟨root, List.mem_singleton_self root, ha⟩

def pendingNodes (s : PartitionState T A) : ℕ := (s.pending.map nodes).sum

theorem partition_step_spec [Sharing] {max_accumulators max_upper_nodes : ℕ∞} {root : Upper T A}
    {s : PartitionState T A} (h : Collecting root s) :
    Ensures (partition_step max_accumulators max_upper_nodes s) fun next =>
      match next with
      | none => s.accumulators.Nodup ∧ ∀ a, a ∈ s.accumulators ↔ Carries a root
      | some s' => Collecting root s' ∧ pendingNodes s' < pendingNodes s := by
  unfold partition_step
  cases hpending : s.pending with
  | nil =>
      refine Ensures.some ⟨h.nodup, fun a => ⟨h.sound a, fun ha => ?_⟩⟩
      obtain hfound | ⟨m, hm, -⟩ := h.found a ha
      · exact hfound
      · rw [hpending] at hm
        cases hm
  | cons node pending =>
      have hsum : pendingNodes s = nodes node + (pending.map nodes).sum := by
        rw [pendingNodes, hpending]
        rfl
      have hpos : 0 < nodes node := by
        cases node <;> rw [nodes] <;> exact Nat.succ_pos _
      dsimp only
      split_ifs with hvisited hmany
      · -- The node is one that has been visited.
        obtain ⟨n, hn, hsame⟩ := List.any_eq_true.mp hvisited
        obtain rfl := Sharing.eq_of_same hsame
        refine Ensures.some ⟨h.skip hpending hn, ?_⟩
        rw [hsum]
        exact Nat.lt_add_of_pos_left hpos
      · exact Ensures.none _
      · cases node with
        | interface inner acc =>
            apply Ensures.map
            refine (record_spec h.nodup).mono fun after hafter => ?_
            refine ⟨?_, ?_⟩
            · apply @Collecting.visit _ _ _ _ _ _ [] _ h hpending hafter.1
              · exact fun a ha => (hafter.2 a).mpr (Or.inr ha)
              · intro a ha
                obtain rfl | ha := (hafter.2 a).mp ha
                · exact Or.inr (Carries.interface inner)
                · exact Or.inl ha
              · exact fun _ hn => by cases hn
              · intro a ha
                cases ha
                exact Or.inl ((hafter.2 acc).mpr (Or.inl rfl))
            · rw [hsum]
              exact Nat.lt_add_of_pos_left hpos
        | branch children empty max_depth =>
            apply Ensures.map
            have hrecord : Ensures (match empty with
                | some acc => record max_accumulators s.accumulators acc
                | none => some s.accumulators) fun after => after.Nodup ∧
                  ∀ b, b ∈ after ↔ empty = some b ∨ b ∈ s.accumulators := by
              cases empty with
              | none => exact Ensures.some ⟨h.nodup, fun b => by simp⟩
              | some a =>
                  refine (record_spec h.nodup).mono fun after hafter => ⟨hafter.1, fun b => ?_⟩
                  rw [hafter.2, Option.some.injEq, eq_comm]
            refine hrecord.mono fun after hafter => ?_
            have hmem : ∀ m, m ∈ (children.map Slot.node).reverse ↔ ∃ s ∈ children, s.node = m :=
              fun m => by rw [List.mem_reverse, List.mem_map]
            refine ⟨?_, ?_⟩
            · apply h.visit hpending hafter.1
              · exact fun a ha => (hafter.2 a).mpr (Or.inr ha)
              · intro a ha
                obtain rfl | ha := (hafter.2 a).mp ha
                · exact Or.inr (Carries.empty children max_depth)
                · exact Or.inl ha
              · intro n hn a ha
                obtain ⟨t, ht, rfl⟩ := (hmem n).mp hn
                exact Carries.child ht ha
              · intro a ha
                cases ha with
                | empty => exact Or.inl ((hafter.2 a).mpr (Or.inl rfl))
                | child ht hbelow =>
                    exact Or.inr ⟨_, (hmem _).mpr ⟨_, ht, rfl⟩, nodes_lt_of_mem ht empty max_depth, hbelow⟩
            · rw [hsum, pendingNodes, List.map_append, List.sum_append, List.map_reverse,
                List.sum_reverse, ← nodes_all_eq, nodes]
              omega

theorem partition_loop_spec [Sharing] (max_accumulators max_upper_nodes : ℕ∞) (root : Upper T A) :
    ∃ r, attemptLoop (partition_step max_accumulators max_upper_nodes) (nodes root + 1)
        ⟨[], [root], []⟩ = some r ∧ Ensures r fun s : PartitionState T A =>
      s.accumulators.Nodup ∧ ∀ a, a ∈ s.accumulators ↔ Carries a root := by
  apply attemptLoop_ensures (I := Collecting root) (Q := fun s : PartitionState T A =>
    s.accumulators.Nodup ∧ ∀ a, a ∈ s.accumulators ↔ Carries a root) pendingNodes
  · intro s h
    refine (partition_step_spec h).mono fun next hnext => ?_
    cases next <;> exact hnext
  · exact Collecting.start root
  · simp [pendingNodes]

/-- The accumulators that are collected are those of the nodes, each once. -/
theorem partition_accumulators_spec [Sharing] (max_accumulators max_upper_nodes : ℕ∞)
    (root : Upper T A) : Ensures (partition_accumulators max_accumulators max_upper_nodes root)
      fun accumulators => accumulators.Nodup ∧ ∀ a, a ∈ accumulators ↔ Carries a root := by
  obtain ⟨r, hr, hQ⟩ := partition_loop_spec max_accumulators max_upper_nodes root
  rw [partition_accumulators, hr]
  exact Ensures.map hQ

/-- Without limits the accumulators are collected. -/
theorem partition_accumulators_unlimited [Sharing] (root : Upper T A) :
    ∃ accumulators, partition_accumulators ⊤ ⊤ root = some accumulators := by
  have hrecord : ∀ (accumulators : List A) (a : A), record ⊤ accumulators a ≠ none := by
    intro accumulators a
    unfold record
    split_ifs with hmem hfull
    · exact Option.some_ne_none _
    · exact absurd hfull (ENat.natCast_ne_top _)
    · exact Option.some_ne_none _
  have hstep : ∀ s : PartitionState T A, partition_step ⊤ ⊤ s ≠ none := by
    intro s
    unfold partition_step
    split
    · exact Option.some_ne_none _
    · dsimp only
      split_ifs with hvisited hmany
      · exact Option.some_ne_none _
      · exact absurd hmany not_top_lt
      · split
        · rw [Ne, Option.map_eq_none_iff]
          exact hrecord _ _
        · rw [Ne, Option.map_eq_none_iff]
          split
          · exact hrecord _ _
          · exact Option.some_ne_none _
  obtain ⟨r, hr, -⟩ := partition_loop_spec ⊤ ⊤ root
  cases r with
  | none => exact absurd hr (attemptLoop_ne_none hstep _ _)
  | some s => exact ⟨s.accumulators, by rw [partition_accumulators, hr]; rfl⟩

end

end Upper

end GlrMask
