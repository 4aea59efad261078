import GlrMask.GssLower
import Mathlib.Order.WithBot

/-!
# Upper nodes of a graph-structured stack

The upper nodes carry the accumulators. An interface gives one accumulator to
all stacks of a lower node; a branch gives accumulators to its children and to
the empty stack. A node stands for a map from stacks to accumulators, where the
accumulators of a stack that occurs more than once are merged.
-/

namespace GlrMask

/-- Merging is a join, and subsumption implies that merging changes nothing. -/
class Merge (A : Type) extends SemilatticeSup A where
  subsumes : A → A → Bool
  le_of_subsumes : ∀ {a b : A}, subsumes a b = true → b ≤ a

inductive Upper (T A : Type)
  | branch (children : List (Slot T (Upper T A))) (empty : Option A) (max_depth : ℕ)
  | interface (inner : Lower T) (acc : A)

structure UpperBranch (T A : Type) where
  children : List (Slot T (Upper T A))
  empty : Option A
  max_depth : ℕ

def UpperBranch.node {T A : Type} (branch : UpperBranch T A) : Upper T A :=
  .branch branch.children branch.empty branch.max_depth

namespace Upper

variable {T A : Type}

def max_depth : Upper T A → ℕ
  | branch _ _ max_depth => max_depth
  | interface inner _ => inner.max_depth

def new_branch (children : List (Slot T (Upper T A))) (empty : Option A) : Upper T A :=
  branch children empty (Slot.height Upper.max_depth children)

def empty_upper_inner : Upper T A := new_branch [] none

/-- The accumulator of a stack, listed from the top down, or nothing. -/
def acc [DecidableEq T] [SemilatticeSup A] : List T → Upper T A → WithBot A
  | stack, interface inner acc => if inner.has stack then acc else ⊥
  | [], branch _ empty _ => empty
  | v :: stack, branch children _ _ => Slot.joined (acc stack) v children

/-- The stored depths are right, and no value has two children of one depth. -/
inductive WF : Upper T A → Prop
  | branch {children : List (Slot T (Upper T A))} {empty : Option A} {max_depth : ℕ}
      (distinct : Slot.Distinct children) (deep : Slot.Deep Upper.max_depth children)
      (wf : ∀ s ∈ children, WF s.node) (depth : max_depth = Slot.height Upper.max_depth children) :
      WF (branch children empty max_depth)
  | interface {inner : Lower T} {acc : A} (wf : inner.WF) : WF (interface inner acc)

structure Family (children : List (Slot T (Upper T A))) : Prop where
  distinct : Slot.Distinct children
  deep : Slot.Deep Upper.max_depth children
  wf : ∀ s ∈ children, s.node.WF

theorem new_branch_wf {children : List (Slot T (Upper T A))} (h : Family children)
    (empty : Option A) : (new_branch children empty).WF :=
  WF.branch h.distinct h.deep h.wf rfl

/-! ## Between interfaces and branches -/

/-- The children of an interface, each an interface with its accumulator. -/
def interface_to_upperbranch [DecidableEq T] (inner : Lower T) (acc : A) : UpperBranch T A :=
  let children := Slot.putAll (inner.children.map fun s =>
    ⟨s.value, (Upper.interface s.node acc).max_depth, Upper.interface s.node acc⟩)
  ⟨children, if inner.empty then some acc else none, Slot.height Upper.max_depth children⟩

/-- The lower node and the accumulator of an interface. -/
def interface? : Upper T A → Option (Lower T × A)
  | branch .. => none
  | interface inner acc => some (inner, acc)

section

variable [Sharing] [DecidableEq T] [DecidableEq A]

open Sharing

/-- A branch whose accumulators are all the same becomes an interface. -/
def try_promote (node : Upper T A) : Upper T A :=
  match node with
  | interface .. => node
  | branch children empty _ =>
      if children.all fun s => s.node.interface?.isSome then
        if children.isEmpty then
          match empty with
          | some acc => interface (Lower.new_lower [] true) acc
          | none => node
        else
          match (empty.toList ++ children.filterMap fun s => s.node.interface?.map Prod.snd).dedup with
          | [] => empty_upper_inner
          | [the_acc] =>
              interface (Lower.new_lower (Slot.putAll (children.filterMap fun s =>
                s.node.interface?.map fun i => ⟨s.value, i.1.max_depth, i.1⟩)) empty.isSome) the_acc
          | _ => node
      else node

end

/-! ## Merging -/

section

variable [Sharing] [DecidableEq T] [DecidableEq A] [Merge A]

open Sharing

def merge_optional_acc (a b : Option A) : Option A :=
  match a, b with
  | none, some b => some b
  | some a, none => some a
  | some a, some b => some (a ⊔ b)
  | none, none => none

def merge_upperbranches (join : Upper T A → Upper T A → Upper T A) (a b : UpperBranch T A) :
    Upper T A :=
  if same a b then a.node
  else
    let children := if same a.children b.children then a.children
      else Slot.mergeAll join a.children b.children
    try_promote (branch children (merge_optional_acc a.empty b.empty) (max a.max_depth b.max_depth))

def nonempty_deterministic_top_step (lower : Lower T) : Option (T × Lower T) :=
  match lower.empty, lower.children with
  | false, [s] => some (s.value, s.node)
  | _, _ => none

/-- The top values that two nodes share as long as each has a single child. -/
def shared_nonempty_deterministic_prefix : ℕ → Lower T → Lower T → List T × Lower T × Lower T
  | 0, left, right => ([], left, right)
  | levels + 1, left, right =>
      match nonempty_deterministic_top_step left, nonempty_deterministic_top_step right with
      | some (left_value, next_left), some (right_value, next_right) =>
          if left_value = right_value then
            let rest := shared_nonempty_deterministic_prefix levels next_left next_right
            (left_value :: rest.1, rest.2)
          else ([], left, right)
      | _, _ => ([], left, right)

/-- The remainders below a shared prefix have different accumulators, so that `join` finds two
interfaces that are not one allocation. -/
def merge_interfaces (join : Upper T A → Upper T A → Upper T A) (inner1 : Lower T) (acc1 : A)
    (inner2 : Lower T) (acc2 : A) : Upper T A :=
  if same inner1 inner2 then
    if Merge.subsumes acc2 acc1 then interface inner2 acc2
    else if Merge.subsumes acc1 acc2 then interface inner1 acc1
    else interface inner1 (acc1 ⊔ acc2)
  else if acc1 = acc2 then interface (inner1.merge_lower inner2) (acc1 ⊔ acc2)
  else
    let shared := shared_nonempty_deterministic_prefix (max inner1.max_depth inner2.max_depth)
      inner1 inner2
    if shared.1.isEmpty then
      merge_upperbranches join (interface_to_upperbranch inner1 acc1)
        (interface_to_upperbranch inner2 acc2)
    else
      shared.1.foldr
        (fun value merged => try_promote (new_branch [⟨value, merged.max_depth, merged⟩] none))
        (join (interface shared.2.1 acc1) (interface shared.2.2 acc2))

/-- Merging goes down one level at a time, as for lower nodes. -/
def merge_upper_within : ℕ → Upper T A → Upper T A → Upper T A
  | 0, u1, _ => u1
  | levels + 1, u1, u2 =>
      if same u1 u2 then u1
      else
        match u1, u2 with
        | interface inner1 acc1, interface inner2 acc2 =>
            merge_interfaces (merge_upper_within levels) inner1 acc1 inner2 acc2
        | branch c1 e1 d1, branch c2 e2 d2 =>
            merge_upperbranches (merge_upper_within levels) ⟨c1, e1, d1⟩ ⟨c2, e2, d2⟩
        | branch c e d, interface inner acc =>
            merge_upperbranches (merge_upper_within levels) ⟨c, e, d⟩
              (interface_to_upperbranch inner acc)
        | interface inner acc, branch c e d =>
            merge_upperbranches (merge_upper_within levels) ⟨c, e, d⟩
              (interface_to_upperbranch inner acc)

def merge_upper (u1 u2 : Upper T A) : Upper T A :=
  merge_upper_within (max u1.max_depth u2.max_depth + 1) u1 u2

end

/-! ## What the nodes stand for -/

section

variable [DecidableEq T] [SemilatticeSup A]

/-- An accumulator for the stacks that are there. -/
def give (acc : A) (present : Bool) : WithBot A := if present then acc else ⊥

omit [SemilatticeSup A] in
theorem give_false (a : A) : give a false = ⊥ := rfl

theorem give_or (a : A) (x y : Bool) : give a (x || y) = give a x ⊔ give a y := by
  cases x <;> cases y <;> simp [give]

theorem acc_interface (stack : List T) (inner : Lower T) (a : A) :
    acc stack (interface inner a) = give a (inner.has stack) := by
  cases stack <;> rfl

theorem acc_branch_nil (children : List (Slot T (Upper T A))) (empty : Option A) (max_depth : ℕ) :
    acc [] (branch children empty max_depth) = empty := rfl

theorem acc_branch_cons (v : T) (stack : List T) (children : List (Slot T (Upper T A)))
    (empty : Option A) (max_depth : ℕ) :
    acc (v :: stack) (branch children empty max_depth) = Slot.joined (acc stack) v children := rfl

/-- The accumulators of the children of an interface. -/
theorem joined_interface (v : T) (stack : List T) (children : List (Slot T (Lower T))) (a : A)
    (g : Lower T → ℕ) :
    Slot.joined (acc stack) v (children.map fun s => ⟨s.value, g s.node, interface s.node a⟩) =
      give a (Slot.joined (Lower.has stack) v children) := by
  rw [Slot.joined_map (fun n => interface n a) g, ← Slot.joined_hom (h := give a) (give_false a) (give_or a)]
  exact Slot.joined_congr fun s _ _ => acc_interface stack s.node a

omit [DecidableEq T] [SemilatticeSup A] in
theorem interface_family {children : List (Slot T (Lower T))} (h : Lower.Family children) (a : A) :
    Family (children.map fun s =>
      (⟨s.value, (interface s.node a).max_depth, interface s.node a⟩ : Slot T (Upper T A))) := by
  have hkeys : (children.map fun s => (⟨s.value, (interface s.node a).max_depth,
      interface s.node a⟩ : Slot T (Upper T A))).map Slot.key = children.map Slot.key := by
    rw [List.map_map]
    apply List.map_congr_left
    intro s hs
    exact Prod.ext rfl (h.deep s hs)
  refine ⟨?_, ?_, ?_⟩
  · unfold Slot.Distinct
    rw [hkeys]
    exact h.distinct
  · intro s hs
    obtain ⟨t, ht, rfl⟩ := List.mem_map.mp hs
    rfl
  · intro s hs
    obtain ⟨t, ht, rfl⟩ := List.mem_map.mp hs
    exact WF.interface (h.wf t ht)

/-- A branch that stands for the same as an interface. -/
theorem interface_to_upperbranch_spec {inner : Lower T} (h : inner.WF) (a : A) :
    (interface_to_upperbranch inner a).node.WF ∧
      (interface_to_upperbranch inner a).max_depth = inner.max_depth ∧
      ∀ stack, acc stack (interface_to_upperbranch inner a).node = acc stack (interface inner a) := by
  have hfamily := interface_family h.family a
  have hchildren := Slot.putAll_of_distinct hfamily.distinct
  have hheight : ∀ children : List (Slot T (Lower T)),
      Slot.height Upper.max_depth (children.map fun s => (⟨s.value, (interface s.node a).max_depth,
        interface s.node a⟩ : Slot T (Upper T A))) = Slot.height Lower.max_depth children := by
    intro children
    induction children with
    | nil => rfl
    | cons s children ih =>
        rw [List.map_cons, Slot.height, Slot.height, ih]
        rfl
  unfold interface_to_upperbranch
  rw [hchildren]
  refine ⟨new_branch_wf hfamily _, ?_, ?_⟩
  · exact (hheight _).trans h.max_depth_eq.symm
  · intro stack
    rw [acc_interface]
    cases stack with
    | nil =>
        change (if inner.empty then some a else none : Option A) = give a inner.empty
        cases inner.empty <;> rfl
    | cons v stack => exact joined_interface v stack inner.children a (fun n => n.max_depth)

end

/-- What merging two well-formed nodes gives. -/
structure Merged [DecidableEq T] [SemilatticeSup A] (u1 u2 merged : Upper T A) : Prop where
  wf : merged.WF
  depth : merged.max_depth = max u1.max_depth u2.max_depth
  acc : ∀ stack, acc stack merged = acc stack u1 ⊔ acc stack u2

section

variable [Sharing] [DecidableEq T] [DecidableEq A]

open Sharing

omit [Sharing] [DecidableEq T] [DecidableEq A] in
/-- The lower nodes of children that are all interfaces. -/
theorem interfaces_of_all {children : List (Slot T (Upper T A))} (a : A)
    (h : ∀ s ∈ children, ∃ inner, s.node = interface inner a) :
    ∃ lower : List (Slot T (Lower T)),
      children = lower.map (fun s => ⟨s.value, s.depth, interface s.node a⟩) ∧
        (children.filterMap fun s => s.node.interface?.map fun i =>
          (⟨s.value, i.1.max_depth, i.1⟩ : Slot T (Lower T))) =
            lower.map fun s => ⟨s.value, s.node.max_depth, s.node⟩ := by
  induction children with
  | nil => exact ⟨[], rfl, rfl⟩
  | cons s children ih =>
      obtain ⟨lower, hlower, hmap⟩ := ih fun t ht => h t (List.mem_cons_of_mem _ ht)
      obtain ⟨inner, hinner⟩ := h s List.mem_cons_self
      refine ⟨⟨s.value, s.depth, inner⟩ :: lower, ?_, ?_⟩
      · rw [List.map_cons, ← hlower, ← hinner]
      · rw [List.filterMap_cons, hinner, List.map_cons, ← hmap]
        rfl

/-- Promotion keeps what a node stands for. -/
theorem try_promote_spec [SemilatticeSup A] {node : Upper T A} (h : node.WF) :
    (try_promote node).WF ∧ (try_promote node).max_depth = node.max_depth ∧
      ∀ stack, acc stack (try_promote node) = acc stack node := by
  unfold try_promote
  cases h with
  | interface hwf => exact ⟨WF.interface hwf, rfl, fun _ => rfl⟩
  | branch hdistinct hdeep hwf hdepth =>
      rename_i children empty max_depth
      have hself : (branch children empty max_depth).WF := WF.branch hdistinct hdeep hwf hdepth
      dsimp only
      split_ifs with hall hnone
      · -- A branch for the empty stack only.
        rw [List.isEmpty_iff] at hnone
        subst hnone
        cases empty with
        | none => exact ⟨hself, rfl, fun _ => rfl⟩
        | some a =>
            have hfamily : Lower.Family ([] : List (Slot T (Lower T))) :=
              ⟨List.nodup_nil, (fun _ hs => nomatch hs), fun _ hs => nomatch hs⟩
            obtain ⟨hlower, hchildren, hempty⟩ := Lower.new_lower_spec hfamily true
            refine ⟨WF.interface hlower, ?_, fun stack => ?_⟩
            · change (Lower.new_lower [] true : Lower T).max_depth = max_depth
              rw [hlower.max_depth_eq, hchildren, hdepth]
              rfl
            · rw [acc_interface]
              cases stack with
              | nil =>
                  change give a (Lower.new_lower [] true : Lower T).empty = _
                  rw [hempty]
                  rfl
              | cons v stack =>
                  rw [Lower.has_cons, hchildren]
                  rfl
      · split
        · -- There are children, and they have accumulators.
          rename_i hdedup
          have hempty := (List.dedup_eq_nil _).mp hdedup
          obtain ⟨s, hs⟩ := List.exists_mem_of_ne_nil children (by simpa using hnone)
          have hsome := List.all_eq_true.mp hall s hs
          obtain ⟨i, hi⟩ := Option.isSome_iff_exists.mp hsome
          have hmem : i.2 ∈ empty.toList ++ children.filterMap
              (fun s => s.node.interface?.map Prod.snd) :=
            List.mem_append_right _ (List.mem_filterMap.mpr ⟨s, hs, by rw [hi]; rfl⟩)
          rw [hempty] at hmem
          cases hmem
        · rename_i the_acc hdedup
          have hmem : ∀ a, a ∈ empty.toList ++ children.filterMap
              (fun s => s.node.interface?.map Prod.snd) → a = the_acc := fun a ha => by
            rw [← List.mem_dedup, hdedup] at ha
            exact List.mem_singleton.mp ha
          have hinner : ∀ s ∈ children, ∃ inner, s.node = interface inner the_acc := by
            intro s hs
            have hsome := List.all_eq_true.mp hall s hs
            cases hnode : s.node with
            | branch => rw [hnode] at hsome; cases hsome
            | interface inner a =>
                refine ⟨inner, ?_⟩
                rw [hmem a (List.mem_append_right _ (List.mem_filterMap.mpr
                  ⟨s, hs, by rw [hnode]; rfl⟩))]
          obtain ⟨lower, rfl, hlower⟩ := interfaces_of_all the_acc hinner
          have hdeep' : ∀ s ∈ lower, s.node.max_depth = s.depth := fun s hs =>
            hdeep _ (List.mem_map_of_mem hs)
          have hlist : (lower.map fun s => (⟨s.value, s.node.max_depth, s.node⟩ :
              Slot T (Lower T))) = lower := by
            apply (List.map_congr_left fun s hs => ?_).trans (List.map_id lower)
            rw [hdeep' s hs]
            rfl
          have hfamily : Lower.Family lower := by
            refine ⟨?_, hdeep', fun s hs => ?_⟩
            · unfold Slot.Distinct at hdistinct ⊢
              rw [List.map_map] at hdistinct
              exact hdistinct
            · have hnode := hwf _ (List.mem_map_of_mem hs)
              cases hnode with
              | interface h => exact h
          rw [hlower, hlist, Slot.putAll_of_distinct hfamily.distinct]
          obtain ⟨hnew, hchildren, hempty⟩ := Lower.new_lower_spec hfamily empty.isSome
          refine ⟨WF.interface hnew, ?_, fun stack => ?_⟩
          · change (Lower.new_lower lower empty.isSome).max_depth = max_depth
            rw [hnew.max_depth_eq, hchildren, hdepth]
            clear hlower hlist hfamily hnew hchildren hempty hmem hdedup hinner hself hdepth hwf
              hdeep hdistinct hdeep' hall hnone
            induction lower with
            | nil => rfl
            | cons s lower ih =>
                rw [List.map_cons, Slot.height, Slot.height, ih]
                rfl
          · rw [acc_interface]
            cases stack with
            | nil =>
                change give the_acc (Lower.new_lower lower empty.isSome).empty = empty
                rw [hempty]
                cases empty with
                | none => rfl
                | some a =>
                    rw [hmem a (List.mem_append_left _ (by simp))]
                    rfl
            | cons v stack =>
                rw [Lower.has_cons, hchildren, acc_branch_cons]
                have hjoined := joined_interface v stack lower the_acc (fun n => n.max_depth)
                rw [← hjoined]
                congr 1
                apply List.map_congr_left
                intro s hs
                rw [hdeep' s hs]
        · exact ⟨hself, rfl, fun _ => rfl⟩
      · exact ⟨hself, rfl, fun _ => rfl⟩

/-! ## What merging stands for -/

theorem Merged.promote [SemilatticeSup A] {u1 u2 merged : Upper T A} (h : Merged u1 u2 merged) :
    Merged u1 u2 (try_promote merged) := by
  obtain ⟨hwf, hdepth, hacc⟩ := try_promote_spec h.wf
  exact ⟨hwf, hdepth.trans h.depth, fun stack => (hacc stack).trans (h.acc stack)⟩

omit [Sharing] [DecidableEq A] in
theorem Merged.self [SemilatticeSup A] {u : Upper T A} (h : u.WF) : Merged u u u :=
  ⟨h, (max_self _).symm, fun _ => (sup_idem _).symm⟩

omit [Sharing] [DecidableEq A] in
theorem Merged.symm [SemilatticeSup A] {u1 u2 merged : Upper T A} (h : Merged u1 u2 merged) :
    Merged u2 u1 merged :=
  ⟨h.wf, h.depth.trans (max_comm _ _), fun stack => (h.acc stack).trans (sup_comm _ _)⟩

omit [Sharing] [DecidableEq A] in
/-- The operands may be exchanged for nodes that stand for the same. -/
theorem Merged.congr [SemilatticeSup A] {u1 u2 v1 v2 merged : Upper T A} (h : Merged u1 u2 merged)
    (hdepth1 : u1.max_depth = v1.max_depth) (hdepth2 : u2.max_depth = v2.max_depth)
    (hacc1 : ∀ stack, Upper.acc stack u1 = Upper.acc stack v1)
    (hacc2 : ∀ stack, Upper.acc stack u2 = Upper.acc stack v2) : Merged v1 v2 merged :=
  ⟨h.wf, by rw [h.depth, hdepth1, hdepth2], fun stack => by rw [h.acc, hacc1, hacc2]⟩

omit [Sharing] [DecidableEq T] [DecidableEq A] in
theorem WF.branch_family {b : UpperBranch T A} (h : b.node.WF) :
    Family b.children ∧ b.max_depth = Slot.height Upper.max_depth b.children := by
  cases h with
  | branch hdistinct hdeep hwf hdepth => exact ⟨⟨hdistinct, hdeep, hwf⟩, hdepth⟩

/-- A well-formed node of a given depth. -/
def Good (d : ℕ) (node : Upper T A) : Prop := node.WF ∧ node.max_depth = d

variable [Merge A]

omit [Sharing] [DecidableEq T] [DecidableEq A] in
theorem merge_optional_acc_eq (a b : Option A) :
    merge_optional_acc a b = @max (WithBot A) _ a b := by
  cases a with
  | none =>
      cases b with
      | none => exact (bot_sup_eq (⊥ : WithBot A)).symm
      | some b => exact (bot_sup_eq (b : WithBot A)).symm
  | some a =>
      cases b with
      | none => exact (sup_bot_eq (a : WithBot A)).symm
      | some b => rfl

theorem merge_upperbranches_spec {join : Upper T A → Upper T A → Upper T A}
    {b1 b2 : UpperBranch T A} (h1 : b1.node.WF) (h2 : b2.node.WF)
    (hjoin : ∀ (d : ℕ) (n m : Upper T A), d < max b1.max_depth b2.max_depth → Good d n →
      Good d m → Merged n m (join n m)) :
    Merged b1.node b2.node (merge_upperbranches join b1 b2) := by
  obtain ⟨hf1, hd1⟩ := h1.branch_family
  obtain ⟨hf2, hd2⟩ := h2.branch_family
  unfold merge_upperbranches
  split_ifs with hsame hchildren
  · obtain rfl := eq_of_same hsame
    exact Merged.self h1
  · apply Merged.promote
    have heq := eq_of_same hchildren
    have hdepth : b2.max_depth = b1.max_depth := by rw [hd1, hd2, heq]
    refine ⟨WF.branch hf1.distinct hf1.deep hf1.wf ?_, rfl, fun stack => ?_⟩
    · rw [hdepth, max_self, hd1]
    · cases stack with
      | nil => exact merge_optional_acc_eq b1.empty b2.empty
      | cons v stack =>
          change Slot.joined _ v b1.children = Slot.joined _ v b1.children ⊔ Slot.joined _ v b2.children
          rw [← heq, sup_idem]
  · apply Merged.promote
    have hgood : ∀ (b : UpperBranch T A), Family b.children →
        b.max_depth = Slot.height Upper.max_depth b.children →
        b.max_depth ≤ max b1.max_depth b2.max_depth →
        ∀ s ∈ b.children, s.depth < max b1.max_depth b2.max_depth ∧ Good s.depth s.node := by
      intro b hf hd hle s hs
      have hlt : s.node.max_depth < b.max_depth := hd ▸ Slot.lt_height hs
      exact ⟨hf.deep s hs ▸ hlt.trans_le hle, hf.wf s hs, hf.deep s hs⟩
    have hg1 := hgood b1 hf1 hd1 (le_max_left _ _)
    have hg2 := hgood b2 hf2 hd2 (le_max_right _ _)
    have hstep : ∀ d n m, (d < max b1.max_depth b2.max_depth ∧ Good d n) →
        (d < max b1.max_depth b2.max_depth ∧ Good d m) →
        d < max b1.max_depth b2.max_depth ∧ Good d (join n m) := by
      intro d n m hn hm
      have hmerged := hjoin d n m hn.1 hn.2 hm.2
      exact ⟨hn.1, hmerged.wf, by rw [hmerged.depth, hn.2.2, hm.2.2, max_self]⟩
    have hall := Slot.good_mergeAll hstep hg1 hg2
    have hdeep : Slot.Deep Upper.max_depth (Slot.mergeAll join b1.children b2.children) :=
      fun s hs => (hall s hs).2.2
    refine ⟨WF.branch hf1.distinct.mergeAll hdeep (fun s hs => (hall s hs).2.1) ?_, rfl,
      fun stack => ?_⟩
    · rw [Slot.height_mergeAll hf1.deep hf2.deep hdeep, hd1, hd2]
    · cases stack with
      | nil => exact merge_optional_acc_eq b1.empty b2.empty
      | cons v stack =>
          apply Slot.joined_mergeAll hstep _ hg1 hg2
          intro d n m hn hm
          exact (hjoin d n m hn.1 hn.2 hm.2).acc stack

/-! ### Shared prefixes -/

/-- A run of single children. -/
inductive Spine : List T → Lower T → Lower T → Prop
  | nil (node : Lower T) : Spine [] node node
  | cons {node rest : Lower T} {s : Slot T (Lower T)} {values : List T}
      (empty : node.empty = false) (children : node.children = [s])
      (below : Spine values s.node rest) : Spine (s.value :: values) node rest

omit [Sharing] [DecidableEq T] in
theorem top_step_eq_some {node rest : Lower T} {v : T}
    (h : nonempty_deterministic_top_step node = some (v, rest)) :
    ∃ s, node.empty = false ∧ node.children = [s] ∧ s.value = v ∧ s.node = rest := by
  unfold nonempty_deterministic_top_step at h
  split at h
  · rename_i s hempty hchildren
    obtain ⟨rfl, rfl⟩ := Prod.mk.inj (Option.some.inj h)
    exact ⟨s, hempty, hchildren, rfl, rfl⟩
  · cases h

omit [Sharing] in
theorem shared_prefix_spine (levels : ℕ) (left right : Lower T) :
    Spine ( shared_nonempty_deterministic_prefix levels left right).1 left
        ( shared_nonempty_deterministic_prefix levels left right).2.1 ∧
      Spine ( shared_nonempty_deterministic_prefix levels left right).1 right
        ( shared_nonempty_deterministic_prefix levels left right).2.2 := by
  induction levels generalizing left right with
  | zero => exact ⟨Spine.nil left, Spine.nil right⟩
  | succ levels ih =>
      unfold shared_nonempty_deterministic_prefix
      split
      · rename_i left_value next_left right_value next_right hleft hright
        obtain ⟨s, hse, hsc, rfl, rfl⟩ := top_step_eq_some hleft
        obtain ⟨t, hte, htc, rfl, rfl⟩ := top_step_eq_some hright
        split_ifs with hvalue
        · obtain ⟨h1, h2⟩ := ih s.node t.node
          refine ⟨Spine.cons hse hsc h1, ?_⟩
          have hcons := Spine.cons hte htc h2
          rwa [← hvalue] at hcons
        · exact ⟨Spine.nil left, Spine.nil right⟩
      · exact ⟨Spine.nil left, Spine.nil right⟩

omit [Sharing] [DecidableEq T] in
theorem Spine.wf {values : List T} {node rest : Lower T} (h : Spine values node rest)
    (hnode : node.WF) : rest.WF ∧ node.max_depth = rest.max_depth + values.length := by
  induction h with
  | nil => exact ⟨hnode, rfl⟩
  | @cons node rest s values hempty hchildren _ ih =>
      obtain ⟨hrest, hdepth⟩ := ih (hnode.family.wf s (hchildren ▸ List.mem_singleton_self s))
      refine ⟨hrest, ?_⟩
      rw [hnode.max_depth_eq, hchildren, Slot.height, Slot.height, hdepth, List.length_cons]
      omega

/-- One shared value on top of a merged remainder. -/
theorem Merged.push {left right : Lower T} {s t : Slot T (Lower T)} {a b : A} {merged : Upper T A}
    (hleft : left.WF) (hright : right.WF) (hse : left.empty = false) (hsc : left.children = [s])
    (hte : right.empty = false) (htc : right.children = [t]) (hvalue : s.value = t.value)
    (h : Merged (interface s.node a) (interface t.node b) merged) :
    Merged (interface left a) (interface right b)
      (try_promote (new_branch [⟨s.value, merged.max_depth, merged⟩] none)) := by
  apply Merged.promote
  have hfamily : Family [(⟨s.value, merged.max_depth, merged⟩ : Slot T (Upper T A))] := by
    refine ⟨List.nodup_singleton _, ?_, ?_⟩
    · intro r hr
      rw [List.mem_singleton.mp hr]
    · intro r hr
      rw [List.mem_singleton.mp hr]
      exact h.wf
  refine ⟨new_branch_wf hfamily none, ?_, fun stack => ?_⟩
  · have hl := hleft.max_depth_eq
    have hr := hright.max_depth_eq
    have hm := h.depth
    rw [hsc, Slot.height, Slot.height] at hl
    rw [htc, Slot.height, Slot.height] at hr
    change max (merged.max_depth + 1) 0 = max left.max_depth right.max_depth
    change merged.max_depth = max s.node.max_depth t.node.max_depth at hm
    omega
  · rw [acc_interface, acc_interface]
    cases stack with
    | nil =>
        change (none : Option A) = give a left.empty ⊔ give b right.empty
        rw [hse, hte]
        rfl
    | cons v stack =>
        rw [Lower.has_cons, Lower.has_cons, hsc, htc]
        change Slot.joined (Upper.acc stack) v [⟨s.value, merged.max_depth, merged⟩] = _
        rw [Slot.joined_cons, Slot.joined_nil, Slot.joined_cons, Slot.joined_nil,
          Slot.joined_cons, Slot.joined_nil, sup_bot_eq, sup_bot_eq, sup_bot_eq, h.acc,
          acc_interface, acc_interface, ← hvalue]
        by_cases hv : s.value = v
        · rw [if_pos hv, if_pos hv, if_pos hv]
        · rw [if_neg hv, if_neg hv, if_neg hv]
          rfl

theorem Merged.push_all {values : List T} {left right left' right' : Lower T} {a b : A}
    {merged : Upper T A} (hleft : left.WF) (hright : right.WF) (hl : Spine values left left')
    (hr : Spine values right right')
    (h : Merged (interface left' a) (interface right' b) merged) :
    Merged (interface left a) (interface right b) (values.foldr
      (fun value merged => try_promote (new_branch [⟨value, merged.max_depth, merged⟩] none))
      merged) := by
  induction values generalizing left right with
  | nil =>
      cases hl
      cases hr
      exact h
  | cons v values ih =>
      cases hl with
      | @cons _ _ s _ hse hsc hl =>
          generalize hvalue : s.value = v at hr
          cases hr with
          | @cons _ _ t _ hte htc hr =>
              have hs := hleft.family.wf s (hsc ▸ List.mem_singleton_self s)
              have ht := hright.family.wf t (htc ▸ List.mem_singleton_self t)
              rw [List.foldr_cons, ← hvalue]
              exact Merged.push hleft hright hse hsc hte htc hvalue (ih hs ht hl hr)

/-! ### Merging -/

theorem merge_interfaces_spec {join : Upper T A → Upper T A → Upper T A} {inner1 inner2 : Lower T}
    {acc1 acc2 : A} (h1 : inner1.WF) (h2 : inner2.WF)
    (hjoin : ∀ n m : Upper T A, max n.max_depth m.max_depth <
      max inner1.max_depth inner2.max_depth → n.WF → m.WF → Merged n m (join n m)) :
    Merged (interface inner1 acc1) (interface inner2 acc2)
      (merge_interfaces join inner1 acc1 inner2 acc2) := by
  have hgive : ∀ (a b c : A) (present : Bool), a ⊔ b = c →
      give c present = give a present ⊔ give b present := by
    intro a b c present he
    subst he
    cases present with
    | false => exact (bot_sup_eq _).symm
    | true => exact WithBot.coe_sup a b
  unfold merge_interfaces
  dsimp only
  split_ifs with hsame hsub2 hsub1 hacc hprefix
  · obtain rfl := eq_of_same hsame
    refine ⟨WF.interface h1, (max_self _).symm, fun stack => ?_⟩
    rw [acc_interface, acc_interface]
    exact hgive _ _ _ _ (sup_eq_right.mpr (Merge.le_of_subsumes hsub2))
  · obtain rfl := eq_of_same hsame
    refine ⟨WF.interface h1, (max_self _).symm, fun stack => ?_⟩
    rw [acc_interface, acc_interface]
    exact hgive _ _ _ _ (sup_eq_left.mpr (Merge.le_of_subsumes hsub1))
  · obtain rfl := eq_of_same hsame
    refine ⟨WF.interface h1, (max_self _).symm, fun stack => ?_⟩
    rw [acc_interface, acc_interface, acc_interface]
    exact hgive _ _ _ _ rfl
  · subst hacc
    have hmerged := Lower.merge_lower_spec h1 h2
    refine ⟨WF.interface hmerged.wf, hmerged.depth, fun stack => ?_⟩
    rw [acc_interface, acc_interface, acc_interface, hmerged.has, sup_idem, give_or]
  · obtain ⟨hwf1, hdepth1, hacc1⟩ := interface_to_upperbranch_spec h1 acc1
    obtain ⟨hwf2, hdepth2, hacc2⟩ := interface_to_upperbranch_spec h2 acc2
    refine (merge_upperbranches_spec hwf1 hwf2 ?_).congr hdepth1 hdepth2 hacc1 hacc2
    intro d n m hd hn hm
    apply hjoin n m _ hn.1 hm.1
    rw [hdepth1, hdepth2] at hd
    rwa [hn.2, hm.2, max_self]
  · obtain ⟨hl, hr⟩ := shared_prefix_spine (max inner1.max_depth inner2.max_depth) inner1 inner2
    obtain ⟨hwf1, hdepth1⟩ := hl.wf h1
    obtain ⟨hwf2, hdepth2⟩ := hr.wf h2
    apply Merged.push_all h1 h2 hl hr
    apply hjoin _ _ _ (WF.interface hwf1) (WF.interface hwf2)
    -- The prefix is not empty, so the remainders are less deep.
    have hpos : 0 < ( shared_nonempty_deterministic_prefix
        (max inner1.max_depth inner2.max_depth) inner1 inner2).1.length := by
      apply List.length_pos_of_ne_nil
      intro hnil
      exact hprefix (List.isEmpty_iff.mpr hnil)
    generalize shared_nonempty_deterministic_prefix
      (max inner1.max_depth inner2.max_depth) inner1 inner2 = result at *
    change max result.2.1.max_depth result.2.2.max_depth < _
    omega

theorem merge_upper_within_spec (levels : ℕ) {u1 u2 : Upper T A} (h1 : u1.WF) (h2 : u2.WF)
    (hlevels : max u1.max_depth u2.max_depth < levels) :
    Merged u1 u2 (merge_upper_within levels u1 u2) := by
  induction levels generalizing u1 u2 with
  | zero => exact absurd hlevels (Nat.not_lt_zero _)
  | succ levels ih =>
      have hjoin : ∀ n m : Upper T A, max n.max_depth m.max_depth < max u1.max_depth u2.max_depth →
          n.WF → m.WF → Merged n m (merge_upper_within levels n m) := by
        intro n m hlt hn hm
        exact ih hn hm (by omega)
      have hchildren : ∀ {d1 d2 : ℕ}, max d1 d2 = max u1.max_depth u2.max_depth →
          ∀ (d : ℕ) (n m : Upper T A), d < max d1 d2 → Good d n → Good d m →
            Merged n m (merge_upper_within levels n m) := by
        intro d1 d2 he d n m hd hn hm
        apply hjoin n m _ hn.1 hm.1
        rw [hn.2, hm.2, max_self]
        omega
      unfold merge_upper_within
      split_ifs with hsame
      · obtain rfl := eq_of_same hsame
        exact Merged.self h1
      cases u1 with
      | branch c1 e1 d1 =>
          cases u2 with
          | branch c2 e2 d2 =>
              exact @merge_upperbranches_spec _ _ _ _ _ _ _ ⟨c1, e1, d1⟩ ⟨c2, e2, d2⟩ h1 h2
                (hchildren rfl)
          | interface inner acc =>
              cases h2 with
              | interface hinner =>
                  obtain ⟨hwf, hdepth, hacc⟩ := interface_to_upperbranch_spec hinner acc
                  refine Merged.congr (@merge_upperbranches_spec _ _ _ _ _ _ _ ⟨c1, e1, d1⟩
                    (interface_to_upperbranch inner acc) h1 hwf (hchildren ?_)) rfl hdepth
                    (fun _ => rfl) hacc
                  rw [hdepth]
                  rfl
      | interface inner acc =>
          cases h1 with
          | interface hinner =>
              cases u2 with
              | branch c2 e2 d2 =>
                  obtain ⟨hwf, hdepth, hacc⟩ := interface_to_upperbranch_spec hinner acc
                  apply Merged.symm
                  refine Merged.congr (@merge_upperbranches_spec _ _ _ _ _ _ _ ⟨c2, e2, d2⟩
                    (interface_to_upperbranch inner acc) h2 hwf (hchildren ?_)) rfl hdepth
                    (fun _ => rfl) hacc
                  rw [hdepth, max_comm]
                  rfl
              | interface inner2 acc2 =>
                  cases h2 with
                  | interface hinner2 => exact merge_interfaces_spec hinner hinner2 hjoin

/-- Merging two nodes merges the accumulators of every stack. -/
theorem merge_upper_spec {u1 u2 : Upper T A} (h1 : u1.WF) (h2 : u2.WF) :
    Merged u1 u2 (merge_upper u1 u2) :=
  merge_upper_within_spec _ h1 h2 (Nat.lt_succ_self _)

end

end Upper

end GlrMask
