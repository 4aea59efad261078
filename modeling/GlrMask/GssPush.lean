import GlrMask.GssHeads

/-!
# Pushing onto a graph-structured stack

A value is pushed onto every stack, or several words are pushed onto all stacks of an
interface, whose stacks share the prefix below the words.
-/

namespace GlrMask

variable {T A : Type} [DecidableEq T] [Sharing]

namespace Lower

omit [Sharing] in
/-- A segment puts its values on the stacks of the node below. -/
theorem has_segment {values : List T} {next : Lower T} {max_depth segments_len : ℕ}
    (h : values ≠ []) (stack : List T) :
    has stack (segment values next max_depth segments_len) = true ↔
      ∃ rest, stack = values ++ rest ∧ has rest next = true := by
  induction values generalizing stack max_depth segments_len with
  | nil => exact absurd rfl h
  | cons v values ih =>
      cases stack with
      | nil =>
          constructor
          · intro hempty
            cases hempty
          · intro hrest
            obtain ⟨rest, heq, -⟩ := hrest
            cases heq
      | cons w stack =>
          have hchild : has (w :: stack) (segment (v :: values) next max_depth segments_len) = true ↔
              v = w ∧ has stack (segment_rest (v :: values) next max_depth segments_len) = true := by
            rw [has_cons, children, Slot.joined_cons, Slot.joined_nil, sup_bot_eq]
            split_ifs with hv
            · exact (and_iff_right hv).symm
            · exact iff_of_false id fun hand => hv hand.1
          rw [hchild]
          cases values with
          | nil =>
              constructor
              · intro hand
                obtain ⟨rfl, hrest⟩ := hand
                exact ⟨stack, rfl, hrest⟩
              · intro hrest
                obtain ⟨rest, heq, hrest⟩ := hrest
                obtain ⟨rfl, rfl⟩ := List.cons.inj heq
                exact ⟨rfl, hrest⟩
          | cons u values =>
              rw [segment_rest, ih (List.cons_ne_nil _ _)]
              constructor
              · intro hand
                obtain ⟨rfl, rest, rfl, hrest⟩ := hand
                exact ⟨rest, rfl, hrest⟩
              · intro hrest
                obtain ⟨rest, heq, hrest⟩ := hrest
                obtain ⟨rfl, rfl⟩ := List.cons.inj heq
                exact ⟨rfl, rest, rfl, hrest⟩

/-- A new segment may take the values of the segment below into its own. -/
theorem new_segment_has {values : List T} {next : Lower T} (hne : values ≠ []) (h : next.WF) :
    (new_segment values next).WF ∧ ∀ stack, has stack (new_segment values next) = true ↔
      ∃ rest, stack = values ++ rest ∧ has rest next = true := by
  have hplain : ∀ node : Lower T, node.WF →
      (segment values node (node.max_depth + values.length)
        (values.length + node.segments_len)).WF ∧
      ∀ stack, has stack (segment values node (node.max_depth + values.length)
        (values.length + node.segments_len)) = true ↔
          ∃ rest, stack = values ++ rest ∧ has rest node = true := fun node hnode =>
    ⟨WF.segment hne hnode rfl (add_comm _ _), has_segment hne⟩
  unfold new_segment
  split
  · rename_i below rest max_depth segments_len
    split_ifs with hfits
    · cases h with
      | segment hbelow hwf hdepth hlength =>
          refine ⟨WF.segment (by simp [hne]) hwf rfl (add_comm _ _), ?_⟩
          intro stack
          rw [has_segment (by simp [hne])]
          simp only [has_segment hbelow]
          constructor
          · intro hstack
            obtain ⟨rest, rfl, hrest⟩ := hstack
            exact ⟨below ++ rest, List.append_assoc _ _ _, rest, rfl, hrest⟩
          · intro hstack
            obtain ⟨_, rfl, rest, rfl, hrest⟩ := hstack
            exact ⟨rest, (List.append_assoc _ _ _).symm, hrest⟩
    · exact hplain _ h
  · exact hplain _ h

/-- Push values one after the other. -/
def push_values (base : Lower T) (values : List T) : Lower T :=
  values.foldl (fun child value => new_segment [value] child) base

theorem push_values_has {base : Lower T} (h : base.WF) (values : List T) :
    (push_values base values).WF ∧ ∀ stack, has stack (push_values base values) = true ↔
      ∃ rest, stack = values.reverse ++ rest ∧ has rest base = true := by
  induction values generalizing base with
  | nil => exact ⟨h, fun stack => by simp [push_values]⟩
  | cons v values ih =>
      obtain ⟨hwf, hhas⟩ := new_segment_has (List.cons_ne_nil v []) h
      obtain ⟨hpushed, hvalues⟩ := ih hwf
      refine ⟨hpushed, ?_⟩
      intro stack
      rw [push_values, List.foldl_cons, ← push_values, hvalues]
      simp only [hhas, List.reverse_cons, List.append_assoc]
      constructor
      · intro hstack
        obtain ⟨_, rfl, rest, rfl, hrest⟩ := hstack
        exact ⟨rest, rfl, hrest⟩
      · intro hstack
        obtain ⟨rest, rfl, hrest⟩ := hstack
        exact ⟨_, rfl, rest, rfl, hrest⟩

end Lower

/-! ## One value -/

namespace Upper

omit [DecidableEq T] [Sharing] in
theorem new_branch_single_wf {node : Upper T A} (h : node.WF) (v : T) :
    (new_branch [⟨v, node.max_depth, node⟩] none).WF := by
  apply new_branch_wf
  refine ⟨List.nodup_singleton _, ?_, ?_⟩
  · intro s hs
    rw [List.mem_singleton.mp hs]
  · intro s hs
    rw [List.mem_singleton.mp hs]
    exact h

/-- Push a value onto a node that is not empty. -/
def push (value : T) (node : Upper T A) : Upper T A :=
  match node with
  | interface inner acc => interface (Lower.new_segment [value] inner) acc
  | branch .. => new_branch [⟨value, node.max_depth, node⟩] none

theorem push_wf {node : Upper T A} (h : node.WF) (value : T) : (push value node).WF := by
  cases node with
  | interface inner acc =>
      cases h with
      | interface hwf => exact WF.interface (Lower.new_segment_has (List.cons_ne_nil _ _) hwf).1
  | branch children empty max_depth => exact new_branch_single_wf h value

variable [SemilatticeSup A]

omit [DecidableEq T] [Sharing] in
theorem give_le_iff {a : A} {present : Bool} {x : WithBot A} :
    give a present ≤ x ↔ (present = true → (a : WithBot A) ≤ x) := by
  cases present with
  | false => exact iff_of_true bot_le fun h => by cases h
  | true => exact ⟨fun h _ => h, fun h => h rfl⟩

theorem acc_push {node : Upper T A} (h : node.WF) (value : T) (stack : List T) (x : WithBot A) :
    acc stack (push value node) ≤ x ↔ ∀ rest, stack = value :: rest → acc rest node ≤ x := by
  cases node with
  | interface inner a =>
      cases h with
      | interface hwf =>
          have hhas := (Lower.new_segment_has (List.cons_ne_nil value []) hwf).2 stack
          simp only [push, acc_interface, give_le_iff, hhas]
          constructor
          · intro hle rest heq hrest
            exact hle ⟨rest, heq, hrest⟩
          · intro hle hstack
            obtain ⟨rest, heq, hrest⟩ := hstack
            exact hle rest heq hrest
  | branch children empty max_depth =>
      rw [push, new_branch]
      cases stack with
      | nil =>
          apply iff_of_true bot_le
          intro rest heq
          cases heq
      | cons v stack =>
          rw [acc_branch_cons, Slot.joined_cons, Slot.joined_nil, sup_bot_eq]
          split_ifs with hv
          · constructor
            · intro hle rest heq
              obtain ⟨-, rfl⟩ := List.cons.inj heq
              exact hle
            · exact fun hle => hle stack (hv ▸ rfl)
          · apply iff_of_true bot_le
            intro rest heq
            exact absurd (List.cons.inj heq).1.symm hv

end Upper

namespace LeveledGSS

def push (g : LeveledGSS T A) (value : T) : LeveledGSS T A :=
  if g.is_empty then g else ⟨Upper.push value g.inner, Upper.push_wf g.wf value⟩

/-- The value is on top of every stack. -/
theorem acc_push_le_iff [Merge A] (g : LeveledGSS T A) (value : T) (stack : List T)
    (x : WithBot A) :
    (g.push value).acc stack ≤ x ↔ ∀ rest, stack = value :: rest → g.acc rest ≤ x := by
  unfold push
  split_ifs with hempty
  · rw [acc_of_is_empty hempty]
    apply iff_of_true bot_le
    intro rest _
    rw [acc_of_is_empty hempty]
    exact bot_le
  · exact Upper.acc_push g.wf value stack x

end LeveledGSS

/-! ## Several words onto one accumulator -/

/-- The segments on top of an interface, as one list of values from the top down. -/
structure VirtualStack (T A : Type) where
  values : List T
  next : Lower T
  acc : A

namespace VirtualStack

/-- The number of values that could not be popped, and what is left. -/
def pop_within : ℕ → List T → Lower T → ℕ × List T × Lower T
  | remaining, values, .general children empty max_depth =>
      (remaining - values.length, values.drop remaining, .general children empty max_depth)
  | remaining, values, .segment below next max_depth segments_len =>
      if remaining ≤ values.length then
        (0, values.drop remaining, .segment below next max_depth segments_len)
      else pop_within (remaining - values.length) below next

/-- Drained values are replaced by those of the next segment. -/
def pop (stack : VirtualStack T A) (n : ℕ) : ℕ × VirtualStack T A :=
  match pop_within n stack.values stack.next with
  | (remaining, [], .segment below next _ _) => (remaining, ⟨below, next, stack.acc⟩)
  | (remaining, values, next) => (remaining, ⟨values, next, stack.acc⟩)

def base (stack : VirtualStack T A) : Lower T :=
  if stack.values.isEmpty then stack.next else Lower.new_segment stack.values stack.next

/-- The last value of a word becomes a value of the new node, if there is one. -/
def branch (base : Lower T) (word : List T) : Option (Slot T (Lower T)) :=
  word.getLast?.map fun top =>
    let child := Lower.push_values base word.dropLast
    ⟨top, child.max_depth, child⟩

/-- The children for the words, which are listed from the bottom up. -/
def push_branches (base : Lower T) : List (List T) → List (Slot T (Lower T)) →
    Option (List (Slot T (Lower T)))
  | [], children => some children
  | word :: pushes, children =>
      match branch base word with
      | none => none
      | some s => push_branches base pushes (Slot.merge Lower.merge_lower children s)

def into_gss_after_popping_and_pushing_branches (stack : VirtualStack T A) (n : ℕ)
    (pushes : List (List T)) : Option (Upper T A) :=
  let popped := stack.pop n
  if popped.1 ≠ 0 then none
  else
    (push_branches popped.2.base pushes []).map fun children =>
      if children.isEmpty then .interface popped.2.base popped.2.acc
      else .interface (Lower.new_lower children false) popped.2.acc

/-- A target that is listed twice is taken once. -/
def push_targets (base : Lower T) (targets : List T) : List (Slot T (Lower T)) :=
  targets.foldl (fun entries target =>
    if entries.any fun e => e.value = target then entries
    else entries ++ [⟨target, base.max_depth, base⟩]) []

def into_gss_after_popping_and_pushing_single_branches (stack : VirtualStack T A) (n : ℕ)
    (targets : List T) : Option (Upper T A) :=
  let popped := stack.pop n
  if popped.1 ≠ 0 then none
  else
    let entries := push_targets popped.2.base targets
    some (if entries.isEmpty then .interface popped.2.base popped.2.acc
      else .interface (Lower.new_lower entries false) popped.2.acc)

omit [DecidableEq T] [Sharing] in
theorem pop_within_wf (remaining : ℕ) (values : List T) {next : Lower T} (h : next.WF) :
    (pop_within remaining values next).2.2.WF := by
  fun_induction pop_within remaining values next with
  | case1 => exact h
  | case2 => exact h
  | case3 remaining values below next max_depth segments_len hlt ih =>
      cases h with
      | segment _ hwf _ _ => exact ih hwf

theorem base_wf {stack : VirtualStack T A} (h : stack.next.WF) : stack.base.WF := by
  unfold base
  split_ifs with hempty
  · exact h
  · exact (Lower.new_segment_has (by simpa using hempty) h).1

omit [DecidableEq T] [Sharing] in
theorem pop_wf {stack : VirtualStack T A} (h : stack.next.WF) (n : ℕ) :
    (stack.pop n).2.next.WF := by
  have hnext := pop_within_wf n stack.values h
  unfold pop
  split
  · rename_i heq
    rw [heq] at hnext
    cases hnext with
    | segment _ hwf _ _ => exact hwf
  · rename_i heq
    rw [heq] at hnext
    exact hnext

omit [DecidableEq T] in
theorem branch_eq_some_iff {base : Lower T} {word : List T} {s : Slot T (Lower T)} :
    branch base word = some s ↔ word = word.dropLast ++ [s.value] ∧
      s.node = Lower.push_values base word.dropLast ∧ s.depth = s.node.max_depth := by
  unfold branch
  constructor
  · intro h
    obtain ⟨top, htop, rfl⟩ := Option.map_eq_some_iff.mp h
    obtain ⟨init, rfl⟩ := List.getLast?_eq_some_iff.mp htop
    refine ⟨?_, rfl, rfl⟩
    rw [List.dropLast_concat]
  · intro h
    obtain ⟨hword, hnode, hdepth⟩ := h
    obtain ⟨value, depth, node⟩ := s
    dsimp only at hword hnode hdepth
    subst hnode hdepth
    have htop : word.getLast? = some value := by
      rw [hword, List.getLast?_concat]
    rw [htop, Option.map_some]

theorem push_branches_eq {base : Lower T} {pushes : List (List T)}
    {children out : List (Slot T (Lower T))} (h : push_branches base pushes children = some out) :
    (∀ word ∈ pushes, ∃ s, branch base word = some s) ∧
      out = Slot.mergeAll Lower.merge_lower children (pushes.filterMap (branch base)) := by
  induction pushes generalizing children with
  | nil =>
      obtain rfl := Option.some.inj h
      exact ⟨(fun _ hword => by cases hword), rfl⟩
  | cons word pushes ih =>
      rw [push_branches] at h
      cases hbranch : branch base word with
      | none =>
          rw [hbranch] at h
          cases h
      | some s =>
          rw [hbranch] at h
          obtain ⟨hsome, rfl⟩ := ih h
          refine ⟨List.forall_mem_cons.mpr ⟨⟨s, hbranch⟩, hsome⟩, ?_⟩
          rw [List.filterMap_cons_some hbranch]
          rfl

/-- What a family of branches stands for: a word, and below it a stack of the base. -/
def Extends (base : Lower T) (pushes : List (List T)) (node : Lower T) : Prop :=
  ∀ stack, node.has stack = true ↔
    ∃ word ∈ pushes, ∃ rest, stack = word.reverse ++ rest ∧ base.has rest = true

omit [Sharing] in
theorem mem_joined_iff {slots : List (Slot T (Lower T))} {v : T} {stack : List T} :
    Slot.joined (Lower.has stack) v slots = true ↔
      ∃ s ∈ slots, s.value = v ∧ s.node.has stack = true := by
  rw [Upper.joined_eq_true_iff, Upper.exists_kids_iff]

/-- A family of branches, put into a node. -/
theorem new_lower_extends {base : Lower T} {pushes : List (List T)}
    {children : List (Slot T (Lower T))} (h : Lower.Family children)
    (hpushes : ∀ word ∈ pushes, word ≠ [])
    (hhas : ∀ v stack, Slot.joined (Lower.has stack) v children = true ↔
      ∃ word ∈ pushes, ∃ rest, v :: stack = word.reverse ++ rest ∧ base.has rest = true) :
    (Lower.new_lower children false).WF ∧ Extends base pushes (Lower.new_lower children false) := by
  obtain ⟨hwf, hchildren, hempty⟩ := Lower.new_lower_spec h false
  refine ⟨hwf, ?_⟩
  intro stack
  cases stack with
  | nil =>
      apply iff_of_false
      · change (Lower.new_lower children false).empty ≠ true
        rw [hempty]
        exact Bool.false_ne_true
      · intro hword
        obtain ⟨word, hword, rest, heq, -⟩ := hword
        have hnil := (List.append_eq_nil_iff.mp heq.symm).1
        exact hpushes word hword (List.reverse_eq_nil_iff.mp hnil)
  | cons v stack => rw [Lower.has_cons, hchildren, hhas]

theorem push_branches_extends {base : Lower T} (hbase : base.WF) {pushes : List (List T)}
    {children : List (Slot T (Lower T))} (h : push_branches base pushes [] = some children) :
    (Lower.new_lower children false).WF ∧
      Extends base pushes (Lower.new_lower children false) ∧ (children = [] → pushes = []) := by
  obtain ⟨hsome, rfl⟩ := push_branches_eq h
  have hmem : ∀ s ∈ pushes.filterMap (branch base), ∃ word ∈ pushes, branch base word = some s :=
    fun s hs => List.mem_filterMap.mp hs
  have hgood : ∀ s ∈ pushes.filterMap (branch base), Lower.Good s.depth s.node := by
    intro s hs
    obtain ⟨word, -, hword⟩ := hmem s hs
    obtain ⟨-, hnode, hdepth⟩ := branch_eq_some_iff.mp hword
    rw [hdepth, hnode]
    exact ⟨(Lower.push_values_has hbase _).1, rfl⟩
  have hjoin : ∀ d (n m : Lower T), Lower.Good d n → Lower.Good d m →
      Lower.Good d (Lower.merge_lower n m) := by
    intro d n m hn hm
    have hmerged := Lower.merge_lower_spec hn.1 hm.1
    exact ⟨hmerged.wf, by rw [hmerged.depth, hn.2, hm.2, max_self]⟩
  have hnone : ∀ s ∈ ([] : List (Slot T (Lower T))), Lower.Good s.depth s.node := fun s hs => by
    cases hs
  have hall := Slot.good_mergeAll hjoin hnone hgood
  have hfamily : Lower.Family (Slot.mergeAll Lower.merge_lower [] (pushes.filterMap (branch base))) :=
    ⟨Slot.Distinct.mergeAll List.nodup_nil, fun s hs => (hall s hs).2, fun s hs => (hall s hs).1⟩
  have hwords : ∀ word ∈ pushes, word ≠ [] := by
    rintro word hword rfl
    obtain ⟨s, hs⟩ := hsome [] hword
    cases hs
  refine (new_lower_extends hfamily hwords ?_).imp id fun hextends => ⟨hextends, ?_⟩
  · intro v stack
    have hmerge := Slot.joined_mergeAll (F := Lower.has stack) (w := v) hjoin
      (fun d n m hn hm => (Lower.merge_lower_spec hn.1 hm.1).has stack) hnone hgood
    rw [hmerge, Slot.joined_nil, bot_sup_eq, mem_joined_iff]
    constructor
    · intro hs
      obtain ⟨s, hs, rfl, hstack⟩ := hs
      obtain ⟨word, hword, hbranch⟩ := hmem s hs
      obtain ⟨heq, hnode, -⟩ := branch_eq_some_iff.mp hbranch
      rw [hnode, (Lower.push_values_has hbase _).2] at hstack
      obtain ⟨rest, rfl, hrest⟩ := hstack
      refine ⟨word, hword, rest, ?_, hrest⟩
      rw [heq, List.reverse_concat, List.dropLast_concat]
      rfl
    · intro hword
      obtain ⟨word, hword, rest, heq, hrest⟩ := hword
      obtain ⟨s, hs⟩ := hsome word hword
      obtain ⟨hlast, hnode, -⟩ := branch_eq_some_iff.mp hs
      rw [hlast, List.reverse_concat, List.cons_append] at heq
      obtain ⟨rfl, rfl⟩ := List.cons.inj heq
      refine ⟨s, List.mem_filterMap.mpr ⟨word, hword, hs⟩, rfl, ?_⟩
      rw [hnode, (Lower.push_values_has hbase _).2]
      exact ⟨rest, rfl, hrest⟩
  · intro hempty
    cases pushes with
    | nil => rfl
    | cons word pushes =>
        obtain ⟨s, hs⟩ := hsome word List.mem_cons_self
        have hkey : s.key ∈ (Slot.mergeAll Lower.merge_lower []
            ((word :: pushes).filterMap (branch base))).map Slot.key := by
          apply Slot.mem_keys_mergeAll.mpr
          right
          exact List.mem_map_of_mem (List.mem_filterMap.mpr ⟨word, List.mem_cons_self, hs⟩)
        rw [hempty] at hkey
        cases hkey

omit [Sharing] in
theorem push_targets_spec (base : Lower T) (targets : List T) :
    ((push_targets base targets).map Slot.value).Nodup ∧
      (∀ s ∈ push_targets base targets, s.node = base ∧ s.depth = base.max_depth) ∧
      ∀ v, v ∈ (push_targets base targets).map Slot.value ↔ v ∈ targets := by
  suffices hfold : ∀ entries : List (Slot T (Lower T)), (entries.map Slot.value).Nodup →
      (∀ s ∈ entries, s.node = base ∧ s.depth = base.max_depth) →
      ((targets.foldl (fun entries target =>
        if entries.any fun e => e.value = target then entries
        else entries ++ [⟨target, base.max_depth, base⟩]) entries).map Slot.value).Nodup ∧
      (∀ s ∈ targets.foldl (fun entries target =>
        if entries.any fun e => e.value = target then entries
        else entries ++ [⟨target, base.max_depth, base⟩]) entries,
          s.node = base ∧ s.depth = base.max_depth) ∧
      ∀ v, v ∈ (targets.foldl (fun entries target =>
        if entries.any fun e => e.value = target then entries
        else entries ++ [⟨target, base.max_depth, base⟩]) entries).map Slot.value ↔
          v ∈ entries.map Slot.value ∨ v ∈ targets by
    obtain ⟨hnodup, hslots, hmem⟩ := hfold [] List.nodup_nil (fun _ hs => by cases hs)
    refine ⟨hnodup, hslots, fun v => (hmem v).trans ?_⟩
    simp
  induction targets with
  | nil => exact fun entries hnodup hslots => ⟨hnodup, hslots, fun v => by simp⟩
  | cons target targets ih =>
      intro entries hnodup hslots
      have hany : (entries.any fun e => e.value = target) = true ↔
          target ∈ entries.map Slot.value := by
        simp [List.any_eq_true]
      rw [List.foldl_cons]
      split_ifs with hold
      · obtain ⟨hnodup', hslots', hmem⟩ := ih entries hnodup hslots
        refine ⟨hnodup', hslots', fun v => (hmem v).trans ?_⟩
        rw [List.mem_cons]
        have htarget := hany.mp hold
        constructor
        · exact fun h => h.imp id Or.inr
        · rintro (h | rfl | h)
          · exact Or.inl h
          · exact Or.inl htarget
          · exact Or.inr h
      · have hnew := fun h => hold (hany.mpr h)
        obtain ⟨hnodup', hslots', hmem⟩ := ih (entries ++ [⟨target, base.max_depth, base⟩])
          (by
            rw [List.map_append, List.map_singleton, ← List.concat_eq_append]
            exact hnodup.concat hnew)
          (fun s hs => by
            obtain hs | hs := List.mem_append.mp hs
            · exact hslots s hs
            · obtain rfl := List.mem_singleton.mp hs
              exact ⟨rfl, rfl⟩)
        refine ⟨hnodup', hslots', fun v => (hmem v).trans ?_⟩
        simp [or_assoc]

theorem push_targets_extends {base : Lower T} (hbase : base.WF) (targets : List T) :
    (Lower.new_lower (push_targets base targets) false).WF ∧
      Extends base (targets.map fun v => [v]) (Lower.new_lower (push_targets base targets) false) ∧
        (push_targets base targets = [] → targets = []) := by
  obtain ⟨hnodup, hslots, hmem⟩ := push_targets_spec base targets
  have hfamily : Lower.Family (push_targets base targets) := by
    refine ⟨?_, ?_, ?_⟩
    · apply List.Nodup.of_map Prod.fst
      rw [List.map_map]
      exact hnodup
    · intro s hs
      rw [(hslots s hs).1, (hslots s hs).2]
    · intro s hs
      rw [(hslots s hs).1]
      exact hbase
  have hwords : ∀ word ∈ targets.map fun v => [v], word ≠ [] := by
    intro word hword
    obtain ⟨v, -, rfl⟩ := List.mem_map.mp hword
    exact List.cons_ne_nil _ _
  refine (new_lower_extends hfamily hwords ?_).imp id fun hextends => ⟨hextends, ?_⟩
  · intro v stack
    rw [mem_joined_iff]
    constructor
    · intro hs
      obtain ⟨s, hs, rfl, hstack⟩ := hs
      rw [(hslots s hs).1] at hstack
      have htarget := (hmem s.value).mp (List.mem_map_of_mem hs)
      exact ⟨[s.value], List.mem_map_of_mem htarget, stack, rfl, hstack⟩
    · intro hword
      obtain ⟨word, hword, rest, heq, hrest⟩ := hword
      obtain ⟨w, hw, rfl⟩ := List.mem_map.mp hword
      obtain ⟨rfl, rfl⟩ := List.cons.inj heq
      obtain ⟨s, hs, rfl⟩ := List.mem_map.mp ((hmem v).mpr hw)
      refine ⟨s, hs, rfl, ?_⟩
      rw [(hslots s hs).1]
      exact hrest
  · intro hempty
    apply List.eq_nil_iff_forall_not_mem.mpr
    intro v hv
    have hvalue := (hmem v).mpr hv
    rw [hempty] at hvalue
    cases hvalue

/-! ## Onto the stacks of an interface -/

theorem into_gss_branches_wf {stack : VirtualStack T A} (h : stack.next.WF) {n : ℕ}
    {pushes : List (List T)} {out : Upper T A}
    (hout : stack.into_gss_after_popping_and_pushing_branches n pushes = some out) : out.WF := by
  unfold into_gss_after_popping_and_pushing_branches at hout
  dsimp only at hout
  split_ifs at hout
  obtain ⟨children, hchildren, rfl⟩ := Option.map_eq_some_iff.mp hout
  have hbase := base_wf (pop_wf h n)
  split_ifs
  · exact Upper.WF.interface hbase
  · exact Upper.WF.interface (push_branches_extends hbase hchildren).1

theorem into_gss_single_branches_wf {stack : VirtualStack T A} (h : stack.next.WF) {n : ℕ}
    {targets : List T} {out : Upper T A}
    (hout : stack.into_gss_after_popping_and_pushing_single_branches n targets = some out) :
    out.WF := by
  unfold into_gss_after_popping_and_pushing_single_branches at hout
  dsimp only at hout
  split_ifs at hout
  all_goals
    obtain rfl := Option.some.inj hout
    have hbase := base_wf (pop_wf h n)
  · exact Upper.WF.interface hbase
  · exact Upper.WF.interface (push_targets_extends hbase targets).1

end VirtualStack

namespace Upper

/-- The interface may end with a node that is not a segment. -/
def try_virtual_stack : Upper T A → Option (VirtualStack T A)
  | interface (.segment values next _ _) acc => some ⟨values, next, acc⟩
  | _ => none

omit [DecidableEq T] [Sharing] in
theorem try_virtual_stack_eq {node : Upper T A} {stack : VirtualStack T A}
    (h : node.try_virtual_stack = some stack) : ∃ max_depth segments_len,
      node = interface (.segment stack.values stack.next max_depth segments_len) stack.acc := by
  unfold try_virtual_stack at h
  split at h
  · obtain rfl := Option.some.inj h
    exact ⟨_, _, rfl⟩
  · cases h

omit [DecidableEq T] [Sharing] in
theorem try_virtual_stack_wf {node : Upper T A} (h : node.WF) {stack : VirtualStack T A}
    (hstack : node.try_virtual_stack = some stack) : stack.next.WF := by
  obtain ⟨max_depth, segments_len, rfl⟩ := try_virtual_stack_eq hstack
  cases h with
  | interface hwf =>
      cases hwf with
      | segment _ hnext _ _ => exact hnext

end Upper

namespace LeveledGSS

/-- Whether the top is an interface, whose lower node has an address. -/
def single_interface (g : LeveledGSS T A) : Bool := g.inner.interface?.isSome

def apply_shared_pop_push_branches (g : LeveledGSS T A) (pop : ℕ) (pushes : List (List T)) :
    Option (LeveledGSS T A) :=
  match hstack : g.inner.try_virtual_stack with
  | none => none
  | some stack =>
      match hout : stack.into_gss_after_popping_and_pushing_branches pop pushes with
      | none => none
      | some out => some ⟨out, VirtualStack.into_gss_branches_wf
          (Upper.try_virtual_stack_wf g.wf hstack) hout⟩

def apply_shared_pop_push_single_branches (g : LeveledGSS T A) (pop : ℕ) (targets : List T) :
    Option (LeveledGSS T A) :=
  match hstack : g.inner.try_virtual_stack with
  | none => none
  | some stack =>
      match hout : stack.into_gss_after_popping_and_pushing_single_branches pop targets with
      | none => none
      | some out => some ⟨out, VirtualStack.into_gss_single_branches_wf
          (Upper.try_virtual_stack_wf g.wf hstack) hout⟩

variable [Merge A]

/-- The stacks of `g` below the words, with their accumulators. -/
def Pushed (g : LeveledGSS T A) (pushes : List (List T)) (out : LeveledGSS T A) : Prop :=
  ∀ stack x, out.acc stack ≤ x ↔
    ∀ word ∈ pushes, ∀ rest, stack = word.reverse ++ rest → g.acc rest ≤ x

omit [Sharing] in
theorem pushed_of_extends {g out : LeveledGSS T A} {inner base node : Lower T} {a : A}
    {pushes : List (List T)} (hg : g.inner = .interface inner a)
    (hout : out.inner = .interface node a)
    (hbase : ∀ stack, base.has stack = inner.has stack)
    (h : VirtualStack.Extends base pushes node) : g.Pushed pushes out := by
  intro stack x
  simp only [acc, hg, hout, Upper.acc_interface, Upper.give_le_iff, h stack, hbase]
  constructor
  · intro hle word hword rest heq hrest
    exact hle ⟨word, hword, rest, heq, hrest⟩
  · intro hle hword
    obtain ⟨word, hword, rest, heq, hrest⟩ := hword
    exact hle word hword rest heq hrest

omit [Merge A] in
/-- Without popping the values stay on the stack. -/
theorem pop_zero_base {values : List T} {next : Lower T} {max_depth segments_len : ℕ}
    (h : (Lower.segment values next max_depth segments_len).WF) (a : A) :
    (VirtualStack.pop ⟨values, next, a⟩ 0).1 = 0 ∧
      (VirtualStack.pop ⟨values, next, a⟩ 0).2.acc = a ∧
      (VirtualStack.pop ⟨values, next, a⟩ 0).2.base.WF ∧
      ∀ stack, (VirtualStack.pop ⟨values, next, a⟩ 0).2.base.has stack =
        (Lower.segment values next max_depth segments_len).has stack := by
  cases h with
  | segment hne hwf hdepth hlength =>
      have hwithin : VirtualStack.pop_within 0 values next = (0, values, next) := by
        unfold VirtualStack.pop_within
        cases next <;> simp
      have hpop : VirtualStack.pop ⟨values, next, a⟩ 0 = (0, ⟨values, next, a⟩) := by
        unfold VirtualStack.pop
        dsimp only
        rw [hwithin]
        cases values with
        | nil => exact absurd rfl hne
        | cons v values => rfl
      have hbase : (VirtualStack.mk values next a).base = Lower.new_segment values next := by
        rw [VirtualStack.base, if_neg (by simpa using hne)]
      obtain ⟨hnew, hhas⟩ := Lower.new_segment_has hne hwf
      rw [hpop, hbase]
      refine ⟨rfl, rfl, hnew, ?_⟩
      intro stack
      rw [Bool.eq_iff_iff, hhas, Lower.has_segment hne]

theorem apply_shared_pop_push_branches_pushed {g out : LeveledGSS T A} {pushes : List (List T)}
    (hne : pushes ≠ []) (h : g.apply_shared_pop_push_branches 0 pushes = some out) :
    g.Pushed pushes out := by
  unfold apply_shared_pop_push_branches at h
  split at h
  · cases h
  · rename_i stack hstack
    split at h
    · cases h
    · rename_i node hnode
      obtain rfl := Option.some.inj h
      obtain ⟨max_depth, segments_len, hinner⟩ := Upper.try_virtual_stack_eq hstack
      have hwf := g.wf
      rw [hinner] at hwf
      cases hwf with
      | interface hsegment =>
          obtain ⟨hremaining, hacc, hbase, hhas⟩ := pop_zero_base hsegment stack.acc
          unfold VirtualStack.into_gss_after_popping_and_pushing_branches at hnode
          dsimp only at hnode
          rw [if_neg (not_not.mpr hremaining)] at hnode
          obtain ⟨children, hchildren, hnode⟩ := Option.map_eq_some_iff.mp hnode
          obtain ⟨-, hextends, hempty⟩ := VirtualStack.push_branches_extends hbase hchildren
          rw [if_neg (fun hnil => hne (hempty (List.isEmpty_iff.mp hnil))), hacc] at hnode
          exact pushed_of_extends hinner hnode.symm hhas hextends

theorem apply_shared_pop_push_single_branches_pushed {g out : LeveledGSS T A} {targets : List T}
    (hne : targets ≠ []) (h : g.apply_shared_pop_push_single_branches 0 targets = some out) :
    g.Pushed (targets.map fun v => [v]) out := by
  unfold apply_shared_pop_push_single_branches at h
  split at h
  · cases h
  · rename_i stack hstack
    split at h
    · cases h
    · rename_i node hnode
      obtain rfl := Option.some.inj h
      obtain ⟨max_depth, segments_len, hinner⟩ := Upper.try_virtual_stack_eq hstack
      have hwf := g.wf
      rw [hinner] at hwf
      cases hwf with
      | interface hsegment =>
          obtain ⟨hremaining, hacc, hbase, hhas⟩ := pop_zero_base hsegment stack.acc
          unfold VirtualStack.into_gss_after_popping_and_pushing_single_branches at hnode
          dsimp only at hnode
          rw [if_neg (not_not.mpr hremaining)] at hnode
          obtain ⟨-, hextends, hempty⟩ := VirtualStack.push_targets_extends hbase targets
          have hnode := Option.some.inj hnode
          rw [if_neg (fun hnil => hne (hempty (List.isEmpty_iff.mp hnil))), hacc] at hnode
          exact pushed_of_extends hinner hnode.symm hhas hextends

/-- Pushing one value, as pushing one word. -/
theorem push_pushed (g : LeveledGSS T A) (value : T) : g.Pushed [[value]] (g.push value) := by
  intro stack x
  rw [acc_push_le_iff]
  constructor
  · intro hle word hword rest heq
    obtain rfl := List.mem_singleton.mp hword
    exact hle rest heq
  · intro hle rest heq
    exact hle [value] List.mem_cons_self rest heq

end LeveledGSS

end GlrMask
