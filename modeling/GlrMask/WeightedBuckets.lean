import GlrMask.AcyclicHeights
import GlrMask.Dwa
import GlrMask.PointwiseColoring

/-!
# Height buckets of a weighted automaton

The states of an acyclic automaton are merged bucket by bucket, from the lowest
height up. Within a bucket the states are split into classes of equal states, the
classes are coloured, and the states of one colour become one merged state.
-/

namespace GlrMask

namespace Pointwise

/-- The new number of each old state that has been merged already. -/
abbrev OldToNew := List (Option ℕ)

def mapped_target (old_to_new : OldToNew) (target : ℕ) : Option ℕ := (old_to_new[target]?).join

section States

variable (dwa : DWA) (needed : List Weight)

/-- The entries of a state's transitions, in the order of their labels. -/
def transitions_of (state : ℕ) : List (Label × ℕ × Weight) :=
  ((dwa.states[state]?).map fun state => state.transitions.entries).getD []

def needed_of (state : ℕ) : Weight := needed.getD state Weight.empty

/-- The transitions of a state to states in range from which something is accepted. -/
def productive_transitions (state : ℕ) : List (Label × ℕ × Weight) :=
  (transitions_of dwa state).filter fun t =>
    t.2.1 < dwa.states.length && !(needed_of needed t.2.1).is_empty

/-! ## Classes -/

/-- What is hashed and compared of a state, before its targets are known to be productive. -/
def raw_signature (old_to_new : OldToNew) (state : ℕ) :
    Option Weight × List (Label × Option ℕ × Weight) :=
  (dwa.final state, (transitions_of dwa state).map fun t =>
    (t.1, mapped_target old_to_new t.2.1, t.2.2))

def states_raw_equal (old_to_new : OldToNew) (u v : ℕ) : Bool :=
  raw_signature dwa old_to_new u = raw_signature dwa old_to_new v

/-- Put an index into the first subgroup whose first state is equal, or into one of its own. -/
def split_group (candidates : List ℕ) (old_to_new : OldToNew) (group : List ℕ) : List (List ℕ) :=
  (FirstFit.group (fun sub idx => states_raw_equal dwa old_to_new (candidates.getD idx 0)
      (candidates.getD (sub.headD 0) 0))
    (fun sub idx (state : Unit) => (sub ++ [idx], state)) (fun idx state => ([idx], state)) group ()).1

/-- The indices by the hash of their states. -/
def hash_groups (hash : Option Weight × List (Label × Option ℕ × Weight) → ℕ)
    (candidates : List ℕ) (old_to_new : OldToNew) : List (List ℕ) :=
  let hashes := candidates.map fun c => hash (raw_signature dwa old_to_new c)
  hashes.dedup.map fun sig =>
    (List.range candidates.length).filter fun idx => hashes[idx]? = some sig

/-- The classes of equal states; the groups of a hash map come in any order. -/
def raw_classes [Runtime] (hash : Option Weight × List (Label × Option ℕ × Weight) → ℕ)
    (candidates : List ℕ) (old_to_new : OldToNew) : List (List ℕ) :=
  (Runtime.reorder (hash_groups dwa hash candidates old_to_new)).flatMap
    (split_group dwa candidates old_to_new)

def partition_refine_coloring_raw [Runtime]
    (hash : Option Weight × List (Label × Option ℕ × Weight) → ℕ) (candidates : List ℕ)
    (old_to_new : OldToNew) : List ℕ :=
  colors_of (raw_classes dwa hash candidates old_to_new) candidates.length

def build_class_profile (rep : ℕ) (old_to_new : OldToNew) : ClassProfile Weight :=
  ⟨(productive_transitions dwa needed rep).filterMap fun t =>
      (mapped_target old_to_new t.2.1).map fun mapped => (t.1, mapped),
    (productive_transitions dwa needed rep).map fun t => (t.1, t.2.2), dwa.final rep⟩

/-- The states of a class, in the order of the candidates. -/
def class_members (candidates class_coloring : List ℕ) (c : ℕ) : List ℕ :=
  ((candidates.zip class_coloring).filter fun e => e.2 = c).map Prod.fst

/-- The domain and the profile of each class; the first state of a class stands for it. -/
def class_inputs (candidates class_coloring : List ℕ) (old_to_new : OldToNew) :
    List (Weight × ClassProfile Weight) :=
  let num_classes := (class_coloring.map (· + 1)).foldl max 0
  (List.range num_classes).map fun c =>
    let members := class_members candidates class_coloring c
    (members.foldl (fun union state => union.union (needed_of needed state)) Weight.empty,
      build_class_profile dwa needed (members.headD dwa.states.length) old_to_new)

end States

/-! ## Equal states -/

section Classes

variable {dwa : DWA} {old_to_new : OldToNew} {candidates : List ℕ}

/-- A subgroup of equal states has an equal first state. -/
def EqualSub (dwa : DWA) (old_to_new : OldToNew) (candidates sub members : List ℕ) : Prop :=
  sub = members ∧ ∀ i ∈ sub, ∀ j ∈ sub, raw_signature dwa old_to_new (candidates.getD i 0) =
    raw_signature dwa old_to_new (candidates.getD j 0)

theorem split_group_spec (group : List ℕ) :
    (split_group dwa candidates old_to_new group).flatten.Perm group ∧
      ∀ sub ∈ split_group dwa candidates old_to_new group, ∀ i ∈ sub, ∀ j ∈ sub,
        raw_signature dwa old_to_new (candidates.getD i 0) =
          raw_signature dwa old_to_new (candidates.getD j 0) := by
  have hkeeps : FirstFit.Keeps (fun sub idx => states_raw_equal dwa old_to_new
        (candidates.getD idx 0) (candidates.getD (sub.headD 0) 0))
      (fun sub idx (state : Unit) => (sub ++ [idx], state)) (fun idx state => ([idx], state))
      (fun state => state = ()) (fun _ _ => True) (fun _ => True)
      (fun _ sub members => sub ≠ [] ∧ EqualSub dwa old_to_new candidates sub members) := by
    refine ⟨fun _ h => h, ?_, ?_⟩
    · intro _ idx _ _
      refine ⟨rfl, trivial, by simp, rfl, ?_⟩
      intro i hi j hj
      rw [List.mem_singleton.mp hi, List.mem_singleton.mp hj]
    · intro _ sub members idx _ _ hsub haccept
      obtain ⟨hne, rfl, hequal⟩ := hsub
      obtain ⟨first, rest, rfl⟩ := List.exists_cons_of_ne_nil hne
      have hidx : raw_signature dwa old_to_new (candidates.getD idx 0) =
          raw_signature dwa old_to_new (candidates.getD first 0) := of_decide_eq_true haccept
      have hfirst : ∀ i ∈ first :: rest ++ [idx], raw_signature dwa old_to_new
          (candidates.getD i 0) = raw_signature dwa old_to_new (candidates.getD first 0) := by
        intro i hi
        obtain hi | hi := List.mem_append.mp hi
        · exact hequal i hi first List.mem_cons_self
        · rw [List.mem_singleton.mp hi]
          exact hidx
      refine ⟨rfl, trivial, by simp, rfl, ?_⟩
      intro i hi j hj
      rw [hfirst i hi, hfirst j hj]
  have hspec := FirstFit.group_spec hkeeps (fun _ (_ : _ ∈ group) => trivial)
    (rfl : () = ())
  obtain ⟨-, members, hholds, hperm⟩ := hspec
  have hsame : split_group dwa candidates old_to_new group = members := by
    rw [← List.forall₂_eq_eq_eq]
    exact hholds.imp fun _ _ hsub => hsub.2.1
  refine ⟨hsame ▸ hperm, ?_⟩
  intro sub hsub
  obtain ⟨_, _, hequal⟩ := exists_of_forall₂ hholds.flip hsub
  exact hequal.2.2

section Raw

variable (hash : Option Weight × List (Label × Option ℕ × Weight) → ℕ)

theorem hash_groups_perm :
    (hash_groups dwa hash candidates old_to_new).flatten.Perm (List.range candidates.length) := by
  unfold hash_groups
  dsimp only
  generalize hhashes : candidates.map (fun c => hash (raw_signature dwa old_to_new c)) = hashes
  have hlength : hashes.length = candidates.length := by
    rw [← hhashes, List.length_map]
  apply (List.perm_ext_iff_of_nodup _ List.nodup_range).mpr
  · intro idx
    simp only [List.mem_flatten, List.mem_map, List.mem_dedup, exists_exists_and_eq_and,
      List.mem_filter, List.mem_range, decide_eq_true_eq]
    constructor
    · intro hex
      obtain ⟨sig, -, hlt, -⟩ := hex
      exact hlt
    · intro hlt
      rw [← hlength] at hlt
      exact ⟨hashes[idx], List.getElem_mem hlt, hlength ▸ hlt, List.getElem?_eq_getElem hlt⟩
  · rw [List.nodup_flatten, List.pairwise_map]
    refine ⟨?_, ?_⟩
    · intro group hgroup
      obtain ⟨sig, -, rfl⟩ := List.mem_map.mp hgroup
      exact List.nodup_range.filter _
    · apply (List.nodup_dedup hashes).imp
      intro sig sig' hne idx hidx hidx'
      have hsig := of_decide_eq_true (List.mem_filter.mp hidx).2
      have hsig' := of_decide_eq_true (List.mem_filter.mp hidx').2
      exact hne (Option.some.inj (hsig.symm.trans hsig'))

variable (dwa old_to_new candidates) in
theorem raw_classes_spec [Runtime] :
    (raw_classes dwa hash candidates old_to_new).flatten.Perm (List.range candidates.length) ∧
      ∀ members ∈ raw_classes dwa hash candidates old_to_new, ∀ i ∈ members, ∀ j ∈ members,
        raw_signature dwa old_to_new (candidates.getD i 0) =
          raw_signature dwa old_to_new (candidates.getD j 0) := by
  refine ⟨?_, ?_⟩
  · have hsplit : ∀ groups : List (List ℕ),
        (groups.flatMap (split_group dwa candidates old_to_new)).flatten.Perm groups.flatten := by
      intro groups
      induction groups with
      | nil => exact List.Perm.refl _
      | cons group groups ih =>
          rw [List.flatMap_cons, List.flatten_append, List.flatten_cons]
          exact (split_group_spec group).1.append ih
    refine (hsplit _).trans ?_
    exact (Runtime.reorder_perm _).flatten.trans (hash_groups_perm hash)
  · intro members hmembers
    obtain ⟨group, -, hsub⟩ := List.mem_flatMap.mp hmembers
    exact (split_group_spec group).2 members hsub

theorem length_colors_of (groups : List (List ℕ)) (length : ℕ) :
    (colors_of groups length).length = length := by
  have hset : ∀ (l : List (ℕ × ℕ)) (map : List ℕ),
      (l.foldl (fun map e => map.set e.1 e.2) map).length = map.length := by
    intro l
    induction l with
    | nil => exact fun _ => rfl
    | cons e l ih =>
        intro map
        rw [List.foldl_cons, ih, List.length_set]
  unfold colors_of
  generalize hcolors : List.replicate length 0 = colors
  have hlength : colors.length = length := by
    rw [← hcolors, List.length_replicate]
  clear hcolors
  induction groups.zipIdx generalizing colors with
  | nil => exact hlength
  | cons group groups ih =>
      apply ih
      have hfold := hset (group.1.map fun idx => (idx, group.2)) colors
      rw [List.foldl_map] at hfold
      exact hfold.trans hlength

/-- Candidates of one class are equal. -/
theorem partition_refine_coloring_raw_spec [Runtime] :
    (partition_refine_coloring_raw dwa hash candidates old_to_new).length = candidates.length ∧
      ∀ i j c, (partition_refine_coloring_raw dwa hash candidates old_to_new)[i]? = some c →
        (partition_refine_coloring_raw dwa hash candidates old_to_new)[j]? = some c →
          raw_signature dwa old_to_new (candidates.getD i 0) =
            raw_signature dwa old_to_new (candidates.getD j 0) := by
  have hlength := length_colors_of (raw_classes dwa hash candidates old_to_new) candidates.length
  obtain ⟨hperm, hequal⟩ := raw_classes_spec dwa old_to_new candidates hash
  -- the colour of an index is the number of its class
  have hclass : ∀ i c, (partition_refine_coloring_raw dwa hash candidates old_to_new)[i]? = some c →
      ∃ members : List ℕ,
        (raw_classes dwa hash candidates old_to_new)[c]? = some members ∧ i ∈ members := by
    intro i c hi
    have hlt : i < candidates.length := hlength ▸ (List.getElem?_eq_some_iff.mp hi).1
    obtain ⟨members, hmembers, hmem⟩ := List.mem_flatten.mp
      (hperm.symm.subset (List.mem_range.mpr hlt))
    obtain ⟨id, hid⟩ := List.mem_iff_getElem?.mp hmembers
    obtain rfl : id = c := Option.some.inj ((colors_of_spec hperm hid hmem).symm.trans hi)
    exact ⟨members, hid, hmem⟩
  refine ⟨hlength, ?_⟩
  intro i j c hi hj
  obtain ⟨members, hmembers, hmem⟩ := hclass i c hi
  obtain ⟨members', hmembers', hmem'⟩ := hclass j c hj
  obtain rfl : members = members' := Option.some.inj (hmembers.symm.trans hmembers')
  exact hequal members (List.mem_of_getElem? hmembers) i hmem j hmem'

end Raw

end Classes

/-! ## Points of a state -/

/-- The weights of a state are within what the state needs, and those of its transitions within what
their targets need. -/
structure BackwardPushed (dwa : DWA) (needed : List Weight) : Prop where
  final : ∀ state weight, dwa.final state = some weight → ∀ p ∈ weight, p ∈ needed_of needed state
  source : ∀ state label target weight, (label, target, weight) ∈ transitions_of dwa state →
    target < dwa.states.length → ∀ p ∈ weight, p ∈ needed_of needed state
  target : ∀ state label target weight, (label, target, weight) ∈ transitions_of dwa state →
    target < dwa.states.length → ∀ p ∈ weight, p ∈ needed_of needed target

def debug_assert_pushed_weights_within_needed (dwa : DWA) (needed : List Weight) : Bool :=
  dwa.states.length = needed.length && (List.range dwa.states.length).all fun state_id =>
    (dwa.final state_id).all (·.is_subset (needed_of needed state_id)) &&
      (transitions_of dwa state_id).all fun t => dwa.states.length ≤ t.2.1 ||
        (t.2.2.is_subset (needed_of needed state_id) && t.2.2.is_subset (needed_of needed t.2.1))

/-- A point of the final weight of a state. -/
def StateFinal (dwa : DWA) (state : ℕ) (p : Point) : Prop := ∃ weight ∈ dwa.final state, p ∈ weight

/-- A point of the weight of a state's transition to a state in range. -/
def StateCarries (dwa : DWA) (state : ℕ) (label : Label) (target : ℕ) (p : Point) : Prop :=
  target < dwa.states.length ∧ ∃ weight, (label, target, weight) ∈ transitions_of dwa state ∧ p ∈ weight

/-- A point at which a state has a transition to a merged state. -/
def StateSteps (dwa : DWA) (old_to_new : OldToNew) (state : ℕ) (label : Label) (mapped : ℕ)
    (p : Point) : Prop :=
  ∃ target, StateCarries dwa state label target p ∧ mapped_target old_to_new target = some mapped

section States

variable {dwa : DWA} {needed : List Weight} {old_to_new : OldToNew} {state : ℕ} {label : Label}
  {target mapped : ℕ} {weight : Weight} {p : Point}

theorem transitions_of_eq_nil (h : dwa.states.length ≤ state) : transitions_of dwa state = [] := by
  rw [transitions_of, List.getElem?_eq_none h]
  rfl

theorem backwardPushed_of_assert
    (h : debug_assert_pushed_weights_within_needed dwa needed = true) : BackwardPushed dwa needed := by
  simp only [debug_assert_pushed_weights_within_needed, Bool.and_eq_true, List.all_eq_true,
    List.mem_range, Bool.or_eq_true, decide_eq_true_eq, Weight.is_subset_iff] at h
  have hedge : ∀ state label target weight, (label, target, weight) ∈ transitions_of dwa state →
      target < dwa.states.length →
        ∀ p ∈ weight, p ∈ needed_of needed state ∧ p ∈ needed_of needed target := by
    intro state label target weight hmem hlt p hp
    have hstate : state < dwa.states.length := by
      by_contra hge
      rw [transitions_of_eq_nil (not_lt.mp hge)] at hmem
      cases hmem
    obtain hle | hsubset := (h.2 state hstate).2 _ hmem
    · exact absurd hlt (not_lt.mpr hle)
    · exact ⟨hsubset.1 p hp, hsubset.2 p hp⟩
  refine ⟨?_, ?_, ?_⟩
  · intro state weight hfinal p hp
    have hstate : state < dwa.states.length := by
      obtain ⟨s, hs, -⟩ := Option.bind_eq_some_iff.mp hfinal
      exact (List.getElem?_eq_some_iff.mp hs).1
    have hsubset := (h.2 state hstate).1
    rw [hfinal, Option.all_some, Weight.is_subset_iff] at hsubset
    exact hsubset p hp
  · intro state label target weight hmem hlt p hp
    exact (hedge state label target weight hmem hlt p hp).1
  · intro state label target weight hmem hlt p hp
    exact (hedge state label target weight hmem hlt p hp).2

theorem lt_of_mapped (h : mapped_target old_to_new target = some mapped) :
    target < old_to_new.length := by
  exact (List.getElem?_eq_some_iff.mp (Option.join_eq_some_iff.mp h)).1

/-- The steps of a state are read off its signature. -/
theorem stateSteps_iff (hlength : old_to_new.length = dwa.states.length) :
    StateSteps dwa old_to_new state label mapped p ↔ ∃ weight,
      (label, some mapped, weight) ∈ (raw_signature dwa old_to_new state).2 ∧ p ∈ weight := by
  constructor
  · intro hstep
    obtain ⟨target, ⟨-, weight, hmem, hp⟩, hmapped⟩ := hstep
    refine ⟨weight, List.mem_map.mpr ⟨_, hmem, ?_⟩, hp⟩
    rw [hmapped]
  · intro hex
    obtain ⟨weight, hmem, hp⟩ := hex
    obtain ⟨t, ht, he⟩ := List.mem_map.mp hmem
    obtain ⟨rfl, he'⟩ := Prod.mk.inj he
    obtain ⟨hmapped, rfl⟩ := Prod.mk.inj he'
    exact ⟨t.2.1, ⟨hlength ▸ lt_of_mapped hmapped, t.2.2, ht, hp⟩, hmapped⟩

/-- Equal states have the same points. -/
theorem final_of_raw_eq {u v : ℕ}
    (h : raw_signature dwa old_to_new u = raw_signature dwa old_to_new v) :
    StateFinal dwa u p ↔ StateFinal dwa v p := by
  have hfinal : dwa.final u = dwa.final v := congrArg Prod.fst h
  unfold StateFinal
  rw [hfinal]

theorem steps_of_raw_eq (hlength : old_to_new.length = dwa.states.length) {u v : ℕ}
    (h : raw_signature dwa old_to_new u = raw_signature dwa old_to_new v) :
    StateSteps dwa old_to_new u label mapped p ↔ StateSteps dwa old_to_new v label mapped p := by
  rw [stateSteps_iff hlength, stateSteps_iff hlength, h]

theorem transitions_nodup (dwa : DWA) (state : ℕ) :
    ((transitions_of dwa state).map Prod.fst).Nodup := by
  unfold transitions_of
  cases dwa.states[state]? with
  | none => exact List.nodup_nil
  | some s =>
      exact (List.pairwise_map.mpr s.transitions.sorted).imp fun hlt => ne_of_lt hlt

theorem mem_productive :
    (label, target, weight) ∈ productive_transitions dwa needed state ↔
      (label, target, weight) ∈ transitions_of dwa state ∧ target < dwa.states.length ∧
        needed_of needed target ≠ Weight.empty := by
  rw [productive_transitions, List.mem_filter, Bool.and_eq_true, decide_eq_true_eq,
    Bool.not_eq_true', ← Bool.not_eq_true, Weight.is_empty_iff]

/-- A transition that carries a point is productive. -/
theorem productive_of_mem (h : BackwardPushed dwa needed)
    (hmem : (label, target, weight) ∈ transitions_of dwa state) (hlt : target < dwa.states.length)
    (hp : p ∈ weight) : (label, target, weight) ∈ productive_transitions dwa needed state := by
  refine mem_productive.mpr ⟨hmem, hlt, ?_⟩
  intro hempty
  have hneeded := h.target state label target weight hmem hlt p hp
  rw [hempty] at hneeded
  exact Weight.not_mem_empty hneeded

theorem productive_nodup (dwa : DWA) (needed : List Weight) (state : ℕ) :
    ((productive_transitions dwa needed state).map Prod.fst).Nodup :=
  (transitions_nodup dwa state).sublist (List.filter_sublist.map Prod.fst)

theorem productive_unique {target' : ℕ} {weight' : Weight}
    (h : (label, target, weight) ∈ productive_transitions dwa needed state)
    (h' : (label, target', weight') ∈ productive_transitions dwa needed state) :
    target = target' ∧ weight = weight' := by
  have he := List.inj_on_of_nodup_map (productive_nodup dwa needed state) h h' rfl
  obtain ⟨-, he⟩ := Prod.mk.inj he
  exact Prod.mk.inj he

end States

/-! ## Classes with shared weights -/

section Inputs

variable {heap : ℕ → TokenSet} {dwa : DWA} {needed : List Weight} {old_to_new : OldToNew}

/-- The profile with the weights themselves. -/
def ClassProfile.erase (profile : ClassProfile (SharedWeight heap)) : ClassProfile Weight :=
  ⟨profile.targets, profile.weights.map fun e => (e.1, e.2.weight), profile.final_weight.map (·.weight)⟩

variable {profile : ClassProfile (SharedWeight heap)} {rep : ℕ} {label : Label} {mapped : ℕ}
  {p : Point}

theorem targets_of_build (h : profile.erase = build_class_profile dwa needed rep old_to_new) :
    profile.targets = (productive_transitions dwa needed rep).filterMap fun t =>
      (mapped_target old_to_new t.2.1).map fun mapped => (t.1, mapped) :=
  congrArg ClassProfile.targets h

theorem labels_of_build (h : profile.erase = build_class_profile dwa needed rep old_to_new) :
    (profile.targets.map Prod.fst).Nodup := by
  have hsub : ∀ l : List (Label × ℕ × Weight), ((l.filterMap fun t =>
      (mapped_target old_to_new t.2.1).map fun mapped => (t.1, mapped)).map Prod.fst).Sublist
        (l.map Prod.fst) := by
    intro l
    induction l with
    | nil => exact List.Sublist.refl _
    | cons t l ih =>
        rw [List.filterMap_cons]
        cases mapped_target old_to_new t.2.1 with
        | none => exact ih.cons _
        | some mapped => exact ih.cons_cons _
  rw [targets_of_build h]
  exact (productive_nodup dwa needed rep).sublist (hsub _)

/-- The target of a label in a profile is where its productive transition leads. -/
theorem target_of_build_iff (h : profile.erase = build_class_profile dwa needed rep old_to_new) :
    profile_target_for_label profile label = some mapped ↔ ∃ target weight,
      (label, target, weight) ∈ productive_transitions dwa needed rep ∧
        mapped_target old_to_new target = some mapped := by
  rw [profile_target_for_label, lookup_iff_mem (labels_of_build h), targets_of_build h,
    List.mem_filterMap]
  constructor
  · intro hex
    obtain ⟨t, ht, hmap⟩ := hex
    obtain ⟨m, hm, he⟩ := Option.map_eq_some_iff.mp hmap
    obtain ⟨rfl, rfl⟩ := Prod.mk.inj he
    exact ⟨t.2.1, t.2.2, ht, hm⟩
  · intro hex
    obtain ⟨target, weight, hmem, hm⟩ := hex
    refine ⟨_, hmem, ?_⟩
    rw [hm, Option.map_some]

theorem weights_of_build_iff (h : profile.erase = build_class_profile dwa needed rep old_to_new) :
    (∃ weight, (label, weight) ∈ profile.weights ∧ p ∈ weight.weight) ↔ ∃ target weight,
      (label, target, weight) ∈ productive_transitions dwa needed rep ∧ p ∈ weight := by
  have hweights : profile.weights.map (fun e => (e.1, e.2.weight)) =
      (productive_transitions dwa needed rep).map fun t => (t.1, t.2.2) :=
    congrArg ClassProfile.weights h
  constructor
  · intro hex
    obtain ⟨weight, hmem, hp⟩ := hex
    have hmap := List.mem_map_of_mem (f := fun e : Label × SharedWeight heap => (e.1, e.2.weight)) hmem
    rw [hweights] at hmap
    obtain ⟨t, ht, he⟩ := List.mem_map.mp hmap
    obtain ⟨rfl, he⟩ := Prod.mk.inj he
    exact ⟨t.2.1, t.2.2, ht, he ▸ hp⟩
  · intro hex
    obtain ⟨target, weight, hmem, hp⟩ := hex
    have hmap := List.mem_map_of_mem (f := fun t : Label × ℕ × Weight => (t.1, t.2.2)) hmem
    rw [← hweights] at hmap
    obtain ⟨e, hentry, he⟩ := List.mem_map.mp hmap
    obtain ⟨rfl, rfl⟩ := Prod.mk.inj he
    exact ⟨e.2, hentry, hp⟩

/-- The points of a profile are those of the state that it was built from. -/
theorem final_of_build (h : profile.erase = build_class_profile dwa needed rep old_to_new) :
    profile.Final p ↔ StateFinal dwa rep p := by
  have hfinal : profile.final_weight.map (·.weight) = dwa.final rep :=
    congrArg ClassProfile.final_weight h
  unfold ClassProfile.Final StateFinal
  rw [← hfinal]
  cases profile.final_weight with
  | none => simp
  | some weight => simp

theorem steps_of_build (hpushed : BackwardPushed dwa needed)
    (h : profile.erase = build_class_profile dwa needed rep old_to_new) :
    profile.Steps label mapped p ↔ StateSteps dwa old_to_new rep label mapped p := by
  rw [ClassProfile.Steps, target_of_build_iff h, weights_of_build_iff h]
  constructor
  · intro hand
    obtain ⟨⟨target, weight, hmem, hmapped⟩, target', weight', hmem', hp⟩ := hand
    obtain ⟨rfl, rfl⟩ := productive_unique hmem hmem'
    obtain ⟨ht, hlt, -⟩ := mem_productive.mp hmem
    exact ⟨target, ⟨hlt, weight, ht, hp⟩, hmapped⟩
  · intro hex
    obtain ⟨target, ⟨hlt, weight, hmem, hp⟩, hmapped⟩ := hex
    have hprod := productive_of_mem hpushed hmem hlt hp
    exact ⟨⟨target, weight, hprod, hmapped⟩, target, weight, hprod, hp⟩

end Inputs

end Pointwise

end GlrMask
