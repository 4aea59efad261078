import GlrMask.WeightedBuckets

/-!
# Coloured buckets

The states of a bucket are coloured by their classes, and each colour becomes one
merged state. States of one colour agree wherever both of their classes need
something, and the merged state has exactly the weights of the states of its
colour, whether it is read off a group or the states are merged one by one.
-/

namespace GlrMask

namespace Pointwise

/-! ## The bucket loop -/

section Loop

variable (dwa : DWA)

/-- The states of one height that are reachable and need something. -/
def states_by_height (needed : List Weight) (h : ℕ) : List ℕ :=
  let heights := nodeHeights dwa.targets dwa.states.length
    (releaseOrder dwa.targets dwa.states.length)
  let reachable_from_start := reachableFrom dwa.targets dwa.states.length dwa.start_state
  (List.range dwa.states.length).filter fun id =>
    reachable_from_start.getD id false && !(needed_of needed id).is_empty && heights.getD id 0 = h

structure PointwiseSettings where
  tsid_ranges_enabled : Bool
  auto_enabled : Bool
  overlay_slots : ℕ
  direct_reconstruct : Bool
  direct_overlay_slots : ℕ
  class_order : PointwiseClassOrder
  monotone_pointwise : Bool

def HybridColoring.ordinary (coloring : List ℕ) : HybridColoring := ⟨coloring, none⟩

def pointwise_coloring [Allocator] {heap : ℕ → TokenSet} (settings : PointwiseSettings)
    (class_coloring : List ℕ) (classes : List (ClassInput heap)) : Option HybridColoring :=
  if settings.tsid_ranges_enabled then
    (try_build_and_color_pointwise_ranges settings.auto_enabled settings.overlay_slots class_coloring
      classes settings.class_order settings.monotone_pointwise).map .ordinary
  else
    try_build_and_color_pointwise settings.direct_reconstruct class_coloring classes
      settings.class_order settings.monotone_pointwise settings.direct_overlay_slots

/-- The old states with the numbers of their colours. -/
def map_candidates (old_to_new : OldToNew) (candidates coloring : List ℕ) (base_new_id : ℕ) :
    OldToNew :=
  (candidates.zip coloring).foldl
    (fun old_to_new c => old_to_new.set c.1 (some (base_new_id + c.2))) old_to_new

def merge_transition (old_to_new : OldToNew) (builder : MergedStateBuilder)
    (t : Label × ℕ × Weight) : MergedStateBuilder :=
  if dwa.states.length ≤ t.2.1 then builder
  else
    match mapped_target old_to_new t.2.1 with
    | none => builder
    | some target_new =>
        if t.2.2.is_empty then builder else builder.add_transition t.1 target_new t.2.2

def merge_state_into_builder (old_to_new : OldToNew) (old_id : ℕ) (builder : MergedStateBuilder) :
    MergedStateBuilder :=
  (transitions_of dwa old_id).foldl (merge_transition dwa old_to_new)
    ((dwa.final old_id).elim builder builder.add_final_weight)

/-- The builders of the colours of a bucket, whose states are mapped already. -/
def merge_bucket (old_to_new : OldToNew) (candidates : List ℕ) (result : HybridColoring) :
    List MergedStateBuilder :=
  match result.direct_builders with
  | some direct_builders => direct_builders
  | none =>
      let num_colors := (result.coloring.map (· + 1)).foldl max 0
      (candidates.zip result.coloring).foldl (fun builders c =>
        builders.modify c.2 (merge_state_into_builder dwa old_to_new c.1))
        (List.replicate num_colors default)

end Loop

/-! ## Classes of a bucket -/

section Classes

variable {heap : ℕ → TokenSet} {dwa : DWA} {needed : List Weight} {old_to_new : OldToNew}
  {candidates class_coloring : List ℕ} {classes : List (ClassInput heap)}

/-- The inputs of the classes with their weights shared. -/
def Shares (classes : List (ClassInput heap)) (inputs : List (Weight × ClassProfile Weight)) :
    Prop :=
  classes.map (fun c => (c.1.weight, c.2.erase)) = inputs

theorem mem_class_members {c s : ℕ} : s ∈ class_members candidates class_coloring c ↔
    ∃ i : ℕ, candidates[i]? = some s ∧ class_coloring[i]? = some c := by
  rw [class_members, List.mem_map]
  constructor
  · intro hex
    obtain ⟨e, he, rfl⟩ := hex
    obtain ⟨hzip, hc⟩ := List.mem_filter.mp he
    obtain ⟨i, hi⟩ := List.mem_iff_getElem?.mp hzip
    obtain ⟨hs, hcolor⟩ := List.getElem?_zip_eq_some.mp hi
    exact ⟨i, hs, hcolor.trans (congrArg some (of_decide_eq_true hc))⟩
  · intro hex
    obtain ⟨i, hs, hc⟩ := hex
    exact ⟨(s, c), List.mem_filter.mpr
      ⟨List.mem_of_getElem? (List.getElem?_zip_eq_some.mpr ⟨hs, hc⟩), by simp⟩, rfl⟩

theorem mem_foldl_needed (members : List ℕ) (union : Weight) {p : Point} :
    p ∈ members.foldl (fun union state => union.union (needed_of needed state)) union ↔
      p ∈ union ∨ ∃ s ∈ members, p ∈ needed_of needed s := by
  induction members generalizing union with
  | nil => simp
  | cons s members ih =>
      rw [List.foldl_cons, ih, Weight.mem_union, List.exists_mem_cons_iff, or_assoc]

theorem lt_num_classes {c : ℕ} (h : c ∈ class_coloring) :
    c < (class_coloring.map (· + 1)).foldl max 0 :=
  (le_foldl_max (class_coloring.map (· + 1)) 0).2 (c + 1) (List.mem_map_of_mem h)

/-- Every class has an input. -/
theorem exists_class (hshares : Shares classes
    (class_inputs dwa needed candidates class_coloring old_to_new)) {i k : ℕ}
    (hk : class_coloring[i]? = some k) : ∃ c, classes[k]? = some c := by
  have hlt := lt_num_classes (List.mem_of_getElem? hk)
  have hlength : classes.length = (class_coloring.map (· + 1)).foldl max 0 := by
    have hmap := congrArg List.length hshares
    rw [List.length_map, class_inputs, List.length_map, List.length_range] at hmap
    exact hmap
  exact ⟨_, List.getElem?_eq_getElem (hlength ▸ hlt)⟩

/-- The domain of a class is what its states need, and its profile is that of an equal state. -/
theorem class_input_spec [Runtime]
    {hash : Option Weight × List (Label × Option ℕ × Weight) → ℕ}
    (hcoloring : class_coloring = partition_refine_coloring_raw dwa hash candidates old_to_new)
    (hshares : Shares classes (class_inputs dwa needed candidates class_coloring old_to_new))
    {k : ℕ} {c : ClassInput heap} (hc : classes[k]? = some c) :
    (∀ p, p ∈ c.1.weight ↔
      ∃ s ∈ class_members candidates class_coloring k, p ∈ needed_of needed s) ∧
    ∃ rep, c.2.erase = build_class_profile dwa needed rep old_to_new ∧
      ∀ s ∈ class_members candidates class_coloring k,
        raw_signature dwa old_to_new rep = raw_signature dwa old_to_new s := by
  have hget := congrArg (fun l => l[k]?) hshares
  rw [List.getElem?_map, hc, Option.map_some, class_inputs, List.getElem?_map] at hget
  obtain ⟨k', hk', he⟩ := Option.map_eq_some_iff.mp hget.symm
  obtain rfl : k = k' := by
    obtain ⟨_, hk'⟩ := List.getElem?_eq_some_iff.mp hk'
    rw [← hk', List.getElem_range]
  obtain ⟨hweight, hprofile⟩ := Prod.mk.inj he
  refine ⟨?_, _, hprofile.symm, ?_⟩
  · intro p
    rw [← hweight, mem_foldl_needed]
    simp
  · intro s hs
    -- the representative is a member of the class
    obtain ⟨first, rest, hmembers⟩ := List.exists_cons_of_ne_nil (List.ne_nil_of_mem hs)
    have hfirst : first ∈ class_members candidates class_coloring k :=
      hmembers ▸ List.mem_cons_self
    rw [hmembers, List.headD_cons]
    obtain ⟨i, hi, hik⟩ := mem_class_members.mp hfirst
    obtain ⟨j, hj, hjk⟩ := mem_class_members.mp hs
    rw [hcoloring] at hik hjk
    have hequal := (partition_refine_coloring_raw_spec hash).2 i j k hik hjk
    rwa [List.getD_eq_getElem?_getD, List.getD_eq_getElem?_getD, hi, hj] at hequal

end Classes

/-! ## Merging states one by one -/

section Merge

variable {dwa : DWA} {old_to_new : OldToNew} {leads : Label → ℕ → Prop} {builder : MergedStateBuilder}
  {label : Label} {mapped : ℕ} {p : Point}

/-- The labels of a builder lead where they may. -/
def Within (leads : Label → ℕ → Prop) (builder : MergedStateBuilder) : Prop :=
  ∀ label target weights, builder.transitions_pending.get label = some (target, weights) →
    leads label target

/-- What merging one transition adds. -/
def TransitionSteps (dwa : DWA) (old_to_new : OldToNew) (t : Label × ℕ × Weight) (label : Label)
    (mapped : ℕ) (p : Point) : Prop :=
  t.1 = label ∧ t.2.1 < dwa.states.length ∧ mapped_target old_to_new t.2.1 = some mapped ∧ p ∈ t.2.2

theorem within_add_transition (h : Within leads builder) {target : ℕ} (hlead : leads label target)
    (weight : Weight) : Within leads (builder.add_transition label target weight) := by
  intro l t weights hget
  unfold MergedStateBuilder.add_transition at hget
  cases hold : builder.transitions_pending.get label with
  | none =>
      simp only [hold, SortedMap.get_insert] at hget
      split_ifs at hget with hl
      · cases hget
        exact hl ▸ hlead
      · exact h l t weights hget
  | some entry =>
      simp only [hold, SortedMap.get_insert] at hget
      split_ifs at hget with hl
      · cases hget
        exact hl ▸ h label entry.1 entry.2 hold
      · exact h l t weights hget

variable (hunique : ∀ label t t', leads label t → leads label t' → t = t')
include hunique

theorem merge_transition_spec (h : Within leads builder) {t : Label × ℕ × Weight}
    (hlead : ∀ label mapped p, TransitionSteps dwa old_to_new t label mapped p → leads label mapped) :
    Within leads (merge_transition dwa old_to_new builder t) ∧
      (∀ p, (merge_transition dwa old_to_new builder t).Final p ↔ builder.Final p) ∧
      ∀ label mapped p, (merge_transition dwa old_to_new builder t).Steps label mapped p ↔
        builder.Steps label mapped p ∨ TransitionSteps dwa old_to_new t label mapped p := by
  unfold merge_transition
  by_cases hlt : dwa.states.length ≤ t.2.1
  · rw [if_pos hlt]
    refine ⟨h, fun _ => Iff.rfl, ?_⟩
    intro label mapped p
    refine ⟨Or.inl, ?_⟩
    intro hor
    obtain hstep | ⟨-, hn, -⟩ := hor
    · exact hstep
    · omega
  · rw [if_neg hlt]
    cases hmapped : mapped_target old_to_new t.2.1 with
    | none =>
        refine ⟨h, fun _ => Iff.rfl, ?_⟩
        intro label mapped p
        refine ⟨Or.inl, ?_⟩
        intro hor
        obtain hstep | ⟨-, -, hsome, -⟩ := hor
        · exact hstep
        · rw [hmapped] at hsome
          cases hsome
    | some target_new =>
        dsimp only
        by_cases hempty : t.2.2.is_empty = true
        · rw [if_pos hempty]
          refine ⟨h, fun _ => Iff.rfl, ?_⟩
          intro label mapped p
          refine ⟨Or.inl, ?_⟩
          intro hor
          obtain hstep | ⟨-, -, -, hp⟩ := hor
          · exact hstep
          · rw [Weight.is_empty_iff.mp hempty] at hp
            exact absurd hp Weight.not_mem_empty
        · -- a weight that is not empty carries a point, which fixes where the label leads
          rw [if_neg hempty]
          obtain ⟨q, hq⟩ := Weight.ne_empty_iff'.mp
            (fun he => hempty (Weight.is_empty_iff.mpr he))
          have hleads := hlead t.1 target_new q ⟨rfl, not_le.mp hlt, hmapped, hq⟩
          have hexisting : ∀ t' weights, builder.transitions_pending.get t.1 = some (t', weights) →
              t' = target_new := by
            intro t' weights hget
            exact hunique t.1 t' target_new (h t.1 t' weights hget) hleads
          refine ⟨within_add_transition h hleads t.2.2,
            fun p => MergedStateBuilder.final_add_transition, ?_⟩
          intro label mapped p
          rw [MergedStateBuilder.steps_add_transition hexisting]
          apply or_congr Iff.rfl
          unfold TransitionSteps
          rw [hmapped, Option.some.injEq]
          constructor
          · intro hand
            exact ⟨hand.1.symm, not_le.mp hlt, hand.2.1.symm, hand.2.2⟩
          · intro hand
            exact ⟨hand.1.symm, hand.2.2.1.symm, hand.2.2.2⟩

theorem merge_transitions_spec (h : Within leads builder) {transitions : List (Label × ℕ × Weight)}
    (hlead : ∀ t ∈ transitions, ∀ label mapped p,
      TransitionSteps dwa old_to_new t label mapped p → leads label mapped) :
    Within leads (transitions.foldl (merge_transition dwa old_to_new) builder) ∧
      (∀ p, (transitions.foldl (merge_transition dwa old_to_new) builder).Final p ↔
        builder.Final p) ∧
      ∀ label mapped p,
        (transitions.foldl (merge_transition dwa old_to_new) builder).Steps label mapped p ↔
          builder.Steps label mapped p ∨
            ∃ t ∈ transitions, TransitionSteps dwa old_to_new t label mapped p := by
  induction transitions generalizing builder with
  | nil => exact ⟨h, fun _ => Iff.rfl, fun _ _ _ => by simp⟩
  | cons t transitions ih =>
      obtain ⟨hwithin, hfinal, hsteps⟩ := merge_transition_spec hunique h
        (hlead t List.mem_cons_self)
      obtain ⟨hwithin', hfinal', hsteps'⟩ := ih hwithin
        (fun u hu => hlead u (List.mem_cons_of_mem _ hu))
      rw [List.foldl_cons]
      refine ⟨hwithin', fun p => (hfinal' p).trans (hfinal p), ?_⟩
      intro label mapped p
      rw [hsteps', hsteps, List.exists_mem_cons_iff, or_assoc]

/-- Merging a state adds exactly its points. -/
theorem merge_state_into_builder_spec (h : Within leads builder) {old_id : ℕ}
    (hlead : ∀ label mapped p, StateSteps dwa old_to_new old_id label mapped p →
      leads label mapped) :
    Within leads (merge_state_into_builder dwa old_to_new old_id builder) ∧
      (∀ p, (merge_state_into_builder dwa old_to_new old_id builder).Final p ↔
        builder.Final p ∨ StateFinal dwa old_id p) ∧
      ∀ label mapped p,
        (merge_state_into_builder dwa old_to_new old_id builder).Steps label mapped p ↔
          builder.Steps label mapped p ∨ StateSteps dwa old_to_new old_id label mapped p := by
  have hstart : Within leads ((dwa.final old_id).elim builder builder.add_final_weight) ∧
      (∀ p, ((dwa.final old_id).elim builder builder.add_final_weight).Final p ↔
        builder.Final p ∨ StateFinal dwa old_id p) ∧
      ∀ label mapped p, ((dwa.final old_id).elim builder builder.add_final_weight).Steps label
        mapped p ↔ builder.Steps label mapped p := by
    unfold StateFinal
    cases dwa.final old_id with
    | none => exact ⟨h, fun p => by simp, fun _ _ _ => Iff.rfl⟩
    | some weight =>
        refine ⟨h, ?_, fun _ _ _ => Iff.rfl⟩
        intro p
        rw [Option.elim_some, MergedStateBuilder.final_add_final_weight]
        simp
  have hstep : ∀ label mapped p, (∃ t ∈ transitions_of dwa old_id,
      TransitionSteps dwa old_to_new t label mapped p) ↔
        StateSteps dwa old_to_new old_id label mapped p := by
    intro label mapped p
    constructor
    · intro hex
      obtain ⟨t, ht, rfl, hlt, hmapped, hp⟩ := hex
      exact ⟨t.2.1, ⟨hlt, t.2.2, ht, hp⟩, hmapped⟩
    · intro hex
      obtain ⟨target, ⟨hlt, weight, ht, hp⟩, hmapped⟩ := hex
      exact ⟨_, ht, rfl, hlt, hmapped, hp⟩
  obtain ⟨hwithin, hfinal, hsteps⟩ := hstart
  obtain ⟨hwithin', hfinal', hsteps'⟩ := merge_transitions_spec hunique hwithin
    (fun t ht label mapped p hsteps => hlead label mapped p
      ((hstep label mapped p).mp ⟨t, ht, hsteps⟩))
  refine ⟨hwithin', fun p => (hfinal' p).trans (hfinal p), ?_⟩
  intro label mapped p
  unfold merge_state_into_builder
  rw [hsteps', hsteps, hstep]

end Merge

section MergeAll

variable {dwa : DWA} {old_to_new : OldToNew} {candidates coloring : List ℕ}
  {leads : ℕ → Label → ℕ → Prop}

/-- A builder with exactly the points of some states. -/
structure Unites (dwa : DWA) (old_to_new : OldToNew) (states : ℕ → Prop)
    (builder : MergedStateBuilder) : Prop where
  final : ∀ p, builder.Final p ↔ ∃ s, states s ∧ StateFinal dwa s p
  steps : ∀ label mapped p, builder.Steps label mapped p ↔
    ∃ s, states s ∧ StateSteps dwa old_to_new s label mapped p

theorem Unites.congr {states states' : ℕ → Prop} {builder : MergedStateBuilder}
    (h : Unites dwa old_to_new states builder) (hstates : ∀ s, states s ↔ states' s) :
    Unites dwa old_to_new states' builder := by
  obtain rfl : states = states' := funext fun s => propext (hstates s)
  exact h

theorem length_merge_all (pairs : List (ℕ × ℕ)) (builders : List MergedStateBuilder) :
    (pairs.foldl (fun builders c => builders.modify c.2
      (merge_state_into_builder dwa old_to_new c.1)) builders).length = builders.length := by
  induction pairs generalizing builders with
  | nil => rfl
  | cons c pairs ih => rw [List.foldl_cons, ih, List.length_modify]

/-- Merging states into the builders of their colours. -/
theorem merge_all_spec (hunique : ∀ color label t t', leads color label t → leads color label t' →
      t = t') {pairs : List (ℕ × ℕ)}
    (hlead : ∀ c ∈ pairs, ∀ label mapped p, StateSteps dwa old_to_new c.1 label mapped p →
      leads c.2 label mapped) {done : List (ℕ × ℕ)} {builders : List MergedStateBuilder}
    (h : ∀ color builder, builders[color]? = some builder → Within (leads color) builder ∧
      Unites dwa old_to_new (fun s => (s, color) ∈ done) builder) :
    ∀ color builder, (pairs.foldl (fun builders c =>
        builders.modify c.2 (merge_state_into_builder dwa old_to_new c.1)) builders)[color]? =
          some builder →
      Unites dwa old_to_new (fun s => (s, color) ∈ done ++ pairs) builder := by
  induction pairs generalizing done builders with
  | nil =>
      intro color builder hget
      rw [List.append_nil]
      exact (h color builder hget).2
  | cons c pairs ih =>
      rw [List.append_cons]
      apply ih (fun d hd => hlead d (List.mem_cons_of_mem _ hd))
      intro color builder hget
      rw [List.getElem?_modify] at hget
      obtain ⟨old, hold, rfl⟩ := Option.map_eq_some_iff.mp hget
      obtain ⟨hwithin, hunites⟩ := h color old hold
      by_cases hc : c.2 = color
      · obtain ⟨hwithin', hfinal, hsteps⟩ := merge_state_into_builder_spec (hunique color) hwithin
          (fun label mapped p hs => hc ▸ hlead c List.mem_cons_self label mapped p hs)
        rw [if_pos hc]
        have hmem : ∀ s, (s, color) ∈ done ++ [c] ↔ (s, color) ∈ done ∨ s = c.1 := by
          intro s
          rw [List.mem_append, List.mem_singleton, Prod.ext_iff]
          simp [hc]
        refine ⟨hwithin', ?_, ?_⟩
        · intro p
          rw [hfinal, hunites.final]
          simp only [hmem, or_and_right, exists_or, exists_eq_left]
        · intro label mapped p
          rw [hsteps, hunites.steps]
          simp only [hmem, or_and_right, exists_or, exists_eq_left]
      · rw [if_neg hc]
        refine ⟨hwithin, hunites.congr ?_⟩
        intro s
        rw [List.mem_append, List.mem_singleton, Prod.ext_iff]
        simp [Ne.symm hc]

theorem mapped_target_map_candidates {t base_new_id : ℕ} (h : t ∉ candidates) :
    mapped_target (map_candidates old_to_new candidates coloring base_new_id) t =
      mapped_target old_to_new t := by
  have hset : ∀ (pairs : List (ℕ × ℕ)) (m : OldToNew), (∀ c ∈ pairs, c.1 ≠ t) →
      (pairs.foldl (fun m c => m.set c.1 (some (base_new_id + c.2))) m)[t]? = m[t]? := by
    intro pairs
    induction pairs with
    | nil => exact fun _ _ => rfl
    | cons c pairs ih =>
        intro m hpairs
        rw [List.foldl_cons, ih _ (fun d hd => hpairs d (List.mem_cons_of_mem _ hd)),
          List.getElem?_set_ne (hpairs c List.mem_cons_self)]
  unfold mapped_target map_candidates
  rw [hset]
  intro c hc he
  exact h (he ▸ (List.of_mem_zip hc).1)

end MergeAll

/-! ## Runs of the bucket loop -/

section Run

variable (dwa : DWA) (needed : List Weight)

/-- The numbers after the buckets below a height, whatever their colourings. -/
inductive BucketRun : ℕ → OldToNew → Prop
  | start : BucketRun 0 (List.replicate dwa.states.length none)
  | bucket {h : ℕ} {old_to_new : OldToNew} (coloring : List ℕ) (base_new_id : ℕ) :
      BucketRun h old_to_new → coloring.length = (states_by_height dwa needed h).length →
      BucketRun (h + 1) (map_candidates old_to_new (states_by_height dwa needed h) coloring base_new_id)

variable {dwa needed} {h : ℕ} {old_to_new : OldToNew}

theorem mem_states_by_height {s : ℕ} : s ∈ states_by_height dwa needed h ↔
    s < dwa.states.length ∧
      (reachableFrom dwa.targets dwa.states.length dwa.start_state)[s]? = some true ∧
      needed_of needed s ≠ Weight.empty ∧
      (nodeHeights dwa.targets dwa.states.length
        (releaseOrder dwa.targets dwa.states.length)).getD s 0 = h := by
  unfold states_by_height
  rw [List.mem_filter, List.mem_range, Bool.and_eq_true, Bool.and_eq_true, decide_eq_true_eq,
    Bool.not_eq_true', ← Bool.not_eq_true (Weight.is_empty _), Weight.is_empty_iff, and_assoc,
    List.getD_eq_getElem?_getD]
  apply and_congr Iff.rfl
  apply and_congr _ Iff.rfl
  cases (reachableFrom dwa.targets dwa.states.length dwa.start_state)[s]? with
  | none => simp
  | some mark => simp

theorem mem_targets {s t : ℕ} {label : Label} {weight : Weight}
    (h : (label, t, weight) ∈ transitions_of dwa s) : s < dwa.states.length ∧ t ∈ dwa.targets s := by
  unfold transitions_of at h
  cases hs : dwa.states[s]? with
  | none =>
      rw [hs] at h
      cases h
  | some state =>
      rw [hs] at h
      refine ⟨(List.getElem?_eq_some_iff.mp hs).1, ?_⟩
      simp only [DWA.targets, hs, SortedMap.values, List.map_map]
      exact List.mem_map_of_mem (f := Prod.fst ∘ Prod.snd) h

/-- A state is higher than the targets of its transitions. -/
theorem height_lt_of_transition (hacyclic : dwa.is_acyclic = true) {s t : ℕ} {label : Label}
    {weight : Weight} (hs : s ∈ states_by_height dwa needed h)
    (ht : (label, t, weight) ∈ transitions_of dwa s) (hlt : t < dwa.states.length) :
    (nodeHeights dwa.targets dwa.states.length
      (releaseOrder dwa.targets dwa.states.length)).getD t 0 < h := by
  obtain ⟨hslt, htarget⟩ := mem_targets ht
  rw [← (mem_states_by_height.mp hs).2.2.2]
  exact height_lt dwa.targets dwa.states.length hacyclic hslt htarget hlt

theorem length_map_candidates (candidates coloring : List ℕ) (base_new_id : ℕ) :
    (map_candidates old_to_new candidates coloring base_new_id).length = old_to_new.length := by
  unfold map_candidates
  induction candidates.zip coloring generalizing old_to_new with
  | nil => rfl
  | cons c pairs ih => rw [List.foldl_cons, ih, List.length_set]

theorem mapped_of_mem_candidates {candidates coloring : List ℕ} {base_new_id t : ℕ}
    (hlength : coloring.length = candidates.length) (ht : t ∈ candidates)
    (hlt : t < old_to_new.length) :
    (mapped_target (map_candidates old_to_new candidates coloring base_new_id) t).isSome := by
  have hset : ∀ (pairs : List (ℕ × ℕ)) (m : OldToNew), t < m.length →
      ((∃ c ∈ pairs, c.1 = t) ∨ (m[t]?).join.isSome) →
      (pairs.foldl (fun m c => m.set c.1 (some (base_new_id + c.2))) m)[t]?.join.isSome := by
    intro pairs
    induction pairs with
    | nil =>
        intro m _ hor
        obtain ⟨c, hc, -⟩ | hsome := hor
        · cases hc
        · exact hsome
    | cons c pairs ih =>
        intro m hm hor
        rw [List.foldl_cons]
        apply ih _ (by rwa [List.length_set])
        by_cases he : c.1 = t
        · right
          rw [he, List.getElem?_set_self hm]
          rfl
        · rw [List.getElem?_set_ne he]
          obtain ⟨d, hd, hdt⟩ | hsome := hor
          · obtain rfl | hd := List.mem_cons.mp hd
            · exact absurd hdt he
            · exact Or.inl ⟨d, hd, hdt⟩
          · exact Or.inr hsome
  apply hset _ _ hlt
  left
  have hfst : (candidates.zip coloring).map Prod.fst = candidates := List.map_fst_zip hlength.ge
  rw [← hfst] at ht
  obtain ⟨c, hc, he⟩ := List.mem_map.mp ht
  exact ⟨c, hc, he⟩

/-- The states of all lower buckets have numbers. -/
theorem BucketRun.mapped (hrun : BucketRun dwa needed h old_to_new) :
    old_to_new.length = dwa.states.length ∧ ∀ t k, k < h → t ∈ states_by_height dwa needed k →
      (mapped_target old_to_new t).isSome := by
  induction hrun with
  | start =>
      refine ⟨List.length_replicate, ?_⟩
      intro t k hk
      exact absurd hk (Nat.not_lt_zero k)
  | bucket coloring base_new_id hrun hcoloring ih =>
      rename_i h old_to_new
      obtain ⟨hlength, hmapped⟩ := ih
      refine ⟨(length_map_candidates _ _ _).trans hlength, ?_⟩
      intro t k hk ht
      by_cases hmem : t ∈ states_by_height dwa needed h
      · exact mapped_of_mem_candidates hcoloring hmem (hlength ▸ (mem_states_by_height.mp ht).1)
      · rw [mapped_target_map_candidates hmem]
        apply hmapped t k _ ht
        have hne : k ≠ h := fun he => hmem (he ▸ ht)
        omega

/-- A transition of a state of the next bucket that carries a point leads to a numbered state. -/
theorem BucketRun.mapped_of_carries (hrun : BucketRun dwa needed h old_to_new) (hacyclic : dwa.is_acyclic = true)
    (hpushed : BackwardPushed dwa needed) {s t : ℕ} {label : Label} {p : Point}
    (hs : s ∈ states_by_height dwa needed h) (hcarries : StateCarries dwa s label t p) :
    ∃ mapped, StateSteps dwa old_to_new s label mapped p := by
  obtain ⟨hlt, weight, hmem, hp⟩ := hcarries
  have ht : t ∈ states_by_height dwa needed ((nodeHeights dwa.targets dwa.states.length
      (releaseOrder dwa.targets dwa.states.length)).getD t 0) := by
    refine mem_states_by_height.mpr ⟨hlt, ?_, ?_, rfl⟩
    · exact reachableFrom_closed dwa.targets dwa.states.length (mem_states_by_height.mp hs).2.1
        (mem_targets hmem).2 hlt
    · exact (mem_productive.mp (productive_of_mem hpushed hmem hlt hp)).2.2
  obtain ⟨mapped, hmapped⟩ := Option.isSome_iff_exists.mp
    (hrun.mapped.2 t _ (height_lt_of_transition hacyclic hs hmem hlt) ht)
  exact ⟨mapped, t, ⟨hlt, weight, hmem, hp⟩, hmapped⟩

end Run

/-! ## Coloured buckets -/

/-- What the class of a candidate needs. -/
def ClassNeeds (needed : List Weight) (candidates class_coloring : List ℕ) (i : ℕ) (p : Point) : Prop :=
  ∃ j s : ℕ, class_coloring[j]? = class_coloring[i]? ∧ candidates[j]? = some s ∧
    p ∈ needed_of needed s

/-- Two states are alike at a point: both are final there or neither, and the same labels carry it,
to the same merged states. -/
structure StatesAgree (dwa : DWA) (old_to_new : OldToNew) (s t : ℕ) (p : Point) : Prop where
  final : StateFinal dwa s p ↔ StateFinal dwa t p
  weights : ∀ label, (∃ target, StateCarries dwa s label target p) ↔
    ∃ target, StateCarries dwa t label target p
  targets : ∀ label mapped, StateSteps dwa old_to_new s label mapped p ↔
    StateSteps dwa old_to_new t label mapped p

/-- States of one colour are alike wherever both of their classes need something, and the builder of
a colour unites the states of the colour. -/
structure BucketExact (dwa : DWA) (needed : List Weight) (old_to_new : OldToNew)
    (candidates class_coloring coloring : List ℕ) (builders : List MergedStateBuilder) : Prop where
  colored : coloring.length = candidates.length
  agree : ∀ i j s t color : ℕ, candidates[i]? = some s → candidates[j]? = some t →
    coloring[i]? = some color → coloring[j]? = some color → ∀ p,
      ClassNeeds needed candidates class_coloring i p →
      ClassNeeds needed candidates class_coloring j p → StatesAgree dwa old_to_new s t p
  built : ∀ i color : ℕ, coloring[i]? = some color → color < builders.length
  unites : ∀ color builder, builders[color]? = some builder →
    Unites dwa old_to_new (fun s => ∃ i : ℕ, candidates[i]? = some s ∧ coloring[i]? = some color)
      builder

/-- Where the labels of the states of a colour lead. -/
def ColorLeads (dwa : DWA) (old_to_new : OldToNew) (candidates coloring : List ℕ) (color : ℕ)
    (label : Label) (mapped : ℕ) : Prop :=
  ∃ (i s : ℕ) (p : Point), candidates[i]? = some s ∧ coloring[i]? = some color ∧
    StateSteps dwa old_to_new s label mapped p

section Exact

variable [Runtime] {heap : ℕ → TokenSet} {dwa : DWA} {needed : List Weight}
  {old_to_new : OldToNew} {candidates class_coloring coloring : List ℕ}
  {classes : List (ClassInput heap)} {groups : List (List ℕ)}
  {hash : Option Weight × List (Label × Option ℕ × Weight) → ℕ}

/-- A class stands for each of its states. -/
structure StandsFor (dwa : DWA) (needed : List Weight) (old_to_new : OldToNew)
    (candidates class_coloring : List ℕ) (c : ClassInput heap) (i s : ℕ) : Prop where
  domain : ∀ p, p ∈ c.1.weight ↔ ClassNeeds needed candidates class_coloring i p
  final : ∀ p, c.2.Final p ↔ StateFinal dwa s p
  steps : ∀ label mapped p, c.2.Steps label mapped p ↔ StateSteps dwa old_to_new s label mapped p

theorem standsFor_of_class (hpushed : BackwardPushed dwa needed)
    (hlength : old_to_new.length = dwa.states.length)
    (hcoloring : class_coloring = partition_refine_coloring_raw dwa hash candidates old_to_new)
    (hshares : Shares classes (class_inputs dwa needed candidates class_coloring old_to_new))
    {i k s : ℕ} {c : ClassInput heap} (hc : classes[k]? = some c) (hs : candidates[i]? = some s)
    (hi : class_coloring[i]? = some k) :
    StandsFor dwa needed old_to_new candidates class_coloring c i s := by
  obtain ⟨hdomain, rep, hprofile, hequal⟩ := class_input_spec hcoloring hshares hc
  have hraw := hequal s (mem_class_members.mpr ⟨i, hs, hi⟩)
  refine ⟨?_, ?_, ?_⟩
  · intro p
    rw [hdomain, ClassNeeds, hi]
    constructor
    · intro hex
      obtain ⟨t, ht, hp⟩ := hex
      obtain ⟨j, hj, hk⟩ := mem_class_members.mp ht
      exact ⟨j, t, hk, hj, hp⟩
    · intro hex
      obtain ⟨j, t, hk, hj, hp⟩ := hex
      exact ⟨t, mem_class_members.mpr ⟨j, hj, hk⟩, hp⟩
  · intro p
    exact (final_of_build hprofile).trans (final_of_raw_eq hraw)
  · intro label mapped p
    exact (steps_of_build hpushed hprofile).trans (steps_of_raw_eq hlength hraw)

/-- The class and the group of a candidate. -/
theorem exists_group (hcoloring : class_coloring =
      partition_refine_coloring_raw dwa hash candidates old_to_new)
    (hshares : Shares classes (class_inputs dwa needed candidates class_coloring old_to_new))
    (hgrouped : Grouped classes class_coloring coloring groups) {i s color : ℕ}
    (hs : candidates[i]? = some s) (hi : coloring[i]? = some color) :
    ∃ (k : ℕ) (c : ClassInput heap) (members : List ℕ), class_coloring[i]? = some k ∧
      classes[k]? = some c ∧ groups[color]? = some members ∧ k ∈ members := by
  have hlength : class_coloring.length = candidates.length := by
    rw [hcoloring]
    exact (partition_refine_coloring_raw_spec hash).1
  have hlt : i < class_coloring.length := hlength ▸ (List.getElem?_eq_some_iff.mp hs).1
  have hk := List.getElem?_eq_getElem hlt
  obtain ⟨c, hc⟩ := exists_class hshares hk
  have hzip : (class_coloring[i], color) ∈ class_coloring.zip coloring :=
    List.mem_of_getElem? (List.getElem?_zip_eq_some.mpr ⟨hk, hi⟩)
  obtain ⟨members, hmembers, hmem⟩ := (List.forall₂_iff_zip.mp hgrouped.colored).2 hzip
    (List.getElem?_eq_some_iff.mp hc).1
  exact ⟨_, c, members, hk, hc, hmembers, hmem⟩

omit [Runtime] in
theorem mem_numbered_of_get {members : List ℕ} {k : ℕ} {c : ClassInput heap}
    (hk : k ∈ members) (hc : classes[k]? = some c) : c ∈ numbered classes members :=
  List.mem_filterMap.mpr ⟨k, hk, hc⟩

omit [Runtime] in
theorem eq_of_mem_of_nodup_flatten {groups : List (List ℕ)} (h : groups.flatten.Nodup) {i j x : ℕ}
    {members members' : List ℕ} (hi : groups[i]? = some members) (hj : groups[j]? = some members')
    (hx : x ∈ members) (hx' : x ∈ members') : i = j := by
  by_contra hne
  have hdisjoint := (List.nodup_flatten.mp h).2
  obtain ⟨hilt, rfl⟩ := List.getElem?_eq_some_iff.mp hi
  obtain ⟨hjlt, rfl⟩ := List.getElem?_eq_some_iff.mp hj
  rw [List.pairwise_iff_getElem] at hdisjoint
  obtain hlt | hlt := lt_or_gt_of_ne hne
  · exact hdisjoint i j hilt hjlt hlt hx hx'
  · exact hdisjoint j i hjlt hilt hlt hx' hx

section Bucket

variable (hpushed : BackwardPushed dwa needed)
  (hlength : old_to_new.length = dwa.states.length)
  (hcoloring : class_coloring = partition_refine_coloring_raw dwa hash candidates old_to_new)
  (hshares : Shares classes (class_inputs dwa needed candidates class_coloring old_to_new))
  (hgrouped : Grouped classes class_coloring coloring groups)
include hpushed hlength hcoloring hshares hgrouped

/-- The builder of a group unites the states of its colour. -/
theorem unites_of_builderExact {color : ℕ} {members : List ℕ} {builder : MergedStateBuilder}
    (hmembers : groups[color]? = some members)
    (hexact : BuilderExact (numbered classes members) builder) :
    Unites dwa old_to_new (fun s => ∃ i : ℕ, candidates[i]? = some s ∧ coloring[i]? = some color)
      builder := by
  -- a point of a class's domain and of its profile is one of a state of the colour
  have hclass : ∀ c ∈ numbered classes members, ∀ p, p ∈ c.1.weight →
      ∃ i s : ℕ, candidates[i]? = some s ∧ coloring[i]? = some color ∧
        StandsFor dwa needed old_to_new candidates class_coloring c i s := by
    intro c hc p hp
    obtain ⟨k, hk, hget⟩ := List.mem_filterMap.mp hc
    obtain ⟨s, hs, -⟩ := ((class_input_spec hcoloring hshares hget).1 p).mp hp
    obtain ⟨i, hi, hik⟩ := mem_class_members.mp hs
    have hlt : i < coloring.length :=
      hgrouped.colored.length_eq ▸ (List.getElem?_eq_some_iff.mp hik).1
    have hcolor := List.getElem?_eq_getElem hlt
    obtain ⟨k', -, members', hik', -, hmembers', hk'⟩ :=
      exists_group hcoloring hshares hgrouped hi hcolor
    obtain rfl : k = k' := Option.some.inj (hik.symm.trans hik')
    -- a class is in one group only
    have hnodup : groups.flatten.Nodup := hgrouped.members.nodup_iff.mpr List.nodup_range
    have hcolor_eq : coloring[i] = color := eq_of_mem_of_nodup_flatten hnodup hmembers' hmembers hk' hk
    refine ⟨i, s, hi, hcolor_eq ▸ hcolor, ?_⟩
    exact standsFor_of_class hpushed hlength hcoloring hshares hget hi hik
  have hstate : ∀ i s : ℕ, candidates[i]? = some s → coloring[i]? = some color →
      ∃ c ∈ numbered classes members,
        StandsFor dwa needed old_to_new candidates class_coloring c i s := by
    intro i s hs hi
    obtain ⟨k, c, members', hk, hc, hmembers', hmem⟩ :=
      exists_group hcoloring hshares hgrouped hs hi
    obtain rfl : members = members' := Option.some.inj (hmembers.symm.trans hmembers')
    exact ⟨c, mem_numbered_of_get hmem hc,
      standsFor_of_class hpushed hlength hcoloring hshares hc hs hk⟩
  refine ⟨?_, ?_⟩
  · intro p
    rw [hexact.final]
    constructor
    · intro hex
      obtain ⟨c, hc, hp, hfinal⟩ := hex
      obtain ⟨i, s, hs, hi, hstands⟩ := hclass c hc p hp
      exact ⟨s, ⟨i, hs, hi⟩, (hstands.final p).mp hfinal⟩
    · intro hex
      obtain ⟨s, ⟨i, hs, hi⟩, hfinal⟩ := hex
      obtain ⟨c, hc, hstands⟩ := hstate i s hs hi
      refine ⟨c, hc, (hstands.domain p).mpr ⟨i, s, rfl, hs, ?_⟩, (hstands.final p).mpr hfinal⟩
      obtain ⟨weight, hweight, hp⟩ := hfinal
      exact hpushed.final s weight hweight p hp
  · intro label mapped p
    rw [hexact.steps]
    constructor
    · intro hex
      obtain ⟨c, hc, hp, hstep⟩ := hex
      obtain ⟨i, s, hs, hi, hstands⟩ := hclass c hc p hp
      exact ⟨s, ⟨i, hs, hi⟩, (hstands.steps label mapped p).mp hstep⟩
    · intro hex
      obtain ⟨s, ⟨i, hs, hi⟩, hstep⟩ := hex
      obtain ⟨c, hc, hstands⟩ := hstate i s hs hi
      refine ⟨c, hc, (hstands.domain p).mpr ⟨i, s, rfl, hs, ?_⟩,
        (hstands.steps label mapped p).mpr hstep⟩
      obtain ⟨target, ⟨hlt, weight, hweight, hp⟩, -⟩ := hstep
      exact hpushed.source s label target weight hweight hlt p hp

/-- States of one colour are alike in the domains of both of their classes. -/
theorem statesAgree_of_grouped
    (hmapped : ∀ s ∈ candidates, ∀ label t p, StateCarries dwa s label t p →
      ∃ mapped, StateSteps dwa old_to_new s label mapped p) {i j s t color : ℕ}
    (hs : candidates[i]? = some s) (ht : candidates[j]? = some t)
    (hi : coloring[i]? = some color) (hj : coloring[j]? = some color) {p : Point}
    (hpi : ClassNeeds needed candidates class_coloring i p)
    (hpj : ClassNeeds needed candidates class_coloring j p) :
    StatesAgree dwa old_to_new s t p := by
  obtain ⟨k, c, members, hk, hc, hmembers, hmem⟩ := exists_group hcoloring hshares hgrouped hs hi
  obtain ⟨k', d, members', hk', hd, hmembers', hmem'⟩ :=
    exists_group hcoloring hshares hgrouped ht hj
  obtain rfl : members = members' := Option.some.inj (hmembers.symm.trans hmembers')
  have hagree := hgrouped.agree members (List.mem_of_getElem? hmembers) c
    (mem_numbered_of_get hmem hc) d (mem_numbered_of_get hmem' hd)
  have hstands := standsFor_of_class hpushed hlength hcoloring hshares hc hs hk
  have hstands' := standsFor_of_class hpushed hlength hcoloring hshares hd ht hk'
  have hpc := (hstands.domain p).mpr hpi
  have hpd := (hstands'.domain p).mpr hpj
  have hsteps : ∀ label mapped, StateSteps dwa old_to_new s label mapped p ↔
      StateSteps dwa old_to_new t label mapped p := by
    intro label mapped
    rw [← hstands.steps, ← hstands'.steps]
    exact hagree.steps p hpc hpd label mapped
  refine ⟨?_, ?_, hsteps⟩
  · rw [← hstands.final, ← hstands'.final]
    exact hagree.final p hpc hpd
  · intro label
    constructor
    · intro hex
      obtain ⟨target, hcarries⟩ := hex
      obtain ⟨mapped, hstep⟩ := hmapped s (List.mem_of_getElem? hs) label target p hcarries
      obtain ⟨target', hcarries', -⟩ := (hsteps label mapped).mp hstep
      exact ⟨target', hcarries'⟩
    · intro hex
      obtain ⟨target, hcarries⟩ := hex
      obtain ⟨mapped, hstep⟩ := hmapped t (List.mem_of_getElem? ht) label target p hcarries
      obtain ⟨target', hcarries', -⟩ := (hsteps label mapped).mpr hstep
      exact ⟨target', hcarries'⟩

/-- A label leads to one merged state from all states of a colour. -/
theorem target_unique_of_grouped {i j s t color mapped mapped' : ℕ} {label : Label} {p q : Point}
    (hs : candidates[i]? = some s) (ht : candidates[j]? = some t)
    (hi : coloring[i]? = some color) (hj : coloring[j]? = some color)
    (hstep : StateSteps dwa old_to_new s label mapped p)
    (hstep' : StateSteps dwa old_to_new t label mapped' q) : mapped = mapped' := by
  obtain ⟨k, c, members, hk, hc, hmembers, hmem⟩ := exists_group hcoloring hshares hgrouped hs hi
  obtain ⟨k', d, members', hk', hd, hmembers', hmem'⟩ :=
    exists_group hcoloring hshares hgrouped ht hj
  obtain rfl : members = members' := Option.some.inj (hmembers.symm.trans hmembers')
  have hagree := hgrouped.agree members (List.mem_of_getElem? hmembers) c
    (mem_numbered_of_get hmem hc) d (mem_numbered_of_get hmem' hd)
  have hstands := standsFor_of_class hpushed hlength hcoloring hshares hc hs hk
  have hstands' := standsFor_of_class hpushed hlength hcoloring hshares hd ht hk'
  exact hagree.targets label mapped mapped' ((hstands.steps label mapped p).mpr hstep).1
    ((hstands'.steps label mapped' q).mpr hstep').1

/-- Merging the states one by one unites the states of each colour. -/
theorem unites_of_merge {old_to_new' : OldToNew} (hsame : ∀ s ∈ candidates, ∀ label mapped p,
      StateSteps dwa old_to_new' s label mapped p ↔ StateSteps dwa old_to_new s label mapped p)
    {num_colors color : ℕ} {builder : MergedStateBuilder}
    (hget : ((candidates.zip coloring).foldl (fun builders c =>
        builders.modify c.2 (merge_state_into_builder dwa old_to_new' c.1))
        (List.replicate num_colors default))[color]? = some builder) :
    Unites dwa old_to_new (fun s => ∃ i : ℕ, candidates[i]? = some s ∧ coloring[i]? = some color)
      builder := by
  have hpair : ∀ s color, (s, color) ∈ candidates.zip coloring ↔
      ∃ i : ℕ, candidates[i]? = some s ∧ coloring[i]? = some color := by
    intro s color
    rw [List.mem_iff_getElem?]
    simp only [List.getElem?_zip_eq_some]
  have hstart : ∀ (color : ℕ) builder, (List.replicate num_colors default)[color]? = some builder →
      Within (ColorLeads dwa old_to_new candidates coloring color) builder ∧
        Unites dwa old_to_new' (fun s => (s, color) ∈ ([] : List (ℕ × ℕ))) builder := by
    intro color builder hget
    obtain rfl := (List.mem_replicate.mp (List.mem_of_getElem? hget)).2
    refine ⟨?_, ?_, ?_⟩
    · intro label target weights hweights
      cases hweights
    · intro p
      simp
    · intro label mapped p
      simp
  have hmerged : Unites dwa old_to_new' (fun s => (s, color) ∈ [] ++ candidates.zip coloring)
      builder := by
    refine merge_all_spec ?_ ?_ hstart color builder hget
    · intro color label t t' ht ht'
      obtain ⟨i, s, p, hs, hi, hstep⟩ := ht
      obtain ⟨j, s', q, hs', hj, hstep'⟩ := ht'
      exact target_unique_of_grouped hpushed hlength hcoloring hshares hgrouped hs hs' hi hj hstep
        hstep'
    · intro c hc label mapped p hstep
      obtain ⟨i, hs, hi⟩ := (hpair c.1 c.2).mp hc
      exact ⟨i, c.1, p, hs, hi, (hsame c.1 (List.mem_of_getElem? hs) label mapped p).mp hstep⟩
  rw [List.nil_append] at hmerged
  refine ⟨?_, ?_⟩
  · intro p
    rw [hmerged.final]
    simp only [hpair]
  · intro label mapped p
    rw [hmerged.steps]
    constructor
    · intro hex
      obtain ⟨s, hs, hstep⟩ := hex
      obtain ⟨i, hget, hi⟩ := (hpair s color).mp hs
      exact ⟨s, ⟨i, hget, hi⟩, (hsame s (List.mem_of_getElem? hget) label mapped p).mp hstep⟩
    · intro hex
      obtain ⟨s, ⟨i, hget, hi⟩, hstep⟩ := hex
      exact ⟨s, (hpair s color).mpr ⟨i, hget, hi⟩,
        (hsame s (List.mem_of_getElem? hget) label mapped p).mpr hstep⟩

end Bucket

variable {h : ℕ} [Allocator]

omit [Runtime] in
theorem pointwise_coloring_spec (hlabels : ∀ c ∈ classes, (c.2.targets.map Prod.fst).Nodup)
    (settings : PointwiseSettings) (class_coloring : List ℕ) :
    Ensures (pointwise_coloring settings class_coloring classes) fun result =>
      ∃ groups, Grouped classes class_coloring result.coloring groups ∧
        ∀ builders ∈ result.direct_builders, List.Forall₂ (fun members builder =>
          BuilderExact (numbered classes members) builder) groups builders := by
  unfold pointwise_coloring
  split_ifs
  · apply Ensures.map
    refine Ensures.mono (try_build_and_color_pointwise_ranges_spec hlabels settings.auto_enabled
      settings.overlay_slots class_coloring settings.class_order settings.monotone_pointwise) ?_
    intro coloring hcoloring
    obtain ⟨groups, hgrouped⟩ := hcoloring
    refine ⟨groups, hgrouped, ?_⟩
    intro builders hbuilders
    cases hbuilders
  · exact try_build_and_color_pointwise_spec hlabels settings.direct_reconstruct class_coloring
      settings.class_order settings.monotone_pointwise settings.direct_overlay_slots

/-- Wherever pointwise colouring of a bucket succeeds, states of one colour are alike, and the
builders have exactly the weights of the states of their colours. -/
theorem pointwise_bucket_exact (hacyclic : dwa.is_acyclic = true) (hpushed : BackwardPushed dwa needed)
    (hrun : BucketRun dwa needed h old_to_new)
    (hshares : Shares classes (class_inputs dwa needed (states_by_height dwa needed h)
      (partition_refine_coloring_raw dwa hash (states_by_height dwa needed h) old_to_new) old_to_new))
    (settings : PointwiseSettings) (base_new_id : ℕ) {result : HybridColoring}
    (hresult : pointwise_coloring settings
      (partition_refine_coloring_raw dwa hash (states_by_height dwa needed h) old_to_new) classes =
        some result) :
    BucketExact dwa needed old_to_new (states_by_height dwa needed h)
      (partition_refine_coloring_raw dwa hash (states_by_height dwa needed h) old_to_new)
      result.coloring
      (merge_bucket dwa (map_candidates old_to_new (states_by_height dwa needed h) result.coloring
        base_new_id) (states_by_height dwa needed h) result) := by
  have hlength := hrun.mapped.1
  have hlabels : ∀ c ∈ classes, (c.2.targets.map Prod.fst).Nodup := by
    intro c hc
    obtain ⟨k, hk⟩ := List.mem_iff_getElem?.mp hc
    obtain ⟨-, rep, hprofile, -⟩ := class_input_spec rfl hshares hk
    exact labels_of_build hprofile
  obtain ⟨groups, hgrouped, hdirect⟩ := pointwise_coloring_spec hlabels settings _ result hresult
  have hcolored : result.coloring.length = (states_by_height dwa needed h).length :=
    hgrouped.colored.length_eq.symm.trans (partition_refine_coloring_raw_spec hash).1
  have hsame : ∀ s ∈ states_by_height dwa needed h, ∀ label mapped p,
      StateSteps dwa (map_candidates old_to_new (states_by_height dwa needed h) result.coloring
        base_new_id) s label mapped p ↔ StateSteps dwa old_to_new s label mapped p := by
    intro s hs label mapped p
    apply exists_congr
    intro t
    apply and_congr_right
    intro hcarries
    obtain ⟨hlt, weight, hmem, -⟩ := hcarries
    rw [mapped_target_map_candidates]
    intro ht
    -- a target of a state of the bucket is lower than the bucket
    have hlower := height_lt_of_transition hacyclic hs hmem hlt
    rw [(mem_states_by_height.mp ht).2.2.2] at hlower
    exact lt_irrefl h hlower
  refine ⟨hcolored, ?_, ?_, ?_⟩
  · intro i j s t color hs ht hi hj p hpi hpj
    exact statesAgree_of_grouped hpushed hlength rfl hshares hgrouped
      (fun s hs label t p hcarries => hrun.mapped_of_carries hacyclic hpushed hs hcarries)
      hs ht hi hj hpi hpj
  · intro i color hi
    unfold merge_bucket
    cases hbuilders : result.direct_builders with
    | none =>
        dsimp only
        rw [length_merge_all, List.length_replicate]
        exact lt_num_classes (List.mem_of_getElem? hi)
    | some builders =>
        obtain ⟨s, hs⟩ : ∃ s, (states_by_height dwa needed h)[i]? = some s :=
          ⟨_, List.getElem?_eq_getElem (hcolored ▸ (List.getElem?_eq_some_iff.mp hi).1)⟩
        obtain ⟨k, c, members, -, -, hmembers, -⟩ := exists_group rfl hshares hgrouped hs hi
        dsimp only
        rw [← (hdirect builders hbuilders).length_eq]
        exact (List.getElem?_eq_some_iff.mp hmembers).1
  · intro color builder hget
    unfold merge_bucket at hget
    cases hbuilders : result.direct_builders with
    | none =>
        rw [hbuilders] at hget
        exact unites_of_merge hpushed hlength rfl hshares hgrouped hsame hget
    | some builders =>
        rw [hbuilders] at hget
        have hforall := hdirect builders hbuilders
        have hlt : color < groups.length := hforall.length_eq ▸ (List.getElem?_eq_some_iff.mp hget).1
        have hmembers := List.getElem?_eq_getElem hlt
        apply unites_of_builderExact hpushed hlength rfl hshares hgrouped hmembers
        exact (List.forall₂_iff_zip.mp hforall).2
          (List.mem_of_getElem? (List.getElem?_zip_eq_some.mpr ⟨hmembers, hget⟩))

end Exact

/-! ## A bucket of two leaves -/

def bucketTokens (token : ℕ) : TokenSet := RangeSet.ofRanges u32Max [⟨token, token, ()⟩]

def bucketWeight (token : ℕ) : Weight :=
  Weight.from_tsid_runs_shared [⟨3, 3, bucketTokens token⟩] (by
    unfold Weight.InRange
    simp [u32Max])

def bucketDwa : DWA :=
  ⟨[⟨.ofList [(1, 1, bucketWeight 5), (2, 2, bucketWeight 6)], none⟩,
    ⟨.empty, some (bucketWeight 5)⟩, ⟨.empty, some (bucketWeight 6)⟩], 0⟩

def bucketNeeded : List Weight :=
  [(bucketWeight 5).union (bucketWeight 6), bucketWeight 5, bucketWeight 6]

/-- A weight with one entry, whose address is its token. -/
def bucketShared (token : ℕ) (h : token ≠ 0)
    (hs : ([⟨3, 3, token⟩] : List (Run ℕ)).map (deref bucketTokens) = (bucketWeight token).map.runs) :
    SharedWeight bucketTokens :=
  ⟨bucketWeight token, [⟨3, 3, token⟩], hs, by simpa using h⟩

def bucketClasses : List (ClassInput bucketTokens) :=
  let five := bucketShared 5 (by decide) (by decide +kernel)
  let six := bucketShared 6 (by decide) (by decide +kernel)
  [(five, ⟨[], [], some five⟩), (six, ⟨[], [], some six⟩)]

def bucketSettings : PointwiseSettings := ⟨false, false, 0, true, 256, .DescendingDomain, true⟩

theorem states_of_bucketDwa : states_by_height bucketDwa bucketNeeded 0 = [1, 2] := by
  have h0 : bucketDwa.targets 0 = [1, 2] := by decide +kernel
  have h1 : bucketDwa.targets 1 = [] := by decide +kernel
  have h2 : bucketDwa.targets 2 = [] := by decide +kernel
  have hreach : reachableFrom bucketDwa.targets bucketDwa.states.length bucketDwa.start_state =
      [true, true, true] := by
    simp [reachableFrom, reachLoop, bucketDwa] at h0 h1 h2 ⊢
    simp [h0, h1, h2, reachLoop]
  unfold states_by_height
  rw [hreach]
  decide +kernel

theorem classes_of_bucketDwa : @partition_refine_coloring_raw bucketDwa .default (fun _ => 0) [1, 2]
    (List.replicate bucketDwa.states.length none) = [0, 1] := by
  decide +kernel

/-- The two leaves are merged into one state. -/
theorem pointwise_bucket_exact_leaves :
    ∃ result, @pointwise_coloring .default _ bucketSettings [0, 1] bucketClasses = some result ∧
      result.coloring = [0, 0] ∧
      BucketExact bucketDwa bucketNeeded (List.replicate bucketDwa.states.length none)
        (states_by_height bucketDwa bucketNeeded 0)
        (@partition_refine_coloring_raw bucketDwa .default (fun _ => 0)
          (states_by_height bucketDwa bucketNeeded 0)
          (List.replicate bucketDwa.states.length none))
        result.coloring
        (merge_bucket bucketDwa (map_candidates (List.replicate bucketDwa.states.length none)
          (states_by_height bucketDwa bucketNeeded 0) result.coloring 0)
          (states_by_height bucketDwa bucketNeeded 0) result) := by
  let _ := Runtime.default
  let _ := Allocator.default
  have hclasses : partition_refine_coloring_raw bucketDwa (fun _ => 0)
      (states_by_height bucketDwa bucketNeeded 0)
      (List.replicate bucketDwa.states.length none) = [0, 1] := by
    rw [states_of_bucketDwa]
    exact classes_of_bucketDwa
  have hcoloring : (pointwise_coloring bucketSettings [0, 1] bucketClasses).map (·.coloring) =
      some [0, 0] := by
    decide +kernel
  obtain ⟨result, hresult, hcolors⟩ := Option.map_eq_some_iff.mp hcoloring
  refine ⟨result, hresult, hcolors, ?_⟩
  apply pointwise_bucket_exact (by decide +kernel)
    (backwardPushed_of_assert (by decide +kernel)) .start _ bucketSettings 0
    ((congrArg (fun c => pointwise_coloring bucketSettings c bucketClasses) hclasses).trans hresult)
  rw [hclasses, states_of_bucketDwa]
  rfl

end Pointwise

end GlrMask
