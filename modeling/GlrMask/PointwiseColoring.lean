import GlrMask.PointwiseBuilders

/-!
# Pointwise colouring of state classes

The classes of a bucket are profiled, grouped and coloured by group. Two classes
of a group agree wherever both of their domains are, and the builder that is read
off a group has the union of the weights of its members.
-/

namespace GlrMask

namespace Pointwise

structure HybridColoring where
  coloring : List ℕ
  direct_builders : Option (List MergedStateBuilder)

variable {heap : ℕ → TokenSet}

/-- A class with its needed domain and its profile. -/
abbrev ClassInput (heap : ℕ → TokenSet) := SharedWeight heap × ClassProfile (SharedWeight heap)

/-- The profiles of all classes, which share the tables. -/
def build_profiles {P : Type}
    (build_profile : SharedWeight heap → ClassProfile (SharedWeight heap) → PointwiseBuild →
      Option (P × PointwiseBuild))
    (classes : List (ClassInput heap)) (build : PointwiseBuild) : Option (List P × PointwiseBuild) :=
  classes.foldlM (fun acc c =>
    (build_profile c.1 c.2 acc.2).map fun built => (acc.1 ++ [built.1], built.2)) ([], build)

def class_entries {P : Type} (classes : List (ClassInput heap)) (profiles : List P) :
    List (ClassEntry P) :=
  (classes.zip profiles).zipIdx.map fun c => ⟨c.2, c.1.1.2.targets, c.1.2⟩

def MAX_DENSE_POINTWISE_TSID_SLOTS : ℕ := 65536

/-- A dense map if it has few slots and the profiles have as many entries. -/
def behavior_map_layout (profiles : List PointwiseProfile) : PointwiseBehaviorMapLayout :=
  let profile_entries := (profiles.map fun profile => profile.by_tsid.length).sum
  let max_tsid := (profiles.flatMap fun profile => profile.by_tsid.map Prod.fst).max?
  let slots := (max_tsid.map (· + 1)).filter fun slots =>
    slots ≤ MAX_DENSE_POINTWISE_TSID_SLOTS ∧ slots ≤ profile_entries
  slots.elim .Sparse .Dense

def color_by_group {B : Type} (class_coloring : List ℕ) (groups : List (MergeGroup B))
    (classes : ℕ) : List ℕ :=
  class_coloring.map fun c => (class_to_group groups classes).getD c 0

section Coloring

variable [Allocator]

/-- `direct_reconstruct` is the switch for reading the builders off the groups. -/
def try_build_and_color_pointwise (direct_reconstruct : Bool) (class_coloring : List ℕ)
    (classes : List (ClassInput heap)) (pointwise_class_order : PointwiseClassOrder)
    (monotone_pointwise : Bool) (direct_overlay_slots : ℕ) : Option HybridColoring :=
  (build_profiles (fun domain profile build =>
      build_pointwise_profile domain profile build monotone_pointwise) classes
    (.new direct_overlay_slots)).map fun built =>
  let groups := (group_classes (pointwise_maps (behavior_map_layout built.1)) pointwise_class_order
    (class_entries classes built.1) built.2.regions).1
  ⟨color_by_group class_coloring groups classes.length,
    if direct_reconstruct then some (pointwise_groups_to_builders groups built.2.behaviors)
    else none⟩

def POINTWISE_TSID_RANGE_MIN_COMPRESSION : ℕ := 4

def profile_tsid_cells (profiles : List PointwiseRangeProfile) : ℕ :=
  ((profiles.flatMap fun profile => profile.by_tsid_range).map fun range =>
    range.hi - range.lo + 1).sum

/-- With `auto_enabled`, profiles that ranges do not compress are coloured by tsid. -/
def try_build_and_color_pointwise_ranges (auto_enabled : Bool) (overlay_slots : ℕ)
    (class_coloring : List ℕ) (classes : List (ClassInput heap))
    (pointwise_class_order : PointwiseClassOrder) (monotone_pointwise : Bool) :
    Option (List ℕ) :=
  (build_profiles build_pointwise_range_profile classes (.new overlay_slots)).bind fun built =>
  let profile_ranges := (built.1.map fun profile => profile.by_tsid_range.length).sum
  if auto_enabled &&
      profile_ranges * POINTWISE_TSID_RANGE_MIN_COMPRESSION > profile_tsid_cells built.1 then
    (try_build_and_color_pointwise false class_coloring classes pointwise_class_order
      monotone_pointwise 0).map fun result => result.coloring
  else
    let groups := (group_classes pointwise_range_maps pointwise_class_order
      (class_entries classes built.1) built.2.regions).1
    some (color_by_group class_coloring groups classes.length)

end Coloring

/-! ## Points of a class -/

/-- A point of the final weight of a class. -/
def ClassProfile.Final (profile : ClassProfile (SharedWeight heap)) (p : Point) : Prop :=
  ∃ weight ∈ profile.final_weight, p ∈ weight.weight

/-- A point at which a class has a transition to a target. -/
def ClassProfile.Steps (profile : ClassProfile (SharedWeight heap)) (label : Label) (target : ℕ)
    (p : Point) : Prop :=
  profile_target_for_label profile label = some target ∧
    ∃ weight, (label, weight) ∈ profile.weights ∧ p ∈ weight.weight

theorem SharedWeight.lookup_entries (weight : SharedWeight heap) (k : ℕ) :
    weight.weight.map.get k = (weight.token_set_for_tsid_ref k).map heap := by
  unfold RangeMap.get SharedWeight.token_set_for_tsid_ref
  rw [← weight.stored]
  induction weight.entries with
  | nil => rfl
  | cons entry entries ih =>
      rw [List.map_cons, lookupRuns_cons, lookupRuns_cons, ih]
      by_cases hc : entry.Covers k
      · rw [if_pos hc, if_pos (show (deref heap entry).Covers k from hc)]
        rfl
      · rw [if_neg hc, if_neg (show ¬(deref heap entry).Covers k from hc)]

theorem SharedWeight.mem_iff {weight : SharedWeight heap} (h : weight.weight.is_full = false)
    {k x : ℕ} : (some (k, x) : Point) ∈ weight.weight ↔
      ∃ address, weight.token_set_for_tsid_ref k = some address ∧ x ∈ heap address := by
  have hne : weight.weight ≠ Weight.all := by
    intro hall
    rw [Weight.is_full_iff.mpr hall] at h
    cases h
  rw [Weight.mem_iff_of_ne_all hne, weight.lookup_entries]
  simp

theorem SharedWeight.none_not_mem {weight : SharedWeight heap}
    (h : weight.weight.is_full = false) : (none : Point) ∉ weight.weight := by
  intro hnone
  rw [Weight.is_full_iff.mpr (Weight.none_mem_iff.mp hnone)] at h
  cases h

theorem SharedWeight.lt_u32Max {weight : SharedWeight heap} (h : weight.weight.is_full = false)
    {k x : ℕ} (hmem : (some (k, x) : Point) ∈ weight.weight) : k < u32Max ∧ x ≤ u32Max := by
  have hne : weight.weight ≠ Weight.all := by
    intro hall
    rw [Weight.is_full_iff.mpr hall] at h
    cases h
  obtain ⟨tokens, htokens, hx⟩ := (Weight.mem_iff_of_ne_all hne).mp hmem
  have hk := ((Weight.finite_of_ne_all hne).get_ne htokens).1
  have hle := RangeMap.le_of_get htokens
  exact ⟨by omega, le_of_mem hx⟩

theorem forall₂_of_mapM_eq_some {V W : Type} {f : V → Option W} {l : List V} {l' : List W}
    (h : l.mapM f = some l') : List.Forall₂ (fun v w => f v = some w) l l' := by
  induction l generalizing l' with
  | nil =>
      rw [List.mapM_nil] at h
      cases h
      exact .nil
  | cons v l ih =>
      rw [List.mapM_cons] at h
      obtain ⟨w, hw, h⟩ := Option.bind_eq_some_iff.mp h
      obtain ⟨ws, hws, h⟩ := Option.bind_eq_some_iff.mp h
      cases h
      exact .cons hw (ih hws)

theorem mem_profile_transitions {profile : ClassProfile (SharedWeight heap)}
    {transitions : List (ProfileTransition heap)} (h : profile_transitions profile = some transitions)
    {label : Label} {target : ℕ} {weight : SharedWeight heap} :
    (label, target, weight) ∈ transitions ↔ (label, weight) ∈ profile.weights ∧
      profile_target_for_label profile label = some target := by
  have hforall := forall₂_of_mapM_eq_some h
  clear h
  generalize profile.weights = weights at hforall ⊢
  induction hforall with
  | nil => simp
  | cons hhead _ ih =>
      rename_i entry t entries ts _
      obtain ⟨target', htarget, rfl⟩ := Option.map_eq_some_iff.mp hhead
      simp only [List.mem_cons, ih]
      constructor
      · intro hor
        obtain he | hrest := hor
        · cases he
          exact ⟨Or.inl rfl, htarget⟩
        · exact ⟨Or.inr hrest.1, hrest.2⟩
      · intro hand
        obtain ⟨he | hrest, hget⟩ := hand
        · subst he
          rw [htarget] at hget
          cases hget
          exact Or.inl rfl
        · exact Or.inr ⟨hrest, hget⟩

theorem active_at_eq (transitions : List (ProfileTransition heap)) (k : ℕ) :
    active_at transitions k = transitions.filterMap fun t =>
      (t.2.2.token_set_for_tsid_ref k).map fun address => (t.1, t.2.1, address) := by
  unfold active_at active_transitions
  induction transitions with
  | nil => rfl
  | cons t transitions ih =>
      rw [List.map_cons, List.zip_cons_cons, List.filterMap_cons, List.filterMap_cons, ih]

section ClassPoints

variable {domain : SharedWeight heap} {profile : ClassProfile (SharedWeight heap)}
  {transitions : List (ProfileTransition heap)} {k x : ℕ} {behavior : PointwiseBehavior}

theorem weights_not_full (h : any_full domain profile = false) : domain.weight.is_full = false ∧
    (∀ weight ∈ profile.final_weight, weight.weight.is_full = false) ∧
    ∀ entry ∈ profile.weights, entry.2.weight.is_full = false := by
  unfold any_full at h
  rw [Bool.or_eq_false_iff, Bool.or_eq_false_iff, List.any_eq_false] at h
  obtain ⟨⟨hdomain, hfinal⟩, hweights⟩ := h
  refine ⟨hdomain, ?_, fun entry hentry => by simpa using hweights entry hentry⟩
  intro weight hweight
  rw [Option.mem_def.mp hweight, Option.any_some] at hfinal
  exact hfinal

/-- Exactly the points of the domain of a class have a behavior. -/
theorem class_behavior_isSome (transitions : List (ProfileTransition heap))
    (h : any_full domain profile = false) :
    (class_behavior domain profile transitions k x).isSome ↔
      (some (k, x) : Point) ∈ domain.weight := by
  rw [SharedWeight.mem_iff (weights_not_full h).1]
  unfold class_behavior token_behavior
  cases domain.token_set_for_tsid_ref k with
  | none => simp
  | some tokens =>
      rw [Option.bind_some]
      split_ifs with hx
      · simp [hx]
      · simp [hx]

/-- The behavior at a point says whether the point is final and where its labels lead. -/
theorem class_behavior_eq_some (h : any_full domain profile = false)
    (htransitions : profile_transitions profile = some transitions)
    (hb : class_behavior domain profile transitions k x = some behavior) :
    (behavior.final_active = true ↔ profile.Final (some (k, x))) ∧
      ∀ label target, (label, target) ∈ behavior.transitions ↔
        profile.Steps label target (some (k, x)) := by
  obtain ⟨-, hfinal, hweights⟩ := weights_not_full h
  obtain ⟨tokens, -, hb⟩ := Option.bind_eq_some_iff.mp hb
  unfold token_behavior at hb
  split_ifs at hb
  cases hb
  refine ⟨?_, ?_⟩
  · unfold final_at ClassProfile.Final
    cases hweight : profile.final_weight with
    | none => simp
    | some weight =>
        have hmem := SharedWeight.mem_iff (hfinal weight hweight) (k := k) (x := x)
        simp [hmem, Option.any_eq_true]
  · intro label target
    have hactive : ∀ address, (label, target, address) ∈ active_at transitions k ↔
        ∃ weight, (label, target, weight) ∈ transitions ∧
          weight.token_set_for_tsid_ref k = some address := by
      intro address
      rw [active_at_eq, List.mem_filterMap]
      constructor
      · intro hex
        obtain ⟨t, ht, hmap⟩ := hex
        obtain ⟨a, ha, he⟩ := Option.map_eq_some_iff.mp hmap
        cases he
        exact ⟨t.2.2, ht, ha⟩
      · intro hex
        obtain ⟨weight, hweight, haddress⟩ := hex
        exact ⟨(label, target, weight), hweight, Option.map_eq_some_iff.mpr ⟨address, haddress, rfl⟩⟩
    simp only [List.mem_map, List.mem_filter, decide_eq_true_eq, ClassProfile.Steps]
    constructor
    · intro hex
      obtain ⟨⟨l, t, address⟩, ⟨hmem, hx⟩, he⟩ := hex
      cases he
      obtain ⟨weight, hweight, haddress⟩ := (hactive address).mp hmem
      obtain ⟨hmemw, htarget⟩ := (mem_profile_transitions htransitions).mp hweight
      exact ⟨htarget, weight, hmemw,
        (SharedWeight.mem_iff (hweights _ hmemw)).mpr ⟨address, haddress, hx⟩⟩
    · intro hex
      obtain ⟨htarget, weight, hmemw, hp⟩ := hex
      obtain ⟨address, haddress, hx⟩ := (SharedWeight.mem_iff (hweights _ hmemw)).mp hp
      refine ⟨(label, target, address), ⟨(hactive address).mpr ⟨weight, ?_, haddress⟩, hx⟩, rfl⟩
      exact (mem_profile_transitions htransitions).mpr ⟨hmemw, htarget⟩

end ClassPoints

/-! ## Profiles of all classes -/

/-- A complete profile: its regions are interned and give the behavior of its class. -/
structure Profiled {P : Type} (profile_at : P → ℕ → Option Region) (profile_ok : P → Prop)
    (build : PointwiseBuild) (c : ClassInput heap) (profile : P) : Prop where
  not_full : any_full c.1 c.2 = false
  ok : profile_ok profile
  known : Known build.regions (profile_at profile)
  means : ∃ transitions, profile_transitions c.2 = some transitions ∧ ∀ k x,
    Means build.behaviors.values (numbers (profile_at profile) (k, x))
      (class_behavior c.1 c.2 transitions k x)

section Profiles

variable {P : Type} {profile_at : P → ℕ → Option Region} {profile_ok : P → Prop}
  {build : PointwiseBuild} {c : ClassInput heap} {profile : P}

theorem Profiled.later (h : Profiled profile_at profile_ok build c profile)
    {build' : PointwiseBuild} (hgrows : build.Extends build') :
    Profiled profile_at profile_ok build' c profile := by
  obtain ⟨transitions, htransitions, hmeans⟩ := h.means
  exact ⟨h.not_full, h.ok, h.known.later hgrows.regions.subset, transitions, htransitions,
    fun k x => (hmeans k x).later hgrows.values⟩

/-- A point of the domain has a number, which stands for the behavior there. -/
theorem Profiled.of_mem (h : Profiled profile_at profile_ok build c profile) {k x : ℕ}
    (hmem : (some (k, x) : Point) ∈ c.1.weight) :
    ∃ id behavior, numbers (profile_at profile) (k, x) = some id ∧
      build.behaviors.values[id]? = some behavior ∧
      (behavior.final_active = true ↔ c.2.Final (some (k, x))) ∧
      ∀ label target, (label, target) ∈ behavior.transitions ↔
        c.2.Steps label target (some (k, x)) := by
  obtain ⟨transitions, htransitions, hmeans⟩ := h.means
  have hsome := (class_behavior_isSome transitions h.not_full).mpr hmem
  obtain ⟨behavior, hbehavior⟩ := Option.isSome_iff_exists.mp hsome
  have hm := hmeans k x
  rw [hbehavior] at hm
  obtain ⟨id, hid, hvalue⟩ := Option.map_eq_some_iff.mp hm
  obtain ⟨hfinal, hsteps⟩ := class_behavior_eq_some h.not_full htransitions hbehavior
  exact ⟨id, behavior, hid, hvalue, hfinal, hsteps⟩

theorem Profiled.mem_of_number (h : Profiled profile_at profile_ok build c profile) {k x id : ℕ}
    (hid : numbers (profile_at profile) (k, x) = some id) :
    (some (k, x) : Point) ∈ c.1.weight := by
  obtain ⟨transitions, -, hmeans⟩ := h.means
  have hm := hmeans k x
  rw [hid] at hm
  obtain ⟨behavior, -, hbehavior⟩ := hm.of_some
  rw [← class_behavior_isSome transitions h.not_full, hbehavior]
  rfl

theorem build_profiles_spec (profile_at : P → ℕ → Option Region) (profile_ok : P → Prop)
    {build_profile : SharedWeight heap → ClassProfile (SharedWeight heap) → PointwiseBuild →
      Option (P × PointwiseBuild)}
    (hprofile : ∀ domain profile build, build.Valid heap →
      Ensures (build_profile domain profile build) fun built =>
        built.2.Valid heap ∧ build.Extends built.2 ∧
          Profiled profile_at profile_ok built.2 (domain, profile) built.1)
    (classes : List (ClassInput heap)) (hbuild : build.Valid heap) :
    Ensures (build_profiles build_profile classes build) fun built =>
      built.2.Valid heap ∧
        List.Forall₂ (Profiled profile_at profile_ok built.2) classes built.1 := by
  have hstart : build.Valid heap ∧ List.Forall₂ (Profiled profile_at profile_ok build)
      ([] : List (ClassInput heap)) ([] : List P) := ⟨hbuild, .nil⟩
  refine Ensures.foldlM (P := fun (done : List (ClassInput heap)) (acc : List P × PointwiseBuild) =>
    acc.2.Valid heap ∧ List.Forall₂ (Profiled profile_at profile_ok acc.2) done acc.1) [] hstart ?_
  intro done c acc _ hacc
  apply Ensures.map
  refine Ensures.mono (hprofile c.1 c.2 acc.2 hacc.1) ?_
  intro built hbuilt
  obtain ⟨hvalid, hgrows, hprofiled⟩ := hbuilt
  refine ⟨hvalid, List.rel_append (hacc.2.imp fun _ _ hd => hd.later hgrows) ?_⟩
  exact .cons hprofiled .nil

end Profiles

/-! ## Coloured classes -/

/-- Two classes agree: a label has one target in both, and where both domains are, they have the
same final points and the same steps. -/
structure ClassesAgree (c d : ClassInput heap) : Prop where
  targets : ∀ label t t', profile_target_for_label c.2 label = some t →
    profile_target_for_label d.2 label = some t' → t = t'
  final : ∀ p, p ∈ c.1.weight → p ∈ d.1.weight → (c.2.Final p ↔ d.2.Final p)
  steps : ∀ p, p ∈ c.1.weight → p ∈ d.1.weight → ∀ label target,
    c.2.Steps label target p ↔ d.2.Steps label target p

/-- A builder with exactly the points of a list of classes, within their domains. -/
structure BuilderExact (members : List (ClassInput heap)) (builder : MergedStateBuilder) : Prop where
  final : ∀ p, builder.Final p ↔ ∃ c ∈ members, p ∈ c.1.weight ∧ c.2.Final p
  steps : ∀ label target p, builder.Steps label target p ↔
    ∃ c ∈ members, p ∈ c.1.weight ∧ c.2.Steps label target p

/-- The classes of a list of numbers. -/
def numbered (classes : List (ClassInput heap)) (numbers : List ℕ) : List (ClassInput heap) :=
  numbers.filterMap fun c => classes[c]?

/-- A colouring by groups of classes that agree. -/
structure Grouped (classes : List (ClassInput heap)) (class_coloring coloring : List ℕ)
    (groups : List (List ℕ)) : Prop where
  members : groups.flatten.Perm (List.range classes.length)
  colored : List.Forall₂ (fun c color => c < classes.length →
    ∃ members, groups[color]? = some members ∧ c ∈ members) class_coloring coloring
  agree : ∀ members ∈ groups, ∀ c ∈ numbered classes members, ∀ d ∈ numbered classes members,
    ClassesAgree c d

section Groups

variable {B P : Type} {group_at : B → ℕ → Option Region} {profile_at : P → ℕ → Option Region}
  {group_ok : B → Prop} {profile_ok : P → Prop} {build : PointwiseBuild}
  {classes : List (ClassInput heap)} {profiles : List P}

/-- Every entry is that of its class. -/
theorem class_entries_spec
    (h : List.Forall₂ (Profiled profile_at profile_ok build) classes profiles) :
    ((class_entries classes profiles).map (·.index)) = List.range classes.length ∧
      ∀ entry ∈ class_entries classes profiles, ∃ c, classes[entry.index]? = some c ∧
        Profiled profile_at profile_ok build c entry.profile ∧ entry.targets = c.2.targets := by
  refine ⟨?_, ?_⟩
  · have hlength : (classes.zip profiles).length = classes.length := by
      rw [List.length_zip, h.length_eq, min_self]
    rw [class_entries, List.map_map]
    change (classes.zip profiles).zipIdx.map Prod.snd = _
    rw [List.zipIdx_map_snd, hlength, List.range_eq_range']
  · intro entry hentry
    obtain ⟨c, hc, rfl⟩ := List.mem_map.mp hentry
    have hget := List.mem_zipIdx_iff_getElem?.mp hc
    obtain ⟨hclass, hprofile⟩ := List.getElem?_zip_eq_some.mp hget
    refine ⟨c.1.1, hclass, ?_, rfl⟩
    exact (List.forall₂_iff_zip.mp h).2 (List.mem_of_getElem? hget)

/-- The behaviors of a group are those of its members. -/
theorem shown_group {interner : PointwiseBehaviorInterner} {regions : PointwiseRegionInterner}
    {group : MergeGroup B} {entries : List (ClassEntry P)}
    (h : GroupHolds group_at profile_at group_ok regions group entries)
    {Q : PointwiseBehavior → Prop} {p : Point} :
    Shown interner (group_at group.behavior_by_tsid) Q p ↔
      ∃ entry ∈ entries, Shown interner (profile_at entry.profile) Q p := by
  constructor
  · intro hshown
    obtain ⟨k, x, id, rfl, hid, hQ⟩ := hshown
    obtain ⟨part, hpart, hid⟩ := h.behaviors.covered _ _ hid
    obtain ⟨entry, hentry, rfl⟩ := List.mem_map.mp hpart
    exact ⟨entry, hentry, k, x, id, rfl, hid, hQ⟩
  · intro hex
    obtain ⟨entry, hentry, k, x, id, rfl, hid, hQ⟩ := hex
    exact ⟨k, x, id, rfl, h.behaviors.contains _ (List.mem_map_of_mem hentry) _ _ hid, hQ⟩

theorem get_of_value {interner : PointwiseBehaviorInterner} {id : ℕ} {behavior : PointwiseBehavior}
    (h : interner.values[id]? = some behavior) : interner.get id = behavior := by
  rw [PointwiseBehaviorInterner.get, List.getD_eq_getElem?_getD, h, Option.getD_some]

variable {c d : ClassInput heap} {profile profile' : P}

theorem Profiled.shown_final (h : Profiled profile_at profile_ok build c profile) {p : Point} :
    Shown build.behaviors (profile_at profile) (fun behavior => behavior.final_active = true) p ↔
      p ∈ c.1.weight ∧ c.2.Final p := by
  constructor
  · intro hshown
    obtain ⟨k, x, id, rfl, hid, hfinal⟩ := hshown
    have hmem := h.mem_of_number hid
    obtain ⟨id', behavior, hid', hvalue, hiff, -⟩ := h.of_mem hmem
    obtain rfl : id = id' := Option.some.inj (hid.symm.trans hid')
    rw [get_of_value hvalue] at hfinal
    exact ⟨hmem, hiff.mp hfinal⟩
  · intro hand
    obtain ⟨hmem, hfinal⟩ := hand
    cases p with
    | none => exact absurd hmem (SharedWeight.none_not_mem (weights_not_full h.not_full).1)
    | some q =>
        obtain ⟨id, behavior, hid, hvalue, hiff, -⟩ := h.of_mem hmem
        exact ⟨q.1, q.2, id, rfl, hid, (get_of_value hvalue).symm ▸ hiff.mpr hfinal⟩

theorem Profiled.shown_label (h : Profiled profile_at profile_ok build c profile) {label : Label}
    {p : Point} :
    Shown build.behaviors (profile_at profile) (fun behavior => label ∈ behavior.labels) p ↔
      p ∈ c.1.weight ∧ ∃ target, c.2.Steps label target p := by
  have hlabels : ∀ {behavior : PointwiseBehavior}, label ∈ behavior.labels ↔
      ∃ target, (label, target) ∈ behavior.transitions := by
    intro behavior
    rw [PointwiseBehavior.labels, List.mem_map]
    constructor
    · intro hex
      obtain ⟨t, ht, rfl⟩ := hex
      exact ⟨t.2, ht⟩
    · intro hex
      obtain ⟨target, ht⟩ := hex
      exact ⟨(label, target), ht, rfl⟩
  constructor
  · intro hshown
    obtain ⟨k, x, id, rfl, hid, hlabel⟩ := hshown
    have hmem := h.mem_of_number hid
    obtain ⟨id', behavior, hid', hvalue, -, hsteps⟩ := h.of_mem hmem
    obtain rfl : id = id' := Option.some.inj (hid.symm.trans hid')
    rw [get_of_value hvalue] at hlabel
    obtain ⟨target, ht⟩ := hlabels.mp hlabel
    exact ⟨hmem, target, (hsteps label target).mp ht⟩
  · intro hand
    obtain ⟨hmem, target, hstep⟩ := hand
    cases p with
    | none => exact absurd hmem (SharedWeight.none_not_mem (weights_not_full h.not_full).1)
    | some q =>
        obtain ⟨id, behavior, hid, hvalue, -, hsteps⟩ := h.of_mem hmem
        refine ⟨q.1, q.2, id, rfl, hid, ?_⟩
        rw [get_of_value hvalue]
        exact hlabels.mpr ⟨target, (hsteps label target).mpr hstep⟩

/-- Two classes whose numbers agree wherever both have one have the same behaviors there. -/
theorem Profiled.agree (hc : Profiled profile_at profile_ok build c profile)
    (hd : Profiled profile_at profile_ok build d profile')
    (h : ∀ at_point v w, numbers (profile_at profile) at_point = some v →
      numbers (profile_at profile') at_point = some w → v = w) {p : Point} (hpc : p ∈ c.1.weight)
    (hpd : p ∈ d.1.weight) : (c.2.Final p ↔ d.2.Final p) ∧
      ∀ label target, c.2.Steps label target p ↔ d.2.Steps label target p := by
  cases p with
  | none => exact absurd hpc (SharedWeight.none_not_mem (weights_not_full hc.not_full).1)
  | some q =>
      obtain ⟨id, behavior, hid, hvalue, hfinal, hsteps⟩ := hc.of_mem hpc
      obtain ⟨id', behavior', hid', hvalue', hfinal', hsteps'⟩ := hd.of_mem hpd
      obtain rfl := h _ _ _ hid hid'
      obtain rfl : behavior = behavior' := Option.some.inj (hvalue.symm.trans hvalue')
      refine ⟨hfinal.symm.trans hfinal', ?_⟩
      intro label target
      exact (hsteps label target).symm.trans (hsteps' label target)

section Exact

variable {regions : PointwiseRegionInterner} {group : MergeGroup B}
  {entries : List (ClassEntry P)}

/-- The entries of a group's members are those of their classes. -/
def EntriesOf (profile_at : P → ℕ → Option Region) (profile_ok : P → Prop) (build : PointwiseBuild)
    (classes : List (ClassInput heap)) (entries : List (ClassEntry P)) : Prop :=
  ∀ entry ∈ entries, ∃ c, classes[entry.index]? = some c ∧
    Profiled profile_at profile_ok build c entry.profile ∧ entry.targets = c.2.targets

theorem mem_numbered (h : GroupHolds group_at profile_at group_ok regions group entries)
    (hentries : EntriesOf profile_at profile_ok build classes entries) {c : ClassInput heap} :
    c ∈ numbered classes group.member_classes ↔ ∃ entry ∈ entries,
      classes[entry.index]? = some c ∧ Profiled profile_at profile_ok build c entry.profile ∧
        entry.targets = c.2.targets := by
  rw [numbered, h.indices, List.filterMap_map, List.mem_filterMap]
  constructor
  · intro hex
    obtain ⟨entry, hentry, hc⟩ := hex
    obtain ⟨c', hc', hprofiled, htargets⟩ := hentries entry hentry
    obtain rfl : c = c' := Option.some.inj (hc.symm.trans hc')
    exact ⟨entry, hentry, hc', hprofiled, htargets⟩
  · intro hex
    obtain ⟨entry, hentry, hc, -⟩ := hex
    exact ⟨entry, hentry, hc⟩

/-- The members of a group agree. -/
theorem classesAgree_of_holds (h : GroupHolds group_at profile_at group_ok regions group entries)
    (hentries : EntriesOf profile_at profile_ok build classes entries) {c d : ClassInput heap}
    (hc : c ∈ numbered classes group.member_classes)
    (hd : d ∈ numbered classes group.member_classes) : ClassesAgree c d := by
  obtain ⟨entry, hentry, -, hprofiled, htargets⟩ := (mem_numbered h hentries).mp hc
  obtain ⟨entry', hentry', -, hprofiled', htargets'⟩ := (mem_numbered h hentries).mp hd
  have hnumbers : ∀ at_point v w, numbers (profile_at entry.profile) at_point = some v →
      numbers (profile_at entry'.profile) at_point = some w → v = w := fun at_point v w hv hw =>
    h.behaviors.agree (List.mem_map_of_mem hentry) (List.mem_map_of_mem hentry') hv hw
  refine ⟨?_, fun p hpc hpd => (hprofiled.agree hprofiled' hnumbers hpc hpd).1,
    fun p hpc hpd => (hprofiled.agree hprofiled' hnumbers hpc hpd).2⟩
  intro label t t' ht ht'
  apply h.targets.agree (List.mem_map_of_mem hentry) (List.mem_map_of_mem hentry')
  · rw [htargets]
    exact ht
  · rw [htargets']
    exact ht'

end Exact

/-- The builder of a group has the points of its members. -/
theorem builderExact_of_builds {regions : PointwiseRegionInterner} {group : PointwiseMergeGroup}
    {entries : List (ClassEntry P)} {group_ok : PointwiseBehaviorMap → Prop}
    {builder : MergedStateBuilder} (hbuilds : Builds build.behaviors group builder)
    (h : GroupHolds PointwiseBehaviorMap.get profile_at group_ok regions group entries)
    (hentries : EntriesOf profile_at profile_ok build classes entries) :
    BuilderExact (numbered classes group.member_classes) builder := by
  refine ⟨?_, ?_⟩
  · intro p
    rw [hbuilds.final, shown_group h]
    constructor
    · intro hex
      obtain ⟨entry, hentry, hshown⟩ := hex
      obtain ⟨c, hc, hprofiled, htargets⟩ := hentries entry hentry
      exact ⟨c, (mem_numbered h hentries).mpr ⟨entry, hentry, hc, hprofiled, htargets⟩,
        hprofiled.shown_final.mp hshown⟩
    · intro hex
      obtain ⟨c, hc, hp⟩ := hex
      obtain ⟨entry, hentry, -, hprofiled, -⟩ := (mem_numbered h hentries).mp hc
      exact ⟨entry, hentry, hprofiled.shown_final.mpr hp⟩
  · intro label target p
    rw [hbuilds.steps, shown_group h]
    -- the target of a label in a group is its target in every member that has one
    have htarget : ∀ {entry c}, entry ∈ entries → entry.targets = c.2.targets → ∀ {t p},
        (c : ClassInput heap).2.Steps label t p → group.targets_by_label.get label = some t := by
      intro entry c hentry htargets t p hstep
      apply h.targets.contains _ (List.mem_map_of_mem hentry)
      rw [htargets]
      exact hstep.1
    constructor
    · intro hand
      obtain ⟨hget, entry, hentry, hshown⟩ := hand
      obtain ⟨c, hc, hprofiled, htargets⟩ := hentries entry hentry
      obtain ⟨hmem, t, hstep⟩ := hprofiled.shown_label.mp hshown
      obtain rfl : t = target :=
        Option.some.inj ((htarget hentry htargets hstep).symm.trans hget)
      exact ⟨c, (mem_numbered h hentries).mpr ⟨entry, hentry, hc, hprofiled, htargets⟩, hmem, hstep⟩
    · intro hex
      obtain ⟨c, hc, hmem, hstep⟩ := hex
      obtain ⟨entry, hentry, -, hprofiled, htargets⟩ := (mem_numbered h hentries).mp hc
      exact ⟨htarget hentry htargets hstep, entry, hentry,
        hprofiled.shown_label.mpr ⟨hmem, target, hstep⟩⟩

/-- Grouping the classes of profiles colours them. -/
theorem grouped_of_holds {ops : BehaviorMaps B P}
    (hops : ops.Exact group_at profile_at group_ok profile_ok) (hvalid : build.Valid heap)
    (hprofiles : List.Forall₂ (Profiled profile_at profile_ok build) classes profiles)
    (hlabels : ∀ c ∈ classes, (c.2.targets.map Prod.fst).Nodup)
    (pointwise_class_order : PointwiseClassOrder) (class_coloring : List ℕ)
    {groups : List (MergeGroup B)} {regions : PointwiseRegionInterner}
    (hgroups : group_classes ops pointwise_class_order (class_entries classes profiles)
      build.regions = (groups, regions)) :
    regions.Valid ∧
      Grouped classes class_coloring (color_by_group class_coloring groups classes.length)
        (groups.map (·.member_classes)) ∧
      ∀ group ∈ groups, ∃ entries, GroupHolds group_at profile_at group_ok regions group entries ∧
        EntriesOf profile_at profile_ok build classes entries := by
  obtain ⟨hindices, hentries⟩ := class_entries_spec hprofiles
  have hok : ∀ entry ∈ class_entries classes profiles,
      entry.Ok profile_at profile_ok build.regions := by
    intro entry hentry
    obtain ⟨c, hc, hprofiled, htargets⟩ := hentries entry hentry
    refine ⟨hprofiled.ok, hprofiled.known, ?_⟩
    rw [htargets]
    exact hlabels c (List.mem_of_getElem? hc)
  have hspec := group_classes_spec hops pointwise_class_order hvalid.regions hok
  rw [hgroups] at hspec
  obtain ⟨hregions, members, hholds, hperm⟩ := hspec
  dsimp only at hregions hholds
  have hgroup : ∀ group ∈ groups, ∃ entries,
      GroupHolds group_at profile_at group_ok regions group entries ∧
        EntriesOf profile_at profile_ok build classes entries := by
    intro group hgroup
    obtain ⟨entries, hmem, hgroup⟩ := exists_of_forall₂ hholds.flip hgroup
    refine ⟨entries, hgroup, ?_⟩
    intro entry hentry
    exact hentries entry (hperm.subset (List.mem_flatten.mpr ⟨entries, hmem, hentry⟩))
  have hflatten : (groups.map (·.member_classes)).flatten = members.flatten.map (·.index) := by
    clear hperm hgroup hgroups hregions
    induction hholds with
    | nil => rfl
    | cons hhead _ ih =>
        rw [List.map_cons, List.flatten_cons, List.flatten_cons, List.map_append, hhead.indices, ih]
  have hmembers : (groups.map (·.member_classes)).flatten.Perm (List.range classes.length) := by
    rw [hflatten, ← hindices]
    exact hperm.map _
  refine ⟨hregions, ⟨hmembers, ?_, ?_⟩, hgroup⟩
  · rw [color_by_group, List.forall₂_map_right_iff, List.forall₂_same]
    intro c _ hlt
    obtain ⟨l, hl, hc⟩ := List.mem_flatten.mp (hmembers.symm.subset (List.mem_range.mpr hlt))
    obtain ⟨group, hmem, rfl⟩ := List.mem_map.mp hl
    obtain ⟨id, hid⟩ := List.mem_iff_getElem?.mp hmem
    refine ⟨group.member_classes, ?_, hc⟩
    rw [List.getD_eq_getElem?_getD, class_to_group_spec hmembers hid hc, Option.getD_some,
      List.getElem?_map, hid, Option.map_some]
  · intro l hl c hc d hd
    obtain ⟨group, hmem, rfl⟩ := List.mem_map.mp hl
    obtain ⟨entries, hholds, hentries⟩ := hgroup group hmem
    exact classesAgree_of_holds hholds hentries hc hd

end Groups

section Results

variable {classes : List (ClassInput heap)}

theorem lt_of_lookup_of_layout {profiles : List PointwiseProfile} {profile : PointwiseProfile}
    (hprofile : profile ∈ profiles) {k : ℕ} (hk : k ∈ profile.by_tsid.map Prod.fst) :
    (behavior_map_layout profiles).Fits k := by
  unfold behavior_map_layout
  dsimp only
  cases hslots : ((profiles.flatMap fun profile => profile.by_tsid.map Prod.fst).max?.map
      (· + 1)).filter fun slots => slots ≤ MAX_DENSE_POINTWISE_TSID_SLOTS ∧
        slots ≤ (profiles.map fun profile => profile.by_tsid.length).sum with
  | none => trivial
  | some slots =>
      obtain ⟨hmax, -⟩ := Option.filter_eq_some_iff.mp hslots
      obtain ⟨max_tsid, hmax_tsid, rfl⟩ := Option.map_eq_some_iff.mp hmax
      have hle := (List.max?_le_iff hmax_tsid).mp le_rfl k (List.mem_flatMap.mpr ⟨profile, hprofile, hk⟩)
      exact Nat.lt_succ_of_le hle

variable [Allocator]

/-- The profiles by tsid of all classes. -/
theorem pointwise_profiles_spec (monotone_pointwise : Bool) (slots : ℕ) :
    Ensures (build_profiles (fun domain profile build =>
        build_pointwise_profile domain profile build monotone_pointwise) classes (.new slots))
      fun built => built.2.Valid heap ∧
        List.Forall₂ (Profiled (fun (profile : PointwiseProfile) k => profile.by_tsid.lookup k)
          (fun profile => profile.Fits (behavior_map_layout built.1)) built.2) classes built.1 := by
  refine Ensures.mono (build_profiles_spec (fun (profile : PointwiseProfile) k =>
    profile.by_tsid.lookup k) (fun profile => (profile.by_tsid.map Prod.fst).Nodup) ?_ classes (PointwiseBuild.valid_new heap slots)) ?_
  · intro domain profile build hbuild
    refine Ensures.mono (build_pointwise_profile_spec hbuild monotone_pointwise) ?_
    intro built hbuilt
    obtain ⟨hfull, transitions, htransitions, hnodup, hmeans⟩ := hbuilt
    exact ⟨hmeans.valid, hmeans.grows, hfull, hnodup, hmeans.known, transitions, htransitions,
      hmeans.means⟩
  · intro built hbuilt
    refine ⟨hbuilt.1, ?_⟩
    apply List.forall₂_iff_zip.mpr
    refine ⟨hbuilt.2.length_eq, ?_⟩
    intro c profile hmem
    have hprofiled := (List.forall₂_iff_zip.mp hbuilt.2).2 hmem
    refine ⟨hprofiled.not_full, ⟨hprofiled.ok, ?_⟩, hprofiled.known, hprofiled.means⟩
    intro k hk
    exact lt_of_lookup_of_layout (List.of_mem_zip hmem).2 hk

/-- The colouring of classes by tsid, with the builders that are read off the groups. -/
theorem try_build_and_color_pointwise_spec (hlabels : ∀ c ∈ classes, (c.2.targets.map Prod.fst).Nodup)
    (direct_reconstruct : Bool) (class_coloring : List ℕ)
    (pointwise_class_order : PointwiseClassOrder) (monotone_pointwise : Bool)
    (direct_overlay_slots : ℕ) :
    Ensures (try_build_and_color_pointwise direct_reconstruct class_coloring classes
      pointwise_class_order monotone_pointwise direct_overlay_slots) fun result =>
        ∃ groups, Grouped classes class_coloring result.coloring groups ∧
          ∀ builders ∈ result.direct_builders, List.Forall₂ (fun members builder =>
            BuilderExact (numbered classes members) builder) groups builders := by
  unfold try_build_and_color_pointwise
  apply Ensures.map
  refine Ensures.mono (pointwise_profiles_spec monotone_pointwise direct_overlay_slots) ?_
  intro built hbuilt
  obtain ⟨hvalid, hprofiles⟩ := hbuilt
  dsimp only
  cases hgrouped : group_classes (pointwise_maps (behavior_map_layout built.1))
    pointwise_class_order (class_entries classes built.1) built.2.regions with
  | mk groups regions =>
      obtain ⟨hregions, hcolored, hgroups⟩ := grouped_of_holds
        (pointwise_maps_exact (behavior_map_layout built.1)) hvalid hprofiles hlabels
        pointwise_class_order class_coloring hgrouped
      refine ⟨groups.map (·.member_classes), hcolored, ?_⟩
      intro builders hbuilders
      split_ifs at hbuilders
      · cases hbuilders
        rw [List.forall₂_map_left_iff]
        have hpoints : ∀ group ∈ groups, Known regions group.behavior_by_tsid.get ∧
            ∀ k x id, numbers group.behavior_by_tsid.get (k, x) = some id →
              k < u32Max ∧ x ≤ u32Max := by
          intro group hgroup
          obtain ⟨entries, hholds, hentries⟩ := hgroups group hgroup
          refine ⟨hholds.known, ?_⟩
          intro k x id hid
          obtain ⟨part, hpart, hpart_id⟩ := hholds.behaviors.covered _ _ hid
          obtain ⟨entry, hentry, rfl⟩ := List.mem_map.mp hpart
          obtain ⟨c, -, hprofiled, -⟩ := hentries entry hentry
          exact SharedWeight.lt_u32Max (weights_not_full hprofiled.not_full).1
            (hprofiled.mem_of_number hpart_id)
        have hbuilds := pointwise_groups_to_builders_spec built.2.behaviors hregions hpoints
        apply List.forall₂_iff_zip.mpr
        refine ⟨hbuilds.length_eq, ?_⟩
        intro group builder hmem
        obtain ⟨entries, hholds, hentries⟩ := hgroups group (List.of_mem_zip hmem).1
        exact builderExact_of_builds ((List.forall₂_iff_zip.mp hbuilds).2 hmem) hholds hentries
      · cases hbuilders

/-- The colouring of classes by ranges of tsids. -/
theorem try_build_and_color_pointwise_ranges_spec
    (hlabels : ∀ c ∈ classes, (c.2.targets.map Prod.fst).Nodup) (auto_enabled : Bool)
    (overlay_slots : ℕ) (class_coloring : List ℕ) (pointwise_class_order : PointwiseClassOrder)
    (monotone_pointwise : Bool) :
    Ensures (try_build_and_color_pointwise_ranges auto_enabled overlay_slots class_coloring classes
      pointwise_class_order monotone_pointwise) fun coloring =>
        ∃ groups, Grouped classes class_coloring coloring groups := by
  unfold try_build_and_color_pointwise_ranges
  refine Ensures.bind (build_profiles_spec (fun (profile : PointwiseRangeProfile) =>
    lookupRuns profile.by_tsid_range) (fun profile => Ordered profile.by_tsid_range) ?_ classes (PointwiseBuild.valid_new heap overlay_slots)) ?_
  · intro domain profile build hbuild
    refine Ensures.mono (build_pointwise_range_profile_spec hbuild) ?_
    intro built hbuilt
    obtain ⟨hfull, transitions, htransitions, hordered, hmeans⟩ := hbuilt
    exact ⟨hmeans.valid, hmeans.grows, hfull, hordered, hmeans.known, transitions, htransitions,
      hmeans.means⟩
  · intro built hbuilt
    obtain ⟨hvalid, hprofiles⟩ := hbuilt
    dsimp only
    split_ifs
    · apply Ensures.map
      refine Ensures.mono (try_build_and_color_pointwise_spec hlabels false class_coloring
        pointwise_class_order monotone_pointwise 0) ?_
      intro result hresult
      obtain ⟨groups, hgrouped, -⟩ := hresult
      exact ⟨groups, hgrouped⟩
    · apply Ensures.some
      cases hgrouped : group_classes pointwise_range_maps pointwise_class_order
        (class_entries classes built.1) built.2.regions with
      | mk groups regions =>
          obtain ⟨-, hcolored, -⟩ := grouped_of_holds pointwise_range_maps_exact hvalid hprofiles
            hlabels pointwise_class_order class_coloring hgrouped
          exact ⟨groups.map (·.member_classes), hcolored⟩

end Results

end Pointwise

end GlrMask
