import GlrMask.ParserEquivalence

/-!
# Exactness of the mask comparison

Visiting the regions of an item lists every successor of its points that was not
listed before, each on the word of the item and one label more.
-/

namespace GlrMask

namespace ParserEquivalence

open PairSearch

/-! ## Discoveries -/

/-- The points that are listed, each at its pair of states. -/
def visitedSet (progress : Progress) : Set (StatePair × Point) :=
  {x | ∃ w ∈ progress.visited.lookup x.1, x.2 ∈ w}

def Item.batch (item : Item) : Batch (StatePair × Point) ℕ :=
  ({x | x.1 = item.pair ∧ x.2 ∈ item.domain}, item.word)

/-- Pairs are listed with regions that have a point. -/
def Inhabited (progress : Progress) : Prop :=
  ∀ pair, ∀ w ∈ progress.visited.lookup pair, ∃ p, p ∈ w

abbrev Target := (StatePair × Point) × List ℕ

/-- From one state of the search to another, the targets that were not listed are queued. -/
structure Discovers (targets : Set Target) (before after : Progress) : Prop where
  appended : ∃ fresh : List Item, after.queue = before.queue ++ fresh ∧
    visitedSet after = visitedSet before ∪ mentioned (fresh.map Item.batch) ∧
    ∀ item ∈ fresh, (∃ p, p ∈ item.domain) ∧
      ∀ p ∈ item.domain, ((item.pair, p), item.word) ∈ targets
  complete : ∀ x ∈ targets, x.1 ∈ visitedSet after
  bounded : ∀ within : Set (StatePair × Point), within.Finite → (∀ x ∈ targets, x.1 ∈ within) →
    outstanding within (visitedSet after) after.queue.length ≤
      outstanding within (visitedSet before) before.queue.length
  inhabited : Inhabited before → Inhabited after

/-- Nothing is listed outside a set, and no pair without a point. -/
structure Fits (within : Set (StatePair × Point)) (progress : Progress) : Prop where
  subset : visitedSet progress ⊆ within
  inhabited : Inhabited progress

namespace Discovers

variable {targets targets' : Set Target} {before middle after : Progress}

theorem refl (progress : Progress) : Discovers ∅ progress progress where
  appended := ⟨[], by simp [mentioned]⟩
  complete x hx := absurd hx (Set.notMem_empty x)
  bounded _ _ _ := le_rfl
  inhabited h := h

theorem trans (h : Discovers targets before middle) (h' : Discovers targets' middle after) :
    Discovers (targets ∪ targets') before after := by
  obtain ⟨fresh, hqueue, hvisited, hfresh⟩ := h.appended
  obtain ⟨fresh', hqueue', hvisited', hfresh'⟩ := h'.appended
  constructor
  · refine ⟨fresh ++ fresh', ?_, ?_, fun item hitem => ?_⟩
    · rw [hqueue', hqueue, List.append_assoc]
    · rw [hvisited', hvisited, List.map_append, mentioned_append, Set.union_assoc]
    · rcases List.mem_append.mp hitem with hitem | hitem
      · exact ⟨(hfresh item hitem).1, fun p hp => Or.inl ((hfresh item hitem).2 p hp)⟩
      · exact ⟨(hfresh' item hitem).1, fun p hp => Or.inr ((hfresh' item hitem).2 p hp)⟩
  · intro x hx
    rcases hx with hx | hx
    · rw [hvisited']
      exact Or.inl (h.complete x hx)
    · exact h'.complete x hx
  · intro within hfin hwithin
    exact (h'.bounded within hfin fun x hx => hwithin x (Or.inr hx)).trans
      (h.bounded within hfin fun x hx => hwithin x (Or.inl hx))
  · exact fun hin => h'.inhabited (h.inhabited hin)

theorem congr (h : Discovers targets before after) (heq : ∀ x, x ∈ targets ↔ x ∈ targets') :
    Discovers targets' before after := by
  obtain rfl := Set.ext heq
  exact h

theorem fits (h : Discovers targets before after) {within : Set (StatePair × Point)}
    (hwithin : ∀ x ∈ targets, x.1 ∈ within) (hfits : Fits within before) : Fits within after := by
  obtain ⟨fresh, -, hvisited, hfresh⟩ := h.appended
  refine ⟨?_, h.inhabited hfits.inhabited⟩
  rw [hvisited]
  intro x hx
  rcases hx with hx | ⟨b, hb, hx⟩
  · exact hfits.subset hx
  · obtain ⟨item, hitem, rfl⟩ := List.mem_map.mp hb
    obtain ⟨pair, p⟩ := x
    obtain ⟨rfl, hp⟩ := hx
    exact hwithin _ ((hfresh item hitem).2 p hp)

/-- The targets of a fold are those of its steps. -/
theorem foldlM {B : Type} {f : Progress → B → Except String Progress} {targetsOf : B → Set Target}
    {l : List B} (hf : ∀ b ∈ l, ∀ a a', f a b = .ok a' → Discovers (targetsOf b) a a')
    (h : l.foldlM f before = .ok after) : Discovers {x | ∃ b ∈ l, x ∈ targetsOf b} before after := by
  induction l generalizing before with
  | nil =>
      obtain rfl := Except.ok.inj h
      exact (refl before).congr fun x => by simp
  | cons b l ih =>
      rw [List.foldlM_cons] at h
      cases hb : f before b with
      | error message =>
          rw [hb] at h
          cases h
      | ok middle =>
          rw [hb] at h
          have hhead := hf b List.mem_cons_self before middle hb
          have htail := ih (fun c hc => hf c (List.mem_cons_of_mem _ hc)) h
          exact (hhead.trans htail).congr fun x => by simp

/-- A fold whose steps do not fail where things fit does not fail. -/
theorem exists_foldlM {B : Type} {f : Progress → B → Except String Progress}
    {targetsOf : B → Set Target} {within : Set (StatePair × Point)} {l : List B}
    (hf : ∀ b ∈ l, ∀ a a', f a b = .ok a' → Discovers (targetsOf b) a a')
    (hok : ∀ b ∈ l, ∀ a, Fits within a → ∃ a', f a b = .ok a')
    (hwithin : ∀ b ∈ l, ∀ x ∈ targetsOf b, x.1 ∈ within) (h : Fits within before) :
    ∃ after, l.foldlM f before = .ok after := by
  induction l generalizing before with
  | nil => exact ⟨before, rfl⟩
  | cons b l ih =>
      obtain ⟨middle, hb⟩ := hok b List.mem_cons_self before h
      have hmiddle := (hf b List.mem_cons_self before middle hb).fits
        (hwithin b List.mem_cons_self) h
      obtain ⟨after, hafter⟩ := ih (fun c hc => hf c (List.mem_cons_of_mem _ hc))
        (fun c hc => hok c (List.mem_cons_of_mem _ hc))
        (fun c hc => hwithin c (List.mem_cons_of_mem _ hc)) hmiddle
      refine ⟨after, ?_⟩
      rw [List.foldlM_cons, hb]
      exact hafter

end Discovers

theorem Discovers.of_branches {targets : Set Target} {progress after : Progress} {branches : ℕ}
    (h : Discovers targets { progress with branches := branches } after) :
    Discovers targets progress after :=
  ⟨h.appended, h.complete, h.bounded, h.inhabited⟩

/-! ## One region -/

section Region

variable [Runtime] {progress after : Progress} {pair : StatePair} {region : Weight}
  {max_product_states : ℕ} {word : List ℕ}

omit [Runtime] in
theorem mem_novel (hregion : region ≠ Weight.all) {p : Point} :
    p ∈ progress.novel pair region ↔ p ∈ region ∧ (pair, p) ∉ visitedSet progress := by
  have hset : (pair, p) ∈ visitedSet progress ↔ ∃ w ∈ progress.visited.lookup pair, p ∈ w := Iff.rfl
  rw [hset, Progress.novel]
  cases hold : progress.visited.lookup pair with
  | none => simp
  | some old => simp [Weight.mem_difference hregion]

omit [Runtime] in
theorem mem_visitedSet_visit {novel : Weight} {x : StatePair × Point} :
    x ∈ visitedSet (progress.visit pair novel word) ↔
      x ∈ visitedSet progress ∨ x.1 = pair ∧ x.2 ∈ novel := by
  obtain ⟨other, p⟩ := x
  simp only [visitedSet, Progress.visit, Set.mem_ofPred_eq, Option.mem_def]
  by_cases hpair : other = pair
  · subst hpair
    rw [AList.lookup_insert]
    cases progress.visited.lookup other with
    | none => simp
    | some old => simp
  · rw [AList.lookup_insert_ne hpair]
    simp [hpair]

omit [Runtime] in
/-- The targets of a region on a word. -/
def regionTargets (word : List ℕ) (target : StatePair × Weight) : Set Target :=
  {x | x.1.1 = target.1 ∧ x.1.2 ∈ target.2 ∧ x.2 = word}

omit [Runtime] in
theorem discovers_visit (hregion : region ≠ Weight.all)
    (hnovel : ∃ p, p ∈ progress.novel pair region) :
    Discovers (regionTargets word (pair, region)) progress
      (progress.visit pair (progress.novel pair region) word) := by
  have hvisited : visitedSet (progress.visit pair (progress.novel pair region) word) =
      visitedSet progress ∪ {x | x.1 = pair ∧ x.2 ∈ progress.novel pair region} :=
    Set.ext fun x => mem_visitedSet_visit
  constructor
  · refine ⟨[⟨pair, progress.novel pair region, word⟩], rfl, ?_, ?_⟩
    · rw [hvisited]
      congr 1
      ext x
      simp [mentioned, Item.batch]
    · intro item hitem
      obtain rfl := List.mem_singleton.mp hitem
      exact ⟨hnovel, fun p hp => ⟨rfl, ((mem_novel hregion).mp hp).1, rfl⟩⟩
  · intro x hx
    obtain ⟨rfl, hp, -⟩ := hx
    rw [hvisited]
    by_cases hold : x.1 ∈ visitedSet progress
    · exact Or.inl hold
    · exact Or.inr ⟨rfl, (mem_novel hregion).mpr ⟨hp, hold⟩⟩
  · intro within hfin hwithin
    obtain ⟨p, hp⟩ := hnovel
    obtain ⟨hmem, hnot⟩ := (mem_novel hregion).mp hp
    rw [hvisited]
    simp only [Progress.visit, List.length_append, List.length_singleton]
    apply outstanding_add hfin
    exact ⟨(pair, p), ⟨rfl, hp⟩, hwithin ((pair, p), word) ⟨rfl, hmem, rfl⟩, hnot⟩
  · intro hin other w hw
    obtain ⟨p, hp⟩ := hnovel
    by_cases hpair : other = pair
    · subst hpair
      have hmem : (other, p) ∈ visitedSet (progress.visit other (progress.novel other region) word) :=
        mem_visitedSet_visit.mpr (Or.inr ⟨rfl, hp⟩)
      obtain ⟨w', hw', hpw⟩ := hmem
      obtain rfl := Option.some.inj (hw.symm.trans hw')
      exact ⟨p, hpw⟩
    · rw [Progress.visit, AList.lookup_insert_ne hpair] at hw
      exact hin other w hw

omit [Runtime] in
theorem discovers_visit_region (hregion : region ≠ Weight.all)
    (h : visit_region max_product_states word progress (pair, region) = .ok after) :
    Discovers (regionTargets word (pair, region)) progress after := by
  simp only [visit_region] at h
  split_ifs at h with hempty hnovel hfull
  · obtain rfl := Except.ok.inj h
    rw [Weight.is_empty_iff] at hempty
    exact (Discovers.refl progress).congr fun x => by simp [regionTargets, hempty]
  · obtain rfl := Except.ok.inj h
    rw [Weight.is_empty_iff, Weight.eq_empty_iff] at hnovel
    refine ⟨⟨[], by simp [mentioned]⟩, fun x hx => ?_, fun _ _ _ => le_rfl, id⟩
    obtain ⟨rfl, hp, -⟩ := hx
    by_contra hnot
    exact hnovel x.1.2 ((mem_novel hregion).mpr ⟨hp, hnot⟩)
  · obtain rfl := Except.ok.inj h
    rw [Weight.is_empty_iff] at hnovel
    exact discovers_visit hregion (Weight.ne_empty_iff'.mp hnovel)

omit [Runtime] in
/-- There are no more pairs than points. -/
theorem Fits.length_le {within : Set (StatePair × Point)} (h : Fits within progress)
    (hfin : within.Finite) : progress.visited.entries.length ≤ within.ncard := by
  have hsub : (progress.visited.keys.toFinset : Set StatePair) ⊆ Prod.fst '' within := by
    intro key hkey
    have hmem : key ∈ progress.visited := AList.mem_keys.mpr (List.mem_toFinset.mp hkey)
    obtain ⟨w, hw⟩ := Option.isSome_iff_exists.mp (AList.lookup_isSome.mpr hmem)
    obtain ⟨p, hp⟩ := h.inhabited key w hw
    exact ⟨(key, p), h.subset ⟨w, hw, hp⟩, rfl⟩
  calc progress.visited.entries.length
      = progress.visited.keys.length := by simp [AList.keys, List.keys]
    _ = progress.visited.keys.toFinset.card :=
        (List.toFinset_card_of_nodup progress.visited.keys_nodup).symm
    _ = (progress.visited.keys.toFinset : Set StatePair).ncard :=
        (Set.ncard_coe_finset _).symm
    _ ≤ (Prod.fst '' within).ncard := Set.ncard_le_ncard hsub (hfin.image _)
    _ ≤ within.ncard := Set.ncard_image_le hfin

omit [Runtime] in
/-- With room for every pair no region exhausts the budget. -/
theorem exists_visit_region {within : Set (StatePair × Point)} (h : Fits within progress)
    (hfin : within.Finite) (hmax : within.ncard < max_product_states) :
    ∃ after, visit_region max_product_states word progress (pair, region) = .ok after := by
  have hlen := h.length_le hfin
  simp only [visit_region]
  split_ifs with hempty hnovel hfull
  · exact ⟨progress, rfl⟩
  · exact ⟨progress, rfl⟩
  · omega
  · exact ⟨_, rfl⟩

end Region

/-! ## One item -/

section Items

variable [Runtime] {left right : DWA} {num_parser_states max_product_states : ℕ} {item : Item}
  {progress after : Progress} {active : Weight} {label : ℕ}

theorem ne_all_of_subset {a b : Weight} (h : ∀ p, p ∈ a → p ∈ b) (hb : b ≠ Weight.all) :
    a ≠ Weight.all := by
  intro ha
  apply hb
  exact Weight.none_mem_iff.mp (h none (Weight.none_mem_iff.mpr ha))

/-- The active points, at the pair of states that a label leads each of them to. -/
def labelTargets (left right : DWA) (item : Item) (active : Weight) (label : ℕ) : Set Target :=
  {x | x.1.2 ∈ active ∧ x.1.1 = (left.stepAt x.1.2 item.pair.1 label,
    right.stepAt x.1.2 item.pair.2 label) ∧ x.1.1 ≠ (none, none) ∧ x.2 = item.word ++ [label]}

/-- The three regions of a label cover its targets and nothing else. -/
theorem mem_labelTargets (hactive : active ≠ Weight.all) (x : Target) :
    (∃ target ∈ label_regions left right item.pair active label,
      x ∈ regionTargets (item.word ++ [label]) target) ↔
      x ∈ labelTargets left right item active label := by
  obtain ⟨⟨pair, p⟩, word⟩ := x
  have hl : (advance left item.pair.1 active label).2 ≠ Weight.all :=
    ne_all_of_subset (fun _ => advance_subset) hactive
  have hr : (advance right item.pair.2 active label).2 ≠ Weight.all :=
    ne_all_of_subset (fun _ => advance_subset) hactive
  simp only [label_regions, List.mem_cons, List.not_mem_nil, or_false, exists_eq_or_imp,
    exists_eq_left, regionTargets, labelTargets, Set.mem_ofPred_eq, Weight.mem_intersection,
    Weight.mem_difference hl, Weight.mem_difference hr]
  by_cases hp : p ∈ active
  · obtain ⟨hliff, hleq⟩ := @advance_spec _ left p item.pair.1 active hp label
    obtain ⟨hriff, hreq⟩ := @advance_spec _ right p item.pair.2 active hp label
    by_cases hpl : p ∈ (advance left item.pair.1 active label).2
    · rw [hleq hpl]
      have hne := hliff.mp hpl
      by_cases hpr : p ∈ (advance right item.pair.2 active label).2
      · rw [hreq hpr]
        simp only [hpl, hpr, hp, not_true_eq_false, and_false, false_and, or_false, true_and,
          and_true]
        apply and_congr_right
        rintro rfl
        simp [hne]
      · have hnone : right.stepAt p item.pair.2 label = none := by
          by_contra h
          exact hpr (hriff.mpr h)
        simp only [hpl, hpr, hp, hnone, not_false_eq_true, and_false, false_and, or_false,
          false_or, true_and]
        apply and_congr_right
        rintro rfl
        simp [hne]
    · have hnone : left.stepAt p item.pair.1 label = none := by
        by_contra h
        exact hpl (hliff.mpr h)
      by_cases hpr : p ∈ (advance right item.pair.2 active label).2
      · have hne := hriff.mp hpr
        rw [hreq hpr]
        simp only [hpl, hpr, hp, hnone, not_false_eq_true, and_false, false_and, or_false,
          false_or, true_and]
        apply and_congr_right
        rintro rfl
        simp [hne]
      · have hnone' : right.stepAt p item.pair.2 label = none := by
          by_contra h
          exact hpr (hriff.mpr h)
        simp only [hpl, hpr, hp, hnone, hnone', and_false, false_and, or_false, true_and,
          false_iff, not_and]
        rintro rfl h
        exact absurd rfl h
  · have hpl : p ∉ (advance left item.pair.1 active label).2 := fun h => hp (advance_subset h)
    have hpr : p ∉ (advance right item.pair.2 active label).2 := fun h => hp (advance_subset h)
    simp [hp, hpl, hpr]

theorem label_region_ne_all (hactive : active ≠ Weight.all) {target : StatePair × Weight}
    (h : target ∈ label_regions left right item.pair active label) : target.2 ≠ Weight.all := by
  have hl : (advance left item.pair.1 active label).2 ≠ Weight.all :=
    ne_all_of_subset (fun _ => advance_subset) hactive
  have hr : (advance right item.pair.2 active label).2 ≠ Weight.all :=
    ne_all_of_subset (fun _ => advance_subset) hactive
  simp only [label_regions, List.mem_cons, List.not_mem_nil, or_false] at h
  rcases h with rfl | rfl | rfl
  · exact ne_all_of_subset (fun p hp => (Weight.mem_intersection.mp hp).1) hl
  · exact ne_all_of_subset (fun p hp => ((Weight.mem_difference hl).mp hp).1) hl
  · exact ne_all_of_subset (fun p hp => ((Weight.mem_difference hr).mp hp).1) hr

theorem discovers_visit_label (hactive : active ≠ Weight.all)
    (h : visit_label left right max_product_states item active progress label = .ok after) :
    Discovers (labelTargets left right item active label) progress after := by
  have hfold := Discovers.foldlM (fun target htarget a a' ha =>
    @discovers_visit_region a a' target.1 target.2 max_product_states
      (item.word ++ [label]) (label_region_ne_all hactive htarget) ha) h
  exact (hfold.congr (mem_labelTargets hactive)).of_branches

/-- The points of an item at which a search goes on. -/
def activePoints [Runtime] (left : DWA) (item : Item) : Weight :=
  item.domain.difference (contribution left item.pair.1 item.domain)

theorem mem_activePoints (hdomain : item.domain ≠ Weight.all) {p : Point} :
    p ∈ activePoints left item ↔ p ∈ item.domain ∧ ¬ left.AcceptsHere p item.pair.1 := by
  rw [activePoints, Weight.mem_difference hdomain, mem_contribution]
  apply and_congr_right
  intro hp
  simp [hp]

theorem activePoints_ne_all (hdomain : item.domain ≠ Weight.all) :
    activePoints left item ≠ Weight.all :=
  ne_all_of_subset (fun _ hp => ((mem_activePoints hdomain).mp hp).1) hdomain

def itemTargets (left right : DWA) (num_parser_states : ℕ) (item : Item) : Set Target :=
  {x | ∃ label ∈ branch_labels left right num_parser_states item.pair,
    x ∈ labelTargets left right item (activePoints left item) label}

theorem discovers_visit_item (hdomain : item.domain ≠ Weight.all)
    (h : visit_item left right num_parser_states max_product_states item progress = .ok after) :
    Discovers (itemTargets left right num_parser_states item) progress after := by
  have hactive := @activePoints_ne_all _ left item hdomain
  simp only [visit_item] at h
  split_ifs at h with hempty
  · obtain rfl := Except.ok.inj h
    rw [Weight.is_empty_iff, Weight.eq_empty_iff] at hempty
    refine (Discovers.refl progress).congr fun x => ⟨fun hx => absurd hx (Set.notMem_empty x), ?_⟩
    intro hx
    obtain ⟨label, -, hp, -⟩ := hx
    exact absurd hp (hempty x.1.2)
  · exact Discovers.foldlM (fun label _ a a' ha => discovers_visit_label hactive ha) h

theorem exists_visit_item {within : Set (StatePair × Point)} (hdomain : item.domain ≠ Weight.all)
    (h : Fits within progress) (hfin : within.Finite) (hmax : within.ncard < max_product_states)
    (hwithin : ∀ label, ∀ x ∈ labelTargets left right item (activePoints left item) label,
      x.1 ∈ within) :
    ∃ after, visit_item left right num_parser_states max_product_states item progress =
      .ok after := by
  have hactive := @activePoints_ne_all _ left item hdomain
  simp only [visit_item]
  split_ifs
  · exact ⟨progress, rfl⟩
  apply Discovers.exists_foldlM (fun label _ a a' ha => discovers_visit_label hactive ha)
    (fun label _ a ha => ?_) (fun label _ => hwithin label) h
  apply Discovers.exists_foldlM (fun target htarget b b' hb =>
    @discovers_visit_region b b' target.1 target.2 max_product_states (item.word ++ [label])
      (label_region_ne_all hactive htarget) hb)
    (fun target _ b hb => exists_visit_region hb hfin hmax)
  · intro target htarget x hx
    exact hwithin label x ((mem_labelTargets hactive x).mp ⟨target, htarget, hx⟩)
  · exact ⟨ha.subset, ha.inhabited⟩

end Items

/-! ## The search -/

section Search

variable [Runtime] {left right : DWA} {num_parser_states max_product_states : ℕ}

omit [Runtime] in
def startPoints (left right : DWA) : Set (StatePair × Point) :=
  {x | x.1 = initial_pair left right ∧ x.2 ∈ comparison_universe}

omit [Runtime] in
/-- The items that were visited and those in the queue are a search by batches, which lists
the visited points. -/
structure Comparing (left right : DWA) (num_parser_states : ℕ) (done : List Item)
    (progress : Progress) : Prop where
  search : BatchSearch (Next left right num_parser_states) (Disagrees left right)
    (startPoints left right) (done.map Item.batch) (progress.queue.map Item.batch)
  visited : visitedSet progress =
    mentioned (done.map Item.batch ++ progress.queue.map Item.batch)
  inhabited : Inhabited progress

omit [Runtime] in
theorem lookup_initial (pair : StatePair) : (initial_progress left right).visited.lookup pair =
    if pair = initial_pair left right then some comparison_universe else none := by
  rw [initial_progress]
  split_ifs with hpair
  · rw [hpair, AList.lookup_insert]
  · rw [AList.lookup_insert_ne hpair, AList.lookup_empty]

omit [Runtime] in
theorem visitedSet_initial : visitedSet (initial_progress left right) = startPoints left right := by
  ext x
  obtain ⟨pair, p⟩ := x
  simp only [visitedSet, startPoints, Set.mem_ofPred_eq, lookup_initial]
  split_ifs with hpair
  · simp [hpair]
  · simp [hpair]

omit [Runtime] in
theorem comparing_initial :
    Comparing left right num_parser_states [] (initial_progress left right) where
  search := batchSearch_start
  visited := by
    rw [visitedSet_initial]
    simp [mentioned, initial_progress, Item.batch, startPoints]
  inhabited := by
    intro pair w hw
    rw [lookup_initial] at hw
    split_ifs at hw
    · obtain rfl := Option.some.inj hw
      exact ⟨some (0, 0), mem_comparison_universe.mpr ⟨by decide, Nat.zero_le _⟩⟩
    · cases hw

namespace Comparing

variable {done : List Item} {progress after : Progress} {item : Item} {queue : List Item}

omit [Runtime] in
theorem domain_ne_all (h : Comparing left right num_parser_states done progress)
    (hitem : item ∈ progress.queue) : item.domain ≠ Weight.all := by
  intro hall
  have hmem : (item.pair, (none : Point)) ∈ item.batch.1 :=
    ⟨rfl, Weight.none_mem_iff.mpr hall⟩
  obtain ⟨x, ⟨-, hx⟩, hpath⟩ := h.search.reached item.batch
    (List.mem_append_right _ (List.mem_map_of_mem hitem)) _ hmem
  have hpoint : (none : Point) = x.2 := path_point hpath
  rw [← hpoint] at hx
  exact none_not_mem_universe hx

/-- An item passes when both sides accept the same of its points. -/
theorem not_disagrees (hdiffers : differs_at left right item = false) :
    ∀ x ∈ item.batch.1, ¬ Disagrees left right x := by
  rw [differs_at, Bool.not_eq_false', Weight.eq_iff] at hdiffers
  intro x hx
  obtain ⟨hpair, hp⟩ := hx
  rw [Disagrees, not_not, hpair]
  have hiff : x.2 ∈ contribution left item.pair.1 item.domain ↔
      x.2 ∈ contribution right item.pair.2 item.domain := by rw [hdiffers]
  simpa [mem_contribution, hp] using hiff

/-- Visiting an item expands its batch. -/
theorem visit (hqueue : progress.queue = item :: queue)
    (h : Comparing left right num_parser_states done progress)
    (hnum : num_parser_states ≤ DEFAULT_LABEL.toNat) (hleft : Checked left num_parser_states)
    (hright : Checked right num_parser_states) (hdiffers : differs_at left right item = false)
    (hafter : Discovers (itemTargets left right num_parser_states item)
      { progress with queue := queue } after) :
    Comparing left right num_parser_states (done ++ [item]) after := by
  have hitem : item ∈ progress.queue := by
    rw [hqueue]
    exact List.mem_cons_self
  have hdomain := h.domain_ne_all hitem
  have hagree := not_disagrees hdiffers
  obtain ⟨fresh, hfreshQueue, hfreshVisited, hfresh⟩ := hafter.appended
  have hlisted : visitedSet ({ progress with queue := queue } : Progress) =
      mentioned (done.map Item.batch ++ item.batch :: queue.map Item.batch) := by
    have hvisited := h.visited
    rw [hqueue] at hvisited
    exact hvisited
  have hsearch := h.search
  rw [hqueue, List.map_cons] at hsearch
  have hexpands : BatchSearch.Expands (Next left right num_parser_states)
      (mentioned (done.map Item.batch ++ item.batch :: queue.map Item.batch)) item.batch
      (fresh.map Item.batch) := ⟨?_, ?_⟩
  · constructor
    · rw [hfreshQueue, List.map_append, List.map_append]
      exact hsearch.pop hagree hexpands
    · rw [hfreshVisited, hlisted, hfreshQueue, ← mentioned_append]
      simp
    · exact hafter.inhabited h.inhabited
  · intro b hb
    obtain ⟨found, hfound, rfl⟩ := List.mem_map.mp hb
    obtain ⟨⟨p, hp⟩, htargets⟩ := hfresh found hfound
    obtain ⟨label, -, -, -, -, hword⟩ := htargets p hp
    refine ⟨label, hword, fun y hy => ?_⟩
    obtain ⟨pair, p'⟩ := y
    obtain ⟨rfl, hp'⟩ := hy
    obtain ⟨label', hlabel', hactive, hstep, halive, hword'⟩ := htargets p' hp'
    have heq : label' = label := by
      have := hword'.symm.trans hword
      simpa using this
    subst heq
    obtain ⟨hmem, hrejects⟩ := (mem_activePoints hdomain).mp hactive
    refine ⟨(item.pair, p'), ⟨rfl, hmem⟩, branch_label_lt hleft hright hlabel', hrejects, ?_, ?_,
      halive⟩
    · intro haccepts
      have hboth := not_not.mp (hagree (item.pair, p') ⟨rfl, hmem⟩)
      exact hrejects (hboth.mpr haccepts)
    · exact Prod.ext hstep rfl
  · intro x hx parser y hnext
    obtain ⟨pair, p⟩ := x
    obtain ⟨rfl, hp⟩ := hx
    obtain ⟨label, hlabel, hsteps⟩ := @exists_branch_label left right num_parser_states item.pair
      hnum parser hnext.inRange
    have htarget : (y, item.word ++ [label]) ∈ itemTargets left right num_parser_states item := by
      have halive := hnext.alive
      rw [hnext.step] at halive ⊢
      refine ⟨label, hlabel, (mem_activePoints hdomain).mpr ⟨hp, hnext.left_rejects⟩, ?_, halive,
        rfl⟩
      exact Prod.ext (hsteps p).1 (hsteps p).2
    have hmem := hafter.complete _ htarget
    rw [hfreshVisited, hlisted] at hmem
    exact hmem

end Comparing

/-- A result of the search: what it finds is a shortest path to a disagreement. -/
structure Finds (left right : DWA) (num_parser_states : ℕ) (c : ParserMaskComparison) : Prop where
  exhausted : c.difference = none → ∀ x ∈ startPoints left right, ∀ w y,
    Path (Next left right num_parser_states) x w y → ¬ Disagrees left right y
  difference : ∀ d ∈ c.difference, d = mask_difference left right d.stack_top_first ∧
    (∃ x ∈ startPoints left right, ∃ y,
      Path (Next left right num_parser_states) x d.stack_top_first y ∧ Disagrees left right y) ∧
    ∀ x ∈ startPoints left right, ∀ w y, Path (Next left right num_parser_states) x w y →
      Disagrees left right y → d.stack_top_first.length ≤ w.length

theorem exists_disagreement {item : Item} (h : differs_at left right item = true) :
    ∃ x ∈ item.batch.1, Disagrees left right x := by
  rw [differs_at, Bool.not_eq_true', ← Bool.not_eq_true, Weight.eq_iff] at h
  by_contra hnone
  push Not at hnone
  apply h
  apply Weight.ext_mem
  intro p
  rw [mem_contribution, mem_contribution]
  apply and_congr_right
  intro hp
  exact not_not.mp (hnone (item.pair, p) ⟨rfl, hp⟩)

theorem Comparing.finds_none {done : List Item} {progress : Progress}
    (h : Comparing left right num_parser_states done progress) (hqueue : progress.queue = []) :
    Finds left right num_parser_states (progress.finish none) := by
  have hsearch := h.search
  rw [hqueue] at hsearch
  constructor
  · intro _ x hx w y hpath
    exact hsearch.not_found hx hpath
  · intro d hd
    cases hd

theorem Comparing.finds_some {done queue : List Item} {progress : Progress} {item : Item}
    (h : Comparing left right num_parser_states done progress)
    (hqueue : progress.queue = item :: queue) (hdiffers : differs_at left right item = true) :
    Finds left right num_parser_states
      (progress.finish (some (mask_difference left right item.word))) := by
  have hsearch := h.search
  rw [hqueue, List.map_cons] at hsearch
  constructor
  · intro hnone
    cases hnone
  · intro d hd
    obtain rfl := Option.some.inj hd
    refine ⟨rfl, ?_, fun x hx w y hpath hy => hsearch.head_shortest hx hpath hy⟩
    obtain ⟨y, hy, hdis⟩ := exists_disagreement hdiffers
    obtain ⟨x, hx, hpath⟩ := hsearch.reached item.batch (by simp) y hy
    exact ⟨x, hx, y, hpath, hdis⟩

theorem compare_regions_finds (hnum : num_parser_states ≤ DEFAULT_LABEL.toNat)
    (hleft : Checked left num_parser_states) (hright : Checked right num_parser_states)
    {remaining : ℕ} {done : List Item} {progress : Progress} {c : ParserMaskComparison}
    (h : Comparing left right num_parser_states done progress)
    (hc : compare_regions left right num_parser_states max_product_states remaining progress =
      .ok c) : Finds left right num_parser_states c := by
  induction remaining generalizing done progress with
  | zero =>
      unfold compare_regions at hc
      split at hc
      · rename_i hqueue
        obtain rfl := Except.ok.inj hc
        exact h.finds_none hqueue
      · cases hc
  | succ remaining ih =>
      unfold compare_regions at hc
      split at hc
      · rename_i hqueue
        obtain rfl := Except.ok.inj hc
        exact h.finds_none hqueue
      · rename_i item queue hqueue
        split_ifs at hc with hdiffers
        · obtain rfl := Except.ok.inj hc
          exact h.finds_some hqueue hdiffers
        · cases hvisit : visit_item left right num_parser_states max_product_states item
            { progress with queue := queue } with
          | error message =>
              rw [hvisit] at hc
              cases hc
          | ok after =>
              rw [hvisit] at hc
              have hitem : item ∈ progress.queue := by
                rw [hqueue]
                exact List.mem_cons_self
              have hafter := discovers_visit_item (h.domain_ne_all hitem) hvisit
              exact ih (h.visit hqueue hnum hleft hright (by simpa using hdiffers) hafter) hc

/-! ## Termination -/

omit [Runtime] in
/-- Where a run of an automaton can be. -/
def sides (dwa : DWA) : Set (Option ℕ) :=
  insert none (some '' insert dwa.start_state (Set.Iio dwa.states.length))

omit [Runtime] in
theorem finite_sides (dwa : DWA) : (sides dwa).Finite :=
  (((Set.finite_Iio _).insert _).image _).insert _

omit [Runtime] in
theorem stepAt_mem_sides {dwa : DWA} (h : Checked dwa num_parser_states) (p : Point)
    (side : Option ℕ) (parser : ℕ) : dwa.stepAt p side parser ∈ sides dwa := by
  cases hstep : dwa.stepAt p side parser with
  | none => exact Or.inl rfl
  | some next => exact Or.inr ⟨next, Or.inr (h.stepAt_lt hstep), rfl⟩

omit [Runtime] in
def productPoints (left right : DWA) : Set (StatePair × Point) :=
  (sides left ×ˢ sides right) ×ˢ {p | p ∈ comparison_universe}

omit [Runtime] in
theorem finite_productPoints (left right : DWA) : (productPoints left right).Finite := by
  apply ((finite_sides left).prod (finite_sides right)).prod
  apply (((Set.finite_Iio u32Max).prod (Set.finite_Iic u32Max)).image some).subset
  intro p hp
  cases p with
  | none => exact absurd hp none_not_mem_universe
  | some q => exact ⟨q, mem_comparison_universe.mp hp, rfl⟩

omit [Runtime] in
theorem fits_initial : Fits (productPoints left right) (initial_progress left right) := by
  refine ⟨?_, (@comparing_initial left right 0).inhabited⟩
  rw [visitedSet_initial]
  intro x hx
  obtain ⟨pair, p⟩ := x
  obtain ⟨rfl, hp⟩ := hx
  exact ⟨⟨Or.inr ⟨_, Or.inl rfl, rfl⟩, Or.inr ⟨_, Or.inl rfl, rfl⟩⟩, hp⟩

/-- With a budget for every region and every pair the search ends with a result. -/
theorem exists_compare_regions (hnum : num_parser_states ≤ DEFAULT_LABEL.toNat)
    (hleft : Checked left num_parser_states) (hright : Checked right num_parser_states)
    (hmax : (productPoints left right).ncard < max_product_states) {remaining : ℕ}
    {done : List Item} {progress : Progress}
    (h : Comparing left right num_parser_states done progress)
    (hfits : Fits (productPoints left right) progress)
    (hremaining : outstanding (productPoints left right) (visitedSet progress)
      progress.queue.length ≤ remaining) :
    ∃ c, compare_regions left right num_parser_states max_product_states remaining progress =
      .ok c := by
  have hfin := finite_productPoints left right
  induction remaining generalizing done progress with
  | zero =>
      unfold compare_regions
      split
      · exact ⟨_, rfl⟩
      · rename_i item queue hqueue
        rw [hqueue, List.length_cons, outstanding] at hremaining
        omega
  | succ remaining ih =>
      unfold compare_regions
      split
      · exact ⟨_, rfl⟩
      · rename_i item queue hqueue
        have hitem : item ∈ progress.queue := by
          rw [hqueue]
          exact List.mem_cons_self
        have hdomain := h.domain_ne_all hitem
        have hpoints : ∀ p ∈ item.domain, (item.pair, p) ∈ productPoints left right := by
          intro p hp
          apply hfits.subset
          rw [h.visited]
          exact ⟨item.batch, List.mem_append_right _ (List.mem_map_of_mem hitem), rfl, hp⟩
        have hwithin : ∀ label, ∀ x ∈ labelTargets left right item (activePoints left item) label,
            x.1 ∈ productPoints left right := by
          intro label x hx
          obtain ⟨hp, hpair, -, -⟩ := hx
          have hmem := hpoints x.1.2 ((mem_activePoints hdomain).mp hp).1
          refine ⟨?_, hmem.2⟩
          rw [hpair]
          exact ⟨stepAt_mem_sides hleft _ _ label, stepAt_mem_sides hright _ _ label⟩
        have htargets : ∀ x ∈ itemTargets left right num_parser_states item,
            x.1 ∈ productPoints left right := by
          intro x hx
          obtain ⟨label, -, hx⟩ := hx
          exact hwithin label x hx
        have hpopped : Fits (productPoints left right) { progress with queue := queue } :=
          ⟨hfits.subset, hfits.inhabited⟩
        split_ifs with hdiffers
        · exact ⟨_, rfl⟩
        · obtain ⟨after, hvisit⟩ := exists_visit_item hdomain hpopped hfin hmax hwithin
          rw [hvisit]
          have hafter := discovers_visit_item hdomain hvisit
          have hbound := hafter.bounded _ hfin htargets
          apply ih (h.visit hqueue hnum hleft hright (by simpa using hdiffers) hafter)
            (hafter.fits htargets hpopped)
          refine hbound.trans ?_
          rw [hqueue, List.length_cons, outstanding] at hremaining
          change queue.length + (productPoints left right \ visitedSet progress).ncard ≤ remaining
          omega

/-! ## The result of a comparison -/

omit [Runtime] in
/-- The masks of a stack agree at every token of every tsid below the reserved one. -/
def MasksAgree (left right : DWA) (stack : List ℕ) : Prop :=
  ∀ k < u32Max, ∀ x ≤ u32Max,
    ((some (k, x) : Point) ∈ left.Mask stack ↔ (some (k, x) : Point) ∈ right.Mask stack)

omit [Runtime] in
theorem masksAgree_iff {stack : List ℕ} : MasksAgree left right stack ↔
    ∀ p ∈ comparison_universe, (left.MaskFrom p (initial_pair left right).1 stack ↔
      right.MaskFrom p (initial_pair left right).2 stack) := by
  constructor
  · intro h p hp
    cases p with
    | none => exact absurd hp none_not_mem_universe
    | some q =>
        obtain ⟨hk, hx⟩ := mem_comparison_universe.mp hp
        exact DWA.mem_mask.symm.trans ((h q.1 hk q.2 hx).trans DWA.mem_mask)
  · intro h k hk x hx
    rw [DWA.mem_mask, DWA.mem_mask]
    exact h _ (mem_comparison_universe.mpr ⟨hk, hx⟩)

omit [Runtime] in
/-- A path to a disagreement is a stack whose masks differ. -/
theorem not_masksAgree_of_path {x y : StatePair × Point} {w : List ℕ}
    (hx : x ∈ startPoints left right) (hpath : Path (Next left right num_parser_states) x w y)
    (hy : Disagrees left right y) : ¬ MasksAgree left right w := by
  intro hagree
  have hdiffer := masks_differ_of_path hpath hy
  rw [hx.1] at hdiffer
  exact hdiffer (masksAgree_iff.mp hagree x.2 hx.2)

omit [Runtime] in
theorem exists_path_of_not_masksAgree {stack : List ℕ}
    (hrange : ∀ parser ∈ stack, parser < num_parser_states)
    (h : ¬ MasksAgree left right stack) :
    ∃ x ∈ startPoints left right, ∃ w y, Path (Next left right num_parser_states) x w y ∧
      Disagrees left right y ∧ w.length ≤ stack.length := by
  rw [masksAgree_iff] at h
  push Not at h
  obtain ⟨p, hp, hdiffer⟩ := h
  have hne : ¬ (left.MaskFrom p (initial_pair left right).1 stack ↔
      right.MaskFrom p (initial_pair left right).2 stack) := by
    intro hiff
    rcases hdiffer with ⟨hl, hr⟩ | ⟨hl, hr⟩
    · exact hr (hiff.mp hl)
    · exact hl (hiff.mpr hr)
  obtain ⟨w, y, hpath, hy, hlen⟩ := exists_path_of_masks_differ hrange hne
  exact ⟨_, ⟨rfl, hp⟩, w, y, hpath, hy, hlen⟩

/-- Whenever the comparison returns, it reports no difference exactly when the masks agree on
every stack of parser states, and otherwise a shortest stack with its two masks. Some budget,
and every larger one, is enough for it to return on inputs that pass the checks. -/
theorem compare_parser_mask_prefix_languages_correct (left right : DWA)
    (num_parser_states : ℕ) :
    (∀ max_product_states c,
      compare_parser_mask_prefix_languages left right num_parser_states max_product_states =
        .ok c →
      (c.difference = none ↔ ∀ stack : List ℕ, (∀ parser ∈ stack, parser < num_parser_states) →
        MasksAgree left right stack) ∧
      ∀ d ∈ c.difference, (∀ parser ∈ d.stack_top_first, parser < num_parser_states) ∧
        ¬ MasksAgree left right d.stack_top_first ∧
        (∀ stack : List ℕ, (∀ parser ∈ stack, parser < num_parser_states) →
          ¬ MasksAgree left right stack → d.stack_top_first.length ≤ stack.length) ∧
        ∀ p, (p ∈ d.left_mask ↔ p ∈ left.Mask d.stack_top_first) ∧
          (p ∈ d.right_mask ↔ p ∈ right.Mask d.stack_top_first)) ∧
    ∃ enough, ∀ max_product_states ≥ enough, ∀ message,
      compare_parser_mask_prefix_languages left right num_parser_states max_product_states =
        .error message →
      input_error left right num_parser_states max_product_states = some message := by
  constructor
  · intro max_product_states c hc
    unfold compare_parser_mask_prefix_languages at hc
    split at hc
    · cases hc
    rename_i hinput
    obtain ⟨hnum, hleft, hright⟩ := input_error_eq_none hinput
    have hfinds := compare_regions_finds hnum hleft hright comparing_initial hc
    constructor
    · constructor
      · intro hnone stack hrange
        by_contra hdiffer
        obtain ⟨x, hx, w, y, hpath, hy, -⟩ := exists_path_of_not_masksAgree hrange hdiffer
        exact hfinds.exhausted hnone x hx w y hpath hy
      · intro hall
        by_contra hsome
        obtain ⟨d, hd⟩ := Option.ne_none_iff_exists'.mp hsome
        obtain ⟨-, ⟨x, hx, y, hpath, hy⟩, -⟩ := hfinds.difference d hd
        exact not_masksAgree_of_path hx hpath hy (hall _ (path_inRange hpath))
    · intro d hd
      obtain ⟨hmasks, ⟨x, hx, y, hpath, hy⟩, hshort⟩ := hfinds.difference d hd
      refine ⟨path_inRange hpath, not_masksAgree_of_path hx hpath hy, ?_, fun p => ?_⟩
      · intro stack hrange hdiffer
        obtain ⟨x', hx', w, y', hpath', hy', hlen⟩ := exists_path_of_not_masksAgree hrange hdiffer
        exact (hshort x' hx' w y' hpath' hy').trans hlen
      · rw [hmasks]
        exact ⟨mem_evaluate_prefix_mask, mem_evaluate_prefix_mask⟩
  · let within := productPoints left right
    refine ⟨within.ncard + outstanding within (startPoints left right) 1 + 1, ?_⟩
    intro max_product_states hmax message hmessage
    unfold compare_parser_mask_prefix_languages at hmessage
    split at hmessage
    · rename_i error herror
      rw [herror, Except.error.inj hmessage]
    · rename_i hinput
      obtain ⟨hnum, hleft, hright⟩ := input_error_eq_none hinput
      have hremaining : outstanding within (visitedSet (initial_progress left right))
          (initial_progress left right).queue.length ≤ max_product_states := by
        rw [visitedSet_initial]
        change outstanding within (startPoints left right) 1 ≤ max_product_states
        omega
      obtain ⟨c, hc⟩ := exists_compare_regions hnum hleft hright
        (show within.ncard < max_product_states by omega) comparing_initial fits_initial hremaining
      rw [hc] at hmessage
      cases hmessage

end Search

end ParserEquivalence

end GlrMask
