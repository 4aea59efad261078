import GlrMask.EpsilonClosure
import GlrMask.UnweightedDfa

/-!
# Subset construction

An automaton with epsilon edges is determinized by numbering the epsilon-closed
subsets that are reached. Targets are collected in buckets that are kept, and
cleared, from one subset to the next, and a single target without epsilon edges is
its own closure.
-/

namespace GlrMask

open Exploration

namespace NFA

def compute_is_acyclic (self : NFA) : Bool := allReleased self.targets self.states.length

/-- A labelled edge between states. -/
def EdgeTo (self : NFA) (label : Label) (source target : ℕ) : Prop :=
  ∃ data targets, self.states[source]? = some data ∧ data.transitions.get label = some targets ∧
    target ∈ targets

/-- A path that reads a word, with epsilon edges anywhere. -/
inductive Path (self : NFA) : ℕ → List Label → ℕ → Prop
  | refl (state : ℕ) : Path self state [] state
  | epsilon {source next target : ℕ} {word : List Label} : next ∈ self.epsilons_of source →
      Path self next word target → Path self source word target
  | edge {source next target : ℕ} {label : Label} {word : List Label} :
      self.EdgeTo label source next → Path self next word target →
      Path self source (label :: word) target

/-- A state that is reached by a word from a start state in range. -/
def ReachedBy (self : NFA) (word : List Label) (target : ℕ) : Prop :=
  ∃ start ∈ self.start_states, start < self.states.length ∧ self.Path start word target

def accepting (self : NFA) (state : ℕ) : Bool :=
  ((self.states[state]?).map fun data => data.is_accepting).getD false

/-- A word leads from a start state to an accepting state. -/
def AcceptsWord (self : NFA) (word : List Label) : Prop :=
  ∃ start ∈ self.start_states, ∃ target, self.Path start word target ∧
    self.accepting target = true

/-- The targets of all edges are states. -/
structure InRange (nfa : NFA) : Prop where
  edges : ∀ label source target, nfa.EdgeTo label source target → target < nfa.states.length
  epsilons : ∀ source, ∀ target ∈ nfa.epsilons_of source, target < nfa.states.length

end NFA

namespace Determinize

abbrev Subset := List ℕ

/-- The targets that were collected for each label; a cleared bucket stays. -/
abbrev LabelTargets := SortedMap Label (List ℕ)

def bucket (label_targets : LabelTargets) (label : Label) : List ℕ :=
  (label_targets.get label).getD []

/-- Add the targets of one row to a bucket; a bucket that was empty is touched. -/
def add_targets (s : LabelTargets × List Label) (row : Label × List ℕ) : LabelTargets × List Label :=
  if row.2 = [] then s
  else
    (s.1.insert row.1 (bucket s.1 row.1 ++ row.2),
      if bucket s.1 row.1 = [] then s.2 ++ [row.1] else s.2)

def collect (rows : List NFAState) (s : LabelTargets × List Label) : LabelTargets × List Label :=
  rows.foldl (fun s data => data.transitions.entries.foldl add_targets s) s

def clear (label_targets : LabelTargets) (touched_labels : List Label) : LabelTargets :=
  touched_labels.foldl (fun label_targets label => label_targets.insert label []) label_targets

section Loop

variable (nfa : NFA)

/-- The closed targets of a label; `none` is a panic. -/
def next_key (raw_targets : List ℕ) (closure : ClosureScratch) : Option (Subset × ClosureScratch) :=
  match raw_targets with
  | [target] =>
      (nfa.states[target]?).map fun data =>
        if data.epsilons = [] then ([target], closure) else closure.epsilon_closure nfa [target]
  | _ => some (closure.epsilon_closure nfa raw_targets)

structure Search where
  table : Table Subset DFAState
  closure : ClosureScratch
  label_targets : LabelTargets

def visit_label (dfa_state : ℕ) (label_targets : LabelTargets)
    (s : Table Subset DFAState × ClosureScratch) (label : Label) :
    Option (Table Subset DFAState × ClosureScratch) := do
  let raw_targets ← label_targets.get label
  if raw_targets = [] then pure s
  else
    let next ← next_key nfa raw_targets s.2
    if next.1 = [] then pure (s.1, next.2)
    else pure (link_key DFAState.link dfa_state s.1 (label, next.1), next.2)

def subset_is_accepting (rows : List NFAState) : Bool := rows.any (·.is_accepting)

/-- A state is only ever marked as accepting. -/
def mark_accepting (accepting : Bool) (row : DFAState) : DFAState :=
  if accepting then DFAState.mark true row else row

/-- One round of the worklist loop; the outer `none` is a panic. -/
def step (s : Search) : Option (Option Search) :=
  match s.table.worklist with
  | [] => some none
  | (dfa_state, subset_key) :: worklist => do
      let rows ← subset_key.mapM fun state => nfa.states[state]?
      let table := Table.edit { s.table with worklist } dfa_state
        (mark_accepting (subset_is_accepting rows))
      let collected := collect rows (s.label_targets, [])
      let touched_labels := collected.2.insertionSort (· ≤ ·)
      let visited ← touched_labels.foldlM (visit_label nfa dfa_state collected.1) (table, s.closure)
      pure (some ⟨visited.1, visited.2, clear collected.1 touched_labels⟩)

/-- `none` is a panic or a lack of fuel. -/
def determinize (fuel : ℕ) : Option DFA :=
  if !nfa.compute_is_acyclic then none
  else if nfa.states = [] ∨ nfa.start_states = [] then some DFA.new
  else
    let closed := (ClosureScratch.new nfa.states.length).epsilon_closure nfa nfa.start_states
    (loop (fun _ => step nfa) fuel ⟨start_table closed.1, closed.2, .empty⟩).map fun s =>
      ⟨s.table.rows, 0⟩

end Loop

/-! ## Buckets -/

section Buckets

variable {m m' : LabelTargets} {s : LabelTargets × List Label}

theorem bucket_empty (label : Label) : bucket .empty label = [] := rfl

theorem bucket_insert (m : LabelTargets) (label l : Label) (targets : List ℕ) :
    bucket (m.insert label targets) l = if label = l then targets else bucket m l := by
  unfold bucket
  rw [SortedMap.get_insert]
  split_ifs with h
  · rfl
  · rfl

theorem bucket_add_targets (row : Label × List ℕ) (label : Label) :
    bucket (add_targets s row).1 label = bucket s.1 label ++ if row.1 = label then row.2 else [] := by
  by_cases hempty : row.2 = []
  · rw [add_targets, if_pos hempty, hempty, ite_self, List.append_nil]
  · rw [add_targets, if_neg hempty]
    dsimp only
    rw [bucket_insert]
    split_ifs with hlabel
    · rw [hlabel]
    · rw [List.append_nil]

/-- The touched labels are those whose buckets are not empty. -/
structure TouchedLabels (s : LabelTargets × List Label) : Prop where
  nodup : s.2.Nodup
  mem_iff : ∀ label, label ∈ s.2 ↔ bucket s.1 label ≠ []

theorem TouchedLabels.add (h : TouchedLabels s) (row : Label × List ℕ) :
    TouchedLabels (add_targets s row) := by
  have hbucket := bucket_add_targets (s := s) row
  by_cases hempty : row.2 = []
  · rwa [add_targets, if_pos hempty]
  · by_cases hold : bucket s.1 row.1 = []
    · have hnew : row.1 ∉ s.2 := fun hc => (h.mem_iff row.1).mp hc hold
      have htouched : (add_targets s row).2 = s.2 ++ [row.1] := by
        rw [add_targets, if_neg hempty]
        exact if_pos hold
      refine ⟨?_, ?_⟩
      · rw [htouched, List.nodup_append]
        refine ⟨h.nodup, List.nodup_singleton _, ?_⟩
        intro a ha b hb he
        rw [he, List.mem_singleton.mp hb] at ha
        exact hnew ha
      · intro label
        rw [htouched, List.mem_append, List.mem_singleton, h.mem_iff, hbucket]
        by_cases hlabel : row.1 = label
        · subst hlabel
          simp [hold, hempty]
        · simp [hlabel, Ne.symm hlabel]
    · have htouched : (add_targets s row).2 = s.2 := by
        rw [add_targets, if_neg hempty]
        exact if_neg hold
      refine ⟨htouched ▸ h.nodup, ?_⟩
      intro label
      rw [htouched, h.mem_iff, hbucket]
      by_cases hlabel : row.1 = label
      · subst hlabel
        simp [hold]
      · simp [hlabel]

theorem collect_eq (rows : List NFAState) (s : LabelTargets × List Label) :
    collect rows s = (rows.flatMap fun data => data.transitions.entries).foldl add_targets s := by
  rw [collect, List.foldl_flatMap]

/-- What is collected in buckets that were empty. -/
theorem collect_spec (rows : List NFAState) (h : ∀ label, bucket m label = []) :
    TouchedLabels (collect rows (m, [])) ∧ ∀ label t, t ∈ bucket (collect rows (m, [])).1 label ↔
      ∃ data ∈ rows, ∃ targets, data.transitions.get label = some targets ∧ t ∈ targets := by
  have hfold : ∀ (entries : List (Label × List ℕ)) (s : LabelTargets × List Label),
      TouchedLabels s → TouchedLabels (entries.foldl add_targets s) ∧
        ∀ label t, t ∈ bucket (entries.foldl add_targets s).1 label ↔
          t ∈ bucket s.1 label ∨ ∃ targets, (label, targets) ∈ entries ∧ t ∈ targets := by
    intro entries
    induction entries with
    | nil => exact fun s hs => ⟨hs, fun label t => by simp⟩
    | cons row entries ih =>
        intro s hs
        obtain ⟨htouched, hbucket⟩ := ih (add_targets s row) (hs.add row)
        refine ⟨htouched, ?_⟩
        intro label t
        rw [List.foldl_cons, hbucket, bucket_add_targets, List.mem_append, or_assoc]
        apply or_congr Iff.rfl
        constructor
        · intro hor
          obtain ht | ⟨targets, hmem, ht⟩ := hor
          · split_ifs at ht with hlabel
            · exact ⟨row.2, hlabel ▸ List.mem_cons_self, ht⟩
            · cases ht
          · exact ⟨targets, List.mem_cons_of_mem _ hmem, ht⟩
        · intro hex
          obtain ⟨targets, hmem, ht⟩ := hex
          obtain he | hmem := List.mem_cons.mp hmem
          · left
            rw [if_pos (congrArg Prod.fst he).symm, ← he]
            exact ht
          · exact Or.inr ⟨targets, hmem, ht⟩
  rw [collect_eq]
  obtain ⟨htouched, hbucket⟩ := hfold (rows.flatMap fun data => data.transitions.entries) (m, [])
    ⟨List.nodup_nil, fun label => by simp [h label]⟩
  refine ⟨htouched, ?_⟩
  intro label t
  rw [hbucket, h label]
  simp only [List.not_mem_nil, false_or, List.mem_flatMap]
  constructor
  · intro hex
    obtain ⟨targets, ⟨data, hdata, hmem⟩, ht⟩ := hex
    exact ⟨data, hdata, targets, SortedMap.get_eq_some_iff.mpr hmem, ht⟩
  · intro hex
    obtain ⟨data, hdata, targets, hget, ht⟩ := hex
    exact ⟨targets, ⟨data, hdata, SortedMap.get_eq_some_iff.mp hget⟩, ht⟩

/-- Only the contents of the buckets matter. -/
theorem collect_congr (rows : List NFAState) (h : ∀ label, bucket m label = bucket m' label) :
    (collect rows (m, [])).2 = (collect rows (m', [])).2 ∧
      ∀ label, bucket (collect rows (m, [])).1 label = bucket (collect rows (m', [])).1 label := by
  have hfold : ∀ (entries : List (Label × List ℕ)) (s s' : LabelTargets × List Label),
      s.2 = s'.2 → (∀ label, bucket s.1 label = bucket s'.1 label) →
      (entries.foldl add_targets s).2 = (entries.foldl add_targets s').2 ∧
        ∀ label, bucket (entries.foldl add_targets s).1 label =
          bucket (entries.foldl add_targets s').1 label := by
    intro entries
    induction entries with
    | nil => exact fun _ _ htouched hbucket => ⟨htouched, hbucket⟩
    | cons row entries ih =>
        intro s s' htouched hbucket
        apply ih
        · unfold add_targets
          rw [hbucket, htouched]
          split_ifs with hempty
          · exact htouched
          · rfl
          · rfl
        · intro label
          rw [bucket_add_targets, bucket_add_targets, hbucket]
  rw [collect_eq, collect_eq]
  exact hfold _ _ _ rfl h

/-- Clearing the touched buckets clears all. -/
theorem bucket_clear {touched : List Label} (h : ∀ label, label ∈ touched ↔ bucket m label ≠ [])
    (label : Label) : bucket (clear m touched) label = [] := by
  have hfold : ∀ (touched : List Label) (m : LabelTargets),
      bucket (clear m touched) label = if label ∈ touched then [] else bucket m label := by
    intro touched
    induction touched with
    | nil => exact fun m => rfl
    | cons l touched ih =>
        intro m
        refine (ih (m.insert l [])).trans ?_
        rw [bucket_insert]
        by_cases hl : l = label
        · simp [hl]
        · simp [hl, Ne.symm hl]
  rw [hfold]
  split_ifs with hmem
  · rfl
  · rw [h, not_not] at hmem
    exact hmem

end Buckets

/-! ## Subsets -/

section Subsets

variable (nfa : NFA)

/-- The closure of some states as a list. -/
def closure_of (seeds : List ℕ) : Subset :=
  ((ClosureScratch.new nfa.states.length).epsilon_closure nfa seeds).1

def rows_of (subset : Subset) : List NFAState := subset.filterMap fun state => nfa.states[state]?

/-- The closed targets of a subset, by label. -/
def successors (subset : Subset) : List (Label × Subset) :=
  let collected := collect (rows_of nfa subset) (.empty, [])
  (collected.2.insertionSort (· ≤ ·)).map fun label =>
    (label, closure_of nfa (bucket collected.1 label))

def accepting (subset : Subset) : Bool := subset_is_accepting (rows_of nfa subset)

/-- The subsets that an exploration can reach: sorted lists of states. -/
structure InSubset (subset : Subset) : Prop where
  increasing : Increasing subset
  lt : ∀ state ∈ subset, state < nfa.states.length
  closed : ∀ state ∈ subset, ∀ target ∈ nfa.epsilons_of state, target < nfa.states.length →
    target ∈ subset

variable {nfa} {closure : ClosureScratch}

theorem mem_closure_of {seeds : List ℕ} {i : ℕ} : i ∈ closure_of nfa seeds ↔
    ∃ seed ∈ seeds, seed < nfa.states.length ∧ nfa.EpsilonReaches seed i :=
  (ClosureScratch.epsilon_closure_spec (ClosureScratch.valid_new nfa) seeds).2.2 i

theorem lt_of_epsilonReaches {s t : ℕ} (hs : s < nfa.states.length) (h : nfa.EpsilonReaches s t) :
    t < nfa.states.length := by
  cases h with
  | refl => exact hs
  | tail _ hedge => exact hedge.2

theorem inSubset_closure_of (seeds : List ℕ) : InSubset nfa (closure_of nfa seeds) := by
  refine ⟨(ClosureScratch.epsilon_closure_spec (ClosureScratch.valid_new nfa) seeds).2.1, ?_, ?_⟩
  · intro state hstate
    obtain ⟨seed, -, hlt, hreach⟩ := mem_closure_of.mp hstate
    exact lt_of_epsilonReaches hlt hreach
  · intro state hstate target htarget hlt
    obtain ⟨seed, hseed, hseedlt, hreach⟩ := mem_closure_of.mp hstate
    exact mem_closure_of.mpr ⟨seed, hseed, hseedlt, hreach.tail ⟨htarget, hlt⟩⟩

/-- Whatever was closed before, a closure is the same list. -/
theorem epsilon_closure_eq (h : closure.Valid nfa) (seeds : List ℕ) :
    (closure.epsilon_closure nfa seeds).1 = closure_of nfa seeds ∧
      (closure.epsilon_closure nfa seeds).2.Valid nfa := by
  obtain ⟨hvalid, hincreasing, hmem⟩ := ClosureScratch.epsilon_closure_spec h seeds
  refine ⟨?_, hvalid⟩
  apply increasing_ext hincreasing (inSubset_closure_of seeds).increasing
  intro i
  rw [hmem, mem_closure_of]

/-- A single state without epsilon edges is its own closure. -/
theorem next_key_spec (h : closure.Valid nfa) {raw_targets : List ℕ}
    (hlt : ∀ t ∈ raw_targets, t < nfa.states.length) :
    ∃ closure', next_key nfa raw_targets closure = some (closure_of nfa raw_targets, closure') ∧
      closure'.Valid nfa := by
  have hclose : ∀ seeds, ∃ closure', closure.epsilon_closure nfa seeds =
      (closure_of nfa seeds, closure') ∧ closure'.Valid nfa := by
    intro seeds
    obtain ⟨heq, hvalid⟩ := epsilon_closure_eq h seeds
    exact ⟨(closure.epsilon_closure nfa seeds).2, Prod.ext heq rfl, hvalid⟩
  unfold next_key
  match raw_targets, hlt with
  | [], _ =>
      obtain ⟨closure', heq, hvalid⟩ := hclose []
      exact ⟨closure', congrArg some heq, hvalid⟩
  | [target], hlt =>
      obtain ⟨data, hget⟩ : ∃ data, nfa.states[target]? = some data :=
        ⟨_, List.getElem?_eq_getElem (hlt target List.mem_cons_self)⟩
      dsimp only
      rw [hget, Option.map_some]
      by_cases hnone : data.epsilons = []
      · rw [if_pos hnone]
        refine ⟨closure, ?_, h⟩
        have hepsilons : nfa.epsilons_of target = [] := by
          rw [NFA.epsilons_of, hget]
          exact hnone
        congr 2
        apply increasing_ext (List.pairwise_singleton _ _) (inSubset_closure_of [target]).increasing
        intro i
        rw [mem_closure_of]
        constructor
        · intro hi
          rw [List.mem_singleton.mp hi]
          exact ⟨target, List.mem_singleton_self _, hlt target List.mem_cons_self,
            Relation.ReflTransGen.refl⟩
        · intro hex
          obtain ⟨seed, hseed, -, hreach⟩ := hex
          rw [List.mem_singleton.mp hseed] at hreach
          induction hreach with
          | refl => exact List.mem_singleton_self _
          | tail _ hedge ih =>
              rw [List.mem_singleton.mp ih, hepsilons] at hedge
              cases hedge.1
      · rw [if_neg hnone]
        obtain ⟨closure', heq, hvalid⟩ := hclose [target]
        exact ⟨closure', congrArg some heq, hvalid⟩
  | t :: t' :: rest, _ =>
      obtain ⟨closure', heq, hvalid⟩ := hclose (t :: t' :: rest)
      exact ⟨closure', congrArg some heq, hvalid⟩

theorem mem_rows_of {subset : Subset} {data : NFAState} :
    data ∈ rows_of nfa subset ↔ ∃ state ∈ subset, nfa.states[state]? = some data :=
  List.mem_filterMap

/-- What is collected from a subset are the targets of its edges. -/
theorem collected_spec (nfa : NFA) {m : LabelTargets} (h : ∀ label, bucket m label = []) (subset : Subset) :
    TouchedLabels (collect (rows_of nfa subset) (m, [])) ∧
      ∀ label t, t ∈ bucket (collect (rows_of nfa subset) (m, [])).1 label ↔
        ∃ state ∈ subset, nfa.EdgeTo label state t := by
  obtain ⟨htouched, hbucket⟩ := collect_spec (rows_of nfa subset) h
  refine ⟨htouched, ?_⟩
  intro label t
  rw [hbucket]
  constructor
  · intro hex
    obtain ⟨data, hdata, targets, hget, ht⟩ := hex
    obtain ⟨state, hstate, hdata⟩ := mem_rows_of.mp hdata
    exact ⟨state, hstate, data, targets, hdata, hget, ht⟩
  · intro hex
    obtain ⟨state, hstate, data, targets, hdata, hget, ht⟩ := hex
    exact ⟨data, mem_rows_of.mpr ⟨state, hstate, hdata⟩, targets, hget, ht⟩

theorem successors_nodup (subset : Subset) : ((successors nfa subset).map Prod.fst).Nodup := by
  have htouched := (collected_spec nfa bucket_empty subset).1
  rw [successors, List.map_map]
  change (List.map (fun label => label) _).Nodup
  rw [List.map_id']
  exact (List.perm_insertionSort _ _).nodup_iff.mpr htouched.nodup

/-- The successor of a subset for a label is the closure of the targets of its edges. -/
theorem mem_successors {subset : Subset} {label : Label} {key : Subset} :
    (label, key) ∈ successors nfa subset ↔
      (∃ state ∈ subset, ∃ t, nfa.EdgeTo label state t) ∧
        key = closure_of nfa (bucket (collect (rows_of nfa subset) (.empty, [])).1 label) := by
  obtain ⟨htouched, hbucket⟩ := collected_spec nfa bucket_empty subset
  rw [successors, List.mem_map]
  have hlabel : label ∈ (collect (rows_of nfa subset) (.empty, [])).2 ↔
      ∃ state ∈ subset, ∃ t, nfa.EdgeTo label state t := by
    rw [htouched.mem_iff, ne_eq, List.eq_nil_iff_forall_not_mem, not_forall_not]
    simp only [hbucket]
    constructor
    · intro hex
      obtain ⟨t, state, hstate, hedge⟩ := hex
      exact ⟨state, hstate, t, hedge⟩
    · intro hex
      obtain ⟨state, hstate, t, hedge⟩ := hex
      exact ⟨t, state, hstate, hedge⟩
  constructor
  · intro hex
    obtain ⟨l, hl, he⟩ := hex
    obtain ⟨rfl, rfl⟩ := Prod.mk.inj he
    exact ⟨hlabel.mp ((List.perm_insertionSort _ _).mem_iff.mp hl), rfl⟩
  · intro hand
    exact ⟨label, (List.perm_insertionSort _ _).mem_iff.mpr (hlabel.mpr hand.1),
      congrArg _ hand.2.symm⟩

end Subsets

/-! ## The loop -/

section Loop

variable {nfa : NFA} {s : Search}

/-- Between rounds all buckets are empty, and no mark is of a later closure. -/
structure Idle (nfa : NFA) (s : Search) : Prop where
  closure : s.closure.Valid nfa
  buckets : ∀ label, bucket s.label_targets label = []

theorem visit_labels_spec {m : LabelTargets} {labels : List Label}
    (hlabels : ∀ label ∈ labels, bucket m label ≠ [] ∧
      ∀ t ∈ bucket m label, t < nfa.states.length) (id : ℕ) (table : Table Subset DFAState)
    {closure : ClosureScratch} (h : closure.Valid nfa) :
    ∃ closure', labels.foldlM (visit_label nfa id m) (table, closure) =
        some (labels.foldl (fun table label => link_key DFAState.link id table
          (label, closure_of nfa (bucket m label))) table, closure') ∧ closure'.Valid nfa := by
  induction labels generalizing table closure with
  | nil => exact ⟨closure, rfl, h⟩
  | cons label labels ih =>
      obtain ⟨hne, hlt⟩ := hlabels label List.mem_cons_self
      obtain ⟨closure', hnext, hvalid⟩ := next_key_spec h hlt
      have hget : m.get label = some (bucket m label) := by
        unfold bucket at hne ⊢
        cases hget : m.get label with
        | none =>
            rw [hget] at hne
            exact absurd rfl hne
        | some targets => rfl
      have hkey : closure_of nfa (bucket m label) ≠ [] := by
        obtain ⟨t, ht⟩ := List.exists_mem_of_ne_nil _ hne
        exact List.ne_nil_of_mem
          (mem_closure_of.mpr ⟨t, ht, hlt t ht, Relation.ReflTransGen.refl⟩)
      have hvisit : visit_label nfa id m (table, closure) label =
          some (link_key DFAState.link id table (label, closure_of nfa (bucket m label)), closure') := by
        simp only [visit_label, hget, hnext, Option.bind_eq_bind, Option.bind_some, if_neg hne,
          if_neg hkey, Option.pure_def]
      rw [List.foldlM_cons, hvisit]
      exact ih (fun l hl => hlabels l (List.mem_cons_of_mem _ hl)) _ hvalid

theorem rows_of_eq {subset : Subset} (h : ∀ state ∈ subset, state < nfa.states.length) :
    subset.mapM (fun state => nfa.states[state]?) = some (rows_of nfa subset) := by
  induction subset with
  | nil => rfl
  | cons state subset ih =>
      have hget := List.getElem?_eq_getElem (h state List.mem_cons_self)
      rw [List.mapM_cons, ih (fun t ht => h t (List.mem_cons_of_mem _ ht)), hget]
      simp [rows_of, hget]

/-- A round is a visit, and leaves the buckets empty. -/
theorem step_spec (hrange : nfa.InRange) (h : Idle nfa s) {id : ℕ} {key : Subset}
    {rest : List (ℕ × Subset)} (hworklist : s.table.worklist = (id, key) :: rest)
    (hkey : InSubset nfa key) :
    ∃ s', step nfa s = some (some s') ∧ Idle nfa s' ∧
      s'.table = visit (successors nfa) (fun subset => mark_accepting (accepting nfa subset))
        DFAState.link { s.table with worklist := rest } id key := by
  obtain ⟨htouched, hbucket⟩ := collected_spec nfa h.buckets key
  have hempty : ∀ label, bucket s.label_targets label = bucket .empty label := h.buckets
  obtain ⟨hsame, hsame_bucket⟩ := collect_congr (rows_of nfa key) hempty
  generalize hcollected : collect (rows_of nfa key) (s.label_targets, []) = collected at *
  have hmem : ∀ label, label ∈ collected.2.insertionSort (· ≤ ·) ↔
      bucket collected.1 label ≠ [] := by
    intro label
    rw [(List.perm_insertionSort _ _).mem_iff, htouched.mem_iff]
  have hlabels : ∀ label ∈ collected.2.insertionSort (· ≤ ·), bucket collected.1 label ≠ [] ∧
      ∀ t ∈ bucket collected.1 label, t < nfa.states.length := by
    intro label hlabel
    refine ⟨(hmem label).mp hlabel, ?_⟩
    intro t ht
    obtain ⟨state, -, hedge⟩ := (hbucket label t).mp ht
    exact hrange.edges label state t hedge
  obtain ⟨closure', hvisited, hvalid⟩ := visit_labels_spec hlabels id
    (Table.edit { s.table with worklist := rest } id
      (mark_accepting (subset_is_accepting (rows_of nfa key)))) h.closure
  refine ⟨⟨visit (successors nfa) (fun subset => mark_accepting (accepting nfa subset)) DFAState.link
    { s.table with worklist := rest } id key, closure',
    clear collected.1 (collected.2.insertionSort (· ≤ ·))⟩, ?_, ⟨hvalid, bucket_clear hmem⟩, rfl⟩
  unfold step
  rw [hworklist]
  simp only [rows_of_eq hkey.lt, Option.bind_eq_bind, Option.bind_some, hcollected, hvisited,
    Option.pure_def]
  congr 3
  rw [visit, successors, List.foldl_map, ← hsame]
  apply List.foldl_ext
  intro table label _
  rw [hsame_bucket]

end Loop

/-! ## Words -/

section Words

variable {nfa : NFA}

theorem path_of_epsilonReaches {s t u : ℕ} {word : List Label} (h : nfa.EpsilonReaches s t)
    (hpath : nfa.Path t word u) : nfa.Path s word u := by
  induction h with
  | refl => exact hpath
  | tail _ hedge ih => exact ih (NFA.Path.epsilon hedge.1 hpath)

/-- From a closed subset the empty word leads to its states only. -/
theorem path_nil {subset : Subset} (h : InSubset nfa subset) (hrange : nfa.InRange) {t : ℕ} :
    (∃ s ∈ subset, nfa.Path s [] t) ↔ t ∈ subset := by
  constructor
  · intro hex
    obtain ⟨s, hs, hpath⟩ := hex
    generalize hword : ([] : List Label) = word at hpath
    induction hpath with
    | refl => exact hs
    | epsilon hedge _ ih => exact ih (h.closed _ hs _ hedge (hrange.epsilons _ _ hedge)) hword
    | edge => cases hword
  · intro ht
    exact ⟨t, ht, NFA.Path.refl t⟩

/-- From a closed subset a word with a first letter leads on from the targets of the letter. -/
theorem path_cons {subset : Subset} (h : InSubset nfa subset) (hrange : nfa.InRange)
    {label : Label} {word : List Label} {t : ℕ} : (∃ s ∈ subset, nfa.Path s (label :: word) t) ↔
      ∃ s ∈ subset, ∃ next, nfa.EdgeTo label s next ∧ nfa.Path next word t := by
  constructor
  · intro hex
    obtain ⟨s, hs, hpath⟩ := hex
    generalize hword : label :: word = letters at hpath
    induction hpath with
    | refl => cases hword
    | epsilon hedge _ ih => exact ih (h.closed _ hs _ hedge (hrange.epsilons _ _ hedge)) hword
    | edge hedge hrest _ =>
        cases hword
        exact ⟨_, hs, _, hedge, hrest⟩
  · intro hex
    obtain ⟨s, hs, next, hedge, hrest⟩ := hex
    exact ⟨s, hs, NFA.Path.edge hedge hrest⟩

/-- A word leads from a closed subset to the states that it reaches. -/
theorem run_members (hrange : nfa.InRange) {subset : Subset} (h : InSubset nfa subset)
    (word : List Label) (t : ℕ) :
    (∃ key, (keySystem (successors nfa) (accepting nfa)).run subset word = some key ∧ t ∈ key) ↔
      ∃ s ∈ subset, nfa.Path s word t := by
  induction word generalizing subset with
  | nil =>
      rw [path_nil h hrange]
      simp [PartialSystem.run]
  | cons label word ih =>
      rw [path_cons h hrange, PartialSystem.run]
      change (∃ key, ((successors nfa subset).lookup label).bind _ = some key ∧ t ∈ key) ↔ _
      obtain ⟨-, hbucket⟩ := collected_spec nfa bucket_empty subset
      cases hlookup : (successors nfa subset).lookup label with
      | none =>
          constructor
          · intro hex
            obtain ⟨key, hkey, -⟩ := hex
            cases hkey
          · intro hex
            obtain ⟨s, hs, next, hedge, -⟩ := hex
            have hmem := mem_successors.mpr ⟨⟨s, hs, next, hedge⟩, rfl⟩
            rw [lookup_of_mem (successors_nodup subset) hmem] at hlookup
            cases hlookup
      | some key =>
          obtain ⟨-, rfl⟩ := mem_successors.mp (mem_of_lookup hlookup)
          rw [Option.bind_some, ih (inSubset_closure_of _)]
          constructor
          · intro hex
            obtain ⟨u, hu, hpath⟩ := hex
            obtain ⟨next, hnext, -, hreach⟩ := mem_closure_of.mp hu
            obtain ⟨s, hs, hedge⟩ := (hbucket label next).mp hnext
            exact ⟨s, hs, next, hedge, path_of_epsilonReaches hreach hpath⟩
          · intro hex
            obtain ⟨s, hs, next, hedge, hpath⟩ := hex
            have hlt := hrange.edges label s next hedge
            exact ⟨next, mem_closure_of.mpr ⟨next, (hbucket label next).mpr ⟨s, hs, hedge⟩, hlt,
              Relation.ReflTransGen.refl⟩, hpath⟩

theorem accepting_iff {subset : Subset} :
    accepting nfa subset = true ↔ ∃ t ∈ subset, nfa.accepting t = true := by
  rw [accepting, subset_is_accepting, List.any_eq_true]
  constructor
  · intro hex
    obtain ⟨data, hdata, hacc⟩ := hex
    obtain ⟨state, hstate, hget⟩ := mem_rows_of.mp hdata
    refine ⟨state, hstate, ?_⟩
    rw [NFA.accepting, hget]
    exact hacc
  · intro hex
    obtain ⟨state, hstate, hacc⟩ := hex
    unfold NFA.accepting at hacc
    cases hget : nfa.states[state]? with
    | none =>
        rw [hget] at hacc
        cases hacc
    | some data =>
        rw [hget] at hacc
        exact ⟨data, mem_rows_of.mpr ⟨state, hstate, hget⟩, hacc⟩

theorem mem_start_closure {t : ℕ} {word : List Label} :
    (∃ s ∈ closure_of nfa nfa.start_states, nfa.Path s word t) ↔ nfa.ReachedBy word t := by
  constructor
  · intro hex
    obtain ⟨s, hs, hpath⟩ := hex
    obtain ⟨start, hstart, hlt, hreach⟩ := mem_closure_of.mp hs
    exact ⟨start, hstart, hlt, path_of_epsilonReaches hreach hpath⟩
  · intro hex
    obtain ⟨start, hstart, hlt, hpath⟩ := hex
    exact ⟨start, mem_closure_of.mpr ⟨start, hstart, hlt, Relation.ReflTransGen.refl⟩, hpath⟩

theorem reachedBy_of_accepting {start t : ℕ} {word : List Label} (hstart : start ∈ nfa.start_states)
    (hpath : nfa.Path start word t) (hacc : nfa.accepting t = true) : nfa.ReachedBy word t := by
  refine ⟨start, hstart, ?_, hpath⟩
  by_contra hge
  have hnone : nfa.states[start]? = none := List.getElem?_eq_none (not_lt.mp hge)
  cases hpath with
  | refl =>
      rw [NFA.accepting, hnone] at hacc
      cases hacc
  | epsilon hedge =>
      rw [NFA.epsilons_of, hnone] at hedge
      cases hedge
  | edge hedge =>
      obtain ⟨data, targets, hdata, -⟩ := hedge
      rw [hnone] at hdata
      cases hdata

theorem acceptsWord_iff {word : List Label} :
    nfa.AcceptsWord word ↔ ∃ t, nfa.ReachedBy word t ∧ nfa.accepting t = true := by
  constructor
  · intro hex
    obtain ⟨start, hstart, t, hpath, hacc⟩ := hex
    exact ⟨t, reachedBy_of_accepting hstart hpath hacc, hacc⟩
  · intro hex
    obtain ⟨t, ⟨start, hstart, -, hpath⟩, hacc⟩ := hex
    exact ⟨start, hstart, t, hpath, hacc⟩

end Words

/-! ## The result -/

/-- The states of the result stand for different sets of states, each of which is closed under epsilon
edges and is what some word reaches that leads to the state. -/
structure StandsForSubsets (nfa : NFA) (result : DFA) (subset : ℕ → Finset ℕ) : Prop where
  distinct : ∀ i j, i < result.states.length → j < result.states.length → subset i = subset j → i = j
  closed : ∀ i, i < result.states.length → ∀ s ∈ subset i, ∀ t ∈ nfa.epsilons_of s, t ∈ subset i
  reached : ∀ i, i < result.states.length → ∃ word,
    result.plain.run result.start_state word = some i ∧ ∀ t, t ∈ subset i ↔ nfa.ReachedBy word t

theorem finite_inSubset (nfa : NFA) : {subset | InSubset nfa subset}.Finite := by
  apply Set.Finite.subset ((Finset.range nfa.states.length).powerset.image fun s =>
    s.sort (· ≤ ·)).finite_toSet
  intro subset h
  apply Finset.mem_coe.mpr
  refine Finset.mem_image.mpr ⟨subset.toFinset, ?_, ?_⟩
  · rw [Finset.mem_powerset]
    intro state hstate
    exact Finset.mem_range.mpr (h.lt state (List.mem_toFinset.mp hstate))
  · apply increasing_ext (Finset.sortedLT_sort _).pairwise h.increasing
    intro i
    rw [Finset.mem_sort, List.mem_toFinset]

/-- Without states or start states nothing is reached, and the result is one rejecting state. -/
theorem new_standsFor {nfa : NFA} (h : nfa.states = [] ∨ nfa.start_states = []) :
    (∀ word, DFA.new.accepts_word word = true ↔ nfa.AcceptsWord word) ∧
      StandsForSubsets nfa DFA.new fun _ => ∅ := by
  have hnone : ∀ word t, ¬nfa.ReachedBy word t := by
    intro word t hreached
    obtain ⟨start, hstart, hlt, -⟩ := hreached
    obtain h | h := h
    · rw [h] at hlt
      exact absurd hlt (Nat.not_lt_zero _)
    · rw [h] at hstart
      cases hstart
  refine ⟨?_, ?_, ?_, ?_⟩
  · intro word
    rw [DFA.new_accepts_word, acceptsWord_iff]
    simp [hnone]
  · intro i j hi hj _
    exact (Nat.lt_one_iff.mp hi).trans (Nat.lt_one_iff.mp hj).symm
  · intro i _ s hs
    exact absurd hs (Finset.notMem_empty s)
  · intro i hi
    obtain rfl : i = 0 := Nat.lt_one_iff.mp hi
    refine ⟨[], rfl, ?_⟩
    intro t
    simp [hnone]

/-- Determinization of an acyclic automaton ends, and its result accepts the same words; its states
stand for different closed subsets. -/
theorem determinize_correct {nfa : NFA} (hacyclic : nfa.compute_is_acyclic = true)
    (hrange : nfa.InRange) : ∃ result, Yields (determinize nfa) result ∧
      (∀ word, result.accepts_word word = true ↔ nfa.AcceptsWord word) ∧
      ∃ subset, StandsForSubsets nfa result subset := by
  by_cases hempty : nfa.states = [] ∨ nfa.start_states = []
  · obtain ⟨haccepts, hstands⟩ := new_standsFor hempty
    refine ⟨DFA.new, ⟨0, ?_⟩, haccepts, _, hstands⟩
    intro fuel _
    simp [determinize, hacyclic, hempty]
  · have hvalid := (epsilon_closure_eq (ClosureScratch.valid_new nfa) nfa.start_states).2
    have hmemU : ∀ subset, subset ∈ (finite_inSubset nfa).toFinset ↔ InSubset nfa subset :=
      fun subset => Set.Finite.mem_toFinset _
    have hclosed : ∀ subset ∈ (finite_inSubset nfa).toFinset, ∀ e ∈ successors nfa subset,
        e.2 ∈ (finite_inSubset nfa).toFinset := by
      intro subset _ e he
      rw [hmemU, (mem_successors.mp he).2]
      exact inSubset_closure_of _
    obtain ⟨s, hyields, -, keys, hexplored, hkeys⟩ := explore_yields Search.table (Idle nfa) hclosed
      (fun s _ hworklist => by rw [step, hworklist])
      (fun s id key rest hidle hworklist hkey _ =>
        step_spec hrange hidle hworklist ((hmemU key).mp hkey))
      (Idle.mk (s := ⟨start_table (closure_of nfa nfa.start_states), _, .empty⟩) hvalid bucket_empty)
      rfl ((hmemU _).mpr (inSubset_closure_of nfa.start_states))
    have hlabels : ∀ subset ∈ keys, ((successors nfa subset).map Prod.fst).Nodup :=
      fun subset _ => successors_nodup subset
    have hopened : ∀ subset ∈ keys, mark_accepting (accepting nfa subset) default =
        ⟨accepting nfa subset, SortedMap.empty⟩ := by
      intro subset _
      unfold mark_accepting
      cases accepting nfa subset with
      | true => rfl
      | false => rfl
    have hlength := hexplored.keyed.length
    have hget : ∀ i, i < s.table.rows.length → ∃ subset, keys[i]? = some subset ∧
        InSubset nfa subset ∧ keys.getD i [] = subset := by
      intro i hi
      have hi' := List.getElem?_eq_getElem (hlength ▸ hi)
      refine ⟨_, hi', (hmemU _).mp (hkeys _ (List.mem_of_getElem? hi')), ?_⟩
      rw [List.getD_eq_getElem?_getD, hi', Option.getD_some]
    refine ⟨⟨s.table.rows, 0⟩, ?_, ?_, fun i => (keys.getD i []).toFinset, ?_, ?_, ?_⟩
    · unfold determinize
      simp only [hacyclic, Bool.not_true, Bool.false_eq_true, if_false, if_neg hempty]
      exact hyields.map _
    · intro word
      have hstart := explored_accepts hexplored hlabels hopened hexplored.first 0 word
      rw [DFA.accepts_word, hstart, PartialSystem.accepts_iff, acceptsWord_iff]
      have hrun := run_members hrange (inSubset_closure_of nfa.start_states) word
      simp only [mem_start_closure] at hrun
      constructor
      · intro hex
        obtain ⟨key, hkey, hacc⟩ := hex
        obtain ⟨t, ht, hacc⟩ := accepting_iff.mp hacc
        exact ⟨t, (hrun t).mp ⟨key, hkey, ht⟩, hacc⟩
      · intro hex
        obtain ⟨t, hreached, hacc⟩ := hex
        obtain ⟨key, hkey, ht⟩ := (hrun t).mpr hreached
        exact ⟨key, hkey, accepting_iff.mpr ⟨t, ht, hacc⟩⟩
    · intro i j hi hj he
      obtain ⟨subset, hi, hin, hgeti⟩ := hget i hi
      obtain ⟨subset', hj, hin', hgetj⟩ := hget j hj
      rw [hgeti, hgetj] at he
      obtain rfl : subset = subset' := by
        apply increasing_ext hin.increasing hin'.increasing
        intro t
        rw [← List.mem_toFinset, he, List.mem_toFinset]
      have hnumber := (hexplored.keyed.number subset i).mpr hi
      rw [(hexplored.keyed.number subset j).mpr hj] at hnumber
      exact (Option.some.inj hnumber).symm
    · intro i hi s hs t ht
      obtain ⟨subset, -, hin, hgeti⟩ := hget i hi
      rw [hgeti, List.mem_toFinset] at hs ⊢
      exact hin.closed s hs t ht (hrange.epsilons s t ht)
    · intro i hi
      obtain ⟨subset, hi, -, hgeti⟩ := hget i hi
      obtain ⟨word, hrun, hkey⟩ := explored_reached hexplored hlabels hopened hi 0
      refine ⟨word, hrun, ?_⟩
      intro t
      have hmembers := run_members hrange (inSubset_closure_of nfa.start_states) word t
      rw [mem_start_closure] at hmembers
      rw [hgeti, List.mem_toFinset, ← hmembers]
      constructor
      · intro ht
        exact ⟨subset, hkey, ht⟩
      · intro hex
        obtain ⟨key, hkey', ht⟩ := hex
        rw [Option.some.inj (hkey.symm.trans hkey')]
        exact ht

theorem inRange_of_targets {nfa : NFA} (h : ∀ state < nfa.states.length,
    ∀ target ∈ nfa.targets state, target < nfa.states.length) : nfa.InRange := by
  have hdata : ∀ (state : ℕ) (data : NFAState), nfa.states[state]? = some data →
      ∀ target ∈ data.transitions.values.flatten ++ data.epsilons, target < nfa.states.length := by
    intro state data hget target htarget
    apply h state (List.getElem?_eq_some_iff.mp hget).1
    rw [NFA.targets, hget]
    exact htarget
  refine ⟨?_, ?_⟩
  · intro label source target hedge
    obtain ⟨data, targets, hget, htargets, htarget⟩ := hedge
    apply hdata source data hget
    apply List.mem_append_left
    exact List.mem_flatten.mpr
      ⟨targets, List.mem_map.mpr ⟨_, SortedMap.get_eq_some_iff.mp htargets, rfl⟩, htarget⟩
  · intro source target htarget
    unfold NFA.epsilons_of at htarget
    cases hget : nfa.states[source]? with
    | none =>
        rw [hget] at htarget
        cases htarget
    | some data =>
        rw [hget] at htarget
        exact hdata source data hget target (List.mem_append_right _ htarget)

/-- Two edges with one label to the same state, which has an epsilon edge to an accepting state. -/
def epsilonNfa : NFA :=
  ⟨[⟨false, .ofList [(7, [1, 1])], []⟩, ⟨false, .empty, [2]⟩, ⟨true, .empty, []⟩], [0, 0]⟩

theorem determinize_epsilonNfa : ∃ result, Yields (determinize epsilonNfa) result ∧
    (∀ word, result.accepts_word word = true ↔ epsilonNfa.AcceptsWord word) ∧
    ∃ subset, StandsForSubsets epsilonNfa result subset :=
  determinize_correct (by decide +kernel) (inRange_of_targets (by decide +kernel))

end Determinize

end GlrMask
