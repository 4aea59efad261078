import Mathlib.Data.List.AList
import GlrMask.ParserMask
import GlrMask.Equivalence

/-!
# Comparing the masks of two parser automata

The product is searched breadth first by pairs of states, each with a region of
points that neither side accepted so far. At every edge the region is split
into the points that both edges admit and those that only one admits. A region
visited before at the same pair is not visited again.
-/

namespace GlrMask

namespace ParserEquivalence

structure ParserMaskDifference where
  stack_top_first : List ℕ
  left_mask : Weight
  right_mask : Weight

structure ParserMaskComparison where
  /-- `none` only after the reachable product is exhausted. -/
  difference : Option ParserMaskDifference
  product_states : ℕ
  compared_branches : ℕ

section Definitions

variable [Runtime]

def contribution (dwa : DWA) (state : Option ℕ) (weight : Weight) : Weight :=
  match state.bind dwa.final with
  | some final_weight => weight.intersection final_weight
  | none => Weight.empty

def advance (dwa : DWA) (state : Option ℕ) (weight : Weight) (parser : ℕ) : Option ℕ × Weight :=
  if weight.is_empty then (none, Weight.empty)
  else
    match state.bind fun state => dwa.states[state]? with
    | none => (none, Weight.empty)
    | some row =>
        match (row.transitions.get parser).or (row.transitions.get DEFAULT_LABEL) with
        | none => (none, Weight.empty)
        | some (target, edge) =>
            let weight := weight.intersection edge
            (if weight.is_empty then none else some target, weight)

def evaluateFrom (dwa : DWA) (state : Option ℕ) (path accepted : Weight) : List ℕ → Weight
  | [] => accepted.union (contribution dwa state path)
  | parser :: word =>
      let accepted := accepted.union (contribution dwa state path)
      let next := advance dwa state path parser
      if next.2.is_empty then accepted else evaluateFrom dwa next.1 next.2 accepted word

def evaluate_prefix_mask (dwa : DWA) (word : List ℕ) : Weight :=
  evaluateFrom dwa (some dwa.start_state) Weight.all Weight.empty word

/-- A finite weight that uses the tsid of the sentinel. -/
def reserved_tsid (weight : Weight) : Bool :=
  !weight.is_full && weight.map.runs.any fun run => run.hi = u32Max

def transition_error (dwa : DWA) (num_parser_states : ℕ) (e : Label × (ℕ × Weight)) :
    Option String :=
  let label := e.1
  if label ≠ DEFAULT_LABEL ∧ (label < 0 ∨ num_parser_states ≤ label.toNat) then
    some s!"parser comparison requires raw parser-state labels; found {label}"
  else if dwa.states.length ≤ e.2.1 then
    some "parser comparison found an invalid transition target"
  else none

def row_error (dwa : DWA) (num_parser_states : ℕ) (row : DWAState) : Option String :=
  if (row.final_weight.toList ++ row.transitions.values.map Prod.snd).any reserved_tsid then
    some "parser comparison found a reserved raw TSID in a finite weight"
  else row.transitions.entries.findSome? (transition_error dwa num_parser_states)

/-- The checks that precede the search. -/
def input_error (left right : DWA) (num_parser_states max_product_states : ℕ) : Option String :=
  if max_product_states = 0 ∨ DEFAULT_LABEL.toNat < num_parser_states then
    some "invalid parser-mask comparison domain/budget"
  else [left, right].findSome? fun dwa => dwa.states.findSome? (row_error dwa num_parser_states)

/-- All points below the reserved tsid. -/
def comparison_universe : Weight :=
  Weight.from_uniform 0 (u32Max - 1) (RangeSet.ofRanges u32Max [⟨0, u32Max, ()⟩]) (by decide)

/-- A region of points to be visited at a pair of states, and the stack that leads there. -/
structure Item where
  pair : StatePair
  domain : Weight
  word : List ℕ

structure Progress where
  visited : AList fun _ : StatePair => Weight
  queue : List Item
  branches : ℕ

def explicit_labels (dwa : DWA) (state : Option ℕ) : List ℕ :=
  (outgoing_labels dwa state).filterMap fun label =>
    if label ≠ DEFAULT_LABEL then some label.toNat else none

/-- The least number from `unnamed` on that a list of labels in increasing order misses. -/
def firstUnnamed (unnamed : ℕ) : List ℕ → ℕ
  | [] => unnamed
  | label :: labels =>
      if label = unnamed then firstUnnamed (unnamed + 1) labels
      else if unnamed < label then unnamed
      else firstUnnamed unnamed labels

/-- The labels of both rows, and one label for all others. -/
def branch_labels (left right : DWA) (num_parser_states : ℕ) (pair : StatePair) : List ℕ :=
  let labels := ((explicit_labels left pair.1 ++ explicit_labels right pair.2).dedup).insertionSort
    (· ≤ ·)
  let unnamed := firstUnnamed 0 labels
  if unnamed < num_parser_states then labels.orderedInsert (· ≤ ·) unnamed else labels

def Progress.novel (progress : Progress) (pair : StatePair) (region : Weight) : Weight :=
  match progress.visited.lookup pair with
  | none => region
  | some old => region.difference old

def Progress.visit (progress : Progress) (pair : StatePair) (novel : Weight) (word : List ℕ) :
    Progress :=
  let region :=
    match progress.visited.lookup pair with
    | none => novel
    | some old => old.union novel
  { progress with
    visited := progress.visited.insert pair region
    queue := progress.queue ++ [⟨pair, novel, word⟩] }

def visit_region (max_product_states : ℕ) (word : List ℕ) (progress : Progress)
    (target : StatePair × Weight) : Except String Progress :=
  if target.2.is_empty then .ok progress
  else
    let novel := progress.novel target.1 target.2
    let pairs := progress.visited.entries.length
    if novel.is_empty then .ok progress
    else if max_product_states ≤ pairs ∧ progress.visited.lookup target.1 = none then
      .error s!"parser-mask comparison budget exhausted at {pairs} pairs"
    else .ok (progress.visit target.1 novel word)

/-- The region of a label is split by the sides whose edge admits a point. -/
def label_regions (left right : DWA) (pair : StatePair) (active : Weight) (label : ℕ) :
    List (StatePair × Weight) :=
  let l := advance left pair.1 active label
  let r := advance right pair.2 active label
  [((l.1, r.1), l.2.intersection r.2), ((l.1, none), l.2.difference r.2),
    ((none, r.1), r.2.difference l.2)]

def visit_label (left right : DWA) (max_product_states : ℕ) (item : Item) (active : Weight)
    (progress : Progress) (label : ℕ) : Except String Progress :=
  (label_regions left right item.pair active label).foldlM
    (visit_region max_product_states (item.word ++ [label]))
    { progress with branches := progress.branches + 1 }

/-- Follow all labels from the points of an item that neither side accepts. -/
def visit_item (left right : DWA) (num_parser_states max_product_states : ℕ) (item : Item)
    (progress : Progress) : Except String Progress :=
  let active := item.domain.difference (contribution left item.pair.1 item.domain)
  if active.is_empty then .ok progress
  else
    (branch_labels left right num_parser_states item.pair).foldlM
      (visit_label left right max_product_states item active) progress

def differs_at (left right : DWA) (item : Item) : Bool :=
  !(contribution left item.pair.1 item.domain).eq (contribution right item.pair.2 item.domain)

def Progress.finish (progress : Progress) (difference : Option ParserMaskDifference) :
    ParserMaskComparison :=
  ⟨difference, progress.visited.entries.length, progress.branches⟩

def mask_difference (left right : DWA) (word : List ℕ) : ParserMaskDifference :=
  ⟨word, evaluate_prefix_mask left word, evaluate_prefix_mask right word⟩

/-- The search, with the number of regions it may still visit. -/
def compare_regions (left right : DWA) (num_parser_states max_product_states : ℕ) :
    ℕ → Progress → Except String ParserMaskComparison
  | remaining, progress =>
      match progress.queue with
      | [] => .ok (progress.finish none)
      | item :: queue =>
          let region_visits := max_product_states + 1
          let pairs := progress.visited.entries.length
          match remaining with
          | 0 =>
              .error s!"parser-mask comparison budget exhausted after {region_visits} region visits at {pairs} pairs"
          | remaining + 1 =>
              if differs_at left right item then
                .ok (progress.finish (some (mask_difference left right item.word)))
              else do
                let progress ← visit_item left right num_parser_states max_product_states item
                  { progress with queue := queue }
                compare_regions left right num_parser_states max_product_states remaining progress

def initial_pair (left right : DWA) : StatePair := (some left.start_state, some right.start_state)

def initial_progress (left right : DWA) : Progress :=
  ⟨(∅ : AList fun _ : StatePair => Weight).insert (initial_pair left right) comparison_universe,
    [⟨initial_pair left right, comparison_universe, []⟩], 0⟩

def compare_parser_mask_prefix_languages (left right : DWA)
    (num_parser_states max_product_states : ℕ) : Except String ParserMaskComparison :=
  match input_error left right num_parser_states max_product_states with
  | some message => .error message
  | none =>
      compare_regions left right num_parser_states max_product_states max_product_states
        (initial_progress left right)

end Definitions

open PairSearch

/-! ## One point of the weights -/

theorem mem_all_tokens {x : ℕ} :
    x ∈ RangeSet.ofRanges u32Max [⟨0, u32Max, ()⟩] ↔ x ≤ u32Max := by
  rw [RangeSet.mem_ofRanges]
  · simp [Run.Covers]
  · intro r hr
    rw [List.mem_singleton.mp hr]
    exact ⟨Nat.zero_le _, le_rfl⟩

theorem all_tokens_ne_empty : RangeSet.ofRanges u32Max [⟨0, u32Max, ()⟩] ≠ RangeMap.empty :=
  RangeSet.ne_empty_iff.mpr ⟨0, mem_all_tokens.mpr (Nat.zero_le _)⟩

theorem mem_comparison_universe {k x : ℕ} :
    (some (k, x) : Point) ∈ comparison_universe ↔ k < u32Max ∧ x ≤ u32Max := by
  rw [comparison_universe, Weight.mem_from_uniform _ all_tokens_ne_empty (Nat.zero_le _),
    mem_all_tokens]
  have hpos : 0 < u32Max := by decide
  constructor
  · intro h
    exact ⟨by omega, h.2⟩
  · intro h
    exact ⟨⟨Nat.zero_le _, by omega⟩, h.2⟩

theorem none_not_mem_universe : (none : Point) ∉ comparison_universe :=
  Weight.none_not_mem_of_finite _ rfl (Weight.map_from_uniform _ all_tokens_ne_empty).2

section Points

variable [Runtime] {left right dwa : DWA} {p : Point}

theorem mem_contribution {state : Option ℕ} {weight : Weight} :
    p ∈ contribution dwa state weight ↔ p ∈ weight ∧ dwa.AcceptsHere p state := by
  cases state with
  | none => simp [contribution]
  | some state =>
      simp only [contribution, Option.bind_some, DWA.acceptsHere_some]
      cases dwa.final state with
      | none => simp
      | some final_weight => simp

omit [Runtime] in
theorem row_edge {state parser : ℕ} {row : DWAState} (h : dwa.states[state]? = some row) :
    (row.transitions.get parser).or (row.transitions.get DEFAULT_LABEL) =
      dwa.parserEdge state parser := by
  simp only [DWA.parserEdge, DWA.edge, h, Option.bind_some]

/-- A point of the weight survives exactly where its run goes on, and then to the same state. -/
theorem advance_spec {state : Option ℕ} {weight : Weight} (hp : p ∈ weight) (parser : ℕ) :
    (p ∈ (advance dwa state weight parser).2 ↔ dwa.stepAt p state parser ≠ none) ∧
      (p ∈ (advance dwa state weight parser).2 →
        (advance dwa state weight parser).1 = dwa.stepAt p state parser) := by
  have hne : ¬ weight.is_empty = true := by
    rw [Weight.is_empty_iff]
    intro he
    rw [he] at hp
    exact Weight.not_mem_empty hp
  rw [advance, if_neg hne]
  cases state with
  | none => simp
  | some state =>
      simp only [Option.bind_some]
      cases hrow : dwa.states[state]? with
      | none =>
          have hstep : dwa.stepAt p (some state) parser = none := by
            simp [DWA.stepAt, DWA.parserEdge, DWA.edge, hrow]
          simp [hstep]
      | some row =>
          simp only [row_edge hrow]
          cases hedge : dwa.parserEdge state parser with
          | none =>
              have hstep : dwa.stepAt p (some state) parser = none := by simp [DWA.stepAt, hedge]
              simp [hstep]
          | some e =>
              obtain ⟨target, edge⟩ := e
              simp only [DWA.stepAt, hedge, Option.bind_some, Weight.mem_intersection, hp,
                true_and]
              by_cases hmem : p ∈ edge
              · have hnonempty : ¬ (weight.intersection edge).is_empty = true := by
                  rw [Weight.is_empty_iff]
                  exact Weight.ne_empty_iff'.mpr ⟨p, Weight.mem_intersection.mpr ⟨hp, hmem⟩⟩
                simp [hmem, hnonempty]
              · simp [hmem]

theorem advance_subset {state : Option ℕ} {weight : Weight} {parser : ℕ}
    (h : p ∈ (advance dwa state weight parser).2) : p ∈ weight := by
  unfold advance at h
  split_ifs at h with he
  · exact absurd h Weight.not_mem_empty
  · split at h
    · exact absurd h Weight.not_mem_empty
    · split at h
      · exact absurd h Weight.not_mem_empty
      · exact (Weight.mem_intersection.mp h).1

theorem mem_evaluateFrom {state : Option ℕ} {path accepted : Weight} {word : List ℕ} :
    p ∈ evaluateFrom dwa state path accepted word ↔
      p ∈ accepted ∨ p ∈ path ∧ dwa.MaskFrom p state word := by
  induction word generalizing state path accepted with
  | nil => simp only [evaluateFrom, Weight.mem_union, mem_contribution, DWA.MaskFrom]
  | cons parser word ih =>
      have hstep : p ∈ (advance dwa state path parser).2 ∧
          dwa.MaskFrom p (advance dwa state path parser).1 word ↔
          p ∈ path ∧ dwa.MaskFrom p (dwa.stepAt p state parser) word := by
        constructor
        · intro h
          have hp := advance_subset h.1
          exact ⟨hp, (advance_spec hp parser).2 h.1 ▸ h.2⟩
        · intro h
          obtain ⟨hiff, heq⟩ := @advance_spec _ dwa p state path h.1 parser
          have hmem := hiff.mpr fun he => DWA.not_maskFrom_none word (he ▸ h.2)
          exact ⟨hmem, (heq hmem).symm ▸ h.2⟩
      have hcons : p ∈ path ∧ dwa.MaskFrom p state (parser :: word) ↔
          p ∈ contribution dwa state path ∨ p ∈ (advance dwa state path parser).2 ∧
            dwa.MaskFrom p (advance dwa state path parser).1 word := by
        rw [hstep, mem_contribution, DWA.MaskFrom, and_or_left]
      simp only [evaluateFrom]
      rw [hcons, ← or_assoc, ← Weight.mem_union]
      split_ifs with he
      · rw [Weight.is_empty_iff.mp he]
        simp
      · exact ih

theorem mem_evaluate_prefix_mask {word : List ℕ} :
    p ∈ evaluate_prefix_mask dwa word ↔ p ∈ dwa.Mask word := by
  rw [evaluate_prefix_mask, mem_evaluateFrom, DWA.mem_mask]
  simp

end Points

/-! ## Labels -/

theorem le_firstUnnamed (unnamed : ℕ) (labels : List ℕ) :
    unnamed ≤ firstUnnamed unnamed labels := by
  induction labels generalizing unnamed with
  | nil => exact le_rfl
  | cons label labels ih =>
      simp only [firstUnnamed]
      split_ifs
      · exact (Nat.le_succ unnamed).trans (ih (unnamed + 1))
      · exact le_rfl
      · exact ih unnamed

/-- The first missing number is missing, and the numbers before it are not. -/
theorem firstUnnamed_spec {unnamed : ℕ} {labels : List ℕ} (hsorted : labels.Pairwise (· < ·))
    (hle : ∀ label ∈ labels, unnamed ≤ label) :
    firstUnnamed unnamed labels ∉ labels ∧
      ∀ n, unnamed ≤ n → n < firstUnnamed unnamed labels → n ∈ labels := by
  induction labels generalizing unnamed with
  | nil =>
      refine ⟨List.not_mem_nil, fun n hn hlt => ?_⟩
      simp only [firstUnnamed] at hlt
      omega
  | cons label labels ih =>
      have hlt : ∀ l ∈ labels, label < l := fun l hl => List.rel_of_pairwise_cons hsorted hl
      have hfirst := hle label List.mem_cons_self
      simp only [firstUnnamed]
      by_cases heq : label = unnamed
      · subst heq
        rw [if_pos rfl]
        obtain ⟨hnot, hmem⟩ := @ih (label + 1) hsorted.tail hlt
        have hge := le_firstUnnamed (label + 1) labels
        constructor
        · intro hc
          rcases List.mem_cons.mp hc with hc | hc
          · omega
          · exact hnot hc
        · intro n hn hlt'
          by_cases hnl : n = label
          · exact hnl ▸ List.mem_cons_self
          · exact List.mem_cons_of_mem _ (hmem n (by omega) hlt')
      · have hgt : unnamed < label := by omega
        rw [if_neg heq, if_pos hgt]
        constructor
        · intro hc
          rcases List.mem_cons.mp hc with hc | hc
          · omega
          · have := hlt _ hc
            omega
        · intro n hn hlt'
          omega

theorem stepAt_eq_none_of_state {dwa : DWA} {p : Point} {side : Option ℕ} {parser : ℕ}
    (h : (side.bind fun state => dwa.states[state]?) = none) :
    dwa.stepAt p side parser = none := by
  cases side with
  | none => rfl
  | some state =>
      rw [Option.bind_some] at h
      simp [DWA.stepAt, DWA.parserEdge, DWA.edge, h]

/-- Labels that a row does not name all take its default. -/
theorem stepAt_of_unnamed {dwa : DWA} {p : Point} {side : Option ℕ} {a b : ℕ}
    (ha : a ∉ explicit_labels dwa side) (hb : b ∉ explicit_labels dwa side)
    (hla : a < DEFAULT_LABEL.toNat) (hlb : b < DEFAULT_LABEL.toNat) :
    dwa.stepAt p side a = dwa.stepAt p side b := by
  cases hrow : side.bind fun state => dwa.states[state]? with
  | none => rw [stepAt_eq_none_of_state hrow, stepAt_eq_none_of_state hrow]
  | some row =>
      obtain ⟨state, rfl, hstate⟩ := Option.bind_eq_some_iff.mp hrow
      have hnone : ∀ c, c ∉ explicit_labels dwa (some state) → c < DEFAULT_LABEL.toNat →
          dwa.parserEdge state c = dwa.edge state DEFAULT_LABEL := by
        intro c hc hlt
        have hget : row.transitions.get c = none := by
          rw [SortedMap.get_eq_none_iff]
          intro hmem
          apply hc
          simp only [explicit_labels, outgoing_labels, hrow, List.mem_filterMap]
          refine ⟨c, hmem, ?_⟩
          have hne : (c : Label) ≠ DEFAULT_LABEL := by
            intro he
            rw [← he, Int.toNat_natCast] at hlt
            exact lt_irrefl _ hlt
          rw [if_pos hne, Int.toNat_natCast]
        simp only [DWA.parserEdge, DWA.edge, hstate, Option.bind_some, hget, Option.none_or]
      simp only [DWA.stepAt, Option.bind_some, hnone a ha hla, hnone b hb hlb]

/-- What the checks promise: edges lead to states, under the default or a parser state. -/
def Checked (dwa : DWA) (num_parser_states : ℕ) : Prop :=
  ∀ state label next edge_weight, dwa.edge state label = some (next, edge_weight) →
    next < dwa.states.length ∧ (label ≠ DEFAULT_LABEL → label.toNat < num_parser_states)

theorem checked_of_row_error {dwa : DWA} {num_parser_states : ℕ}
    (h : ∀ row ∈ dwa.states, row_error dwa num_parser_states row = none) :
    Checked dwa num_parser_states := by
  intro state label next edge_weight hedge
  obtain ⟨row, hrow, hget⟩ := Option.bind_eq_some_iff.mp hedge
  have hnone := h row (List.mem_of_getElem? hrow)
  unfold row_error at hnone
  split_ifs at hnone
  have htransition := List.findSome?_eq_none_iff.mp hnone _ (SortedMap.get_eq_some_iff.mp hget)
  simp only [transition_error] at htransition
  split_ifs at htransition with hlabel htarget
  constructor
  · omega
  · intro hne
    by_contra hge
    exact hlabel ⟨hne, Or.inr (by omega)⟩

theorem input_error_eq_none {left right : DWA} {num_parser_states max_product_states : ℕ}
    (h : input_error left right num_parser_states max_product_states = none) :
    num_parser_states ≤ DEFAULT_LABEL.toNat ∧ Checked left num_parser_states ∧
      Checked right num_parser_states := by
  unfold input_error at h
  split_ifs at h with hdomain
  rw [not_or, not_lt] at hdomain
  have hrows := List.findSome?_eq_none_iff.mp h
  exact ⟨hdomain.2,
    checked_of_row_error (List.findSome?_eq_none_iff.mp (hrows left (by simp))),
    checked_of_row_error (List.findSome?_eq_none_iff.mp (hrows right (by simp)))⟩

theorem Checked.explicit_lt {dwa : DWA} {num_parser_states : ℕ} (h : Checked dwa num_parser_states)
    {side : Option ℕ} {label : ℕ} (hlabel : label ∈ explicit_labels dwa side) :
    label < num_parser_states := by
  obtain ⟨key, hkey, heq⟩ := List.mem_filterMap.mp hlabel
  split_ifs at heq with hne
  obtain rfl := Option.some.inj heq
  unfold outgoing_labels at hkey
  split at hkey
  · rename_i row hrow
    obtain ⟨state, rfl, hstate⟩ := Option.bind_eq_some_iff.mp hrow
    obtain ⟨⟨next, edge_weight⟩, hget⟩ := SortedMap.mem_keys_iff.mp hkey
    have hedge : dwa.edge state key = some (next, edge_weight) := by
      rw [DWA.edge, hstate]
      exact hget
    exact (h state key next edge_weight hedge).2 hne
  · exact absurd hkey List.not_mem_nil

theorem Checked.stepAt_lt {dwa : DWA} {num_parser_states : ℕ} (h : Checked dwa num_parser_states)
    {p : Point} {side : Option ℕ} {parser next : ℕ}
    (hstep : dwa.stepAt p side parser = some next) : next < dwa.states.length := by
  obtain ⟨state, -, edge_weight, hedge, -⟩ := DWA.stepAt_eq_some.mp hstep
  rcases Option.or_eq_some_iff.mp hedge with he | ⟨-, he⟩
  · exact (h state _ next edge_weight he).1
  · exact (h state _ next edge_weight he).1

section Branches

variable {left right : DWA} {num_parser_states : ℕ} {pair : StatePair}

/-- The labels of both rows in increasing order. -/
def rowLabels (left right : DWA) (pair : StatePair) : List ℕ :=
  ((explicit_labels left pair.1 ++ explicit_labels right pair.2).dedup).insertionSort (· ≤ ·)

theorem mem_rowLabels {label : ℕ} : label ∈ rowLabels left right pair ↔
    label ∈ explicit_labels left pair.1 ∨ label ∈ explicit_labels right pair.2 := by
  rw [rowLabels, List.mem_insertionSort, List.mem_dedup, List.mem_append]

theorem rowLabels_sorted : (rowLabels left right pair).Pairwise (· < ·) := by
  have hnodup : (rowLabels left right pair).Nodup :=
    (List.perm_insertionSort _ _).nodup_iff.mpr (List.nodup_dedup _)
  have hle : (rowLabels left right pair).Pairwise (· ≤ ·) := List.pairwise_insertionSort _ _
  exact (hle.and hnodup).imp fun h => lt_of_le_of_ne h.1 h.2

theorem mem_branch_labels {label : ℕ} : label ∈ branch_labels left right num_parser_states pair ↔
    label ∈ rowLabels left right pair ∨ label = firstUnnamed 0 (rowLabels left right pair) ∧
      label < num_parser_states := by
  change label ∈ (if firstUnnamed 0 (rowLabels left right pair) < num_parser_states then
    (rowLabels left right pair).orderedInsert (· ≤ ·) (firstUnnamed 0 (rowLabels left right pair))
    else rowLabels left right pair) ↔ _
  split_ifs with h
  · rw [List.mem_orderedInsert, or_comm]
    exact or_congr_right ⟨fun he => ⟨he, he ▸ h⟩, fun he => he.1⟩
  · exact ⟨Or.inl, fun hor => hor.resolve_right fun he => h (he.1 ▸ he.2)⟩

theorem branch_label_lt (hleft : Checked left num_parser_states)
    (hright : Checked right num_parser_states) {label : ℕ}
    (h : label ∈ branch_labels left right num_parser_states pair) : label < num_parser_states := by
  rcases mem_branch_labels.mp h with h | ⟨-, h⟩
  · rcases mem_rowLabels.mp h with h | h
    · exact hleft.explicit_lt h
    · exact hright.explicit_lt h
  · exact h

/-- Every parser state is followed as one of the branches is. -/
theorem exists_branch_label (hnum : num_parser_states ≤ DEFAULT_LABEL.toNat) {parser : ℕ}
    (hparser : parser < num_parser_states) :
    ∃ label ∈ branch_labels left right num_parser_states pair, ∀ p,
      left.stepAt p pair.1 parser = left.stepAt p pair.1 label ∧
        right.stepAt p pair.2 parser = right.stepAt p pair.2 label := by
  by_cases hmem : parser ∈ rowLabels left right pair
  · exact ⟨parser, mem_branch_labels.mpr (Or.inl hmem), fun p => ⟨rfl, rfl⟩⟩
  · obtain ⟨hnot, hbefore⟩ := @firstUnnamed_spec 0 _ (@rowLabels_sorted left right pair)
      fun label _ => Nat.zero_le label
    have hle : firstUnnamed 0 (rowLabels left right pair) ≤ parser := by
      by_contra hlt
      exact hmem (hbefore parser (Nat.zero_le _) (by omega))
    refine ⟨_, mem_branch_labels.mpr (Or.inr ⟨rfl, by omega⟩), fun p => ?_⟩
    rw [mem_rowLabels, not_or] at hmem hnot
    exact ⟨stepAt_of_unnamed hmem.1 hnot.1 (by omega) (by omega),
      stepAt_of_unnamed hmem.2 hnot.2 (by omega) (by omega)⟩

end Branches

end ParserEquivalence

end GlrMask
