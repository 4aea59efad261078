import GlrMask.PushSuffixes
import GlrMask.UnstableSort

/-!
# Push languages with many words

The stacks below all words that lead to a state are kept as one structure. The states are
visited in topological order, and every structure is pushed on along the edges, so that
words that meet in a state share their stacks from there on.
-/

namespace GlrMask

def SMALL_OUTPUT_PATHS : ℕ := 64

/-- A state, and its edges as pushed values and ranks of targets. -/
structure PushState where
  accepting : Bool
  edges : List (ℕ × ℕ)

/-- The states by rank, and the ranks of the entries with many words. -/
structure PreparedPushDag where
  states : List PushState
  entries : List (Option ℕ)

namespace PreparedPushDag

open PushGraph

/-- The positions of the states in the order. -/
def ranks (graph : DFA) (order : List ℕ) : List ℕ :=
  order.zipIdx.foldl (fun rank e => rank.set e.1 e.2) (List.replicate graph.states.length 0)

/-- Nothing is returned when an entry is not a state. -/
def planned_entries (minimum_paths : ℕ) (counts rank : List ℕ) (n : ℕ) (targets : List ℕ) :
    Option (List (Option ℕ)) :=
  targets.foldlM (fun entries target =>
    if n ≤ target then none
    else if minimum_paths < counts.getD target 0 then
      some (entries.set target (some (rank.getD target 0)))
    else some entries) (List.replicate n none)

def push_state (S : UnstableSort) (graph : DFA) (counts rank : List ℕ) (source : ℕ) : PushState :=
  ⟨graph.is_accepting source,
    S.sort Prod.snd (((edges graph source).filter fun e => counts.getD e.2 0 ≠ 0).map fun e =>
      (pushed_value e.1, rank.getD e.2 0))⟩

def from_order (S : UnstableSort) (template : CommitTemplateDfas) (minimum_paths : ℕ)
    (order : List ℕ) : Option PreparedPushDag :=
  let graph := template.push
  let n := graph.states.length
  let counts := count_paths graph (minimum_paths + 1) order
  let rank := ranks graph order
  if 2 ^ 32 < order.length then none
  else
    match planned_entries minimum_paths counts rank n template.phase_entries with
    | none => none
    | some entries =>
        if entries.all Option.isNone then none
        else some ⟨order.map (push_state S graph counts rank), entries⟩

def compile (S : UnstableSort) (template : CommitTemplateDfas) (minimum_paths : ℕ) :
    Option PreparedPushDag :=
  (push_order template.push).bind (from_order S template minimum_paths)

def prepare (S : UnstableSort) (template : CommitTemplateDfas) : Option PreparedPushDag :=
  compile S template SMALL_OUTPUT_PATHS

/-- The plan of a template whose graphs have been validated. -/
def from_prepared (S : UnstableSort) (template : CommitTemplateDfas) : Option PreparedPushDag :=
  (topological_order template.push).bind (from_order S template SMALL_OUTPUT_PATHS)

/-- The runs of edges with one target. -/
def sibling_runs : List (ℕ × ℕ) → List (ℕ × List ℕ)
  | [] => []
  | (value, target) :: edges =>
      match sibling_runs edges with
      | [] => [(target, [value])]
      | (next, values) :: runs =>
          if next = target then (target, value :: values) :: runs
          else (target, [value]) :: (next, values) :: runs

/-- The least of the pending ranks, and the others. -/
def pop_least (pending : List ℕ) : Option (ℕ × List ℕ) :=
  pending.min?.map fun rank => (rank, pending.erase rank)

section

variable {A : Type} [DecidableEq A] [Merge A] [Sharing]

/-- Push each of the values; the stacks below them are shared where the layout allows it. -/
def push_siblings (input : LeveledGSS ℕ A) (values : List ℕ) : LeveledGSS ℕ A :=
  match values with
  | [value] => input.push value
  | _ =>
      (input.apply_shared_pop_push_single_branches 0 values).getD
        (values.foldl (fun language value => language.merge (input.push value)) LeveledGSS.empty)

/-- Add stacks to those that lead to a rank. -/
def deliver (input : LeveledGSS ℕ A) (work : SortedMap ℕ (LeveledGSS ℕ A) × List ℕ)
    (siblings : ℕ × List ℕ) : SortedMap ℕ (LeveledGSS ℕ A) × List ℕ :=
  let pushed := push_siblings input siblings.2
  match work.1.get siblings.1 with
  | some language => (work.1.insert siblings.1 (language.merge pushed), work.2)
  | none => (work.1.insert siblings.1 pushed, siblings.1 :: work.2)

/-- Visit the pending ranks. Nothing is returned where the code panics. -/
def visit (states : List PushState) : ℕ → SortedMap ℕ (LeveledGSS ℕ A) → List ℕ →
    LeveledGSS ℕ A → Option (LeveledGSS ℕ A)
  | 0, _, pending, output => if pending.isEmpty then some output else none
  | fuel + 1, frontier, pending, output =>
      match pop_least pending with
      | none => some output
      | some (rank, pending) =>
          match frontier.get rank, states[rank]? with
          | some input, some state =>
              let work := (sibling_runs state.edges).foldl (deliver input)
                (frontier.remove rank, pending)
              visit states fuel work.1 work.2
                (if state.accepting then output.merge input else output)
          | _, _ => none

def apply (plan : PreparedPushDag) (entry : ℕ) (base : LeveledGSS ℕ A) :
    Option (LeveledGSS ℕ A) :=
  match plan.entries[entry]? with
  | some (some entry) =>
      if base.is_empty then some LeveledGSS.empty
      else if !base.single_interface then none
      else visit plan.states plan.states.length (SortedMap.empty.insert entry base) [entry]
        LeveledGSS.empty
  | _ => none

end

/-! ## The plan -/

/-- The states and their edges by rank, without edges to states that accept nothing. -/
structure Plans (graph : DFA) (order : List ℕ) (plan : PreparedPushDag) : Prop where
  length : plan.states.length = order.length
  state : ∀ {rank state : ℕ}, order[rank]? = some state → ∃ planned : PushState,
    plan.states[rank]? = some planned ∧
    planned.accepting = graph.is_accepting state ∧
      (∀ e ∈ planned.edges, rank < e.2 ∧ e.2 < order.length ∧
        ∃ edge ∈ edges graph state, pushed_value edge.1 = e.1 ∧ order[e.2]? = some edge.2) ∧
      ∀ edge ∈ edges graph state, ∀ word, Accepts graph edge.2 word →
        ∃ e ∈ planned.edges, e.1 = pushed_value edge.1 ∧ order[e.2]? = some edge.2
  entry : ∀ {state rank : ℕ}, plan.entries[state]? = some (some rank) → order[rank]? = some state

variable {graph : DFA} {order : List ℕ}

theorem foldl_set_getD {l : List (ℕ × ℕ)} (hl : (l.map Prod.fst).Nodup) (rank : List ℕ)
    (hrange : ∀ e ∈ l, e.1 < rank.length) :
    (∀ x, x ∉ l.map Prod.fst → (l.foldl (fun rank e => rank.set e.1 e.2) rank).getD x 0 =
      rank.getD x 0) ∧
      ∀ e ∈ l, (l.foldl (fun rank e => rank.set e.1 e.2) rank).getD e.1 0 = e.2 := by
  induction l generalizing rank with
  | nil => exact ⟨fun _ _ => rfl, fun e he => by cases he⟩
  | cons first l ih =>
      obtain ⟨hfirst, hnodup⟩ := List.nodup_cons.mp hl
      obtain ⟨hlt, hrest⟩ := List.forall_mem_cons.mp hrange
      obtain ⟨hother, hset⟩ := ih hnodup (rank.set first.1 first.2)
        (fun e he => by rw [List.length_set]; exact hrest e he)
      rw [List.foldl_cons]
      constructor
      · intro x hx
        rw [List.map_cons, List.mem_cons, not_or] at hx
        rw [hother x hx.2, List.getD_eq_getElem?_getD, List.getElem?_set_ne (Ne.symm hx.1),
          ← List.getD_eq_getElem?_getD]
      · refine List.forall_mem_cons.mpr ⟨?_, hset⟩
        rw [hother first.1 hfirst, List.getD_eq_getElem?_getD, List.getElem?_set_self hlt,
          Option.getD_some]

theorem ranks_spec (h : Topological graph order) {rank state : ℕ}
    (hrank : order[rank]? = some state) : (ranks graph order).getD state 0 = rank := by
  have hkeys : order.zipIdx.map Prod.fst = order := List.zipIdx_map_fst 0 order
  have hmem : (state, rank) ∈ order.zipIdx := by
    rw [List.mem_zipIdx_iff_getElem?]
    exact hrank
  have hspec := foldl_set_getD (l := order.zipIdx) (by rw [hkeys]; exact h.nodup)
    (List.replicate graph.states.length 0) (fun e he => by
      rw [List.length_replicate]
      apply (h.mem e.1).mp
      have hfst := List.mem_map_of_mem (f := Prod.fst) he
      rw [hkeys] at hfst
      exact hfst)
  exact hspec.2 _ hmem

theorem order_ranks (h : Topological graph order) {state : ℕ}
    (hstate : state < graph.states.length) :
    order[(ranks graph order).getD state 0]? = some state := by
  obtain ⟨rank, hrank⟩ := List.getElem?_of_mem ((h.mem state).mpr hstate)
  rw [ranks_spec h hrank]
  exact hrank

theorem rank_lt (h : Topological graph order) {rank state target : ℕ}
    (hrank : order[rank]? = some state) (htarget : target ∈ targets graph state) :
    rank < (ranks graph order).getD target 0 := by
  obtain ⟨hlt, hget⟩ := List.getElem?_eq_some_iff.mp hrank
  have hsplit : order = order.take rank ++ state :: order.drop (rank + 1) := by
    rw [← hget, List.getElem_cons_drop, List.take_append_drop]
  have hafter := h.after _ _ _ hsplit target htarget
  obtain ⟨later, hlater⟩ := List.getElem?_of_mem hafter
  rw [List.getElem?_drop] at hlater
  rw [ranks_spec h hlater]
  omega

theorem push_state_spec (S : UnstableSort) (h : Topological graph order) {cap : ℕ} (hcap : 0 < cap)
    {rank state : ℕ} (hrank : order[rank]? = some state) :
    (∀ e ∈ (push_state S graph (count_paths graph cap order) (ranks graph order) state).edges,
      rank < e.2 ∧ e.2 < order.length ∧
        ∃ edge ∈ edges graph state, pushed_value edge.1 = e.1 ∧ order[e.2]? = some edge.2) ∧
      ∀ edge ∈ edges graph state, ∀ word, Accepts graph edge.2 word →
        ∃ e ∈ (push_state S graph (count_paths graph cap order) (ranks graph order) state).edges,
          e.1 = pushed_value edge.1 ∧ order[e.2]? = some edge.2 := by
  have hmem : ∀ e, e ∈ (push_state S graph (count_paths graph cap order) (ranks graph order)
      state).edges ↔ ∃ edge ∈ edges graph state, (count_paths graph cap order).getD edge.2 0 ≠ 0 ∧
        (pushed_value edge.1, (ranks graph order).getD edge.2 0) = e := by
    intro e
    rw [push_state, (S.perm _ _).mem_iff, List.mem_map]
    simp only [List.mem_filter, decide_eq_true_eq, and_assoc]
  have htarget : ∀ edge ∈ edges graph state,
      order[(ranks graph order).getD edge.2 0]? = some edge.2 := fun edge hedge =>
    order_ranks h (h.wellFormed.target state (lt_of_mem_edges hedge) edge hedge)
  constructor
  · intro e he
    obtain ⟨edge, hedge, -, rfl⟩ := (hmem e).mp he
    refine ⟨rank_lt h hrank (List.mem_map_of_mem hedge), ?_, edge, hedge, rfl, htarget edge hedge⟩
    exact (List.getElem?_eq_some_iff.mp (htarget edge hedge)).1
  · intro edge hedge word hword
    refine ⟨_, (hmem _).mpr ⟨edge, hedge, ?_, rfl⟩, rfl, htarget edge hedge⟩
    exact fun hzero => h.not_accepts hcap hzero word hword

theorem planned_entries_spec {minimum_paths n : ℕ} {counts rank targets : List ℕ}
    {entries : List (Option ℕ)}
    (h : planned_entries minimum_paths counts rank n targets = some entries) :
    (∀ target ∈ targets, target < n) ∧ ∀ state r, entries[state]? = some (some r) →
      state < n ∧ r = rank.getD state 0 := by
  suffices hfold : ∀ (targets : List ℕ) (start : List (Option ℕ)), start.length = n →
      (∀ state r, start[state]? = some (some r) → state < n ∧ r = rank.getD state 0) →
      ∀ entries, targets.foldlM (fun entries target =>
        if n ≤ target then none
        else if minimum_paths < counts.getD target 0 then
          some (entries.set target (some (rank.getD target 0)))
        else some entries) start = some entries →
      (∀ target ∈ targets, target < n) ∧ ∀ state r, entries[state]? = some (some r) →
        state < n ∧ r = rank.getD state 0 by
    apply hfold targets (List.replicate n none) List.length_replicate _ entries h
    intro state r hstate
    rw [List.getElem?_replicate] at hstate
    split_ifs at hstate
    cases Option.some.inj hstate
  intro targets
  induction targets with
  | nil =>
      intro start _ hstart entries hentries
      obtain rfl := Option.some.inj hentries
      exact ⟨(fun target htarget => by cases htarget), hstart⟩
  | cons target targets ih =>
      intro start hlength hstart entries hentries
      rw [List.foldlM_cons] at hentries
      split_ifs at hentries with hmissing hmany
      · cases hentries
      · have hlt : target < n := not_le.mp hmissing
        obtain ⟨hrest, hspec⟩ := ih _ (by rw [List.length_set]; exact hlength) (by
          intro state r hstate
          rw [List.getElem?_set] at hstate
          split_ifs at hstate with heq
          · subst heq
            exact ⟨hlt, (Option.some.inj (Option.some.inj hstate)).symm⟩
          · exact hstart state r hstate) entries hentries
        exact ⟨List.forall_mem_cons.mpr ⟨hlt, hrest⟩, hspec⟩
      · obtain ⟨hrest, hspec⟩ := ih _ hlength hstart entries hentries
        exact ⟨List.forall_mem_cons.mpr ⟨not_le.mp hmissing, hrest⟩, hspec⟩

theorem from_order_plans {S : UnstableSort} {template : CommitTemplateDfas} {minimum_paths : ℕ}
    {plan : PreparedPushDag} (h : Topological template.push order)
    (hplan : from_order S template minimum_paths order = some plan) :
    Plans template.push order plan ∧
      ∀ target ∈ template.phase_entries, target < template.push.states.length := by
  unfold from_order at hplan
  dsimp only at hplan
  split_ifs at hplan with hsize
  split at hplan
  · cases hplan
  · rename_i entries hentries
    split_ifs at hplan
    obtain rfl := Option.some.inj hplan
    obtain ⟨htargets, hspec⟩ := planned_entries_spec hentries
    refine ⟨⟨List.length_map _, ?_, ?_⟩, htargets⟩
    · intro rank state hrank
      refine ⟨_, ?_, rfl, push_state_spec S h (Nat.succ_pos minimum_paths) hrank⟩
      rw [List.getElem?_map, hrank, Option.map_some]
    · intro state rank hstate
      obtain ⟨hlt, rfl⟩ := hspec state rank hstate
      exact order_ranks h hlt

/-! ## Pushing along the edges -/

theorem mem_sibling_runs {edges : List (ℕ × ℕ)} {value target : ℕ} :
    (value, target) ∈ edges ↔ ∃ values, (target, values) ∈ sibling_runs edges ∧ value ∈ values := by
  fun_induction sibling_runs edges with
  | case1 => simp
  | case2 first last edges hruns ih =>
      rw [hruns] at ih
      rw [List.mem_cons, ih]
      simp [and_comm]
  | case3 first edges next values runs hruns ih =>
      rw [hruns] at ih
      rw [List.mem_cons, ih]
      grind
  | case4 first last edges next values runs hruns hne ih =>
      rw [hruns] at ih
      rw [List.mem_cons, ih]
      grind

theorem sibling_runs_ne_nil {edges : List (ℕ × ℕ)} :
    ∀ run ∈ sibling_runs edges, run.2 ≠ [] := by
  fun_induction sibling_runs edges with
  | case1 => exact fun run hrun => by cases hrun
  | case2 first last edges hruns ih => simp
  | case3 first edges next values runs hruns ih =>
      rw [hruns] at ih
      exact List.forall_mem_cons.mpr ⟨List.cons_ne_nil _ _, (List.forall_mem_cons.mp ih).2⟩
  | case4 first last edges next values runs hruns hne ih =>
      rw [hruns] at ih
      exact List.forall_mem_cons.mpr ⟨List.cons_ne_nil _ _, ih⟩

section

variable {A : Type} [DecidableEq A] [Merge A] [Sharing]

theorem push_siblings_pushed (input : LeveledGSS ℕ A) {values : List ℕ} (hne : values ≠ []) :
    input.Pushed (values.map fun v => [v]) (push_siblings input values) := by
  have hfold : ∀ (values : List ℕ) (language : LeveledGSS ℕ A) stack x,
      (values.foldl (fun language value => language.merge (input.push value)) language).acc stack ≤
        x ↔ language.acc stack ≤ x ∧ ∀ word ∈ values.map (fun v => [v]), ∀ rest,
          stack = word.reverse ++ rest → input.acc rest ≤ x := by
    intro values
    induction values with
    | nil => simp
    | cons value values ih =>
        intro language stack x
        rw [List.foldl_cons, ih, LeveledGSS.acc_merge, sup_le_iff, LeveledGSS.acc_push_le_iff,
          List.map_cons, List.forall_mem_cons, and_assoc]
        rfl
  unfold push_siblings
  split
  · exact LeveledGSS.push_pushed input _
  · cases hshared : input.apply_shared_pop_push_single_branches 0 values with
    | some out => exact LeveledGSS.apply_shared_pop_push_single_branches_pushed hne hshared
    | none =>
        intro stack x
        rw [Option.getD_none, hfold, LeveledGSS.acc_empty]
        exact and_iff_right bot_le

/-- What is delivered along the runs is added to the frontier. -/
theorem deliver_forall_iff {P : ℕ → LeveledGSS ℕ A → Prop}
    (hmerge : ∀ target g other, P target (g.merge other) ↔ P target g ∧ P target other)
    (input : LeveledGSS ℕ A) (runs : List (ℕ × List ℕ))
    (work : SortedMap ℕ (LeveledGSS ℕ A) × List ℕ) :
    (∀ target g, (runs.foldl (deliver input) work).1.get target = some g → P target g) ↔
      (∀ target g, work.1.get target = some g → P target g) ∧
        ∀ run ∈ runs, P run.1 (push_siblings input run.2) := by
  induction runs generalizing work with
  | nil => simp
  | cons run runs ih =>
      have hstep : (∀ target g, (deliver input work run).1.get target = some g → P target g) ↔
          (∀ target g, work.1.get target = some g → P target g) ∧
            P run.1 (push_siblings input run.2) := by
        unfold deliver
        cases hget : work.1.get run.1 with
        | some language =>
            simp only [SortedMap.get_insert]
            constructor
            · intro h
              have hrun := (hmerge _ _ _).mp (h run.1 _ (if_pos rfl))
              refine ⟨?_, hrun.2⟩
              intro target g hg
              by_cases htarget : run.1 = target
              · subst htarget
                obtain rfl := Option.some.inj (hget.symm.trans hg)
                exact hrun.1
              · exact h target g (by rw [if_neg htarget]; exact hg)
            · intro h target g hg
              split_ifs at hg with htarget
              · subst htarget
                obtain rfl := Option.some.inj hg
                exact (hmerge _ _ _).mpr ⟨h.1 _ _ hget, h.2⟩
              · exact h.1 target g hg
        | none =>
            simp only [SortedMap.get_insert]
            constructor
            · intro h
              refine ⟨?_, h run.1 _ (if_pos rfl)⟩
              intro target g hg
              have htarget : run.1 ≠ target := by
                rintro rfl
                rw [hget] at hg
                cases hg
              exact h target g (by rw [if_neg htarget]; exact hg)
            · intro h target g hg
              split_ifs at hg with htarget
              · subst htarget
                obtain rfl := Option.some.inj hg
                exact h.2
              · exact h.1 target g hg
      rw [List.foldl_cons, ih, hstep, List.forall_mem_cons, and_assoc]

/-- The pending ranks are those of the frontier, and lie between the visited ranks and the end. -/
structure Pending (bound n : ℕ) (work : SortedMap ℕ (LeveledGSS ℕ A) × List ℕ) : Prop where
  nodup : work.2.Nodup
  mem : ∀ rank, rank ∈ work.2 ↔ ∃ g, work.1.get rank = some g
  range : ∀ rank ∈ work.2, bound ≤ rank ∧ rank < n

theorem deliver_pending {bound n : ℕ} (input : LeveledGSS ℕ A) {runs : List (ℕ × List ℕ)}
    (hruns : ∀ run ∈ runs, bound ≤ run.1 ∧ run.1 < n)
    {work : SortedMap ℕ (LeveledGSS ℕ A) × List ℕ} (h : Pending bound n work) :
    Pending bound n (runs.foldl (deliver input) work) := by
  induction runs generalizing work with
  | nil => exact h
  | cons run runs ih =>
      obtain ⟨hrun, hrest⟩ := List.forall_mem_cons.mp hruns
      apply ih hrest
      unfold deliver
      cases hget : work.1.get run.1 with
      | some language =>
          refine ⟨h.nodup, ?_, h.range⟩
          intro rank
          rw [h.mem, SortedMap.get_insert]
          split_ifs with hrank
          · subst hrank
            exact iff_of_true ⟨language, hget⟩ ⟨_, rfl⟩
          · rfl
      | none =>
          have hnew : run.1 ∉ work.2 := by
            intro hmem
            obtain ⟨g, hg⟩ := (h.mem run.1).mp hmem
            rw [hget] at hg
            cases hg
          refine ⟨List.nodup_cons.mpr ⟨hnew, h.nodup⟩, ?_, List.forall_mem_cons.mpr ⟨hrun, h.range⟩⟩
          intro rank
          rw [List.mem_cons, h.mem, SortedMap.get_insert]
          split_ifs with hrank
          · exact iff_of_true (Or.inl hrank.symm) ⟨_, rfl⟩
          · rw [or_iff_right (Ne.symm hrank)]

omit [DecidableEq A] [Merge A] [Sharing] in
theorem pop_least_pending {bound n rank : ℕ} {frontier : SortedMap ℕ (LeveledGSS ℕ A)}
    {pending rest : List ℕ} (h : Pending bound n (frontier, pending))
    (hpop : pop_least pending = some (rank, rest)) :
    bound ≤ rank ∧ rank < n ∧ (∃ input, frontier.get rank = some input) ∧
      Pending (rank + 1) n (frontier.remove rank, rest) := by
  obtain ⟨least, hmin, heq⟩ := Option.map_eq_some_iff.mp hpop
  obtain ⟨rfl, rfl⟩ := Prod.mk.inj heq
  obtain ⟨hmem, hle⟩ := List.min?_eq_some_iff.mp hmin
  obtain ⟨hbound, hlt⟩ := h.range least hmem
  refine ⟨hbound, hlt, (h.mem least).mp hmem, ?_, ?_, ?_⟩
  · exact h.nodup.erase least
  · intro rank
    rw [h.nodup.mem_erase_iff, h.mem, SortedMap.get_remove]
    by_cases hrank : rank = least
    · simp [hrank]
    · rw [if_neg (Ne.symm hrank), and_iff_right hrank]
  · intro rank hrank
    obtain ⟨hne, hmem'⟩ := h.nodup.mem_erase_iff.mp hrank
    have hleast := hle rank hmem'
    exact ⟨by omega, (h.range rank hmem').2⟩

/-- The stacks below the words of a rank. -/
def Owes (graph : DFA) (order : List ℕ) (stack : List ℕ) (x : WithBot A) (rank : ℕ)
    (g : LeveledGSS ℕ A) : Prop :=
  ∀ state, order[rank]? = some state → ∀ word rest, Accepts graph state word →
    stack = word.reverse ++ rest → g.acc rest ≤ x

theorem owes_merge {stack : List ℕ} {x : WithBot A} (rank : ℕ) (g other : LeveledGSS ℕ A) :
    Owes graph order stack x rank (g.merge other) ↔
      Owes graph order stack x rank g ∧ Owes graph order stack x rank other := by
  simp only [Owes, LeveledGSS.acc_merge, sup_le_iff]
  constructor
  · intro h
    exact ⟨fun state hstate word rest hword heq => (h state hstate word rest hword heq).1,
      fun state hstate word rest hword heq => (h state hstate word rest hword heq).2⟩
  · intro h state hstate word rest hword heq
    exact ⟨h.1 state hstate word rest hword heq, h.2 state hstate word rest hword heq⟩

/-- Visiting a state gives its stacks to the output, if it accepts, and to its targets. -/
theorem owes_visit {plan : PreparedPushDag} (h : Plans graph order plan) {rank state : ℕ}
    (hrank : order[rank]? = some state) {planned : PushState}
    (hplanned : plan.states[rank]? = some planned) (input : LeveledGSS ℕ A) (stack : List ℕ)
    (x : WithBot A) :
    Owes graph order stack x rank input ↔
      (planned.accepting = true → input.acc stack ≤ x) ∧
        ∀ run ∈ sibling_runs planned.edges,
          Owes graph order stack x run.1 (push_siblings input run.2) := by
  obtain ⟨planned', hplanned', haccepting, hedges, hcovers⟩ := h.state hrank
  obtain rfl := Option.some.inj (hplanned.symm.trans hplanned')
  have hpushed : ∀ run ∈ sibling_runs planned.edges, input.Pushed (run.2.map fun v => [v])
      (push_siblings input run.2) := fun run hrun =>
    push_siblings_pushed input (sibling_runs_ne_nil run hrun)
  constructor
  · intro howes
    refine ⟨?_, ?_⟩
    · intro haccepts
      rw [haccepting] at haccepts
      exact howes state hrank [] stack haccepts rfl
    · intro run hrun target htarget word rest hword heq
      apply (hpushed run hrun rest x).mpr
      intro value hvalue below hbelow
      obtain ⟨v, hv, rfl⟩ := List.mem_map.mp hvalue
      have he := mem_sibling_runs.mpr ⟨run.2, hrun, hv⟩
      obtain ⟨-, -, edge, hedge, hlabel, hstate⟩ := hedges _ he
      obtain rfl := Option.some.inj (htarget.symm.trans hstate)
      apply howes state hrank (v :: word) below ⟨edge, hedge, hlabel, hword⟩
      rw [heq, hbelow]
      simp
  · intro howes state' hstate' word rest hword heq
    obtain rfl := Option.some.inj (hrank.symm.trans hstate')
    obtain ⟨haccepts, hruns⟩ := howes
    obtain ⟨rfl, hfinal⟩ | ⟨edge, hedge, tail, rfl, htail⟩ :=
      PreparedPushSuffixes.accepts_iff.mp hword
    · obtain rfl : stack = rest := heq
      exact haccepts (haccepting.trans hfinal)
    · obtain ⟨e, he, hvalue, htarget⟩ := hcovers edge hedge tail htail
      obtain ⟨values, hrun, hv⟩ := mem_sibling_runs.mp he
      have hbelow : stack = tail.reverse ++ (e.1 :: rest) := by
        rw [heq, hvalue, List.reverse_cons, List.append_assoc]
        rfl
      have hle := hruns _ hrun edge.2 htarget tail (e.1 :: rest) htail hbelow
      exact (hpushed _ hrun (e.1 :: rest) x).mp hle [e.1] (List.mem_map_of_mem hv) rest rfl

theorem visit_spec {plan : PreparedPushDag} (h : Plans graph order plan) {fuel bound : ℕ}
    {frontier : SortedMap ℕ (LeveledGSS ℕ A)} {pending : List ℕ}
    (hpending : Pending bound order.length (frontier, pending))
    (hfuel : order.length ≤ bound + fuel) (output : LeveledGSS ℕ A) :
    ∃ out, visit plan.states fuel frontier pending output = some out ∧ ∀ stack x,
      out.acc stack ≤ x ↔ output.acc stack ≤ x ∧
        ∀ rank g, frontier.get rank = some g → Owes graph order stack x rank g := by
  induction fuel generalizing bound frontier pending output with
  | zero =>
      have hnil : pending = [] := by
        apply List.eq_nil_iff_forall_not_mem.mpr
        intro rank hrank
        obtain ⟨hle, hlt⟩ := hpending.range rank hrank
        omega
      subst hnil
      refine ⟨output, rfl, fun stack x => (and_iff_left ?_).symm⟩
      intro rank g hg
      cases (hpending.mem rank).mpr ⟨g, hg⟩
  | succ fuel ih =>
      unfold visit
      cases hpop : pop_least pending with
      | none =>
          have hnil : pending = [] := List.min?_eq_none_iff.mp (Option.map_eq_none_iff.mp hpop)
          subst hnil
          refine ⟨output, rfl, fun stack x => (and_iff_left ?_).symm⟩
          intro rank g hg
          cases (hpending.mem rank).mpr ⟨g, hg⟩
      | some popped =>
          obtain ⟨rank, rest⟩ := popped
          obtain ⟨hbound, hlt, ⟨input, hinput⟩, hrest⟩ := pop_least_pending hpending hpop
          have hrank : order[rank]? = some order[rank] := List.getElem?_eq_getElem hlt
          obtain ⟨planned, hplanned, -, hedges, -⟩ := h.state hrank
          have hruns : ∀ run ∈ sibling_runs planned.edges,
              rank + 1 ≤ run.1 ∧ run.1 < order.length := by
            intro run hrun
            obtain ⟨value, hvalue⟩ := List.exists_mem_of_ne_nil _ (sibling_runs_ne_nil run hrun)
            have he := hedges _ (mem_sibling_runs.mpr ⟨run.2, hrun, hvalue⟩)
            exact ⟨he.1, he.2.1⟩
          obtain ⟨out, hout, hspec⟩ := ih (deliver_pending input hruns hrest) (by omega)
            (if planned.accepting then output.merge input else output)
          dsimp only
          rw [hinput, hplanned]
          refine ⟨out, hout, ?_⟩
          intro stack x
          have hremove : (∀ r g, frontier.get r = some g → Owes graph order stack x r g) ↔
              (∀ r g, (frontier.remove rank).get r = some g → Owes graph order stack x r g) ∧
                Owes graph order stack x rank input := by
            simp only [SortedMap.get_remove]
            constructor
            · intro howes
              refine ⟨?_, howes rank input hinput⟩
              intro r g hg
              split_ifs at hg
              exact howes r g hg
            · intro howes r g hg
              by_cases hr : rank = r
              · subst hr
                obtain rfl := Option.some.inj (hinput.symm.trans hg)
                exact howes.2
              · exact howes.1 r g (by rw [if_neg hr]; exact hg)
          rw [hspec, deliver_forall_iff (fun target g other => owes_merge target g other),
            hremove, owes_visit h hrank hplanned]
          cases planned.accepting with
          | false => simp
          | true =>
              simp only [if_true, LeveledGSS.acc_merge, sup_le_iff, true_implies]
              constructor
              · intro hall
                exact ⟨hall.1.1, hall.2.1, hall.1.2, hall.2.2⟩
              · intro hall
                exact ⟨⟨hall.1, hall.2.2.1⟩, hall.2.1, hall.2.2.2⟩

theorem apply_denotes {plan : PreparedPushDag} (h : Plans graph order plan) {entry : ℕ}
    {base out : LeveledGSS ℕ A} (hout : plan.apply entry base = some out) :
    Denotes graph entry base out := by
  unfold apply at hout
  split at hout
  · rename_i rank hentry
    split_ifs at hout with hempty hinterface
    · obtain rfl := Option.some.inj hout
      exact denotes_empty hempty
    · have hrank := h.entry hentry
      have hlt := (List.getElem?_eq_some_iff.mp hrank).1
      have hpending : Pending 0 order.length (SortedMap.empty.insert rank base, [rank]) := by
        refine ⟨List.nodup_singleton rank, ?_, ?_⟩
        · intro r
          rw [List.mem_singleton, SortedMap.get_insert]
          split_ifs with hr
          · exact iff_of_true hr.symm ⟨base, rfl⟩
          · rw [SortedMap.get_empty]
            exact iff_of_false (Ne.symm hr) fun hg => by cases hg.choose_spec
        · intro r hr
          rw [List.mem_singleton.mp hr]
          exact ⟨Nat.zero_le _, hlt⟩
      have hfuel : order.length ≤ 0 + plan.states.length := by rw [h.length]; omega
      obtain ⟨out', hout', hspec⟩ := visit_spec h hpending hfuel LeveledGSS.empty
      obtain rfl := Option.some.inj (hout'.symm.trans hout)
      apply denotes_iff.mpr
      intro stack x
      rw [hspec, LeveledGSS.acc_empty, and_iff_right bot_le]
      constructor
      · intro howes word rest hword heq
        exact howes rank base (by rw [SortedMap.get_insert, if_pos rfl]) entry hrank word rest
          hword heq
      · intro hle r g hg
        rw [SortedMap.get_insert] at hg
        split_ifs at hg with hr
        · subst hr
          obtain rfl := Option.some.inj hg
          intro state hstate word rest hword heq
          obtain rfl := Option.some.inj (hrank.symm.trans hstate)
          exact hle word rest hword heq
        · cases hg
  · cases hout

end

/-! ## The plans of a template -/

theorem plans_of_compile {S : UnstableSort} {template : CommitTemplateDfas} {minimum_paths : ℕ}
    {plan : PreparedPushDag} (h : compile S template minimum_paths = some plan ∨
      from_prepared S template = some plan) :
    ∃ order, Topological template.push order ∧ Plans template.push order plan ∧
      ∀ target ∈ template.phase_entries, target < template.push.states.length := by
  obtain h | h := h
  · obtain ⟨order, horder, hplan⟩ := Option.bind_eq_some_iff.mp h
    have htopological := push_order_topological horder
    exact ⟨order, htopological, from_order_plans htopological hplan⟩
  · obtain ⟨order, horder, hplan⟩ := Option.bind_eq_some_iff.mp h
    have htopological := topological_order_topological horder
    exact ⟨order, htopological, from_order_plans htopological hplan⟩

end PreparedPushDag

namespace PushGraph

section

variable {A : Type} [DecidableEq A] [Merge A] [Sharing]

/-- A template gets a plan of either kind only when its push graph is acyclic and pushes along
every edge, and what a plan answers are the stacks below the words of the entry. -/
theorem push_plans_denote (S : UnstableSort) (template : CommitTemplateDfas) :
    (∀ minimum_paths plan, PreparedPushDag.compile S template minimum_paths = some plan ∨
        PreparedPushDag.from_prepared S template = some plan →
      (WellFormed template.push ∧
        ∀ target ∈ template.phase_entries, target < template.push.states.length) ∧
      ∀ entry (base out : LeveledGSS ℕ A), plan.apply entry base = some out →
        Denotes template.push entry base out) ∧
    ∀ plans, PreparedPushSuffixes.prepare template = plans ∨
        PreparedPushSuffixes.from_prepared template = some plans →
      ∀ entry plan, plans[entry]? = some (some plan) →
        (WellFormed template.push ∧
          ∀ target ∈ template.phase_entries, target < template.push.states.length) ∧
        ∀ base out : LeveledGSS ℕ A, plan.apply base = some out →
          Denotes template.push entry base out := by
  constructor
  · intro minimum_paths plan hplan
    obtain ⟨order, horder, hplans, htargets⟩ := PreparedPushDag.plans_of_compile hplan
    exact ⟨⟨horder.wellFormed, htargets⟩, fun entry base out hout =>
      PreparedPushDag.apply_denotes hplans hout⟩
  · intro plans hplans entry plan hplan
    obtain ⟨order, horder, hlists, htargets⟩ :=
      PreparedPushSuffixes.lists_of_prepare hplans hplan
    exact ⟨⟨horder.wellFormed, htargets⟩, fun base out hout =>
      PreparedPushSuffixes.apply_denotes hlists hout⟩

end

/-- Four values onto one stack. -/
def fan : CommitTemplateDfas where
  push := ⟨[⟨false, .ofList [(-2 ^ 31 + 1, 1), (-2 ^ 31 + 2, 1), (-2 ^ 31 + 3, 1),
    (-2 ^ 31 + 4, 1)]⟩, ⟨true, .empty⟩], 0⟩
  pop_to_push := [some 0]
  read_to_push := []

def one_stack : LeveledGSS ℕ Bool :=
  letI := Sharing.default
  LeveledGSS.from_single_stack [0] true

theorem fan_answers : letI := Sharing.default
    ((PreparedPushDag.compile insertionSortBy fan 0).bind fun plan =>
      plan.apply 0 one_stack).isSome = true ∧
    (((PreparedPushSuffixes.prepare fan)[0]?).join.bind fun plan =>
      plan.apply one_stack).isSome = true := by
  decide +kernel

theorem push_plans_denote_fan : letI := Sharing.default
    (∃ plan out, PreparedPushDag.compile insertionSortBy fan 0 = some plan ∧
      plan.apply 0 one_stack = some out ∧ Denotes fan.push 0 one_stack out) ∧
    ∃ plan out, (PreparedPushSuffixes.prepare fan)[0]? = some (some plan) ∧
      plan.apply one_stack = some out ∧ Denotes fan.push 0 one_stack out := by
  let _ := Sharing.default
  obtain ⟨out, hout⟩ := Option.isSome_iff_exists.mp fan_answers.1
  obtain ⟨plan, hplan, hout⟩ := Option.bind_eq_some_iff.mp hout
  obtain ⟨out', hout'⟩ := Option.isSome_iff_exists.mp fan_answers.2
  obtain ⟨plan', hplan', hout'⟩ := Option.bind_eq_some_iff.mp hout'
  obtain ⟨dags, suffixes⟩ := push_plans_denote (A := Bool) insertionSortBy fan
  have hjoin := Option.join_eq_some_iff.mp hplan'
  exact ⟨⟨plan, out, hplan, hout, (dags 0 plan (Or.inl hplan)).2 0 one_stack out hout⟩,
    plan', out', hjoin, hout', (suffixes _ (Or.inl rfl) 0 plan' hjoin).2 one_stack out' hout'⟩

end PushGraph

end GlrMask
