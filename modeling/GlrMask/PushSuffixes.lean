import GlrMask.GssPush
import GlrMask.PushGraph

/-!
# Push languages with few words

When an entry of a push graph has few and short words, they are listed once, and applying
the template pushes all of them onto the shared prefix.
-/

namespace GlrMask

namespace PushGraph

variable {A : Type} [Merge A]

/-- The stacks of `base` below the words of an entry, with their accumulators. -/
def Denotes (graph : DFA) (entry : ℕ) (base out : LeveledGSS ℕ A) : Prop :=
  ∀ stack, IsLUB {a | ∃ word rest, Accepts graph entry word ∧ stack = word.reverse ++ rest ∧
    base.acc rest = a} (out.acc stack)

theorem denotes_iff {graph : DFA} {entry : ℕ} {base out : LeveledGSS ℕ A} :
    Denotes graph entry base out ↔ ∀ stack x, out.acc stack ≤ x ↔
      ∀ word rest, Accepts graph entry word → stack = word.reverse ++ rest → base.acc rest ≤ x := by
  apply forall_congr'
  intro stack
  rw [isLUB_iff_le_iff]
  apply forall_congr'
  intro x
  apply iff_congr Iff.rfl
  constructor
  · intro h word rest hword heq
    exact h ⟨word, rest, hword, heq, rfl⟩
  · intro h a ha
    obtain ⟨word, rest, hword, heq, rfl⟩ := ha
    exact h word rest hword heq

/-- An empty base gives no stacks. -/
theorem denotes_empty {graph : DFA} {entry : ℕ} {base : LeveledGSS ℕ A}
    (h : base.is_empty = true) : Denotes graph entry base LeveledGSS.empty := by
  apply denotes_iff.mpr
  intro stack x
  rw [LeveledGSS.acc_of_is_empty (show (LeveledGSS.empty : LeveledGSS ℕ A).is_empty = true from rfl)]
  apply iff_of_true bot_le
  intro word rest _ _
  rw [LeveledGSS.acc_of_is_empty h]
  exact bot_le

end PushGraph

def MAX_PATHS : ℕ := 64

def MAX_LENGTH : ℕ := 8

def MAX_TOTAL_SYMBOLS : ℕ := 4096

/-- The words of an entry: whether the empty word is one, and the others. -/
structure PreparedPushSuffixes where
  accepts_empty : Bool
  suffixes : List (List ℕ)
  single_symbols : Bool

namespace PreparedPushSuffixes

open PushGraph

/-- The lengths of the longest words. The counts of the targets are those of the end. -/
def longest_paths (graph : DFA) (counts : List ℕ) (order : List ℕ) : List ℕ :=
  order.reverse.foldl
    (fun lengths source => (targets graph source).foldl
      (fun lengths target =>
        if counts.getD target 0 ≠ 0 then
          lengths.set source
            (max (lengths.getD source 0) (min (lengths.getD target 0 + 1) (MAX_LENGTH + 1)))
        else lengths) lengths)
    (List.replicate graph.states.length 0)

/-- List the words from the pending prefixes, the last one that was pushed first. -/
def walk (graph : DFA) (counts : List ℕ) : ℕ → List (ℕ × List ℕ) → Bool → List (List ℕ) →
    Option (Bool × List (List ℕ))
  | _, [], accepts_empty, paths => some (accepts_empty, paths)
  | 0, _ :: _, _, _ => none
  | fuel + 1, (state, path) :: pending, accepts_empty, paths =>
      let next := ((edges graph state).filter fun e => counts.getD e.2 0 ≠ 0).map fun e =>
        (e.2, path ++ [pushed_value e.1])
      let accepting := graph.is_accepting state
      walk graph counts fuel (next.reverse ++ pending)
        (if accepting && path.isEmpty then true else accepts_empty)
        (if accepting && !path.isEmpty then paths ++ [path] else paths)

/-- The plan of one state, when it is an entry with few and short words. -/
def prepare_state (graph : DFA) (entry : Bool) (counts lengths sizes : List ℕ) (used start : ℕ) :
    Option PreparedPushSuffixes :=
  if !entry || counts.getD start 0 < 4 || MAX_PATHS < counts.getD start 0 ||
      MAX_LENGTH < lengths.getD start 0 then none
  else if MAX_TOTAL_SYMBOLS < used + counts.getD start 0 * lengths.getD start 0 then none
  else
    (walk graph counts (sizes.getD start 0) [(start, [])] false []).map fun found =>
      ⟨found.1, found.2, found.2.all fun path => path.length = 1⟩

def symbols (plan : Option PreparedPushSuffixes) : ℕ :=
  match plan with
  | some plan => (plan.suffixes.map List.length).sum
  | none => 0

/-- The plans of all states; the symbols of the plans count against one budget. -/
def prepare_with_order (template : CommitTemplateDfas) (order : List ℕ) :
    List (Option PreparedPushSuffixes) :=
  let graph := template.push
  let n := graph.states.length
  if template.phase_entries.any fun target => n ≤ target then List.replicate n none
  else
    let counts := count_paths graph (MAX_PATHS + 1) order
    let lengths := longest_paths graph counts order
    let sizes := walk_sizes graph order
    ((List.range n).foldl (fun (plans : List (Option PreparedPushSuffixes) × ℕ) start =>
      let plan := prepare_state graph (template.phase_entries.contains start) counts lengths sizes
        plans.2 start
      (plans.1 ++ [plan], plans.2 + symbols plan)) ([], 0)).1

def prepare (template : CommitTemplateDfas) : List (Option PreparedPushSuffixes) :=
  match push_order template.push with
  | some order => prepare_with_order template order
  | none => List.replicate template.push.states.length none

/-- The plans of a template whose graphs have been validated. -/
def from_prepared (template : CommitTemplateDfas) : Option (List (Option PreparedPushSuffixes)) :=
  (topological_order template.push).map (prepare_with_order template)

section

variable {A : Type} [DecidableEq A] [Merge A] [Sharing]

/-- Push all words onto the stacks of an interface. -/
def apply (plan : PreparedPushSuffixes) (base : LeveledGSS ℕ A) : Option (LeveledGSS ℕ A) :=
  if base.is_empty then some LeveledGSS.empty
  else if !base.single_interface then none
  else
    let nonempty :=
      if plan.suffixes.isEmpty then some LeveledGSS.empty
      else if plan.single_symbols then
        base.apply_shared_pop_push_single_branches 0 (plan.suffixes.map fun s => s.headD 0)
      else base.apply_shared_pop_push_branches 0 plan.suffixes
    nonempty.map fun nonempty => if plan.accepts_empty then base.merge nonempty else nonempty

end

/-! ## What is listed -/

/-- The plan lists the words of a state. -/
structure Lists (graph : DFA) (entry : ℕ) (plan : PreparedPushSuffixes) : Prop where
  words : ∀ word, word = [] ∧ plan.accepts_empty = true ∨ word ∈ plan.suffixes ↔
    Accepts graph entry word
  nonempty : ∀ word ∈ plan.suffixes, word ≠ []
  single : plan.single_symbols = true → ∀ word ∈ plan.suffixes, word.length = 1

variable {graph : DFA} {order : List ℕ}

/-- A word is empty, or begins with the value of an edge. -/
theorem accepts_iff {state : ℕ} {word : List ℕ} :
    Accepts graph state word ↔ word = [] ∧ graph.is_accepting state = true ∨
      ∃ e ∈ edges graph state, ∃ rest, word = pushed_value e.1 :: rest ∧ Accepts graph e.2 rest := by
  cases word with
  | nil => simp [Accepts]
  | cons value word =>
      rw [Accepts]
      constructor
      · intro h
        obtain ⟨e, he, rfl, hrest⟩ := h
        exact Or.inr ⟨e, he, word, rfl, hrest⟩
      · intro h
        obtain ⟨heq, -⟩ | ⟨e, he, rest, heq, hrest⟩ := h
        · cases heq
        · obtain ⟨rfl, rfl⟩ := List.cons.inj heq
          exact ⟨e, he, rfl, hrest⟩

/-- The words below a prefix are the prefix, if its state accepts, and the words below the next
prefixes. -/
theorem extends_iff {counts : List ℕ}
    (hdead : ∀ state, counts.getD state 0 = 0 → ∀ word, ¬Accepts graph state word) (state : ℕ)
    (path word : List ℕ) :
    (∃ rest, Accepts graph state rest ∧ word = path ++ rest) ↔
      (graph.is_accepting state = true ∧ word = path) ∨
        ∃ p ∈ (((edges graph state).filter fun e => counts.getD e.2 0 ≠ 0).map fun e =>
          (e.2, path ++ [pushed_value e.1])).reverse,
            ∃ rest, Accepts graph p.1 rest ∧ word = p.2 ++ rest := by
  constructor
  · intro h
    obtain ⟨rest, hrest, rfl⟩ := h
    obtain ⟨rfl, haccepting⟩ | ⟨e, he, tail, rfl, htail⟩ := accepts_iff.mp hrest
    · exact Or.inl ⟨haccepting, List.append_nil path⟩
    · right
      refine ⟨(e.2, path ++ [pushed_value e.1]), ?_, tail, htail, by simp⟩
      rw [List.mem_reverse]
      apply List.mem_map.mpr
      refine ⟨e, List.mem_filter.mpr ⟨he, ?_⟩, rfl⟩
      exact decide_eq_true fun hzero => hdead e.2 hzero tail htail
  · intro h
    obtain ⟨haccepting, rfl⟩ | ⟨p, hp, rest, hrest, rfl⟩ := h
    · exact ⟨[], accepts_iff.mpr (Or.inl ⟨rfl, haccepting⟩), (List.append_nil word).symm⟩
    · obtain ⟨e, he, rfl⟩ := List.mem_map.mp (List.mem_reverse.mp hp)
      refine ⟨pushed_value e.1 :: rest, accepts_iff.mpr (Or.inr ?_), by simp⟩
      exact ⟨e, (List.mem_filter.mp he).1, rest, rfl, hrest⟩

theorem walk_spec {counts : List ℕ}
    (hdead : ∀ state, counts.getD state 0 = 0 → ∀ word, ¬Accepts graph state word) {fuel : ℕ}
    {pending : List (ℕ × List ℕ)} {accepts_empty : Bool} {paths : List (List ℕ)}
    {found : Bool × List (List ℕ)}
    (h : walk graph counts fuel pending accepts_empty paths = some found)
    (hpaths : ∀ word ∈ paths, word ≠ []) :
    (∀ word ∈ found.2, word ≠ []) ∧
      ∀ word, word = [] ∧ found.1 = true ∨ word ∈ found.2 ↔
        (word = [] ∧ accepts_empty = true ∨ word ∈ paths) ∨
          ∃ p ∈ pending, ∃ rest, Accepts graph p.1 rest ∧ word = p.2 ++ rest := by
  fun_induction walk graph counts fuel pending accepts_empty paths with
  | case1 fuel accepts_empty paths =>
      obtain rfl := Option.some.inj h
      refine ⟨hpaths, fun word => ?_⟩
      simp
  | case2 => cases h
  | case3 fuel state path pending accepts_empty paths next accepting ih =>
      have hnonempty : ∀ word ∈ (if accepting && !path.isEmpty then paths ++ [path] else paths),
          word ≠ [] := by
        intro word hword
        split_ifs at hword with hpath
        · obtain hword | hword := List.mem_append.mp hword
          · exact hpaths word hword
          · obtain rfl := List.mem_singleton.mp hword
            simp only [Bool.and_eq_true, Bool.not_eq_true', List.isEmpty_eq_false_iff] at hpath
            exact hpath.2
        · exact hpaths word hword
      obtain ⟨hfound, hwords⟩ := ih h hnonempty
      refine ⟨hfound, fun word => (hwords word).trans ?_⟩
      have hhere : (word = [] ∧ (if accepting && path.isEmpty then true else accepts_empty) = true ∨
          word ∈ (if accepting && !path.isEmpty then paths ++ [path] else paths)) ↔
            (word = [] ∧ accepts_empty = true ∨ word ∈ paths) ∨ (accepting = true ∧ word = path) := by
        cases accepting with
        | false => simp
        | true =>
            cases path with
            | nil =>
                simp only [List.isEmpty_nil, Bool.and_self, if_true, Bool.not_true,
                  Bool.and_false, Bool.false_eq_true, if_false, and_true, true_and]
                tauto
            | cons v path => simp [or_assoc]
      rw [hhere, List.exists_mem_cons_iff, extends_iff hdead state path word]
      have happend : (∃ p ∈ next.reverse ++ pending, ∃ rest, Accepts graph p.1 rest ∧
          word = p.2 ++ rest) ↔ (∃ p ∈ next.reverse, ∃ rest, Accepts graph p.1 rest ∧
            word = p.2 ++ rest) ∨ ∃ p ∈ pending, ∃ rest, Accepts graph p.1 rest ∧
              word = p.2 ++ rest := by
        simp only [List.mem_append, or_and_right, exists_or]
      rw [happend]
      simp only [or_assoc, next, accepting]

/-- There is enough fuel for all prefixes. -/
theorem walk_isSome (h : Topological graph order) {counts : List ℕ} {fuel : ℕ}
    {pending : List (ℕ × List ℕ)} {accepts_empty : Bool} {paths : List (List ℕ)}
    (hpending : ∀ p ∈ pending, p.1 < graph.states.length)
    (hfuel : (pending.map fun p => (walk_sizes graph order).getD p.1 0).sum ≤ fuel) :
    (walk graph counts fuel pending accepts_empty paths).isSome := by
  fun_induction walk graph counts fuel pending accepts_empty paths with
  | case1 => rfl
  | case2 p pending accepts_empty paths =>
      rw [List.map_cons, List.sum_cons, h.walk_sizes_eq (hpending p List.mem_cons_self)] at hfuel
      omega
  | case3 fuel state path pending accepts_empty paths next accepting ih =>
      obtain ⟨hstate, hrest⟩ := List.forall_mem_cons.mp hpending
      rw [List.map_cons, List.sum_cons, h.walk_sizes_eq hstate] at hfuel
      dsimp only at hfuel
      apply ih
      · intro p hp
        obtain hp | hp := List.mem_append.mp hp
        · obtain ⟨e, he, rfl⟩ := List.mem_map.mp (List.mem_reverse.mp hp)
          exact h.wellFormed.target state hstate e (List.mem_filter.mp he).1
        · exact hrest p hp
      · have hnext : (next.reverse.map fun p => (walk_sizes graph order).getD p.1 0).sum ≤
            ((targets graph state).map fun t => (walk_sizes graph order).getD t 0).sum := by
          rw [List.map_reverse, List.sum_reverse, List.map_map, targets, List.map_map]
          exact (List.filter_sublist.map _).sum_le_sum fun _ _ => Nat.zero_le _
        rw [List.map_append, List.sum_append]
        omega

theorem prepare_state_lists (h : Topological graph order) {entry : Bool} {lengths : List ℕ}
    {used start : ℕ} {plan : PreparedPushSuffixes}
    (hplan : prepare_state graph entry (count_paths graph (MAX_PATHS + 1) order) lengths
      (walk_sizes graph order) used start = some plan) : Lists graph start plan := by
  unfold prepare_state at hplan
  split_ifs at hplan
  obtain ⟨found, hfound, rfl⟩ := Option.map_eq_some_iff.mp hplan
  have hdead : ∀ state, (count_paths graph (MAX_PATHS + 1) order).getD state 0 = 0 →
      ∀ word, ¬Accepts graph state word := fun state hzero word =>
    h.not_accepts (Nat.succ_pos _) hzero word
  obtain ⟨hnonempty, hwords⟩ := walk_spec hdead hfound (fun _ hword => by cases hword)
  refine ⟨?_, hnonempty, ?_⟩
  · intro word
    rw [hwords]
    simp
  · intro hsingle word hword
    exact of_decide_eq_true (List.all_eq_true.mp hsingle word hword)

/-- The plan of a state is made with some part of the budget used up. -/
theorem prepared_at (f : ℕ → ℕ → Option PreparedPushSuffixes) {n start : ℕ}
    {plan : Option PreparedPushSuffixes}
    (h : ((List.range n).foldl (fun (plans : List (Option PreparedPushSuffixes) × ℕ) start =>
      (plans.1 ++ [f plans.2 start], plans.2 + symbols (f plans.2 start))) ([], 0)).1[start]? =
        some plan) : ∃ used, plan = f used start := by
  suffices hall : ∀ n, ((List.range n).foldl
      (fun (plans : List (Option PreparedPushSuffixes) × ℕ) start =>
        (plans.1 ++ [f plans.2 start], plans.2 + symbols (f plans.2 start))) ([], 0)).1.length = n ∧
      ∀ start plan, ((List.range n).foldl
        (fun (plans : List (Option PreparedPushSuffixes) × ℕ) start =>
          (plans.1 ++ [f plans.2 start], plans.2 + symbols (f plans.2 start))) ([], 0)).1[start]? =
            some plan → ∃ used, plan = f used start from
    (hall n).2 start plan h
  intro n
  induction n with
  | zero => exact ⟨rfl, fun _ _ hplan => by cases hplan⟩
  | succ n ih =>
      obtain ⟨hlength, hplans⟩ := ih
      rw [List.range_succ, List.foldl_append, List.foldl_cons, List.foldl_nil]
      refine ⟨by rw [List.length_append, hlength]; rfl, ?_⟩
      intro start plan hplan
      rw [List.getElem?_append, hlength] at hplan
      split_ifs at hplan with hstart
      · exact hplans start plan hplan
      · obtain ⟨hlt, hplan⟩ := List.getElem?_eq_some_iff.mp hplan
        have heq : start = n := by
          rw [List.length_singleton] at hlt
          omega
        subst heq
        rw [List.getElem_singleton] at hplan
        exact ⟨_, hplan.symm⟩

/-- Every plan lists the words of its state. -/
theorem prepare_with_order_lists {template : CommitTemplateDfas}
    (h : Topological template.push order) {start : ℕ} {plan : PreparedPushSuffixes}
    (hplan : (prepare_with_order template order)[start]? = some (some plan)) :
    Lists template.push start plan ∧
      ∀ target ∈ template.phase_entries, target < template.push.states.length := by
  unfold prepare_with_order at hplan
  dsimp only at hplan
  split_ifs at hplan with hmissing
  · rw [List.getElem?_replicate] at hplan
    split_ifs at hplan
    cases Option.some.inj hplan
  · obtain ⟨used, hstate⟩ := prepared_at (fun used start => prepare_state template.push
      (template.phase_entries.contains start) (count_paths template.push (MAX_PATHS + 1) order)
      (longest_paths template.push (count_paths template.push (MAX_PATHS + 1) order) order)
      (walk_sizes template.push order) used start) hplan
    refine ⟨prepare_state_lists h hstate.symm, ?_⟩
    intro target htarget
    by_contra hge
    exact hmissing (List.any_eq_true.mpr ⟨target, htarget, decide_eq_true (not_lt.mp hge)⟩)

theorem lists_of_prepare {template : CommitTemplateDfas} {plans : List (Option PreparedPushSuffixes)}
    (h : prepare template = plans ∨ from_prepared template = some plans) {start : ℕ}
    {plan : PreparedPushSuffixes} (hplan : plans[start]? = some (some plan)) :
    ∃ order, Topological template.push order ∧ Lists template.push start plan ∧
      ∀ target ∈ template.phase_entries, target < template.push.states.length := by
  obtain rfl | h := h
  · unfold prepare at hplan
    split at hplan
    · rename_i order horder
      have htopological := push_order_topological horder
      exact ⟨order, htopological, prepare_with_order_lists htopological hplan⟩
    · rw [List.getElem?_replicate] at hplan
      split_ifs at hplan
      cases Option.some.inj hplan
  · obtain ⟨order, horder, rfl⟩ := Option.map_eq_some_iff.mp h
    have htopological := topological_order_topological horder
    exact ⟨order, htopological, prepare_with_order_lists htopological hplan⟩

/-! ## What applying denotes -/

section

variable {A : Type} [DecidableEq A] [Merge A] [Sharing]

theorem acc_merge_pushed {base nonempty : LeveledGSS ℕ A} {plan : PreparedPushSuffixes}
    {entry : ℕ} (h : plan.Lists graph entry) (hpushed : base.Pushed plan.suffixes nonempty) :
    Denotes graph entry base (if plan.accepts_empty then base.merge nonempty else nonempty) := by
  apply denotes_iff.mpr
  intro stack x
  have hall : (∀ word rest, Accepts graph entry word → stack = word.reverse ++ rest →
      base.acc rest ≤ x) ↔ (plan.accepts_empty = true → base.acc stack ≤ x) ∧
        ∀ word ∈ plan.suffixes, ∀ rest, stack = word.reverse ++ rest → base.acc rest ≤ x := by
    simp only [← h.words]
    constructor
    · intro hle
      refine ⟨fun hempty => hle [] stack (Or.inl ⟨rfl, hempty⟩) rfl, ?_⟩
      exact fun word hword rest heq => hle word rest (Or.inr hword) heq
    · intro hle word rest hword heq
      obtain ⟨rfl, hempty⟩ | hword := hword
      · obtain rfl : stack = rest := heq
        exact hle.1 hempty
      · exact hle.2 word hword rest heq
  rw [hall, ← hpushed stack x]
  cases plan.accepts_empty with
  | false => simp
  | true =>
      rw [if_pos rfl, LeveledGSS.acc_merge, sup_le_iff]
      simp

theorem apply_denotes {plan : PreparedPushSuffixes} {entry : ℕ} (h : plan.Lists graph entry)
    {base out : LeveledGSS ℕ A} (hout : plan.apply base = some out) :
    Denotes graph entry base out := by
  rw [apply] at hout
  by_cases hempty : base.is_empty = true
  · rw [if_pos hempty] at hout
    obtain rfl := Option.some.inj hout
    exact denotes_empty hempty
  · rw [if_neg hempty] at hout
    by_cases hinterface : (!base.single_interface) = true
    · rw [if_pos hinterface] at hout
      cases hout
    · rw [if_neg hinterface] at hout
      obtain ⟨nonempty, hnonempty, rfl⟩ := Option.map_eq_some_iff.mp hout
      apply acc_merge_pushed h
      split_ifs at hnonempty with hnone hsingle
      · -- no words give no stacks
        obtain rfl := Option.some.inj hnonempty
        rw [List.isEmpty_iff.mp hnone]
        intro stack x
        rw [LeveledGSS.acc_empty]
        exact iff_of_true bot_le fun word hword => by cases hword
      · have hpushed := LeveledGSS.apply_shared_pop_push_single_branches_pushed
          (by simpa using hnone) hnonempty
        have hwords : (plan.suffixes.map fun s => s.headD 0).map (fun v => [v]) =
            plan.suffixes := by
          rw [List.map_map]
          apply (List.map_congr_left fun word hword => ?_).trans (List.map_id _)
          obtain ⟨v, rfl⟩ := List.length_eq_one_iff.mp (h.single hsingle word hword)
          rfl
        rw [hwords] at hpushed
        exact hpushed
      · exact LeveledGSS.apply_shared_pop_push_branches_pushed (by simpa using hnone) hnonempty

end

end PreparedPushSuffixes

end GlrMask
