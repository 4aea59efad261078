import GlrMask.SemanticKeyRoutes

/-!
# Semantic keys of deep nodes

The nodes below a deep node are collected with a worklist and numbered in the
order of their depths. Children are less deep than their parents, so that they
are numbered first.
-/

namespace GlrMask

inductive SemanticPendingNode (T A : Type)
  | lower (node : Lower T)
  | upper (node : Upper T A)

namespace SemanticPendingNode

variable {T A : Type}

def children : SemanticPendingNode T A → List (SemanticPendingNode T A)
  | lower (.segment _ next _ _) => [lower next]
  | lower (.general children _ _) => children.map fun s => lower s.node
  | upper (.interface inner _) => [lower inner]
  | upper (.branch children _ _) => children.map fun s => upper s.node

/-- Lower nodes come before upper nodes of the same depth. -/
def sort_key : SemanticPendingNode T A → ℕ ×ₗ ℕ
  | lower node => toLex (node.max_depth, 0)
  | upper node => toLex (node.max_depth, 1)

def has [DecidableEq T] (stack : List T) : SemanticPendingNode T A → Bool
  | lower node => node.has stack
  | upper node => node.has stack

def WF : SemanticPendingNode T A → Prop
  | lower node => node.WF
  | upper node => node.WF

mutual

/-- The number of nodes, where a shared node counts each time. -/
def lower_size : Lower T → ℕ
  | .segment _ next _ _ => lower_size next + 1
  | .general children _ _ => lower_sizes children + 1

def lower_sizes : List (Slot T (Lower T)) → ℕ
  | [] => 0
  | ⟨_, _, child⟩ :: kids => lower_size child + lower_sizes kids

end

mutual

def upper_size : Upper T A → ℕ
  | .interface inner _ => lower_size inner + 1
  | .branch children _ _ => upper_sizes children + 1

def upper_sizes : List (Slot T (Upper T A)) → ℕ
  | [] => 0
  | ⟨_, _, child⟩ :: kids => upper_size child + upper_sizes kids

end

def size : SemanticPendingNode T A → ℕ
  | lower node => lower_size node
  | upper node => upper_size node

theorem size_eq (node : SemanticPendingNode T A) : node.size = (node.children.map size).sum + 1 := by
  have hlower : ∀ kids : List (Slot T (Lower T)),
      lower_sizes kids = ((kids.map fun s => lower s.node).map (size (A := A))).sum := by
    intro kids
    induction kids with
    | nil => rfl
    | cons s kids ih =>
        rw [lower_sizes, ih]
        rfl
  have hupper : ∀ kids : List (Slot T (Upper T A)),
      upper_sizes kids = ((kids.map fun s => upper s.node).map size).sum := by
    intro kids
    induction kids with
    | nil => rfl
    | cons s kids ih =>
        rw [upper_sizes, ih]
        rfl
  cases node with
  | lower node =>
      cases node with
      | segment values next max_depth segments_len => rfl
      | general children empty max_depth =>
          rw [size, lower_size, hlower]
          rfl
  | upper node =>
      cases node with
      | interface inner acc => rfl
      | branch children empty max_depth =>
          rw [size, upper_size, hupper]
          rfl

theorem WF.children {node child : SemanticPendingNode T A} (h : node.WF) (hc : child ∈ node.children) :
    child.WF := by
  cases node with
  | lower node =>
      cases h with
      | general hdistinct hdeep hwf hdepth =>
          obtain ⟨s, hs, rfl⟩ := List.mem_map.mp hc
          exact hwf s hs
      | segment hne hwf hdepth hlength => exact List.mem_singleton.mp hc ▸ hwf
  | upper node =>
      cases h with
      | branch hdistinct hdeep hwf hdepth =>
          obtain ⟨s, hs, rfl⟩ := List.mem_map.mp hc
          exact hwf s hs
      | interface hwf => exact List.mem_singleton.mp hc ▸ hwf

/-- Children come before their parents. -/
theorem WF.sort_key_lt {node child : SemanticPendingNode T A} (h : node.WF) (hc : child ∈ node.children) :
    child.sort_key < node.sort_key := by
  cases node with
  | lower node =>
      cases h with
      | general hdistinct hdeep hwf hdepth =>
          obtain ⟨s, hs, rfl⟩ := List.mem_map.mp hc
          apply Prod.Lex.toLex_lt_toLex.mpr
          left
          rw [Lower.max_depth, hdepth]
          exact (Slot.lt_height hs : s.node.max_depth < Slot.height Lower.max_depth _)
      | @segment values next max_depth segments_len hne hwf hdepth hlength =>
          rw [List.mem_singleton.mp hc]
          apply Prod.Lex.toLex_lt_toLex.mpr
          left
          have hpos := List.length_pos_iff.mpr hne
          simp only [Lower.max_depth] at hdepth ⊢
          omega
  | upper node =>
      cases h with
      | branch hdistinct hdeep hwf hdepth =>
          obtain ⟨s, hs, rfl⟩ := List.mem_map.mp hc
          apply Prod.Lex.toLex_lt_toLex.mpr
          left
          rw [Upper.max_depth, hdepth]
          exact (Slot.lt_height hs : s.node.max_depth < Slot.height Upper.max_depth _)
      | interface hwf =>
          rw [List.mem_singleton.mp hc]
          apply Prod.Lex.toLex_lt_toLex.mpr
          exact Or.inr ⟨rfl, Nat.zero_lt_one⟩

end SemanticPendingNode

namespace GssSemanticKeyInterner

variable {T A : Type} [LinearOrder T]

/-! ## Single stacks -/

/-- Intern the values of a stack, from the bottom up. -/
def key_single_stack (stack : List T) : Interning T A ℕ := fun s =>
  stack.foldl (fun r value => push_value value r) (intern_node true [] s)

/-! ## Collecting the nodes -/

section

variable [Sharing]

open Sharing

/-- Whether the id of a node is remembered. -/
def contains_node (s : GssSemanticKeyInterner T A) : SemanticPendingNode T A → Bool
  | .lower node => (lower_id node s).isSome
  | .upper node => (upper_id node s).isSome

structure SemanticSearch (T A : Type) where
  pending : List (SemanticPendingNode T A)
  seen_upper : List (Upper T A)
  seen_lower : List (Lower T)
  nodes : List (SemanticPendingNode T A)

omit [LinearOrder T] in
def SemanticSearch.seen (search : SemanticSearch T A) : SemanticPendingNode T A → Bool
  | .lower node => search.seen_lower.any (same node)
  | .upper node => search.seen_upper.any (same node)

omit [LinearOrder T] [Sharing] in
def SemanticSearch.insert (search : SemanticSearch T A) : SemanticPendingNode T A → SemanticSearch T A
  | .lower node => { search with seen_lower := node :: search.seen_lower }
  | .upper node => { search with seen_upper := node :: search.seen_upper }

def collect_step (s : GssSemanticKeyInterner T A) (search : SemanticSearch T A) :
    Option (Option (SemanticSearch T A)) :=
  match search.pending with
  | [] => some none
  | node :: pending =>
      if s.contains_node node || search.seen node then some (some { search with pending })
      else
        let marked := search.insert node
        if s.max_source_keys < s.lower_memo.length + s.upper_memo.length + marked.seen_lower.length +
            marked.seen_upper.length then none
        else some (some { marked with
          pending := node.children.reverse ++ pending
          nodes := marked.nodes ++ [node] })

/-- The nodes below the root whose ids are not remembered, or nothing when there are too many. -/
def collect_nodes (s : GssSemanticKeyInterner T A) (root : Upper T A) :
    Option (List (SemanticPendingNode T A)) :=
  ((attemptLoop s.collect_step ((SemanticPendingNode.upper root).size + 1)
    ⟨[.upper root], [], [], []⟩).join).map SemanticSearch.nodes

end

/-! ## Numbering the nodes -/

variable [DecidableEq A]

/-- The id of a node that has been numbered before. -/
def lower_child_id (s : GssSemanticKeyInterner T A) (node : Lower T) : ℕ :=
  ((s.lower_memo.find? fun e => decide (e.1 = node)).map Prod.snd).getD 0

def upper_child_id (s : GssSemanticKeyInterner T A) (node : Upper T A) : ℕ :=
  ((s.upper_memo.find? fun e => decide (e.1 = node)).map Prod.snd).getD 0

omit [DecidableEq A] in
def union_kids {N : Type} (child_id : GssSemanticKeyInterner T A → N → ℕ) (kids : List N)
    (r : ℕ × GssSemanticKeyInterner T A) : ℕ × GssSemanticKeyInterner T A :=
  kids.foldl (fun r child => union_ids r.1 (child_id r.2 child) r.2) r

omit [DecidableEq A] in
/-- The ids of the unions of the children of the values. -/
def canonical_children {N : Type} (child_id : GssSemanticKeyInterner T A → N → ℕ)
    (children : List (Slot T N)) : List T → Interning T A (List (T × ℕ))
  | [], s => ([], s)
  | v :: values, s =>
      let r := union_kids child_id (Slot.kids v children) (0, s)
      let rest := canonical_children child_id children values r.2
      ((v, r.1) :: rest.1, rest.2)

omit [DecidableEq A] in
def intern_children {N : Type} (child_id : GssSemanticKeyInterner T A → N → ℕ)
    (children : List (Slot T N)) (empty : Bool) : Interning T A ℕ := fun s =>
  let r := canonical_children child_id children (Slot.values children) s
  intern_node empty r.1 r.2

/-- Number a node whose children have been numbered, and remember its number. -/
def process_node (node : SemanticPendingNode T A) (s : GssSemanticKeyInterner T A) :
    ℕ × GssSemanticKeyInterner T A :=
  match node with
  | .lower (.segment values next d l) =>
      remember_lower (.segment values next d l) (values.foldr push_value (s.lower_child_id next, s))
  | .lower (.general children empty d) =>
      remember_lower (.general children empty d) (intern_children lower_child_id children empty s)
  | .upper (.interface inner acc) =>
      remember_upper (.interface inner acc) (s.lower_child_id inner, s)
  | .upper (.branch children empty d) =>
      remember_upper (.branch children empty d)
        (intern_children upper_child_id children empty.isSome s)

/-- Number the nodes; it stops when the interner is exhausted. -/
def process_nodes [Sharing] :
    List (SemanticPendingNode T A) → GssSemanticKeyInterner T A → GssSemanticKeyInterner T A
  | [], s => s
  | node :: nodes, s =>
      if s.exhausted then s
      else if s.contains_node node then process_nodes nodes s
      else process_nodes nodes (process_node node s).2

def key_iterative [Sharing] (root : Upper T A) : Interning T A ℕ := fun s =>
  match s.collect_nodes root with
  | none => (0, { s with exhausted := true })
  | some nodes =>
      let s' := process_nodes (nodes.insertionSort fun n m => n.sort_key ≤ m.sort_key) s
      if s'.exhausted then (0, s') else (s'.upper_child_id root, s')

/-! ## What single stacks hold -/

omit [DecidableEq A] in
theorem path_spec {s : GssSemanticKeyInterner T A} (hs : s.Valid) (path : List T) :
    After s (path.foldr push_value (intern_node true [] s)) fun s' id =>
      Denotes s'.nodes id fun stack => decide (stack = path) := by
  induction path with
  | nil =>
      have hintern : After s (intern_node true [] s) fun s' id =>
          Denotes s'.nodes id (childrenHold s.nodes true []) :=
        intern_node_spec hs true List.nodup_nil fun _ he => by cases he
      apply hintern.mono
      intro hid
      apply hid.congr
      intro stack
      cases stack <;> rfl
  | cons v path ih =>
      rw [List.foldr_cons]
      have hpush := push_value_spec v ih.valid ih.result
      apply (ih.trans hpush).mono
      intro hid
      apply hid.congr
      intro stack
      cases stack with
      | nil => rfl
      | cons w stack =>
          rw [pushed]
          by_cases hv : v = w
          · subst hv
            simp
          · simp [hv, Ne.symm hv]

omit [DecidableEq A] in
theorem key_single_stack_spec {s : GssSemanticKeyInterner T A} (hs : s.Valid) (path : List T) :
    After s (key_single_stack path.reverse s) fun s' id =>
      Denotes s'.nodes id fun stack => decide (stack = path) := by
  unfold key_single_stack
  rw [List.foldl_reverse]
  exact path_spec hs path

/-! ## What the search finds -/

section Search

variable [Sharing] {s s' : GssSemanticKeyInterner T A} {node root : SemanticPendingNode T A}

open Sharing

omit [DecidableEq A] [Sharing] in
/-- The id of the node is remembered, wherever it is. -/
def Known (s : GssSemanticKeyInterner T A) : SemanticPendingNode T A → Prop
  | .lower node => ∃ e ∈ s.lower_memo, e.1 = node
  | .upper node => ∃ e ∈ s.upper_memo, e.1 = node

omit [DecidableEq A] [Sharing] in
theorem Known.later (h : Known s node) (hgrows : Grows s s') : Known s' node := by
  cases node with
  | lower node =>
      obtain ⟨e, he, hnode⟩ := h
      exact ⟨e, hgrows.lower he, hnode⟩
  | upper node =>
      obtain ⟨e, he, hnode⟩ := h
      exact ⟨e, hgrows.upper he, hnode⟩

omit [DecidableEq A] in
theorem known_of_contains (h : s.contains_node node = true) : Known s node := by
  cases node with
  | lower node =>
      obtain ⟨id, hid⟩ := Option.isSome_iff_exists.mp h
      obtain ⟨e, he, -⟩ := Option.map_eq_some_iff.mp hid
      have hsame := List.find?_some he
      exact ⟨e, List.mem_of_find?_eq_some he, eq_of_same hsame⟩
  | upper node =>
      obtain ⟨id, hid⟩ := Option.isSome_iff_exists.mp h
      obtain ⟨e, he, -⟩ := Option.map_eq_some_iff.mp hid
      have hsame := List.find?_some he
      exact ⟨e, List.mem_of_find?_eq_some he, eq_of_same hsame⟩

/-- Every child of a collected node is known, collected or pending. -/
structure Collecting (s : GssSemanticKeyInterner T A) (root : SemanticPendingNode T A)
    (search : SemanticSearch T A) : Prop where
  pending : ∀ n ∈ search.pending, n.WF
  nodes : ∀ n ∈ search.nodes, n.WF
  seen_lower : ∀ n ∈ search.seen_lower, .lower n ∈ search.nodes
  seen_upper : ∀ n ∈ search.seen_upper, .upper n ∈ search.nodes
  root : Known s root ∨ root ∈ search.nodes ∨ root ∈ search.pending
  closed : ∀ n ∈ search.nodes, ∀ c ∈ n.children,
    Known s c ∨ c ∈ search.nodes ∨ c ∈ search.pending

omit [DecidableEq A] in
theorem Collecting.mem_of_seen {search : SemanticSearch T A} (h : Collecting s root search)
    (hseen : search.seen node = true) : node ∈ search.nodes := by
  cases node with
  | lower node =>
      obtain ⟨n, hn, hsame⟩ := List.any_eq_true.mp hseen
      rw [eq_of_same hsame]
      exact h.seen_lower n hn
  | upper node =>
      obtain ⟨n, hn, hsame⟩ := List.any_eq_true.mp hseen
      rw [eq_of_same hsame]
      exact h.seen_upper n hn

omit [DecidableEq A] [Sharing] in
theorem Collecting.skip {search : SemanticSearch T A} {pending : List (SemanticPendingNode T A)}
    (h : Collecting s root search) (hpending : search.pending = node :: pending)
    (hskip : Known s node ∨ node ∈ search.nodes) : Collecting s root { search with pending } := by
  have hmove : ∀ n, Known s n ∨ n ∈ search.nodes ∨ n ∈ search.pending →
      Known s n ∨ n ∈ search.nodes ∨ n ∈ pending := by
    intro n hn
    obtain hn | hn | hn := hn
    · exact Or.inl hn
    · exact Or.inr (Or.inl hn)
    · rw [hpending] at hn
      obtain rfl | hn := List.mem_cons.mp hn
      · exact hskip.imp_right Or.inl
      · exact Or.inr (Or.inr hn)
  exact ⟨fun n hn => h.pending n (hpending ▸ List.mem_cons_of_mem _ hn), h.nodes, h.seen_lower,
    h.seen_upper, hmove _ h.root, fun n hn c hc => hmove c (h.closed n hn c hc)⟩

omit [DecidableEq A] [Sharing] in
theorem Collecting.visit {search : SemanticSearch T A} {pending : List (SemanticPendingNode T A)}
    (h : Collecting s root search) (hpending : search.pending = node :: pending) :
    Collecting s root { search.insert node with
      pending := node.children.reverse ++ pending
      nodes := (search.insert node).nodes ++ [node] } := by
  have hnodes : (search.insert node).nodes = search.nodes := by cases node <;> rfl
  have hwf : node.WF := h.pending node (hpending ▸ List.mem_cons_self)
  have hmove : ∀ n, Known s n ∨ n ∈ search.nodes ∨ n ∈ search.pending →
      Known s n ∨ n ∈ search.nodes ++ [node] ∨ n ∈ node.children.reverse ++ pending := by
    intro n hn
    obtain hn | hn | hn := hn
    · exact Or.inl hn
    · exact Or.inr (Or.inl (List.mem_append_left _ hn))
    · rw [hpending] at hn
      obtain rfl | hn := List.mem_cons.mp hn
      · exact Or.inr (Or.inl (List.mem_append_right _ (List.mem_singleton_self _)))
      · exact Or.inr (Or.inr (List.mem_append_right _ hn))
  rw [hnodes]
  refine ⟨fun n hn => ?_, fun n hn => ?_, fun n hn => ?_, fun n hn => ?_, hmove _ h.root,
    fun n hn c hc => ?_⟩
  · obtain hn | hn := List.mem_append.mp hn
    · exact hwf.children (List.mem_reverse.mp hn)
    · exact h.pending n (hpending ▸ List.mem_cons_of_mem _ hn)
  · obtain hn | hn := List.mem_append.mp hn
    · exact h.nodes n hn
    · exact List.mem_singleton.mp hn ▸ hwf
  · cases node with
    | lower node =>
        obtain rfl | hn := List.mem_cons.mp hn
        · exact List.mem_append_right _ (List.mem_singleton_self _)
        · exact List.mem_append_left _ (h.seen_lower n hn)
    | upper node => exact List.mem_append_left _ (h.seen_lower n hn)
  · cases node with
    | lower node => exact List.mem_append_left _ (h.seen_upper n hn)
    | upper node =>
        obtain rfl | hn := List.mem_cons.mp hn
        · exact List.mem_append_right _ (List.mem_singleton_self _)
        · exact List.mem_append_left _ (h.seen_upper n hn)
  · obtain hn | hn := List.mem_append.mp hn
    · exact hmove c (h.closed n hn c hc)
    · obtain rfl := List.mem_singleton.mp hn
      exact Or.inr (Or.inr (List.mem_append_left _ (List.mem_reverse.mpr hc)))

omit [DecidableEq A] in
theorem collect_step_spec {search : SemanticSearch T A} (h : Collecting s root search) :
    Ensures (s.collect_step search) fun next =>
      match next with
      | none => search.pending = []
      | some next => Collecting s root next ∧
          (next.pending.map SemanticPendingNode.size).sum <
            (search.pending.map SemanticPendingNode.size).sum := by
  unfold collect_step
  cases hpending : search.pending with
  | nil => exact Ensures.some rfl
  | cons node pending =>
      dsimp only
      have hsize := node.size_eq
      split_ifs with hskip hmany
      · have hskip : Known s node ∨ node ∈ search.nodes :=
          (Bool.or_eq_true _ _ ▸ hskip).imp known_of_contains h.mem_of_seen
        refine Ensures.some ⟨h.skip hpending hskip, ?_⟩
        dsimp only
        rw [List.map_cons, List.sum_cons]
        omega
      · exact Ensures.none _
      · refine Ensures.some ⟨h.visit hpending, ?_⟩
        rw [List.map_cons, List.sum_cons, List.map_append, List.sum_append, List.map_reverse,
          List.sum_reverse]
        omega

/-- The collected nodes are those that are needed, as far as they are not known. -/
structure Collected (s : GssSemanticKeyInterner T A) (root : SemanticPendingNode T A)
    (nodes : List (SemanticPendingNode T A)) : Prop where
  wf : ∀ n ∈ nodes, n.WF
  root : Known s root ∨ root ∈ nodes
  closed : ∀ n ∈ nodes, ∀ c ∈ n.children, Known s c ∨ c ∈ nodes

omit [DecidableEq A] in
theorem collect_loop {root : Upper T A} (hwf : root.WF) :
    ∃ r, attemptLoop s.collect_step ((SemanticPendingNode.upper root).size + 1)
        ⟨[.upper root], [], [], []⟩ = some r ∧
      Ensures r fun search => Collected s (.upper root) search.nodes := by
  have hend : ∀ search, Collecting s (.upper root) search → search.pending = [] →
      Collected s (.upper root) search.nodes := by
    intro search h hpending
    have hdrop : ∀ n, Known s n ∨ n ∈ search.nodes ∨ n ∈ search.pending →
        Known s n ∨ n ∈ search.nodes := by
      intro n hn
      rw [hpending] at hn
      simpa using hn
    exact ⟨h.nodes, hdrop _ h.root, fun n hn c hc => hdrop c (h.closed n hn c hc)⟩
  apply attemptLoop_ensures (I := Collecting s (.upper root))
    (Q := fun search => Collected s (.upper root) search.nodes)
    fun search => (search.pending.map SemanticPendingNode.size).sum
  · intro search h
    refine (collect_step_spec h).mono fun next hnext => ?_
    cases next with
    | none => exact hend search h hnext
    | some next => exact hnext
  · exact ⟨fun n hn => List.mem_singleton.mp hn ▸ hwf, (fun _ hn => by cases hn),
      (fun _ hn => by cases hn), (fun _ hn => by cases hn),
      Or.inr (Or.inr (List.mem_singleton_self _)), fun _ hn => by cases hn⟩
  · simp

omit [DecidableEq A] in
theorem collect_nodes_spec {root : Upper T A} (hwf : root.WF) :
    Ensures (s.collect_nodes root) (Collected s (.upper root)) := by
  obtain ⟨r, hr, hcollected⟩ := collect_loop (s := s) hwf
  rw [collect_nodes, hr]
  exact Ensures.map hcollected

end Search

/-! ## What the numbers of the nodes are -/

section Process

variable {s s' : GssSemanticKeyInterner T A} {language : List T → Bool} {N : Type}

omit [DecidableEq A] in
theorem lower_child_id_spec {node : Lower T} (h : Known s (.lower node)) (hs : s.Valid) :
    Denotes s.nodes (s.lower_child_id node) fun stack => node.has stack := by
  obtain ⟨e, he, hnode⟩ := h
  obtain ⟨found, hfound⟩ : ∃ found, s.lower_memo.find? (fun e => decide (e.1 = node)) = some found := by
    apply Option.isSome_iff_exists.mp
    exact List.find?_isSome.mpr ⟨e, he, decide_eq_true hnode⟩
  have heq := List.find?_some hfound
  rw [lower_child_id, hfound, ← of_decide_eq_true heq]
  exact hs.lower found (List.mem_of_find?_eq_some hfound)

theorem upper_child_id_spec {node : Upper T A} (h : Known s (.upper node)) (hs : s.Valid) :
    Denotes s.nodes (s.upper_child_id node) fun stack => node.has stack := by
  obtain ⟨e, he, hnode⟩ := h
  obtain ⟨found, hfound⟩ : ∃ found, s.upper_memo.find? (fun e => decide (e.1 = node)) = some found := by
    apply Option.isSome_iff_exists.mp
    exact List.find?_isSome.mpr ⟨e, he, decide_eq_true hnode⟩
  have heq := List.find?_some hfound
  rw [upper_child_id, hfound, ← of_decide_eq_true heq]
  exact hs.upper found (List.mem_of_find?_eq_some hfound)

/-- The ids of nodes are right as long as nothing is forgotten. -/
def Numbered (s : GssSemanticKeyInterner T A) (child_id : GssSemanticKeyInterner T A → N → ℕ)
    (has : List T → N → Bool) (kids : List N) : Prop :=
  ∀ n ∈ kids, ∀ s', s'.Valid → Grows s s' → Denotes s'.nodes (child_id s' n) fun stack => has stack n

variable {child_id : GssSemanticKeyInterner T A → N → ℕ} {has : List T → N → Bool}

omit [DecidableEq A] in
theorem union_kids_spec {kids : List N} (hkids : Numbered s child_id has kids)
    {r : ℕ × GssSemanticKeyInterner T A} (hr : r.2.Valid) (hgrows : Grows s r.2)
    (hlt : r.1 < r.2.nodes.length)
    (h : r.2.exhausted = false → Denotes r.2.nodes r.1 language) :
    (After r.2 (union_kids child_id kids r) fun s' id => Denotes s'.nodes id fun stack =>
        language stack || kids.foldr (fun n x => has stack n || x) false) ∧
      (union_kids child_id kids r).1 < (union_kids child_id kids r).2.nodes.length := by
  induction kids generalizing r language with
  | nil =>
      refine ⟨⟨hr, Grows.refl _, fun hex => (h hex).congr fun stack => ?_⟩, hlt⟩
      exact (Bool.or_false _).symm
  | cons n kids ih =>
      obtain ⟨hn, hrest⟩ := List.forall_mem_cons.mp hkids
      have hchild := hn r.2 hr hgrows
      have hids := union_ids_spec hr hlt hchild.lt
      have hstep : (union_ids r.1 (child_id r.2 n) r.2).2.exhausted = false →
          Denotes (union_ids r.1 (child_id r.2 n) r.2).2.nodes (union_ids r.1 (child_id r.2 n) r.2).1
            fun stack => language stack || has stack n := by
        intro hex
        apply (hids.result hex).congr
        intro stack
        rw [(h (hids.grows.not_exhausted hex)).holds, hchild.holds]
      obtain ⟨hall, hlt'⟩ := ih hrest hids.valid (hgrows.trans hids.grows)
        (union_ids_lt hr hlt hchild.lt) hstep
      refine ⟨(hids.trans hall).mono fun hdenotes => hdenotes.congr fun stack => ?_, hlt'⟩
      rw [List.foldr_cons, Bool.or_assoc]

omit [DecidableEq A] in
theorem canonical_children_spec {children : List (Slot T N)}
    (hkids : ∀ v, Numbered s child_id has (Slot.kids v children)) (values : List T) (hs' : s'.Valid)
    (hgrows : Grows s s') :
    (After s' (canonical_children child_id children values s') fun s'' made =>
        ∀ e ∈ made, Denotes s''.nodes e.2 fun stack => Slot.joined (has stack) e.1 children) ∧
      (canonical_children child_id children values s').1.map Prod.fst = values ∧
      ∀ e ∈ (canonical_children child_id children values s').1,
        e.2 < (canonical_children child_id children values s').2.nodes.length := by
  induction values generalizing s' with
  | nil => exact ⟨After.pure hs' (fun _ he => by cases he), rfl, fun _ he => by cases he⟩
  | cons v values ih =>
      obtain ⟨hunion, hlt⟩ := union_kids_spec (hkids v) (r := (0, s')) hs' hgrows hs'.zero.lt
        fun _ => hs'.zero
      obtain ⟨hall, hkeys, hlts⟩ := ih hunion.valid (hgrows.trans hunion.grows)
      rw [canonical_children]
      refine ⟨⟨hall.valid, hunion.grows.trans hall.grows, fun hex => List.forall_mem_cons.mpr
        ⟨?_, hall.result hex⟩⟩, congrArg (v :: ·) hkeys,
          List.forall_mem_cons.mpr ⟨hall.grows.lt hlt, hlts⟩⟩
      apply ((hunion.result (hall.grows.not_exhausted hex)).later hunion.valid hall.grows).congr
      intro stack
      rw [Slot.joined_eq_kids, Bool.false_or]
      rfl

omit [DecidableEq A] in
theorem intern_children_spec {children : List (Slot T N)} (hs : s.Valid)
    (hkids : ∀ v, Numbered s child_id has (Slot.kids v children)) (empty : Bool)
    (hnil : language [] = empty)
    (hcons : ∀ v stack, language (v :: stack) = Slot.joined (has stack) v children) :
    After s (intern_children child_id children empty s) fun s' id => Denotes s'.nodes id language := by
  obtain ⟨hall, hkeys, hlts⟩ := canonical_children_spec hkids (Slot.values children) hs (Grows.refl s)
  have hnodup : ((canonical_children child_id children (Slot.values children) s).1.map
      Prod.fst).Nodup := by
    rw [hkeys]
    exact Slot.values_nodup
  have hintern := intern_node_spec hall.valid empty hnodup hlts
  refine ⟨hintern.valid, hall.grows.trans hintern.grows, fun hex => ?_⟩
  have hdenotes := hall.result (hintern.grows.not_exhausted hex)
  apply (hintern.result hex).congr
  intro stack
  cases stack with
  | nil => exact hnil.symm
  | cons v stack =>
      rw [hcons]
      exact @childrenHold_eq T _ _ empty _ _ (fun v stack => Slot.joined (has stack) v children)
        hkeys hdenotes v stack fun hv => Slot.joined_eq_bot hv

omit [DecidableEq A] in
/-- What is remembered is known. -/
theorem remember_lower_known {node : Lower T} (r : ℕ × GssSemanticKeyInterner T A)
    (h : (remember_lower node r).2.exhausted = false) : Known (remember_lower node r).2 (.lower node) := by
  unfold remember_lower at h ⊢
  split_ifs at h ⊢ with hexhausted
  · exact absurd hexhausted (by rw [h]; simp)
  · obtain hbudget | hbudget := source_budget_cases r.2
    · rw [hbudget] at h
      cases h
    · rw [hbudget]
      exact ⟨_, List.mem_cons_self, rfl⟩

omit [DecidableEq A] in
theorem remember_upper_known {node : Upper T A} (r : ℕ × GssSemanticKeyInterner T A)
    (h : (remember_upper node r).2.exhausted = false) : Known (remember_upper node r).2 (.upper node) := by
  unfold remember_upper at h ⊢
  split_ifs at h ⊢ with hexhausted
  · exact absurd hexhausted (by rw [h]; simp)
  · obtain hbudget | hbudget := source_budget_cases r.2
    · rw [hbudget] at h
      cases h
    · rw [hbudget]
      exact ⟨_, List.mem_cons_self, rfl⟩

/-- A node whose children are known gets the right number, and becomes known. -/
theorem process_node_spec (hs : s.Valid) {node : SemanticPendingNode T A} (hwf : node.WF)
    (hknown : ∀ c ∈ node.children, Known s c) :
    After s (process_node node s) fun s' _ => Known s' node := by
  have hlower : ∀ children : List (Slot T (Lower T)), (∀ t ∈ children, Known s (.lower t.node)) →
      ∀ v, Numbered s lower_child_id (fun stack n => n.has stack) (Slot.kids v children) := by
    intro children hchildren v n hn s' hs' hgrows
    obtain ⟨t, ht, -, rfl⟩ := Slot.mem_kids.mp hn
    exact lower_child_id_spec ((hchildren t ht).later hgrows) hs'
  have hupper : ∀ children : List (Slot T (Upper T A)), (∀ t ∈ children, Known s (.upper t.node)) →
      ∀ v, Numbered s upper_child_id (fun stack n => n.has stack) (Slot.kids v children) := by
    intro children hchildren v n hn s' hs' hgrows
    obtain ⟨t, ht, -, rfl⟩ := Slot.mem_kids.mp hn
    exact upper_child_id_spec ((hchildren t ht).later hgrows) hs'
  cases node with
  | lower node =>
      have hnode : ∀ {r : ℕ × GssSemanticKeyInterner T A},
          (After s r fun s' id => Denotes s'.nodes id fun stack => node.has stack) →
            After s (remember_lower node r) fun s' _ => Known s' (.lower node) := by
        intro r hr
        have hremember := hr.trans (remember_lower_spec hr.valid hr.result)
        exact ⟨hremember.valid, hremember.grows, remember_lower_known r⟩
      cases hwf with
      | @general children empty d hdistinct hdeep hwf hdepth =>
          apply hnode
          apply intern_children_spec hs (hlower children fun t ht => hknown _ (List.mem_map_of_mem ht))
          · rfl
          · exact fun v stack => rfl
      | @segment values next d l hne hwf hdepth hlength =>
          apply hnode
          have hnext := lower_child_id_spec (hknown _ (List.mem_singleton_self _)) hs
          exact push_values_spec (r := (s.lower_child_id next, s)) hs (fun _ => hnext) hne d l
  | upper node =>
      have hnode : ∀ {r : ℕ × GssSemanticKeyInterner T A},
          (After s r fun s' id => Denotes s'.nodes id fun stack => node.has stack) →
            After s (remember_upper node r) fun s' _ => Known s' (.upper node) := by
        intro r hr
        have hremember := hr.trans (remember_upper_spec hr.valid hr.result)
        exact ⟨hremember.valid, hremember.grows, remember_upper_known r⟩
      cases hwf with
      | @branch children empty d hdistinct hdeep hwf hdepth =>
          apply hnode
          apply intern_children_spec hs (hupper children fun t ht => hknown _ (List.mem_map_of_mem ht))
          · rfl
          · exact fun v stack => rfl
      | @interface inner a hwf =>
          apply hnode
          have hinner := lower_child_id_spec (hknown _ (List.mem_singleton_self _)) hs
          apply After.pure hs
          apply hinner.congr
          exact fun stack => (Upper.has_interface stack inner a).symm

variable [Sharing]

/-- What is needed to number the nodes in order. -/
structure Numberable (s : GssSemanticKeyInterner T A) (todo : List (SemanticPendingNode T A)) : Prop where
  wf : ∀ n ∈ todo, n.WF
  sorted : todo.Pairwise fun n m => n.sort_key ≤ m.sort_key
  closed : ∀ n ∈ todo, ∀ c ∈ n.children, Known s c ∨ c ∈ todo

omit [DecidableEq A] [Sharing] in
theorem Numberable.rest {node : SemanticPendingNode T A} {todo : List (SemanticPendingNode T A)}
    (h : Numberable s (node :: todo)) (hgrows : Grows s s') (hknown : Known s' node) :
    Numberable s' todo := by
  refine ⟨fun n hn => h.wf n (List.mem_cons_of_mem _ hn), h.sorted.tail, fun n hn c hc => ?_⟩
  obtain hc | hc := h.closed n (List.mem_cons_of_mem _ hn) c hc
  · exact Or.inl (hc.later hgrows)
  · obtain rfl | hc := List.mem_cons.mp hc
    · exact Or.inl hknown
    · exact Or.inr hc

omit [DecidableEq A] [Sharing] in
/-- The children of the first node come before all nodes that are left. -/
theorem Numberable.known {node : SemanticPendingNode T A} {todo : List (SemanticPendingNode T A)}
    (h : Numberable s (node :: todo)) : ∀ c ∈ node.children, Known s c := by
  intro c hc
  have hlt := (h.wf node List.mem_cons_self).sort_key_lt hc
  obtain hknown | hmem := h.closed node List.mem_cons_self c hc
  · exact hknown
  · obtain rfl | hmem := List.mem_cons.mp hmem
    · exact absurd hlt (lt_irrefl _)
    · exact absurd hlt (not_lt.mpr (List.rel_of_pairwise_cons h.sorted hmem))

theorem process_nodes_exhausted {todo : List (SemanticPendingNode T A)} (h : s.exhausted = true) :
    process_nodes todo s = s := by
  cases todo with
  | nil => rfl
  | cons node todo => rw [process_nodes, if_pos h]

theorem process_nodes_spec {todo : List (SemanticPendingNode T A)} (hs : s.Valid)
    (h : Numberable s todo) :
    After s ((), process_nodes todo s) fun s' _ => ∀ n ∈ todo, Known s' n := by
  induction todo generalizing s with
  | nil => exact After.pure hs fun _ hn => by cases hn
  | cons node todo ih =>
      rw [process_nodes]
      split_ifs with hexhausted hcontains
      · exact ⟨hs, Grows.refl s, fun hex => absurd hexhausted (by rw [hex]; simp)⟩
      · have hknown := known_of_contains hcontains
        have hrest := ih hs (h.rest (Grows.refl s) hknown)
        exact hrest.mono fun hall => List.forall_mem_cons.mpr ⟨hknown.later hrest.grows, hall⟩
      · have hnode := process_node_spec hs (h.wf node List.mem_cons_self) h.known
        cases hex : (process_node node s).2.exhausted with
        | true =>
            rw [process_nodes_exhausted hex]
            exact ⟨hnode.valid, hnode.grows, fun hex' => absurd hex (by rw [hex']; simp)⟩
        | false =>
            have hknown := hnode.result hex
            have hrest := ih hnode.valid (h.rest hnode.grows hknown)
            exact ⟨hrest.valid, hnode.grows.trans hrest.grows, fun hex =>
              List.forall_mem_cons.mpr ⟨hknown.later hrest.grows, hrest.result hex⟩⟩

omit [LinearOrder T] [DecidableEq A] [Sharing] in
theorem sorted_by_key (nodes : List (SemanticPendingNode T A)) :
    (nodes.insertionSort fun n m => n.sort_key ≤ m.sort_key).Pairwise
      fun n m => n.sort_key ≤ m.sort_key := by
  have htotal : Std.Total fun n m : SemanticPendingNode T A => n.sort_key ≤ m.sort_key :=
    ⟨fun n m => le_total n.sort_key m.sort_key⟩
  have htrans : IsTrans (SemanticPendingNode T A) fun n m => n.sort_key ≤ m.sort_key :=
    ⟨fun _ _ _ hnm hmk => le_trans hnm hmk⟩
  exact List.pairwise_insertionSort _ nodes

/-- The number of the root is found unless the interner is exhausted. -/
theorem key_iterative_spec (hs : s.Valid) {root : Upper T A} (hwf : root.WF) :
    After s (key_iterative root s) fun s' id => Denotes s'.nodes id fun stack => root.has stack := by
  have hcollect := collect_nodes_spec (s := s) hwf
  unfold key_iterative
  cases hnodes : s.collect_nodes root with
  | none => exact After.exhaust hs 0
  | some nodes =>
      have hcollected := hcollect nodes hnodes
      have hperm := List.perm_insertionSort
        (fun n m : SemanticPendingNode T A => n.sort_key ≤ m.sort_key) nodes
      have htodo : Numberable s (nodes.insertionSort fun n m => n.sort_key ≤ m.sort_key) :=
        ⟨fun n hn => hcollected.wf n (hperm.mem_iff.mp hn), sorted_by_key nodes, fun n hn c hc =>
          (hcollected.closed n (hperm.mem_iff.mp hn) c hc).imp_right hperm.mem_iff.mpr⟩
      have hprocess := process_nodes_spec hs htodo
      dsimp only
      split_ifs with hexhausted
      · exact ⟨hprocess.valid, hprocess.grows, fun hex => absurd hexhausted (by rw [hex]; simp)⟩
      · refine ⟨hprocess.valid, hprocess.grows, fun hex => ?_⟩
        have hroot : Known (process_nodes (nodes.insertionSort fun n m =>
            n.sort_key ≤ m.sort_key) s) (.upper root) := by
          obtain hknown | hmem := hcollected.root
          · exact hknown.later hprocess.grows
          · exact hprocess.result hex _ (hperm.mem_iff.mpr hmem)
        exact upper_child_id_spec hroot hprocess.valid

end Process

end GssSemanticKeyInterner

end GlrMask
