import GlrMask.SemanticKeys

/-!
# Unions of semantic keys

The union of two nodes needs the unions of the children they have for one value,
so the pairs that are needed are collected first and made in the order of their
depths.
-/

namespace GlrMask

open SemanticTrie

namespace GssSemanticKeyInterner

variable {T A : Type} [LinearOrder T] {s s' : GssSemanticKeyInterner T A} {pair child : ℕ × ℕ}

theorem union_pair_holds (nodes : List (SemanticTrieNode T)) (left right : ℕ) (stack : List T) :
    pairHolds nodes (union_pair left right) stack =
      (SemanticTrie.holds nodes left stack || SemanticTrie.holds nodes right stack) := by
  unfold union_pair pairHolds
  split_ifs
  · rfl
  · exact Bool.or_comm _ _

theorem union_pair_lt {left right n : ℕ} (hl : left < n) (hr : right < n) :
    (union_pair left right).1 < n ∧ (union_pair left right).2 < n := by
  unfold union_pair
  split_ifs
  · exact ⟨hl, hr⟩
  · exact ⟨hr, hl⟩

theorem mem_of_lookup_union {memo : List ((ℕ × ℕ) × ℕ)} {id : ℕ}
    (h : lookup_union memo pair = some id) : (pair, id) ∈ memo := by
  obtain ⟨e, he, rfl⟩ := Option.map_eq_some_iff.mp h
  have hpair := List.find?_some he
  rw [decide_eq_true_eq] at hpair
  rw [← hpair]
  exact List.mem_of_find?_eq_some he

theorem lookup_union_isSome {memo : List ((ℕ × ℕ) × ℕ)} :
    (lookup_union memo pair).isSome = true ↔ ∃ e ∈ memo, e.1 = pair := by
  rw [lookup_union, Option.isSome_map, List.find?_isSome]
  simp only [decide_eq_true_eq]

theorem lookup_union_later (h : Grows s s') (hpair : (lookup_union s.union_memo pair).isSome) :
    (lookup_union s'.union_memo pair).isSome := by
  rw [lookup_union_isSome] at hpair ⊢
  obtain ⟨e, he, hpair⟩ := hpair
  exact ⟨e, h.union he, hpair⟩

/-- Both ids are those of nodes. -/
def InRange (s : GssSemanticKeyInterner T A) (pair : ℕ × ℕ) : Prop :=
  pair.1 < s.nodes.length ∧ pair.2 < s.nodes.length

/-- The union of the pair is there or needs no work. -/
def Ready (s : GssSemanticKeyInterner T A) (pair : ℕ × ℕ) : Prop :=
  pair.1 = pair.2 ∨ pair.1 = 0 ∨ pair.2 = 0 ∨ (lookup_union s.union_memo pair).isSome

theorem Ready.later (h : Ready s pair) (hgrows : Grows s s') : Ready s' pair := by
  obtain h | h | h | h := h
  · exact Or.inl h
  · exact Or.inr (Or.inl h)
  · exact Or.inr (Or.inr (Or.inl h))
  · exact Or.inr (Or.inr (Or.inr (lookup_union_later hgrows h)))

theorem mem_child_pairs : child ∈ s.child_pairs pair ↔ ∃ v l r,
    (nodeAt s.nodes pair.1).children.get v = some l ∧
      (nodeAt s.nodes pair.2).children.get v = some r ∧ union_pair l r = child := by
  simp only [child_pairs, List.mem_filterMap, Option.map_eq_some_iff, Prod.exists,
    ← SortedMap.get_eq_some_iff]
  constructor
  · intro ⟨v, l, hl, r, hr, hchild⟩
    exact ⟨v, l, r, hl, hr, hchild⟩
  · intro ⟨v, l, r, hl, hr, hchild⟩
    exact ⟨v, l, hl, r, hr, hchild⟩

theorem child_pairs_inRange (h : s.Valid) (hpair : InRange s pair) (hchild : child ∈ s.child_pairs pair) :
    InRange s child := by
  obtain ⟨v, l, r, hl, hr, rfl⟩ := mem_child_pairs.mp hchild
  exact union_pair_lt ((h.trie.child_lt hpair.1 hl).2.trans hpair.1)
    ((h.trie.child_lt hpair.2 hr).2.trans hpair.2)

/-- Children are less deep. -/
theorem child_depth_lt (h : s.Valid) {i c : ℕ} {v : T} (hi : i < s.nodes.length)
    (hget : (nodeAt s.nodes i).children.get v = some c) :
    (nodeAt s.nodes c).max_depth < (nodeAt s.nodes i).max_depth := by
  rw [h.trie.depth i _ (getElem?_of_lt hi), depthOf]
  have hmem := SortedMap.get_eq_some_iff.mp hget
  generalize (nodeAt s.nodes i).children.entries = entries at hmem
  induction entries with
  | nil => cases hmem
  | cons e entries ih =>
      rw [List.foldr_cons]
      obtain rfl | hmem := List.mem_cons.mp hmem
      · exact Nat.lt_of_lt_of_le (Nat.lt_succ_self _) (le_max_left _ _)
      · exact (ih hmem).trans_le (le_max_right _ _)

theorem child_pairs_depth (h : s.Valid) (hpair : InRange s pair) (hchild : child ∈ s.child_pairs pair) :
    s.pairDepth child < s.pairDepth pair := by
  obtain ⟨v, l, r, hl, hr, rfl⟩ := mem_child_pairs.mp hchild
  have hl := child_depth_lt h hpair.1 hl
  have hr := child_depth_lt h hpair.2 hr
  unfold pairDepth union_pair
  split_ifs
  · exact max_lt_max hl hr
  · rw [max_comm]
    exact max_lt_max hl hr

/-! ## Searching for the pairs -/

/-- Every pair that a found pair needs is ready, found or pending. -/
structure Searching (s : GssSemanticKeyInterner T A) (root : ℕ × ℕ) (search : UnionSearch) : Prop where
  pending : ∀ p ∈ search.pending, InRange s p
  unseen : ∀ p ∈ search.unseen, InRange s p
  nodup : search.unseen.Nodup
  order : ∀ p, p ∈ search.order ↔ p ∈ search.unseen
  root : Ready s root ∨ root ∈ search.unseen ∨ root ∈ search.pending
  closed : ∀ p ∈ search.unseen, ∀ c ∈ s.child_pairs p,
    Ready s c ∨ c ∈ search.unseen ∨ c ∈ search.pending

theorem width_le {i : ℕ} : (nodeAt s.nodes i).children.entries.length ≤ s.width := by
  obtain hi | hi := lt_or_ge i s.nodes.length
  · have hmem : nodeAt s.nodes i ∈ s.nodes := List.mem_of_getElem? (getElem?_of_lt hi)
    unfold width
    generalize nodeAt s.nodes i = node at hmem
    generalize s.nodes = nodes at hmem
    induction nodes with
    | nil => cases hmem
    | cons m nodes ih =>
        rw [List.foldr_cons]
        obtain rfl | hmem := List.mem_cons.mp hmem
        · exact le_max_left _ _
        · exact (ih hmem).trans (le_max_right _ _)
  · rw [nodeAt, List.getElem?_eq_none hi]
    exact Nat.zero_le _

theorem unseen_length_le {root : ℕ × ℕ} {search : UnionSearch} (h : Searching s root search) :
    search.unseen.length ≤ s.nodes.length * s.nodes.length := by
  have hsub : search.unseen.toFinset ⊆
      Finset.range s.nodes.length ×ˢ Finset.range s.nodes.length := by
    intro p hp
    obtain ⟨h1, h2⟩ := h.unseen p (List.mem_toFinset.mp hp)
    exact Finset.mem_product.mpr ⟨Finset.mem_range.mpr h1, Finset.mem_range.mpr h2⟩
  have hcard := Finset.card_le_card hsub
  rwa [List.toFinset_card_of_nodup h.nodup, Finset.card_product, Finset.card_range] at hcard

/-- The number of steps that are left at most. -/
def searchWork (s : GssSemanticKeyInterner T A) (search : UnionSearch) : ℕ :=
  search.pending.length +
    (s.width + 1) * (s.nodes.length * s.nodes.length - search.unseen.length)

theorem Searching.skip {root : ℕ × ℕ} {search : UnionSearch} {pending : List (ℕ × ℕ)}
    (h : Searching s root search) (hpending : search.pending = pair :: pending)
    (hskip : Ready s pair ∨ pair ∈ search.unseen) : Searching s root { search with pending } := by
  have hmove : ∀ p, Ready s p ∨ p ∈ search.unseen ∨ p ∈ search.pending →
      Ready s p ∨ p ∈ search.unseen ∨ p ∈ pending := by
    intro p hp
    obtain hp | hp | hp := hp
    · exact Or.inl hp
    · exact Or.inr (Or.inl hp)
    · rw [hpending] at hp
      obtain rfl | hp := List.mem_cons.mp hp
      · exact hskip.imp_right Or.inl
      · exact Or.inr (Or.inr hp)
  exact ⟨fun p hp => h.pending p (hpending ▸ List.mem_cons_of_mem _ hp), h.unseen, h.nodup, h.order,
    hmove _ h.root, fun p hp c hc => hmove c (h.closed p hp c hc)⟩

theorem Searching.visit {root : ℕ × ℕ} {search : UnionSearch} {pending new : List (ℕ × ℕ)}
    (hs : s.Valid) (h : Searching s root search) (hpending : search.pending = pair :: pending)
    (hnot : pair ∉ search.unseen) (hnew : ∀ c ∈ new, c ∈ s.child_pairs pair)
    (hall : ∀ c ∈ s.child_pairs pair, Ready s c ∨ c ∈ new) :
    Searching s root ⟨new ++ pending, pair :: search.unseen, search.order ++ [pair]⟩ := by
  have hpair : InRange s pair := h.pending pair (hpending ▸ List.mem_cons_self)
  have hmove : ∀ p, Ready s p ∨ p ∈ search.unseen ∨ p ∈ search.pending →
      Ready s p ∨ p ∈ pair :: search.unseen ∨ p ∈ new ++ pending := by
    intro p hp
    obtain hp | hp | hp := hp
    · exact Or.inl hp
    · exact Or.inr (Or.inl (List.mem_cons_of_mem _ hp))
    · rw [hpending] at hp
      obtain rfl | hp := List.mem_cons.mp hp
      · exact Or.inr (Or.inl List.mem_cons_self)
      · exact Or.inr (Or.inr (List.mem_append_right _ hp))
  refine ⟨fun p hp => ?_, List.forall_mem_cons.mpr ⟨hpair, h.unseen⟩,
    List.nodup_cons.mpr ⟨hnot, h.nodup⟩, fun p => ?_, hmove _ h.root, fun p hp c hc => ?_⟩
  · obtain hp | hp := List.mem_append.mp hp
    · exact child_pairs_inRange hs hpair (hnew p hp)
    · exact h.pending p (hpending ▸ List.mem_cons_of_mem _ hp)
  · rw [List.mem_append, List.mem_singleton, h.order, List.mem_cons, or_comm]
  · obtain rfl | hp := List.mem_cons.mp hp
    · exact (hall c hc).imp_right fun hc => Or.inr (List.mem_append_left _ hc)
    · exact hmove c (h.closed p hp c hc)

theorem union_search_step_spec (hs : s.Valid) {root : ℕ × ℕ} {search : UnionSearch}
    (h : Searching s root search) :
    Ensures (s.union_search_step search) fun next =>
      match next with
      | none => search.pending = []
      | some next => Searching s root next ∧ searchWork s next < searchWork s search := by
  unfold union_search_step
  cases hpending : search.pending with
  | nil => exact Ensures.some rfl
  | cons pair pending =>
      dsimp only
      split_ifs with hskip hmany
      · have hskip : Ready s pair ∨ pair ∈ search.unseen := by
          unfold Ready
          tauto
        refine Ensures.some ⟨h.skip hpending hskip, ?_⟩
        simp only [searchWork, hpending, List.length_cons]
        omega
      · exact Ensures.none _
      · push Not at hskip
        have hnot : pair ∉ search.unseen := hskip.2.2.2.2
        have hvisit := @Searching.visit T A _ s pair root search pending
          ((s.child_pairs pair).filter fun child => decide (child.1 ≠ child.2) &&
            decide (child.1 ≠ 0) && (lookup_union s.union_memo child).isNone).reverse hs h hpending hnot
          (fun c hc => (List.mem_filter.mp (List.mem_reverse.mp hc)).1) fun c hc => by
            by_cases hkeep : (decide (c.1 ≠ c.2) && decide (c.1 ≠ 0) &&
                (lookup_union s.union_memo c).isNone) = true
            · exact Or.inr (List.mem_reverse.mpr (List.mem_filter.mpr ⟨hc, hkeep⟩))
            · left
              unfold Ready
              rw [Bool.and_eq_true, Bool.and_eq_true, decide_eq_true_eq, decide_eq_true_eq,
                Option.isNone_iff_eq_none, ← Option.not_isSome_iff_eq_none] at hkeep
              tauto
        refine Ensures.some ⟨hvisit, ?_⟩
        have hunseen := unseen_length_le hvisit
        have hnew : ((s.child_pairs pair).filter fun child => decide (child.1 ≠ child.2) &&
            decide (child.1 ≠ 0) && (lookup_union s.union_memo child).isNone).length ≤ s.width :=
          (List.length_filter_le _ _).trans ((List.length_filterMap_le _ _).trans width_le)
        simp only [searchWork, hpending, List.length_cons, List.length_append,
          List.length_reverse] at hunseen ⊢
        have hsplit : s.nodes.length * s.nodes.length - search.unseen.length =
            s.nodes.length * s.nodes.length - (search.unseen.length + 1) + 1 := by omega
        rw [hsplit, mul_add, mul_one]
        omega

/-- The pairs that are found are those needed, as far as they are not ready. -/
structure Found (s : GssSemanticKeyInterner T A) (root : ℕ × ℕ) (order : List (ℕ × ℕ)) : Prop where
  inRange : ∀ p ∈ order, InRange s p
  root : Ready s root ∨ root ∈ order
  closed : ∀ p ∈ order, ∀ c ∈ s.child_pairs p, Ready s c ∨ c ∈ order

theorem union_search_loop (hs : s.Valid) {root : ℕ × ℕ} (hroot : InRange s root) :
    ∃ r, attemptLoop s.union_search_step
        (s.nodes.length * s.nodes.length * (s.width + 1) + 2) ⟨[root], [], []⟩ = some r ∧
      Ensures r fun search => Found s root search.order := by
  have hend : ∀ search, Searching s root search → search.pending = [] → Found s root search.order := by
    intro search h hpending
    have hdrop : ∀ p, Ready s p ∨ p ∈ search.unseen ∨ p ∈ search.pending →
        Ready s p ∨ p ∈ search.order := by
      intro p hp
      rw [hpending, ← h.order] at hp
      simpa using hp
    exact ⟨fun p hp => h.unseen p ((h.order p).mp hp), hdrop root h.root,
      fun p hp c hc => hdrop c (h.closed p ((h.order p).mp hp) c hc)⟩
  apply attemptLoop_ensures (I := Searching s root) (Q := fun search => Found s root search.order)
    (searchWork s)
  · intro search h
    refine (union_search_step_spec hs h).mono fun next hnext => ?_
    cases next with
    | none => exact hend search h hnext
    | some next => exact hnext
  · refine ⟨fun p hp => List.mem_singleton.mp hp ▸ hroot, (fun _ hp => by cases hp), List.nodup_nil,
      fun p => Iff.rfl, Or.inr (Or.inr (List.mem_singleton_self root)), fun _ hp => by cases hp⟩
  · simp only [searchWork, List.length_nil, List.length_singleton, Nat.sub_zero]
    rw [mul_comm]
    omega

theorem union_search_spec (hs : s.Valid) {root : ℕ × ℕ} (hroot : InRange s root) :
    Ensures (s.union_search root) (Found s root) := by
  obtain ⟨r, hr, hfound⟩ := union_search_loop hs hroot
  rw [union_search, hr]
  exact Ensures.map hfound

/-! ## Making the unions -/

theorem inRange_later (h : Grows s s') (hpair : InRange s pair) : InRange s' pair :=
  ⟨h.lt hpair.1, h.lt hpair.2⟩

theorem nodeAt_later (h : Grows s s') {i : ℕ} (hi : i < s.nodes.length) :
    nodeAt s'.nodes i = nodeAt s.nodes i := by
  obtain ⟨more, hmore⟩ := h.nodes
  rw [← hmore]
  exact nodeAt_append hi

theorem child_pairs_later (h : Grows s s') (hpair : InRange s pair) :
    s'.child_pairs pair = s.child_pairs pair := by
  rw [child_pairs, child_pairs, nodeAt_later h hpair.1, nodeAt_later h hpair.2]

theorem pairDepth_later (h : Grows s s') (hpair : InRange s pair) :
    s'.pairDepth pair = s.pairDepth pair := by
  rw [pairDepth, pairDepth, nodeAt_later h hpair.1, nodeAt_later h hpair.2]

theorem not_ready_of_lookup {left right : ℕ} (hne : left ≠ right) (hleft : left ≠ 0)
    (hright : right ≠ 0) (hnone : lookup_union s.union_memo (union_pair left right) = none) :
    ¬Ready s (union_pair left right) := by
  have hpair : (union_pair left right).1 ≠ (union_pair left right).2 ∧
      (union_pair left right).1 ≠ 0 ∧ (union_pair left right).2 ≠ 0 := by
    unfold union_pair
    split_ifs
    · exact ⟨hne, hleft, hright⟩
    · exact ⟨hne.symm, hright, hleft⟩
  rw [Ready, hnone]
  simpa using hpair

/-- The union of children that are ready is the id of what either of them holds. -/
theorem child_union_spec (hs : s.Valid) {left right : ℕ} (hl : left < s.nodes.length)
    (hr : right < s.nodes.length) (hready : Ready s (union_pair left right)) :
    Denotes s.nodes (child_union s.union_memo left right) fun stack =>
      SemanticTrie.holds s.nodes left stack || SemanticTrie.holds s.nodes right stack := by
  unfold child_union
  split_ifs with heq hleft hright
  · exact ⟨hl, fun stack => by rw [← heq, Bool.or_self]⟩
  · exact ⟨hr, fun stack => by rw [hleft, hs.trie.holds_zero, Bool.false_or]⟩
  · exact ⟨hl, fun stack => by rw [hright, hs.trie.holds_zero, Bool.or_false]⟩
  · obtain ⟨id, hid⟩ : ∃ id, lookup_union s.union_memo (union_pair left right) = some id := by
      apply Option.ne_none_iff_exists'.mp
      exact fun hnone => not_ready_of_lookup heq hleft hright hnone hready
    rw [hid]
    obtain ⟨-, -, hdenotes⟩ := hs.union _ (mem_of_lookup_union hid)
    exact hdenotes.congr (union_pair_holds s.nodes left right)

/-- The children of a union: those of a value of both nodes are ready. -/
theorem union_children_spec (hs : s.Valid) (hpair : InRange s pair)
    (hready : ∀ c ∈ s.child_pairs pair, Ready s c) :
    let left := nodeAt s.nodes pair.1
    let right := nodeAt s.nodes pair.2
    let children := SortedMap.mergeEntries (child_union s.union_memo) left.children.entries
      right.children.entries
    (children.map Prod.fst).Nodup ∧ (∀ e ∈ children, e.2 < s.nodes.length) ∧
      ∀ stack, childrenHold s.nodes (left.empty || right.empty) children stack =
        pairHolds s.nodes pair stack := by
  intro left right children
  have hsorted := SortedMap.mergeEntries_sorted (f := child_union s.union_memo)
    left.children.sorted right.children.sorted
  have hcommon : ∀ {v : T} {l r : ℕ}, left.children.get v = some l → right.children.get v = some r →
      Denotes s.nodes (child_union s.union_memo l r) fun stack =>
        SemanticTrie.holds s.nodes l stack || SemanticTrie.holds s.nodes r stack := by
    intro v l r hl hr
    apply child_union_spec hs
    · exact (hs.trie.child_lt hpair.1 hl).2.trans hpair.1
    · exact (hs.trie.child_lt hpair.2 hr).2.trans hpair.2
    · exact hready _ (mem_child_pairs.mpr ⟨v, l, r, hl, hr, rfl⟩)
  refine ⟨?_, ?_, fun stack => ?_⟩
  · exact List.pairwise_map.mpr (hsorted.imp fun hlt => hlt.ne)
  · intro e he
    obtain he | he | ⟨a, b, ha, hb, hab⟩ := SortedMap.mem_mergeEntries he
    · exact (hs.trie.below _ _ (getElem?_of_lt hpair.1) e he).2.trans hpair.1
    · exact (hs.trie.below _ _ (getElem?_of_lt hpair.2) e he).2.trans hpair.2
    · rw [hab]
      exact (hcommon (SortedMap.get_eq_some_iff.mpr ha) (SortedMap.get_eq_some_iff.mpr hb)).lt
  · cases stack with
    | nil => rfl
    | cons v stack =>
        have hlookup : SortedMap.lookupEntry children v = SortedMap.joinValues
            (child_union s.union_memo) (left.children.get v) (right.children.get v) :=
          SortedMap.lookupEntry_mergeEntries left.children.sorted right.children.sorted v
        rw [childrenHold, hlookup, pairHolds, SemanticTrie.holds, SemanticTrie.holds]
        have hleft : (nodeAt s.nodes pair.1).children.get v = left.children.get v := rfl
        have hright : (nodeAt s.nodes pair.2).children.get v = right.children.get v := rfl
        rw [hleft, hright]
        cases hl : left.children.get v with
        | none =>
            cases hr : right.children.get v with
            | none => rfl
            | some r => exact (Bool.false_or _).symm
        | some l =>
            cases hr : right.children.get v with
            | none => exact (Bool.or_false _).symm
            | some r => exact (hcommon hl hr).holds stack

/-- What is needed to make the unions of the pairs in order. -/
structure Processable (s : GssSemanticKeyInterner T A) (todo : List (ℕ × ℕ)) : Prop where
  inRange : ∀ p ∈ todo, InRange s p
  sorted : todo.Pairwise fun p q => s.pairDepth p ≤ s.pairDepth q
  closed : ∀ p ∈ todo, ∀ c ∈ s.child_pairs p, Ready s c ∨ c ∈ todo

theorem Processable.rest {rest : List (ℕ × ℕ)} (h : Processable s (pair :: rest)) (hgrows : Grows s s')
    (hpair : (lookup_union s'.union_memo pair).isSome) : Processable s' rest := by
  obtain ⟨-, hrange⟩ := List.forall_mem_cons.mp h.inRange
  refine ⟨fun p hp => inRange_later hgrows (hrange p hp), ?_, fun p hp c hc => ?_⟩
  · apply h.sorted.tail.imp_of_mem
    intro p q hp hq hle
    rwa [pairDepth_later hgrows (hrange p hp), pairDepth_later hgrows (hrange q hq)]
  · rw [child_pairs_later hgrows (hrange p hp)] at hc
    obtain hready | hc := h.closed p (List.mem_cons_of_mem _ hp) c hc
    · exact Or.inl (hready.later hgrows)
    · obtain rfl | hc := List.mem_cons.mp hc
      · exact Or.inl (Or.inr (Or.inr (Or.inr hpair)))
      · exact Or.inr hc

/-- The children of the first pair are less deep than all pairs that are left. -/
theorem Processable.ready (hs : s.Valid) {rest : List (ℕ × ℕ)} (h : Processable s (pair :: rest)) :
    ∀ c ∈ s.child_pairs pair, Ready s c := by
  intro c hc
  have hpair := h.inRange pair List.mem_cons_self
  have hlt := child_pairs_depth hs hpair hc
  obtain hready | hmem := h.closed pair List.mem_cons_self c hc
  · exact hready
  · obtain rfl | hmem := List.mem_cons.mp hmem
    · exact absurd hlt (lt_irrefl _)
    · exact absurd hlt (not_lt.mpr (List.rel_of_pairwise_cons h.sorted hmem))

theorem process_unions_spec {todo : List (ℕ × ℕ)} (hs : s.Valid) (h : Processable s todo) :
    After s ((), process_unions todo s) fun s' _ =>
      ∀ p ∈ todo, (lookup_union s'.union_memo p).isSome := by
  induction todo generalizing s with
  | nil => exact After.pure hs fun _ hp => by cases hp
  | cons pair rest ih =>
      rw [process_unions]
      by_cases hmemo : (lookup_union s.union_memo pair).isSome = true
      · rw [if_pos hmemo]
        have hrest := ih hs (h.rest (Grows.refl s) hmemo)
        exact hrest.mono fun hp =>
          List.forall_mem_cons.mpr ⟨lookup_union_later hrest.grows hmemo, hp⟩
      · rw [if_neg hmemo]
        have hpair := h.inRange pair List.mem_cons_self
        obtain ⟨hkeys, hlt, hholds⟩ := union_children_spec hs hpair (h.ready hs)
        dsimp only
        have hintern := intern_node_spec hs ((nodeAt s.nodes pair.1).empty ||
          (nodeAt s.nodes pair.2).empty) hkeys hlt
        generalize intern_node ((nodeAt s.nodes pair.1).empty || (nodeAt s.nodes pair.2).empty)
          (SortedMap.mergeEntries (child_union s.union_memo) (nodeAt s.nodes pair.1).children.entries
            (nodeAt s.nodes pair.2).children.entries) s = r at hintern ⊢
        obtain ⟨id, s₁⟩ := r
        split_ifs with hexhausted hfull
        · exact ⟨hintern.valid, hintern.grows, fun hex => absurd hexhausted (by rw [hex]; simp)⟩
        · exact hintern.trans (After.exhaust hintern.valid ())
        · -- The new union is remembered.
          have hdenotes := hintern.result (Bool.eq_false_iff.mpr hexhausted)
          have hrange := inRange_later hintern.grows hpair
          have hgrows : Grows s₁ { s₁ with union_memo := (pair, id) :: s₁.union_memo } :=
            ⟨List.prefix_refl _, List.Subset.refl _, List.Subset.refl _,
              List.subset_cons_self _ _, fun h => h⟩
          have hvalid : ({ s₁ with union_memo := (pair, id) :: s₁.union_memo } :
              GssSemanticKeyInterner T A).Valid := by
            have hv := hintern.valid
            refine ⟨hv.trie, hv.lower, hv.upper, List.forall_mem_cons.mpr ⟨?_, hv.union⟩,
              hv.reconstructed⟩
            refine ⟨hrange.1, hrange.2, hdenotes.congr fun stack => ?_⟩
            rw [hholds, pairHolds, pairHolds, hintern.grows.holds hs hpair.1,
              hintern.grows.holds hs hpair.2]
          have hmemo' : (lookup_union ((pair, id) :: s₁.union_memo) pair).isSome = true :=
            lookup_union_isSome.mpr ⟨_, List.mem_cons_self, rfl⟩
          have hall := hintern.grows.trans hgrows
          have hrest := ih hvalid (h.rest hall hmemo')
          exact ⟨hrest.valid, hall.trans hrest.grows, fun hex => List.forall_mem_cons.mpr
            ⟨lookup_union_later hrest.grows hmemo', hrest.result hex⟩⟩

theorem sorted_by_depth (s : GssSemanticKeyInterner T A) (order : List (ℕ × ℕ)) :
    (order.insertionSort fun p q => s.pairDepth p ≤ s.pairDepth q).Pairwise
      fun p q => s.pairDepth p ≤ s.pairDepth q := by
  have htotal : Std.Total fun p q : ℕ × ℕ => s.pairDepth p ≤ s.pairDepth q :=
    ⟨fun p q => le_total (s.pairDepth p) (s.pairDepth q)⟩
  have htrans : IsTrans (ℕ × ℕ) fun p q => s.pairDepth p ≤ s.pairDepth q :=
    ⟨fun _ _ _ hpq hqr => le_trans hpq hqr⟩
  exact List.pairwise_insertionSort _ order

/-- A union is the id of what either node holds, unless it comes out exhausted. -/
theorem union_ids_spec (hs : s.Valid) {left right : ℕ} (hl : left < s.nodes.length)
    (hr : right < s.nodes.length) :
    After s (union_ids left right s) fun s' id => Denotes s'.nodes id fun stack =>
      SemanticTrie.holds s.nodes left stack || SemanticTrie.holds s.nodes right stack := by
  have hmemo : ∀ {s' : GssSemanticKeyInterner T A} {id : ℕ}, s'.Valid → Grows s s' →
      lookup_union s'.union_memo (union_pair left right) = some id →
        Denotes s'.nodes id fun stack =>
          SemanticTrie.holds s.nodes left stack || SemanticTrie.holds s.nodes right stack := by
    intro s' id hs' hgrows hid
    obtain ⟨-, -, hdenotes⟩ := hs'.union _ (mem_of_lookup_union hid)
    apply hdenotes.congr
    intro stack
    rw [union_pair_holds, hgrows.holds hs hl, hgrows.holds hs hr]
  unfold union_ids
  split_ifs with hexhausted hleft hright
  · exact ⟨hs, Grows.refl s, fun hex => absurd hexhausted (by rw [hex]; simp)⟩
  · apply After.pure hs
    refine ⟨hl, fun stack => ?_⟩
    obtain rfl | rfl := hleft
    · rw [Bool.or_self]
    · rw [hs.trie.holds_zero, Bool.or_false]
  · apply After.pure hs
    exact ⟨hr, fun stack => by rw [hright, hs.trie.holds_zero, Bool.false_or]⟩
  · push Not at hleft
    split
    · rename_i id hid
      exact After.pure hs (hmemo hs (Grows.refl s) hid)
    · rename_i hnone
      have hroot : InRange s (union_pair left right) := union_pair_lt hl hr
      have hfound := union_search_spec hs hroot
      unfold union_ids_uncached
      cases hsearch : s.union_search (union_pair left right) with
      | none => exact After.exhaust hs 0
      | some order =>
          have hfound := hfound order hsearch
          have hperm := List.perm_insertionSort (fun p q => s.pairDepth p ≤ s.pairDepth q) order
          have htodo : Processable s (order.insertionSort fun p q =>
              s.pairDepth p ≤ s.pairDepth q) :=
            ⟨fun p hp => hfound.inRange p (hperm.mem_iff.mp hp), sorted_by_depth s order,
              fun p hp c hc =>
                (hfound.closed p (hperm.mem_iff.mp hp) c hc).imp_right hperm.mem_iff.mpr⟩
          have hprocess := process_unions_spec hs htodo
          dsimp only
          split_ifs with hexhausted'
          · exact ⟨hprocess.valid, hprocess.grows, fun hex => absurd hexhausted' (by rw [hex]; simp)⟩
          · refine ⟨hprocess.valid, hprocess.grows, fun hex => ?_⟩
            have horder : union_pair left right ∈ order :=
              hfound.root.resolve_left (not_ready_of_lookup hleft.1 hright hleft.2 hnone)
            obtain ⟨id, hid⟩ := Option.isSome_iff_exists.mp
              (hprocess.result hex _ (hperm.mem_iff.mpr horder))
            rw [hid]
            exact hmemo hprocess.valid hprocess.grows hid

theorem union_ids_lt (hs : s.Valid) {left right : ℕ} (hl : left < s.nodes.length)
    (hr : right < s.nodes.length) :
    (union_ids left right s).1 < (union_ids left right s).2.nodes.length := by
  have hafter := union_ids_spec hs hl hr
  cases hex : (union_ids left right s).2.exhausted with
  | false => exact (hafter.result hex).lt
  | true =>
      -- An exhausted interner answers with the id of the empty language.
      have hzero := hafter.valid.trie.zero_lt
      revert hex hzero
      unfold union_ids union_ids_uncached
      split_ifs with hexhausted hleft hright
      · exact fun _ h => h
      · exact fun _ _ => hl
      · exact fun _ _ => hr
      · split
        · rename_i id hid
          exact fun _ _ => (hs.union _ (mem_of_lookup_union hid)).2.2.lt
        · split
          · exact fun _ h => h
          · dsimp only
            split_ifs with hexhausted'
            · exact fun _ h => h
            · exact fun hex => absurd hex hexhausted'

end GssSemanticKeyInterner

end GlrMask
