import GlrMask.GssEquality
import GlrMask.SemanticTrie
import GlrMask.Fuel

/-!
# Semantic keys

An interner numbers sets of stacks by the nodes of an interned trie. It
remembers the numbers of the nodes it has seen and of the unions it has made.
Its tables are bounded; when one of them is full the interner is exhausted.
-/

namespace GlrMask

open SemanticTrie

structure GssSemanticKeyInterner (T A : Type) [LinearOrder T] where
  nodes : List (SemanticTrieNode T)
  lower_memo : List (Lower T × ℕ)
  upper_memo : List (Upper T A × ℕ)
  union_memo : List ((ℕ × ℕ) × ℕ)
  reconstructed : List (ℕ × Lower T)
  max_nodes : ℕ
  max_source_keys : ℕ
  max_union_entries : ℕ
  exhausted : Bool

/-- A computation with an interner. -/
abbrev Interning (T A : Type) [LinearOrder T] (α : Type) : Type :=
  GssSemanticKeyInterner T A → α × GssSemanticKeyInterner T A

namespace GssSemanticKeyInterner

variable {T A : Type} [LinearOrder T]

def with_budget (max_nodes max_source_keys max_union_entries : ℕ) : GssSemanticKeyInterner T A where
  nodes := [SemanticTrieNode.empty_language]
  lower_memo := []
  upper_memo := []
  union_memo := []
  reconstructed := []
  max_nodes := max max_nodes 1
  max_source_keys := max_source_keys
  max_union_entries := max_union_entries
  exhausted := false

/-- Forget everything but the budgets. -/
def clear (s : GssSemanticKeyInterner T A) : GssSemanticKeyInterner T A :=
  { s with
    nodes := [SemanticTrieNode.empty_language]
    lower_memo := []
    upper_memo := []
    union_memo := []
    reconstructed := []
    exhausted := false }

def source_budget_available : Interning T A Bool := fun s =>
  if s.max_source_keys ≤ s.lower_memo.length + s.upper_memo.length then
    (false, { s with exhausted := true })
  else (true, s)

def intern_node (empty : Bool) (children : List (T × ℕ)) : Interning T A ℕ := fun s =>
  let node := makeNode s.nodes empty children
  if node ∈ s.nodes then (s.nodes.idxOf node, s)
  else if s.max_nodes ≤ s.nodes.length then (0, { s with exhausted := true })
  else (s.nodes.length, { s with nodes := s.nodes ++ [node] })

/-! ## Unions -/

def union_pair (left right : ℕ) : ℕ × ℕ := if left ≤ right then (left, right) else (right, left)

def lookup_union (memo : List ((ℕ × ℕ) × ℕ)) (pair : ℕ × ℕ) : Option ℕ :=
  (memo.find? fun e => decide (e.1 = pair)).map Prod.snd

/-- The pairs whose unions are needed for the union of a pair. -/
def child_pairs (s : GssSemanticKeyInterner T A) (pair : ℕ × ℕ) : List (ℕ × ℕ) :=
  (nodeAt s.nodes pair.1).children.entries.filterMap fun l =>
    ((nodeAt s.nodes pair.2).children.get l.1).map fun r => union_pair l.2 r

/-- The pairs found so far; the last pending pair stands first. -/
structure UnionSearch where
  pending : List (ℕ × ℕ)
  unseen : List (ℕ × ℕ)
  order : List (ℕ × ℕ)

def union_search_step (s : GssSemanticKeyInterner T A) (search : UnionSearch) :
    Option (Option UnionSearch) :=
  match search.pending with
  | [] => some none
  | pair :: pending =>
      if pair.1 = pair.2 ∨ pair.1 = 0 ∨ pair.2 = 0 ∨ (lookup_union s.union_memo pair).isSome ∨
          pair ∈ search.unseen then
        some (some { search with pending })
      else
        let unseen := pair :: search.unseen
        if s.max_union_entries < unseen.length then none
        else
          let new := (s.child_pairs pair).filter fun child =>
            decide (child.1 ≠ child.2) && decide (child.1 ≠ 0) &&
              (lookup_union s.union_memo child).isNone
          some (some ⟨new.reverse ++ pending, unseen, search.order ++ [pair]⟩)

/-- The largest number of children of a node. -/
def width (s : GssSemanticKeyInterner T A) : ℕ :=
  s.nodes.foldr (fun node width => max node.children.entries.length width) 0

/-- All pairs whose unions are needed, or nothing when there are too many. -/
def union_search (s : GssSemanticKeyInterner T A) (root : ℕ × ℕ) : Option (List (ℕ × ℕ)) :=
  ((attemptLoop s.union_search_step (s.nodes.length * s.nodes.length * (s.width + 1) + 2)
    ⟨[root], [], []⟩).join).map UnionSearch.order

def pairDepth (s : GssSemanticKeyInterner T A) (pair : ℕ × ℕ) : ℕ :=
  max (nodeAt s.nodes pair.1).max_depth (nodeAt s.nodes pair.2).max_depth

/-- The union of two children, which has been made before. -/
def child_union (memo : List ((ℕ × ℕ) × ℕ)) (left right : ℕ) : ℕ :=
  if left = right then left
  else if left = 0 then right
  else if right = 0 then left
  else (lookup_union memo (union_pair left right)).getD 0

/-- Make the unions of the pairs; it stops when the interner is exhausted. -/
def process_unions : List (ℕ × ℕ) → GssSemanticKeyInterner T A → GssSemanticKeyInterner T A
  | [], s => s
  | pair :: rest, s =>
      if (lookup_union s.union_memo pair).isSome then process_unions rest s
      else
        let left := nodeAt s.nodes pair.1
        let right := nodeAt s.nodes pair.2
        let children := SortedMap.mergeEntries (child_union s.union_memo)
          left.children.entries right.children.entries
        let r := intern_node (left.empty || right.empty) children s
        if r.2.exhausted then r.2
        else if r.2.max_union_entries ≤ r.2.union_memo.length then { r.2 with exhausted := true }
        else process_unions rest { r.2 with union_memo := (pair, r.1) :: r.2.union_memo }

def union_ids_uncached (root : ℕ × ℕ) : Interning T A ℕ := fun s =>
  match s.union_search root with
  | none => (0, { s with exhausted := true })
  | some order =>
      let s' := process_unions (order.insertionSort fun p q => s.pairDepth p ≤ s.pairDepth q) s
      if s'.exhausted then (0, s') else ((lookup_union s'.union_memo root).getD 0, s')

def union_ids (left right : ℕ) : Interning T A ℕ := fun s =>
  if s.exhausted then (0, s)
  else if left = right ∨ right = 0 then (left, s)
  else if left = 0 then (right, s)
  else
    match lookup_union s.union_memo (union_pair left right) with
    | some id => (id, s)
    | none => union_ids_uncached (union_pair left right) s

def union_keys (left right : ℕ) : Interning T A ℕ := union_ids left right

def push_key (root : ℕ) (value : T) : Interning T A ℕ := fun s =>
  if root = 0 then (0, s) else intern_node false [(value, root)] s

/-! ## What the tables say -/

/-- The id is that of a set of stacks. -/
structure Denotes (nodes : List (SemanticTrieNode T)) (id : ℕ) (language : List T → Bool) : Prop where
  lt : id < nodes.length
  holds : ∀ stack, holds nodes id stack = language stack

def pairHolds (nodes : List (SemanticTrieNode T)) (pair : ℕ × ℕ) (stack : List T) : Bool :=
  holds nodes pair.1 stack || holds nodes pair.2 stack

/-- Everything that is remembered is right. -/
structure Valid (s : GssSemanticKeyInterner T A) : Prop where
  trie : CanonicalTrie s.nodes
  lower : ∀ e ∈ s.lower_memo, Denotes s.nodes e.2 fun stack => e.1.has stack
  upper : ∀ e ∈ s.upper_memo, Denotes s.nodes e.2 fun stack => e.1.has stack
  union : ∀ e ∈ s.union_memo, e.1.1 < s.nodes.length ∧ e.1.2 < s.nodes.length ∧
    Denotes s.nodes e.2 (pairHolds s.nodes e.1)
  reconstructed : ∀ e ∈ s.reconstructed, e.2.WF ∧ Denotes s.nodes e.1 fun stack => e.2.has stack

/-- Nothing is forgotten. -/
structure Grows (s s' : GssSemanticKeyInterner T A) : Prop where
  nodes : s.nodes <+: s'.nodes
  lower : s.lower_memo ⊆ s'.lower_memo
  upper : s.upper_memo ⊆ s'.upper_memo
  union : s.union_memo ⊆ s'.union_memo
  exhausted : s.exhausted = true → s'.exhausted = true

/-- What holds after a computation; its result counts while the interner is not exhausted. -/
structure After {α : Type} (s : GssSemanticKeyInterner T A) (r : α × GssSemanticKeyInterner T A)
    (Q : GssSemanticKeyInterner T A → α → Prop) : Prop where
  valid : r.2.Valid
  grows : Grows s r.2
  result : r.2.exhausted = false → Q r.2 r.1

variable {s s' s'' : GssSemanticKeyInterner T A} {nodes : List (SemanticTrieNode T)} {id : ℕ}

theorem Grows.refl (s : GssSemanticKeyInterner T A) : Grows s s :=
  ⟨List.prefix_refl _, List.Subset.refl _, List.Subset.refl _, List.Subset.refl _, fun h => h⟩

theorem Grows.trans (h : Grows s s') (h' : Grows s' s'') : Grows s s'' :=
  ⟨h.nodes.trans h'.nodes, List.Subset.trans h.lower h'.lower, List.Subset.trans h.upper h'.upper,
    List.Subset.trans h.union h'.union, fun hs => h'.exhausted (h.exhausted hs)⟩

theorem Grows.not_exhausted (h : Grows s s') (hs : s'.exhausted = false) : s.exhausted = false := by
  cases hex : s.exhausted with
  | false => rfl
  | true => exact absurd (h.exhausted hex) (by rw [hs]; exact Bool.false_ne_true)

theorem Grows.holds (h : Grows s s') (hs : s.Valid) (hid : id < s.nodes.length) (stack : List T) :
    SemanticTrie.holds s'.nodes id stack = SemanticTrie.holds s.nodes id stack := by
  obtain ⟨more, hmore⟩ := h.nodes
  rw [← hmore]
  exact hs.trie.holds_append hid stack

theorem Grows.lt (h : Grows s s') (hid : id < s.nodes.length) : id < s'.nodes.length :=
  hid.trans_le h.nodes.length_le

theorem Denotes.later {language : List T → Bool} (h : Denotes s.nodes id language) (hs : s.Valid)
    (hgrows : Grows s s') : Denotes s'.nodes id language :=
  ⟨hgrows.lt h.lt, fun stack => (hgrows.holds hs h.lt stack).trans (h.holds stack)⟩

theorem Denotes.congr {language language' : List T → Bool} (h : Denotes nodes id language)
    (heq : ∀ stack, language stack = language' stack) : Denotes nodes id language' :=
  ⟨h.lt, fun stack => (h.holds stack).trans (heq stack)⟩

/-- Ids of the same set are the same. -/
theorem Denotes.unique {language : List T → Bool} {id' : ℕ} (hs : CanonicalTrie nodes)
    (h : Denotes nodes id language) (h' : Denotes nodes id' language) : id = id' :=
  hs.eq_of_holds h.lt h'.lt fun stack => (h.holds stack).trans (h'.holds stack).symm

theorem Valid.zero (h : s.Valid) : Denotes s.nodes 0 fun _ => false :=
  ⟨h.trie.zero_lt, h.trie.holds_zero⟩

/-- Only the table of nodes has changed, and it has grown. -/
theorem Valid.of_nodes (h : s.Valid) (hgrows : Grows s s') (htrie : CanonicalTrie s'.nodes)
    (hlower : s'.lower_memo = s.lower_memo) (hupper : s'.upper_memo = s.upper_memo)
    (hunion : s'.union_memo = s.union_memo) (hreconstructed : s'.reconstructed = s.reconstructed) :
    s'.Valid where
  trie := htrie
  lower e he := (h.lower e (hlower ▸ he)).later h hgrows
  upper e he := (h.upper e (hupper ▸ he)).later h hgrows
  union e he := by
    obtain ⟨h1, h2, hdenotes⟩ := h.union e (hunion ▸ he)
    refine ⟨hgrows.lt h1, hgrows.lt h2, (hdenotes.later h hgrows).congr fun stack => ?_⟩
    rw [pairHolds, pairHolds, hgrows.holds h h1, hgrows.holds h h2]
  reconstructed e he := by
    obtain ⟨hwf, hdenotes⟩ := h.reconstructed e (hreconstructed ▸ he)
    exact ⟨hwf, hdenotes.later h hgrows⟩

theorem Valid.exhaust (h : s.Valid) : ({ s with exhausted := true } : GssSemanticKeyInterner T A).Valid :=
  ⟨h.trie, h.lower, h.upper, h.union, h.reconstructed⟩

theorem Grows.exhaust (s : GssSemanticKeyInterner T A) : Grows s { s with exhausted := true } :=
  ⟨List.prefix_refl _, List.Subset.refl _, List.Subset.refl _, List.Subset.refl _, fun _ => rfl⟩

theorem After.exhaust {α : Type} {Q : GssSemanticKeyInterner T A → α → Prop} (h : s.Valid) (a : α) :
    After s (a, { s with exhausted := true }) Q :=
  ⟨h.exhaust, Grows.exhaust s, fun hex => by cases hex⟩

theorem After.pure {α : Type} {Q : GssSemanticKeyInterner T A → α → Prop} (h : s.Valid) {a : α}
    (ha : Q s a) : After s (a, s) Q :=
  ⟨h, Grows.refl s, fun _ => ha⟩

theorem After.trans {α β : Type} {P : GssSemanticKeyInterner T A → α → Prop}
    {Q : GssSemanticKeyInterner T A → β → Prop} {r : α × GssSemanticKeyInterner T A}
    {r' : β × GssSemanticKeyInterner T A} (h : After s r P) (h' : After r.2 r' Q) : After s r' Q :=
  ⟨h'.valid, h.grows.trans h'.grows, h'.result⟩

theorem After.mono {α : Type} {P Q : GssSemanticKeyInterner T A → α → Prop}
    {r : α × GssSemanticKeyInterner T A} (h : After s r P) (hPQ : P r.2 r.1 → Q r.2 r.1) :
    After s r Q :=
  ⟨h.valid, h.grows, fun hex => hPQ (h.result hex)⟩

/-! ## Interning -/

/-- What a node with these children holds. -/
def childrenHold (nodes : List (SemanticTrieNode T)) (empty : Bool) (children : List (T × ℕ)) :
    List T → Bool
  | [] => empty
  | v :: stack =>
      match SortedMap.lookupEntry children v with
      | some child => SemanticTrie.holds nodes child stack
      | none => false

/-- Interning finds the id of what a node with the children holds. -/
theorem intern_node_spec (h : s.Valid) (empty : Bool) {children : List (T × ℕ)}
    (hkeys : (children.map Prod.fst).Nodup) (hlt : ∀ e ∈ children, e.2 < s.nodes.length) :
    After s (intern_node empty children s) fun s' id =>
      Denotes s'.nodes id (childrenHold s.nodes empty children) := by
  have hdenotes : ∀ {more : List (SemanticTrieNode T)} {i : ℕ},
      (s.nodes ++ more)[i]? = some (makeNode s.nodes empty children) →
        Denotes (s.nodes ++ more) i (childrenHold s.nodes empty children) := by
    intro more i hget
    obtain ⟨hnil, hcons⟩ := h.trie.holds_makeNode hkeys hlt hget
    refine ⟨(List.getElem?_eq_some_iff.mp hget).1, fun stack => ?_⟩
    cases stack with
    | nil => exact hnil
    | cons v stack => exact hcons v stack
  unfold intern_node
  dsimp only
  split_ifs with hmem hfull
  · apply After.pure h
    have hold := @hdenotes [] (s.nodes.idxOf (makeNode s.nodes empty children))
    rw [List.append_nil] at hold
    exact hold (List.getElem?_idxOf hmem)
  · exact After.exhaust h 0
  · have hgrows : Grows s { s with nodes := s.nodes ++ [makeNode s.nodes empty children] } :=
      ⟨List.prefix_append _ _, List.Subset.refl _, List.Subset.refl _, List.Subset.refl _, fun h => h⟩
    refine ⟨h.of_nodes hgrows ?_ rfl rfl rfl rfl, hgrows, fun _ => ?_⟩
    · exact h.trie.append_node hmem (CanonicalTrie.makeNode_below hlt) rfl
    · exact hdenotes List.getElem?_concat_length

end GssSemanticKeyInterner

end GlrMask
