import GlrMask.SortedMap

/-!
# Interned tries

A trie with shared nodes, as a table in which the children of a node precede it.
Node `0` is the empty language, no edge leads to it and no node occurs twice, so
that a node is determined by the stacks it holds.
-/

namespace GlrMask

structure SemanticTrieNode (T : Type) [LinearOrder T] where
  empty : Bool
  children : SortedMap T ℕ
  max_depth : ℕ
deriving DecidableEq

namespace SemanticTrieNode

variable {T : Type} [LinearOrder T]

def empty_language : SemanticTrieNode T := ⟨false, SortedMap.empty, 0⟩

end SemanticTrieNode

namespace SemanticTrie

open SemanticTrieNode

variable {T : Type} [LinearOrder T]

/-- The node with an id; an id without a node reads as the empty language. -/
def nodeAt (nodes : List (SemanticTrieNode T)) (id : ℕ) : SemanticTrieNode T :=
  (nodes[id]?).getD empty_language

/-- Whether a stack, listed from the top down, is one of the node's. -/
def holds (nodes : List (SemanticTrieNode T)) : ℕ → List T → Bool
  | id, [] => (nodeAt nodes id).empty
  | id, v :: stack =>
      match (nodeAt nodes id).children.get v with
      | some child => holds nodes child stack
      | none => false

def depthOf (nodes : List (SemanticTrieNode T)) (children : SortedMap T ℕ) : ℕ :=
  children.entries.foldr (fun e depth => max ((nodeAt nodes e.2).max_depth + 1) depth) 0

/-- A node with these children; those that are the empty language are left out. -/
def makeNode (nodes : List (SemanticTrieNode T)) (empty : Bool) (children : List (T × ℕ)) :
    SemanticTrieNode T :=
  let children := SortedMap.ofList (children.filter fun e => decide (e.2 ≠ 0))
  ⟨empty, children, depthOf nodes children⟩

/-- Node `0` is the empty language, no node occurs twice, and the children of a node precede it. -/
structure CanonicalTrie (nodes : List (SemanticTrieNode T)) : Prop where
  zero : nodes[0]? = some empty_language
  nodup : nodes.Nodup
  below : ∀ (i : ℕ) (node : SemanticTrieNode T), nodes[i]? = some node → ∀ e ∈ node.children.entries, 0 < e.2 ∧ e.2 < i
  depth : ∀ (i : ℕ) (node : SemanticTrieNode T), nodes[i]? = some node → node.max_depth = depthOf nodes node.children

variable {nodes more : List (SemanticTrieNode T)} {i j : ℕ} {v : T}

theorem nodeAt_of_getElem? {node : SemanticTrieNode T} (h : nodes[i]? = some node) :
    nodeAt nodes i = node := by
  rw [nodeAt, h, Option.getD_some]

theorem getElem?_of_lt (h : i < nodes.length) : nodes[i]? = some (nodeAt nodes i) := by
  rw [nodeAt, List.getElem?_eq_getElem h, Option.getD_some]

theorem nodeAt_append (hi : i < nodes.length) : nodeAt (nodes ++ more) i = nodeAt nodes i := by
  rw [nodeAt, nodeAt, List.getElem?_append_left hi]

namespace CanonicalTrie

theorem zero_lt (h : CanonicalTrie nodes) : 0 < nodes.length :=
  (List.getElem?_eq_some_iff.mp h.zero).1

theorem holds_zero (h : CanonicalTrie nodes) (stack : List T) : holds nodes 0 stack = false := by
  cases stack with
  | nil => rw [holds, nodeAt_of_getElem? h.zero]; rfl
  | cons v stack => rw [holds, nodeAt_of_getElem? h.zero]; rfl

theorem child_lt (h : CanonicalTrie nodes) (hi : i < nodes.length) {child : ℕ}
    (hget : (nodeAt nodes i).children.get v = some child) : 0 < child ∧ child < i :=
  h.below i _ (getElem?_of_lt hi) (v, child) (SortedMap.get_eq_some_iff.mp hget)

/-- New nodes do not change what the old ones hold. -/
theorem holds_append (h : CanonicalTrie nodes) (hi : i < nodes.length) (stack : List T) :
    holds (nodes ++ more) i stack = holds nodes i stack := by
  induction stack generalizing i with
  | nil => rw [holds, holds, nodeAt_append hi]
  | cons v stack ih =>
      rw [holds, holds, nodeAt_append hi]
      cases hget : (nodeAt nodes i).children.get v with
      | none => rfl
      | some child => exact ih ((h.child_lt hi hget).2.trans hi)

theorem depthOf_append {children : SortedMap T ℕ}
    (hlt : ∀ e ∈ children.entries, e.2 < nodes.length) :
    depthOf (nodes ++ more) children = depthOf nodes children := by
  unfold depthOf
  generalize children.entries = entries at hlt
  induction entries with
  | nil => rfl
  | cons e entries ih =>
      obtain ⟨he, hrest⟩ := List.forall_mem_cons.mp hlt
      rw [List.foldr_cons, List.foldr_cons, ih hrest, nodeAt_append he]

/-- A new node whose children are there may be added. -/
theorem append_node {node : SemanticTrieNode T} (h : CanonicalTrie nodes) (hnew : node ∉ nodes)
    (hbelow : ∀ e ∈ node.children.entries, 0 < e.2 ∧ e.2 < nodes.length)
    (hdepth : node.max_depth = depthOf nodes node.children) : CanonicalTrie (nodes ++ [node]) := by
  have hcases : ∀ i m, (nodes ++ [node])[i]? = some m →
      nodes[i]? = some m ∨ i = nodes.length ∧ m = node := by
    intro i m hm
    obtain hi | hi := lt_or_ge i nodes.length
    · exact Or.inl (by rwa [List.getElem?_append_left hi] at hm)
    · rw [List.getElem?_append_right hi, List.getElem?_singleton] at hm
      split_ifs at hm with hz
      exact Or.inr ⟨by omega, (Option.some.inj hm).symm⟩
  constructor
  · rw [List.getElem?_append_left h.zero_lt, h.zero]
  · apply List.nodup_append.mpr ⟨h.nodup, List.nodup_singleton node, ?_⟩
    intro a ha b hb hab
    exact hnew (List.mem_singleton.mp hb ▸ hab ▸ ha)
  · intro i m hm
    obtain hm | ⟨rfl, rfl⟩ := hcases i m hm
    · exact h.below i m hm
    · exact hbelow
  · intro i m hm
    obtain hm | ⟨rfl, rfl⟩ := hcases i m hm
    · have hi := (List.getElem?_eq_some_iff.mp hm).1
      rw [h.depth i m hm, depthOf_append fun e he => (h.below i m hm e he).2.trans hi]
    · rw [hdepth, depthOf_append fun e he => (hbelow e he).2]

/-- A node other than the empty language holds a stack. -/
theorem exists_holds (h : CanonicalTrie nodes) (hi : i < nodes.length) (hpos : 0 < i) :
    ∃ stack, holds nodes i stack = true := by
  induction i using Nat.strong_induction_on with
  | _ i ih =>
  cases hempty : (nodeAt nodes i).empty with
  | true => exact ⟨[], hempty⟩
  | false =>
      -- A node that holds neither the empty stack nor has children is node 0.
      obtain hnil | hne := eq_or_ne (nodeAt nodes i).children.entries []
      · exfalso
        have hchildren : (nodeAt nodes i).children = SortedMap.empty := SortedMap.ext hnil
        have hdepth := h.depth i _ (getElem?_of_lt hi)
        have hnode : nodeAt nodes i = empty_language := by
          cases hn : nodeAt nodes i with
          | mk empty children max_depth =>
              rw [hn] at hempty hchildren hdepth
              subst hempty hchildren
              exact congrArg _ hdepth
        have hget : nodes[i]? = nodes[0]? := by rw [getElem?_of_lt hi, hnode, h.zero]
        exact hpos.ne' ((List.getElem?_inj hi h.nodup).mp hget)
      · obtain ⟨e, he⟩ := List.exists_mem_of_ne_nil _ hne
        obtain ⟨hpos', hlt⟩ := h.below i _ (getElem?_of_lt hi) e he
        obtain ⟨stack, hstack⟩ := ih e.2 hlt (hlt.trans hi) hpos'
        refine ⟨e.1 :: stack, ?_⟩
        rw [holds, SortedMap.get_eq_some_iff.mpr he]
        exact hstack

/-- Nodes that hold the same stacks are the same. -/
theorem eq_of_holds (h : CanonicalTrie nodes) (hi : i < nodes.length) (hj : j < nodes.length)
    (hsame : ∀ stack, holds nodes i stack = holds nodes j stack) : i = j := by
  induction hn : i + j using Nat.strong_induction_on generalizing i j with
  | _ n ih =>
  have hempty : (nodeAt nodes i).empty = (nodeAt nodes j).empty := hsame []
  -- A child holds a stack, so the other node has a child for the same value.
  have hsome : ∀ {i j : ℕ}, i < nodes.length →
      (∀ stack, holds nodes i stack = holds nodes j stack) → ∀ {v : T} {child : ℕ},
      (nodeAt nodes i).children.get v = some child →
        ∃ child', (nodeAt nodes j).children.get v = some child' ∧
          ∀ stack, holds nodes child stack = holds nodes child' stack := by
    intro i j hi hsame v child hget
    obtain ⟨hpos, hlt⟩ := h.child_lt hi hget
    obtain ⟨stack, hstack⟩ := h.exists_holds (hlt.trans hi) hpos
    have hstack' := hsame (v :: stack)
    rw [holds, hget, holds] at hstack'
    cases hget' : (nodeAt nodes j).children.get v with
    | none =>
        rw [hget'] at hstack'
        cases hstack.symm.trans hstack'
    | some child' =>
        refine ⟨child', rfl, fun stack => ?_⟩
        have hall := hsame (v :: stack)
        rwa [holds, hget, holds, hget'] at hall
  have hchildren : (nodeAt nodes i).children = (nodeAt nodes j).children := by
    apply SortedMap.ext_get
    intro v
    cases hget : (nodeAt nodes i).children.get v with
    | some child =>
        obtain ⟨child', hget', hholds⟩ := hsome hi hsame hget
        have hlt := (h.child_lt hi hget).2
        have hlt' := (h.child_lt hj hget').2
        rw [hget', ih (child + child') (by omega) (hlt.trans hi) (hlt'.trans hj) hholds rfl]
    | none =>
        cases hget' : (nodeAt nodes j).children.get v with
        | none => rfl
        | some child' =>
            obtain ⟨child, hchild, -⟩ := hsome hj (fun stack => (hsame stack).symm) hget'
            rw [hget] at hchild
            cases hchild
  have hdepth : (nodeAt nodes i).max_depth = (nodeAt nodes j).max_depth := by
    rw [h.depth i _ (getElem?_of_lt hi), h.depth j _ (getElem?_of_lt hj), hchildren]
  have hnode : nodeAt nodes i = nodeAt nodes j := by
    cases hi : nodeAt nodes i
    cases hj : nodeAt nodes j
    simp_all
  have hget : nodes[i]? = nodes[j]? := by rw [getElem?_of_lt hi, getElem?_of_lt hj, hnode]
  exact (List.getElem?_inj hi h.nodup).mp hget

theorem makeNode_below {empty : Bool} {children : List (T × ℕ)}
    (hlt : ∀ e ∈ children, e.2 < nodes.length) :
    ∀ e ∈ (makeNode nodes empty children).children.entries, 0 < e.2 ∧ e.2 < nodes.length := by
  intro e he
  obtain ⟨hmem, hne⟩ := List.mem_filter.mp (SortedMap.mem_ofList he)
  exact ⟨Nat.pos_of_ne_zero (of_decide_eq_true hne), hlt e hmem⟩

/-- What a new node holds: leaving out children that are the empty language changes nothing. -/
theorem holds_makeNode (h : CanonicalTrie nodes) {empty : Bool} {children : List (T × ℕ)}
    (hkeys : (children.map Prod.fst).Nodup) (hlt : ∀ e ∈ children, e.2 < nodes.length)
    (hget : (nodes ++ more)[i]? = some (makeNode nodes empty children)) :
    holds (nodes ++ more) i [] = empty ∧ ∀ v stack, holds (nodes ++ more) i (v :: stack) =
      match SortedMap.lookupEntry children v with
      | some child => holds nodes child stack
      | none => false := by
  have hnode := nodeAt_of_getElem? hget
  constructor
  · rw [holds, hnode]
    rfl
  · intro v stack
    have hfilter : ((children.filter fun e => decide (e.2 ≠ 0)).map Prod.fst).Nodup :=
      hkeys.sublist (List.filter_sublist.map Prod.fst)
    have hlookup : (makeNode nodes empty children).children.get v =
        (SortedMap.lookupEntry children v).filter fun child => decide (child ≠ 0) :=
      (SortedMap.get_ofList hfilter v).trans
        (SortedMap.lookupEntry_filter (p := fun child => decide (child ≠ 0)) hkeys)
    rw [holds, hnode, hlookup]
    cases hv : SortedMap.lookupEntry children v with
    | none => rfl
    | some child =>
        have hchild := hlt _ (SortedMap.lookupEntry_eq_some hv)
        by_cases hzero : child = 0
        · subst hzero
          exact (h.holds_zero stack).symm
        · rw [Option.filter_some, if_pos (decide_eq_true hzero)]
          exact h.holds_append hchild stack

end CanonicalTrie

end SemanticTrie

end GlrMask
