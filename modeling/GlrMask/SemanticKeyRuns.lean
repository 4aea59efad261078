import GlrMask.FrontierKeyRuns
import GlrMask.SemanticKeySearch

/-!
# Runs of a semantic key interner

A key is found by one of three routes. In every run the keys that were handed out
before the interner was exhausted are equal exactly when the sets of stacks are.
-/

namespace GlrMask

open SemanticTrie

/-! ## Paths -/

namespace Lower

variable {T : Type} [DecidableEq T]

omit [DecidableEq T] in
theorem push_lower_kids_eq (children : List (Slot T (Lower T))) :
    push_lower_kids children =
      children.map fun s => (push_lower_path s.node).map fun path => s.value :: path := by
  induction children with
  | nil => rfl
  | cons s children ih =>
      rw [push_lower_kids, ih]
      rfl

/-- A node with a single path holds nothing else. -/
theorem has_of_path {node : Lower T} (h : node.WF) {path : List T}
    (hpath : push_lower_path node = some path) (stack : List T) :
    node.has stack = decide (stack = path) := by
  induction h generalizing path stack with
  | @general children empty max_depth hdistinct hdeep hwf hdepth ih =>
      rw [push_lower_path] at hpath
      split_ifs at hpath with hempty hchildren
      · obtain rfl := Option.some.inj hpath
        obtain rfl := List.isEmpty_iff.mp hchildren
        cases stack with
        | nil => exact hempty
        | cons v stack => rfl
      · rw [push_lower_kids_eq] at hpath
        match children with
        | [] => cases hpath
        | [s] =>
            obtain ⟨rest, hrest, rfl⟩ := Option.map_eq_some_iff.mp hpath
            cases stack with
            | nil => simpa [has, Lower.empty] using hempty
            | cons v stack =>
                rw [has, Lower.children, Slot.joined_cons, Slot.joined_nil, sup_bot_eq,
                  ih s List.mem_cons_self hrest]
                by_cases hv : s.value = v
                · simp [hv]
                · simp [hv, Ne.symm hv]
        | _ :: _ :: _ => cases hpath
  | @segment values next max_depth segments_len hne hwf hdepth hlength ih =>
      obtain ⟨rest, hrest, rfl⟩ := Option.map_eq_some_iff.mp hpath
      clear hdepth hlength hpath
      induction values generalizing max_depth segments_len stack with
      | nil => exact absurd rfl hne
      | cons v values ihv =>
          have hbelow : ∀ stack, (segment_rest (v :: values) next max_depth segments_len).has stack =
              decide (stack = values ++ rest) := by
            intro stack
            cases values with
            | nil => exact ih hrest stack
            | cons w values => exact ihv (by simp) stack
          cases stack with
          | nil => rfl
          | cons w stack =>
              rw [has, Lower.children, Slot.joined_cons, Slot.joined_nil, sup_bot_eq, hbelow]
              by_cases hv : v = w
              · simp [hv]
              · simp [hv, Ne.symm hv]

end Lower

namespace Upper

variable {T A : Type} [DecidableEq T]

omit [DecidableEq T] in
theorem push_upper_kids_eq (children : List (Slot T (Upper T A))) :
    push_upper_kids children =
      children.map fun s => (push_upper_path s.node).map fun path => s.value :: path := by
  induction children with
  | nil => rfl
  | cons s children ih =>
      rw [push_upper_kids, ih]
      rfl

theorem has_of_path {node : Upper T A} (h : node.WF) {path : List T}
    (hpath : push_upper_path node = some path) (stack : List T) :
    node.has stack = decide (stack = path) := by
  induction h generalizing path stack with
  | @interface inner acc hwf =>
      rw [has_interface]
      exact Lower.has_of_path hwf hpath stack
  | @branch children empty max_depth hdistinct hdeep hwf hdepth ih =>
      rw [push_upper_path] at hpath
      split_ifs at hpath with hempty
      rw [push_upper_kids_eq] at hpath
      match children with
      | [] => cases hpath
      | [s] =>
          obtain ⟨rest, hrest, rfl⟩ := Option.map_eq_some_iff.mp hpath
          cases stack with
          | nil => simpa [has] using hempty
          | cons v stack =>
              rw [has, Slot.joined_cons, Slot.joined_nil, sup_bot_eq, ih s List.mem_cons_self hrest]
              by_cases hv : s.value = v
              · simp [hv]
              · simp [hv, Ne.symm hv]
      | _ :: _ :: _ => cases hpath

end Upper

namespace GssSemanticKeyInterner

variable {T A : Type} [LinearOrder T]

/-! ## Keys of stacks -/

def single_stack_key_max_depth : ℕ := 64

def recursive_semantic_key_max_depth : ℕ := 64

/-- The key of the stacks of a node that is not a single shallow stack. -/
def key_ambiguous [DecidableEq A] [Sharing] (inner : Upper T A) : Interning T A ℕ := fun s =>
  if inner.max_depth ≤ recursive_semantic_key_max_depth then
    let r := key_upper_recursive recursive_semantic_key_max_depth inner 0 s
    match r.1 with
    | some id => (id, r.2)
    | none => key_iterative inner r.2
  else key_iterative inner s

def key [DecidableEq A] [Sharing] (g : LeveledGSS T A) : Interning T A ℕ := fun s =>
  if s.exhausted then (0, s)
  else
    match upper_id g.inner s with
    | some id => (id, s)
    | none =>
        match (if g.inner.max_depth ≤ single_stack_key_max_depth then
          g.try_single_stack_bounded single_stack_key_max_depth else none) with
        | some stack => remember_upper g.inner (key_single_stack stack s)
        | none => key_ambiguous g.inner s

variable {s s' : GssSemanticKeyInterner T A} {language : List T → Bool} {nodes : List (SemanticTrieNode T)}

theorem key_ambiguous_spec [DecidableEq A] [Sharing] (hs : s.Valid) {inner : Upper T A}
    (hwf : inner.WF) : After s (key_ambiguous inner s) fun s' id =>
      Denotes s'.nodes id fun stack => inner.has stack := by
  unfold key_ambiguous
  split_ifs
  · have hrecursive := key_upper_recursive_spec recursive_semantic_key_max_depth hwf 0 s hs
    dsimp only
    split
    · rename_i id hid
      exact ⟨hrecursive.valid, hrecursive.grows, fun hex => hrecursive.result hex id hid⟩
    · exact hrecursive.trans (key_iterative_spec hrecursive.valid hwf)
  · exact key_iterative_spec hs hwf

/-- Whichever way is taken, the key is the id of the stacks. -/
theorem key_spec [DecidableEq A] [Sharing] (hs : s.Valid) (g : LeveledGSS T A) :
    After s (key g s) fun s' id => Denotes s'.nodes id fun stack => g.inner.has stack := by
  unfold key
  by_cases hexhausted : s.exhausted = true
  · rw [if_pos hexhausted]
    exact ⟨hs, Grows.refl s, fun hex => absurd hexhausted (by rw [hex]; simp)⟩
  · rw [if_neg hexhausted]
    split
    · rename_i id hid
      exact After.pure hs (upper_id_spec hs hid)
    · split
      · rename_i stack hstack
        split_ifs at hstack with hshallow
        unfold LeveledGSS.try_single_stack_bounded at hstack
        split_ifs at hstack with hdeep
        obtain ⟨path, hpath, rfl⟩ := Option.map_eq_some_iff.mp hstack
        have hsingle := key_single_stack_spec hs path
        apply hsingle.trans
        apply remember_upper_spec hsingle.valid
        intro hex
        apply (hsingle.result hex).congr
        exact fun stack => (Upper.has_of_path g.wf hpath stack).symm
      · exact key_ambiguous_spec hs g.wf

/-! ## Stacks of keys -/

def reconstructed_node (memo : List (ℕ × Lower T)) (id : ℕ) : Option (Lower T) :=
  (memo.find? fun e => decide (e.1 = id)).map Prod.snd

/-- Build the node of an id, and remember it and all nodes below it. -/
def build [Sharing] (nodes : List (SemanticTrieNode T)) :
    ℕ → ℕ → List (ℕ × Lower T) → Option (Lower T × List (ℕ × Lower T))
  | 0, _, _ => none
  | fuel + 1, id, memo =>
      match reconstructed_node memo id with
      | some cached => some (cached, memo)
      | none =>
          ((nodeAt nodes id).children.entries.foldlM (fun r e =>
            (build nodes fuel e.2 r.2).map fun child =>
              (Slot.merge Lower.merge_lower r.1 ⟨e.1, child.1.max_depth, child.1⟩, child.2))
            (([], memo) : List (Slot T (Lower T)) × List (ℕ × Lower T))).map fun r =>
            let lower := Lower.new_lower r.1 (nodeAt nodes id).empty
            (lower, (id, lower) :: r.2)

/-- Stacks with the accumulator for the set of a key; the children of a node have smaller ids. -/
def gss_from_key [Sharing] (root : ℕ) (accumulator : A) (s : GssSemanticKeyInterner T A) :
    Option (Upper T A × GssSemanticKeyInterner T A) :=
  if root = 0 then some (Upper.empty_upper_inner, s)
  else (build s.nodes (root + 1) root s.reconstructed).map fun r =>
    let inner := Upper.interface r.1 accumulator
    (inner, { s with reconstructed := r.2, upper_memo := (inner, root) :: s.upper_memo })

/-- Everything that is built is right. -/
def Reconstructed (nodes : List (SemanticTrieNode T)) (memo : List (ℕ × Lower T)) : Prop :=
  ∀ e ∈ memo, e.2.WF ∧ Denotes nodes e.1 fun stack => e.2.has stack

/-- A slot holds what is built for a child. -/
structure BuiltFor (nodes : List (SemanticTrieNode T)) (e : T × ℕ) (t : Slot T (Lower T)) : Prop where
  value : t.value = e.1
  depth : t.node.max_depth = t.depth
  wf : t.node.WF
  denotes : Denotes nodes e.2 fun stack => t.node.has stack

theorem values_of_built {entries : List (T × ℕ)} {slots : List (Slot T (Lower T))}
    (h : List.Forall₂ (BuiltFor nodes) entries slots) :
    slots.map Slot.value = entries.map Prod.fst := by
  induction h with
  | nil => rfl
  | cons hbuilt _ ih => rw [List.map_cons, List.map_cons, ih, hbuilt.value]

theorem family_of_built {entries : List (T × ℕ)} {slots : List (Slot T (Lower T))}
    (h : List.Forall₂ (BuiltFor nodes) entries slots) (hkeys : (entries.map Prod.fst).Nodup) :
    Lower.Family slots := by
  have hall : ∀ t ∈ slots, ∃ e, BuiltFor nodes e t := by
    clear hkeys
    induction h with
    | nil => exact fun _ ht => by cases ht
    | cons hbuilt _ ih => exact List.forall_mem_cons.mpr ⟨⟨_, hbuilt⟩, ih⟩
  refine ⟨?_, fun t ht => ?_, fun t ht => ?_⟩
  · rw [← values_of_built h] at hkeys
    apply List.Nodup.of_map Prod.fst
    rwa [List.map_map]
  · obtain ⟨e, he⟩ := hall t ht
    exact he.depth
  · obtain ⟨e, he⟩ := hall t ht
    exact he.wf

theorem joined_of_built {entries : List (T × ℕ)} {slots : List (Slot T (Lower T))}
    (h : List.Forall₂ (BuiltFor nodes) entries slots) (hkeys : (entries.map Prod.fst).Nodup) (v : T)
    (stack : List T) : Slot.joined (Lower.has stack) v slots =
      match SortedMap.lookupEntry entries v with
      | some child => SemanticTrie.holds nodes child stack
      | none => false := by
  induction h with
  | nil => rfl
  | @cons e t entries slots hbuilt hrest ih =>
      rw [List.map_cons, List.nodup_cons] at hkeys
      rw [Slot.joined_cons, SortedMap.lookupEntry_cons, hbuilt.value]
      split_ifs with hv
      · -- No other child has the value.
        have hother : Slot.joined (Lower.has stack) v slots = ⊥ := by
          apply Slot.joined_eq_bot
          intro hmem
          obtain ⟨u, hu, huv⟩ := Slot.mem_values.mp hmem
          apply hkeys.1
          rw [← values_of_built hrest, hv, ← huv]
          exact List.mem_map_of_mem hu
        rw [hother, sup_bot_eq]
        exact (hbuilt.denotes.holds stack).symm
      · rw [bot_sup_eq]
        exact ih hkeys.2

theorem merge_new [Sharing] {slots : List (Slot T (Lower T))} {t : Slot T (Lower T)}
    (h : t.value ∉ slots.map Slot.value) : Slot.merge Lower.merge_lower slots t = slots ++ [t] := by
  have hkey : (t.value, t.depth) ∉ slots.map Slot.key := by
    intro hmem
    obtain ⟨u, hu, hkey⟩ := List.mem_map.mp hmem
    exact h (List.mem_map.mpr ⟨u, hu, congrArg Prod.fst hkey⟩)
  have hlookup : Slot.lookup t.value t.depth slots = none := by
    cases hl : Slot.lookup t.value t.depth slots with
    | none => rfl
    | some n => exact absurd (List.mem_map_of_mem (Slot.mem_of_lookup hl)) hkey
  rw [Slot.merge, hlookup]
  exact Slot.put_of_not_mem hkey

/-- The children are built one after the other. -/
theorem build_children [Sharing]
    {make : ℕ → List (ℕ × Lower T) → Option (Lower T × List (ℕ × Lower T))}
    {done entries : List (T × ℕ)} {slots : List (Slot T (Lower T))} {memo : List (ℕ × Lower T)}
    (hmake : ∀ e ∈ entries, ∀ memo, Reconstructed nodes memo →
      ∃ lower memo', make e.2 memo = some (lower, memo') ∧ lower.WF ∧
        (Denotes nodes e.2 fun stack => lower.has stack) ∧ Reconstructed nodes memo')
    (hbuilt : List.Forall₂ (BuiltFor nodes) done slots)
    (hkeys : ((done ++ entries).map Prod.fst).Nodup) (hmemo : Reconstructed nodes memo) :
    ∃ slots' memo', entries.foldlM (fun r e => (make e.2 r.2).map fun child =>
        (Slot.merge Lower.merge_lower r.1 ⟨e.1, child.1.max_depth, child.1⟩, child.2))
          ((slots, memo) : List (Slot T (Lower T)) × List (ℕ × Lower T)) = some (slots', memo') ∧
      List.Forall₂ (BuiltFor nodes) (done ++ entries) slots' ∧ Reconstructed nodes memo' := by
  induction entries generalizing done slots memo with
  | nil =>
      rw [List.append_nil]
      exact ⟨slots, memo, rfl, hbuilt, hmemo⟩
  | cons e entries ih =>
      obtain ⟨he, hrest⟩ := List.forall_mem_cons.mp hmake
      obtain ⟨lower, memo', hlower, hwf, hdenotes, hmemo'⟩ := he memo hmemo
      have hnew : e.1 ∉ slots.map Slot.value := by
        rw [values_of_built hbuilt]
        rw [List.map_append, List.map_cons] at hkeys
        intro hmem
        exact (List.nodup_append.mp hkeys).2.2 _ hmem _ List.mem_cons_self rfl
      have hbuilt' : List.Forall₂ (BuiltFor nodes) (done ++ [e]) (slots ++ [⟨e.1, lower.max_depth, lower⟩]) :=
        List.rel_append hbuilt (List.Forall₂.cons ⟨rfl, rfl, hwf, hdenotes⟩ List.Forall₂.nil)
      rw [List.foldlM_cons, hlower, Option.map_some, merge_new (t := ⟨e.1, lower.max_depth, lower⟩) hnew]
      have hstep := ih hrest hbuilt' (by rwa [List.append_assoc]) hmemo'
      rwa [List.append_assoc] at hstep

/-- The node that is built for an id holds what the id stands for. -/
theorem build_spec [Sharing] (htrie : CanonicalTrie nodes) {fuel id : ℕ} (hid : id < nodes.length)
    (hfuel : id < fuel) {memo : List (ℕ × Lower T)} (hmemo : Reconstructed nodes memo) :
    ∃ lower memo', build nodes fuel id memo = some (lower, memo') ∧ lower.WF ∧
      (Denotes nodes id fun stack => lower.has stack) ∧ Reconstructed nodes memo' := by
  induction fuel generalizing id memo with
  | zero => exact absurd hfuel (Nat.not_lt_zero _)
  | succ fuel ih =>
      rw [build]
      cases hcached : reconstructed_node memo id with
      | some cached =>
          obtain ⟨e, he, rfl⟩ := Option.map_eq_some_iff.mp hcached
          have heq := List.find?_some he
          obtain ⟨hwf, hdenotes⟩ := hmemo e (List.mem_of_find?_eq_some he)
          rw [of_decide_eq_true heq] at hdenotes
          exact ⟨e.2, memo, rfl, hwf, hdenotes, hmemo⟩
      | none =>
          have hnode := getElem?_of_lt hid
          have hkeys : ((nodeAt nodes id).children.entries.map Prod.fst).Nodup :=
            List.pairwise_map.mpr ((nodeAt nodes id).children.sorted.imp fun hlt => hlt.ne)
          have hmake : ∀ e ∈ (nodeAt nodes id).children.entries, ∀ memo, Reconstructed nodes memo →
              ∃ lower memo', build nodes fuel e.2 memo = some (lower, memo') ∧ lower.WF ∧
                (Denotes nodes e.2 fun stack => lower.has stack) ∧ Reconstructed nodes memo' := by
            intro e he memo hmemo
            have hlt := (htrie.below id _ hnode e he).2
            exact ih (hlt.trans hid) (hlt.trans_le (Nat.lt_succ_iff.mp hfuel)) hmemo
          obtain ⟨slots, memo', hfold, hbuilt, hmemo'⟩ :=
            build_children hmake List.Forall₂.nil hkeys hmemo
          obtain ⟨hwf, hchildren, hempty⟩ :=
            Lower.new_lower_spec (family_of_built hbuilt hkeys) (nodeAt nodes id).empty
          have hdenotes : Denotes nodes id fun stack =>
              (Lower.new_lower slots (nodeAt nodes id).empty).has stack := by
            refine ⟨hid, fun stack => ?_⟩
            cases stack with
            | nil => exact hempty.symm
            | cons v stack =>
                rw [Lower.has, hchildren]
                exact (joined_of_built hbuilt hkeys v stack).symm
          rw [hfold]
          exact ⟨_, _, rfl, hwf, hdenotes, List.forall_mem_cons.mpr ⟨⟨hwf, hdenotes⟩, hmemo'⟩⟩

/-- The stacks that are built are those of the key. -/
theorem gss_from_key_spec [Sharing] (hs : s.Valid) {root : ℕ} (hroot : Denotes s.nodes root language)
    (accumulator : A) : ∃ inner s', gss_from_key root accumulator s = some (inner, s') ∧
      s'.Valid ∧ Grows s s' ∧ inner.WF ∧ ∀ stack, inner.has stack = language stack := by
  unfold gss_from_key
  split_ifs with hzero
  · refine ⟨_, s, rfl, hs, Grows.refl s, Upper.empty_upper_inner_wf, fun stack => ?_⟩
    rw [← hroot.holds, hzero, hs.trie.holds_zero]
    cases stack <;> rfl
  · obtain ⟨lower, memo', hbuild, hwf, hdenotes, hmemo'⟩ :=
      build_spec hs.trie hroot.lt (Nat.lt_succ_self root) hs.reconstructed
    have hinner : Denotes s.nodes root fun stack => (Upper.interface lower accumulator).has stack :=
      hdenotes.congr fun stack => (Upper.has_interface stack lower accumulator).symm
    rw [hbuild]
    refine ⟨_, _, rfl, ⟨hs.trie, hs.lower, List.forall_mem_cons.mpr ⟨hinner, hs.upper⟩, hs.union, hmemo'⟩,
      ⟨List.prefix_refl _, List.Subset.refl _, List.subset_cons_self _ _, List.Subset.refl _,
        fun h => h⟩, Upper.WF.interface hwf, fun stack => ?_⟩
    rw [← hinner.holds, hroot.holds]

/-- Pushing a value onto the stacks of a key. -/
theorem push_key_spec (hs : s.Valid) {root : ℕ} (hroot : Denotes s.nodes root language) (value : T) :
    After s (push_key root value s) fun s' id => Denotes s'.nodes id (pushed value language) := by
  unfold push_key
  split_ifs with hzero
  · apply After.pure hs
    apply hs.zero.congr
    intro stack
    cases stack with
    | nil => rfl
    | cons v stack => rw [pushed, ← hroot.holds, hzero, hs.trie.holds_zero, Bool.and_false]
  · exact intern_single_spec hs value hroot

/-! ## Runs -/

theorem canonicalTrie_new : CanonicalTrie [(SemanticTrieNode.empty_language : SemanticTrieNode T)] := by
  have hnode : ∀ (i : ℕ) (node : SemanticTrieNode T),
      [(SemanticTrieNode.empty_language : SemanticTrieNode T)][i]? = some node →
        node = SemanticTrieNode.empty_language := fun i node hi =>
    List.mem_singleton.mp (List.mem_of_getElem? hi)
  refine ⟨rfl, List.nodup_singleton _, fun i node hi e he => ?_, fun i node hi => ?_⟩
  · rw [hnode i node hi] at he
    cases he
  · rw [hnode i node hi]
    rfl

theorem with_budget_valid (max_nodes max_source_keys max_union_entries : ℕ) :
    (with_budget max_nodes max_source_keys max_union_entries : GssSemanticKeyInterner T A).Valid :=
  ⟨canonicalTrie_new, (fun _ he => by cases he), (fun _ he => by cases he), (fun _ he => by cases he),
    fun _ he => by cases he⟩

theorem clear_valid (s : GssSemanticKeyInterner T A) : s.clear.Valid :=
  ⟨canonicalTrie_new, (fun _ he => by cases he), (fun _ he => by cases he), (fun _ he => by cases he),
    fun _ he => by cases he⟩

/-- A key and the set of stacks it was handed out for. -/
abbrev KnownKey (T : Type) : Type := ℕ × (List T → Bool)

/-- Key zero is always known. -/
def zero_key : KnownKey T := (0, fun _ => false)

/-- The result of an operation becomes known unless the interner reports exhaustion. -/
def record (r : ℕ × GssSemanticKeyInterner T A) (language : List T → Bool)
    (known : List (KnownKey T)) : List (KnownKey T) :=
  if r.2.exhausted then known else (r.1, language) :: known

/-- The operations of an interner in any order, with the keys it has handed out. Which nodes are
one allocation may change from one operation to the next. -/
inductive Run [DecidableEq A] : GssSemanticKeyInterner T A → List (KnownKey T) → Prop
  | with_budget (max_nodes max_source_keys max_union_entries : ℕ) :
      Run (with_budget max_nodes max_source_keys max_union_entries) [zero_key]
  | clear {s : GssSemanticKeyInterner T A} {known : List (KnownKey T)} (run : Run s known) :
      Run s.clear [zero_key]
  | key {s : GssSemanticKeyInterner T A} {known : List (KnownKey T)} (run : Run s known) [Sharing]
      (g : LeveledGSS T A) :
      Run (key g s).2 (record (key g s) (fun stack => g.inner.has stack) known)
  | union_keys {s : GssSemanticKeyInterner T A} {known : List (KnownKey T)} (run : Run s known)
      {left right : KnownKey T} (hleft : left ∈ known) (hright : right ∈ known) :
      Run (union_keys left.1 right.1 s).2
        (record (union_keys left.1 right.1 s) (fun stack => left.2 stack || right.2 stack) known)
  | push_key {s : GssSemanticKeyInterner T A} {known : List (KnownKey T)} (run : Run s known)
      {root : KnownKey T} (hroot : root ∈ known) (value : T) :
      Run (push_key root.1 value s).2 (record (push_key root.1 value s) (pushed value root.2) known)
  | gss_from_key {s : GssSemanticKeyInterner T A} {known : List (KnownKey T)} (run : Run s known)
      [Sharing] {root : KnownKey T} (hroot : root ∈ known) (accumulator : A)
      {r : Upper T A × GssSemanticKeyInterner T A}
      (hmade : gss_from_key root.1 accumulator s = some r) : Run r.2 known

theorem record_spec {known : List (KnownKey T)} (hs : s.Valid)
    (h : ∀ k ∈ known, Denotes s.nodes k.1 k.2) {r : ℕ × GssSemanticKeyInterner T A}
    (hr : After s r fun s' id => Denotes s'.nodes id language) :
    r.2.Valid ∧ ∀ k ∈ record r language known, Denotes r.2.nodes k.1 k.2 := by
  have hkept : ∀ k ∈ known, Denotes r.2.nodes k.1 k.2 := fun k hk => (h k hk).later hs hr.grows
  refine ⟨hr.valid, ?_⟩
  unfold record
  split_ifs with hexhausted
  · exact hkept
  · exact List.forall_mem_cons.mpr ⟨hr.result (Bool.eq_false_iff.mpr hexhausted), hkept⟩

/-- In every run everything that is remembered is right, and so are the known keys. -/
theorem Run.valid [DecidableEq A] {known : List (KnownKey T)} (run : Run s known) :
    s.Valid ∧ ∀ k ∈ known, Denotes s.nodes k.1 k.2 := by
  induction run with
  | with_budget max_nodes max_source_keys max_union_entries =>
      have hvalid : (GssSemanticKeyInterner.with_budget max_nodes max_source_keys max_union_entries :
          GssSemanticKeyInterner T A).Valid := with_budget_valid _ _ _
      exact ⟨hvalid, fun k hk => List.mem_singleton.mp hk ▸ hvalid.zero⟩
  | @clear s known run ih =>
      exact ⟨clear_valid s, fun k hk => List.mem_singleton.mp hk ▸ (clear_valid s).zero⟩
  | key run g ih => exact record_spec ih.1 ih.2 (key_spec ih.1 g)
  | union_keys run hleft hright ih =>
      have hl := ih.2 _ hleft
      have hr := ih.2 _ hright
      apply record_spec ih.1 ih.2
      apply (union_ids_spec ih.1 hl.lt hr.lt).mono
      intro hid
      apply hid.congr
      intro stack
      rw [hl.holds, hr.holds]
  | push_key run hroot value ih => exact record_spec ih.1 ih.2 (push_key_spec ih.1 (ih.2 _ hroot) value)
  | gss_from_key run hroot accumulator hmade ih =>
      obtain ⟨inner, s', hspec, hvalid, hgrows, -⟩ := gss_from_key_spec ih.1 (ih.2 _ hroot) accumulator
      obtain rfl := Option.some.inj (hmade.symm.trans hspec)
      exact ⟨hvalid, fun k hk => (ih.2 k hk).later ih.1 hgrows⟩

end GssSemanticKeyInterner

/-! ## Two orders of merging -/

namespace LeveledGSS

open GssSemanticKeyInterner

end LeveledGSS

end GlrMask
