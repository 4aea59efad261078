import GlrMask.SemanticUnions

/-!
# Routes to a semantic key

A single stack is interned value by value. A shallow node is numbered by a
recursion that remembers the nodes it has seen; when the recursion goes too deep,
the nodes are collected and numbered in the order of their depths.
-/

namespace GlrMask

open SemanticTrie

/-! ## Single stacks -/

namespace Lower

variable {T : Type}

mutual

/-- The only path of a node, from the top down. -/
def push_lower_path : Lower T → Option (List T)
  | segment values next _ _ => (push_lower_path next).map fun path => values ++ path
  | general children empty _ =>
      if empty then if children.isEmpty then some [] else none
      else
        match push_lower_kids children with
        | [path] => path
        | _ => none

def push_lower_kids : List (Slot T (Lower T)) → List (Option (List T))
  | [] => []
  | ⟨value, _, child⟩ :: kids =>
      (push_lower_path child).map (fun path => value :: path) :: push_lower_kids kids

end

end Lower

namespace Upper

variable {T A : Type}

mutual

def push_upper_path : Upper T A → Option (List T)
  | interface inner _ => inner.push_lower_path
  | branch children empty _ =>
      if empty.isSome then none
      else
        match push_upper_kids children with
        | [path] => path
        | _ => none

def push_upper_kids : List (Slot T (Upper T A)) → List (Option (List T))
  | [] => []
  | ⟨value, _, child⟩ :: kids =>
      (push_upper_path child).map (fun path => value :: path) :: push_upper_kids kids

end

end Upper

namespace LeveledGSS

variable {T A : Type}

/-- The only stack, from the bottom up, unless there may be others or it is too deep. -/
def try_single_stack_bounded (max_depth : ℕ) (g : LeveledGSS T A) : Option (List T) :=
  if max_depth < g.inner.max_depth then none else g.inner.push_upper_path.map List.reverse

end LeveledGSS

namespace GssSemanticKeyInterner

variable {T A : Type} [LinearOrder T]

/-- Intern a value on top of an id; an exhausted interner stops. -/
def push_value (value : T) (r : ℕ × GssSemanticKeyInterner T A) :
    ℕ × GssSemanticKeyInterner T A :=
  if r.2.exhausted then (0, r.2) else intern_node false [(value, r.1)] r.2

/-! ## The recursive route -/

variable [Sharing]

open Sharing

def lower_id (node : Lower T) (s : GssSemanticKeyInterner T A) : Option ℕ :=
  (s.lower_memo.find? fun e => same e.1 node).map Prod.snd

def upper_id (node : Upper T A) (s : GssSemanticKeyInterner T A) : Option ℕ :=
  (s.upper_memo.find? fun e => same e.1 node).map Prod.snd

omit [Sharing] in
/-- Remember the id of a node, if the interner is not exhausted. -/
def remember_lower (node : Lower T) (r : ℕ × GssSemanticKeyInterner T A) :
    ℕ × GssSemanticKeyInterner T A :=
  if r.2.exhausted then (0, r.2)
  else
    let budget := source_budget_available r.2
    if budget.1 then (r.1, { budget.2 with lower_memo := (node, r.1) :: budget.2.lower_memo })
    else (0, budget.2)

omit [Sharing] in
def remember_upper (node : Upper T A) (r : ℕ × GssSemanticKeyInterner T A) :
    ℕ × GssSemanticKeyInterner T A :=
  if r.2.exhausted then (0, r.2)
  else
    let budget := source_budget_available r.2
    if budget.1 then (r.1, { budget.2 with upper_memo := (node, r.1) :: budget.2.upper_memo })
    else (0, budget.2)

/-- Go on with the result, unless there is none. -/
def continue_with {α β : Type} (r : Option α × GssSemanticKeyInterner T A)
    (f : α → Interning T A (Option β)) : Option β × GssSemanticKeyInterner T A :=
  match r.1 with
  | none => (none, r.2)
  | some a => f a r.2

/-- The ids of the unions of the nodes of every value; an exhausted interner stops. -/
def union_values (kids : T → Interning T A (Option ℕ)) :
    List T → Interning T A (Option (List (T × ℕ)))
  | [], s => (some [], s)
  | v :: values, s => continue_with (kids v s) fun child_union s =>
      if s.exhausted then (some [], s)
      else continue_with (union_values kids values s) fun rest s => (some ((v, child_union) :: rest), s)

/-- The node with the children, unless the interner is exhausted. -/
def finish_node (empty : Bool) (children : List (T × ℕ)) : Interning T A ℕ := fun s =>
  if s.exhausted then (0, s) else intern_node empty children s

/-- The id of the union of a node with others. -/
def union_kid (child_union id : ℕ) (rest : ℕ → Interning T A (Option ℕ)) : Interning T A (Option ℕ) :=
  fun s =>
    let r := union_ids child_union id s
    if r.2.exhausted then (some 0, r.2) else rest r.1 r.2

mutual

def key_lower_recursive (max_depth : ℕ) : Lower T → ℕ → Interning T A (Option ℕ)
  | .segment values next d l, depth => fun s =>
      match lower_id (.segment values next d l) s with
      | some id => (some id, s)
      | none =>
          if max_depth < depth then (none, s)
          else continue_with (key_lower_recursive max_depth next (depth + 1) s) fun id s =>
            let r := remember_lower (.segment values next d l) (values.foldr push_value (id, s))
            (some r.1, r.2)
  | .general children empty d, depth => fun s =>
      match lower_id (.general children empty d) s with
      | some id => (some id, s)
      | none =>
          if max_depth < depth then (none, s)
          else continue_with (union_values (fun v => key_lower_kids max_depth children v (depth + 1) 0)
            (Slot.values children) s) fun canonical_children s =>
              let r := remember_lower (.general children empty d)
                (finish_node empty canonical_children s)
              (some r.1, r.2)

def key_lower_kids (max_depth : ℕ) : List (Slot T (Lower T)) → T → ℕ → ℕ → Interning T A (Option ℕ)
  | [], _, _, child_union => fun s => (some child_union, s)
  | ⟨value, _, child⟩ :: kids, v, depth, child_union => fun s =>
      if value = v then
        continue_with (key_lower_recursive max_depth child depth s) fun id =>
          union_kid child_union id (key_lower_kids max_depth kids v depth)
      else key_lower_kids max_depth kids v depth child_union s

end

mutual

def key_upper_recursive (max_depth : ℕ) : Upper T A → ℕ → Interning T A (Option ℕ)
  | .interface inner acc, depth => fun s =>
      match upper_id (.interface inner acc) s with
      | some id => (some id, s)
      | none =>
          if max_depth < depth then (none, s)
          else continue_with (key_lower_recursive max_depth inner (depth + 1) s) fun id s =>
            let r := remember_upper (.interface inner acc) (id, s)
            (some r.1, r.2)
  | .branch children empty d, depth => fun s =>
      match upper_id (.branch children empty d) s with
      | some id => (some id, s)
      | none =>
          if max_depth < depth then (none, s)
          else continue_with (union_values (fun v => key_upper_kids max_depth children v (depth + 1) 0)
            (Slot.values children) s) fun canonical_children s =>
              let r := remember_upper (.branch children empty d)
                (finish_node empty.isSome canonical_children s)
              (some r.1, r.2)

def key_upper_kids (max_depth : ℕ) :
    List (Slot T (Upper T A)) → T → ℕ → ℕ → Interning T A (Option ℕ)
  | [], _, _, child_union => fun s => (some child_union, s)
  | ⟨value, _, child⟩ :: kids, v, depth, child_union => fun s =>
      if value = v then
        continue_with (key_upper_recursive max_depth child depth s) fun id =>
          union_kid child_union id (key_upper_kids max_depth kids v depth)
      else key_upper_kids max_depth kids v depth child_union s

end

/-! ## What the routes find -/

/-- The stacks of a set with a value on top of each. -/
def pushed (value : T) (language : List T → Bool) : List T → Bool
  | [] => false
  | v :: stack => decide (value = v) && language stack

/-- What is found, if anything, is the id of a set of stacks. -/
def Finds (language : List T → Bool) (s : GssSemanticKeyInterner T A) (found : Option ℕ) : Prop :=
  Ensures found fun id => Denotes s.nodes id language

def Keys (language : List T → Bool) (compute : Interning T A (Option ℕ)) : Prop :=
  ∀ s, s.Valid → After s (compute s) (Finds language)

variable {s s' : GssSemanticKeyInterner T A} {language language' : List T → Bool}

omit [Sharing] in
theorem After.continue_with {α β : Type} {P : GssSemanticKeyInterner T A → α → Prop}
    {Q : GssSemanticKeyInterner T A → β → Prop} {r : Option α × GssSemanticKeyInterner T A}
    {f : α → Interning T A (Option β)} (h : After s r fun s' found => Ensures found (P s'))
    (hf : ∀ a, (r.2.exhausted = false → P r.2 a) →
      After r.2 (f a r.2) fun s' found => Ensures found (Q s')) :
    After s (continue_with r f) fun s' found => Ensures found (Q s') := by
  obtain ⟨found, s'⟩ := r
  cases found with
  | none => exact ⟨h.valid, h.grows, fun _ => Ensures.none _⟩
  | some a => exact h.trans (hf a fun hex => h.result hex a rfl)

omit [Sharing] in
theorem After.found {r : ℕ × GssSemanticKeyInterner T A}
    (h : After s r fun s' id => Denotes s'.nodes id language) :
    After s (some r.1, r.2) (Finds language) :=
  ⟨h.valid, h.grows, fun hex => Ensures.some (h.result hex)⟩

omit [Sharing] in
theorem After.congr {r : Option ℕ × GssSemanticKeyInterner T A} (h : After s r (Finds language))
    (heq : ∀ stack, language stack = language' stack) : After s r (Finds language') :=
  h.mono fun hfound id hid => (hfound id hid).congr heq

omit [Sharing] in
/-- A value on top of an id. -/
theorem intern_single_spec (hs : s.Valid) (value : T) {id : ℕ} (hid : Denotes s.nodes id language) :
    After s (intern_node false [(value, id)] s) fun s' id =>
      Denotes s'.nodes id (pushed value language) := by
  have hkeys : ([(value, id)].map Prod.fst).Nodup := List.nodup_singleton value
  have hintern := intern_node_spec hs false hkeys fun e he => List.mem_singleton.mp he ▸ hid.lt
  apply hintern.mono
  intro hdenotes
  apply hdenotes.congr
  intro stack
  cases stack with
  | nil => rfl
  | cons v stack =>
      rw [childrenHold, SortedMap.lookupEntry_cons, pushed]
      by_cases hv : value = v
      · rw [if_pos hv, decide_eq_true hv, Bool.true_and]
        exact hid.holds stack
      · rw [if_neg hv, decide_eq_false hv]
        rfl

omit [Sharing] in
theorem push_value_spec (value : T) {r : ℕ × GssSemanticKeyInterner T A} (hs : r.2.Valid)
    (h : r.2.exhausted = false → Denotes r.2.nodes r.1 language) :
    After r.2 (push_value value r) fun s' id => Denotes s'.nodes id (pushed value language) := by
  unfold push_value
  split_ifs with hexhausted
  · exact ⟨hs, Grows.refl _, fun hex => absurd hexhausted (by rw [hex]; simp)⟩
  · exact intern_single_spec hs value (h (Bool.eq_false_iff.mpr hexhausted))

theorem lower_id_spec (hs : s.Valid) {node : Lower T} {id : ℕ} (h : lower_id node s = some id) :
    Denotes s.nodes id fun stack => node.has stack := by
  obtain ⟨e, he, rfl⟩ := Option.map_eq_some_iff.mp h
  have hsame := List.find?_some he
  rw [← eq_of_same hsame]
  exact hs.lower e (List.mem_of_find?_eq_some he)

theorem upper_id_spec (hs : s.Valid) {node : Upper T A} {id : ℕ} (h : upper_id node s = some id) :
    Denotes s.nodes id fun stack => node.has stack := by
  obtain ⟨e, he, rfl⟩ := Option.map_eq_some_iff.mp h
  have hsame := List.find?_some he
  rw [← eq_of_same hsame]
  exact hs.upper e (List.mem_of_find?_eq_some he)

omit [Sharing] in
theorem source_budget_cases (s : GssSemanticKeyInterner T A) :
    source_budget_available s = (false, { s with exhausted := true }) ∨
      source_budget_available s = (true, s) := by
  unfold source_budget_available
  split_ifs
  · exact Or.inl rfl
  · exact Or.inr rfl

omit [Sharing] in
/-- Only right ids are remembered, and an exhausted interner remembers none. -/
theorem remember_lower_spec {node : Lower T} {r : ℕ × GssSemanticKeyInterner T A} (hs : r.2.Valid)
    (h : r.2.exhausted = false → Denotes r.2.nodes r.1 fun stack => node.has stack) :
    After r.2 (remember_lower node r) fun s' id =>
      Denotes s'.nodes id fun stack => node.has stack := by
  unfold remember_lower
  by_cases hexhausted : r.2.exhausted = true
  · rw [if_pos hexhausted]
    exact ⟨hs, Grows.refl _, fun hex => absurd hexhausted (by rw [hex]; simp)⟩
  · rw [if_neg hexhausted]
    obtain hbudget | hbudget := source_budget_cases r.2
    · rw [hbudget]
      exact After.exhaust hs 0
    · rw [hbudget]
      have hid := h (Bool.eq_false_iff.mpr hexhausted)
      refine ⟨⟨hs.trie, List.forall_mem_cons.mpr ⟨hid, hs.lower⟩, hs.upper, hs.union,
        hs.reconstructed⟩, ⟨List.prefix_refl _, List.subset_cons_self _ _, List.Subset.refl _,
          List.Subset.refl _, fun h => h⟩, fun _ => hid⟩

omit [Sharing] in
theorem remember_upper_spec {node : Upper T A} {r : ℕ × GssSemanticKeyInterner T A} (hs : r.2.Valid)
    (h : r.2.exhausted = false → Denotes r.2.nodes r.1 fun stack => node.has stack) :
    After r.2 (remember_upper node r) fun s' id =>
      Denotes s'.nodes id fun stack => node.has stack := by
  unfold remember_upper
  by_cases hexhausted : r.2.exhausted = true
  · rw [if_pos hexhausted]
    exact ⟨hs, Grows.refl _, fun hex => absurd hexhausted (by rw [hex]; simp)⟩
  · rw [if_neg hexhausted]
    obtain hbudget | hbudget := source_budget_cases r.2
    · rw [hbudget]
      exact After.exhaust hs 0
    · rw [hbudget]
      have hid := h (Bool.eq_false_iff.mpr hexhausted)
      refine ⟨⟨hs.trie, hs.lower, List.forall_mem_cons.mpr ⟨hid, hs.upper⟩, hs.union,
        hs.reconstructed⟩, ⟨List.prefix_refl _, List.Subset.refl _, List.subset_cons_self _ _,
          List.Subset.refl _, fun h => h⟩, fun _ => hid⟩

omit [Sharing] in
/-- Going on with the union of a node with others. -/
theorem union_kid_spec {compute : Interning T A (Option ℕ)} (hcompute : Keys language' compute)
    (hs : s.Valid) {child_union : ℕ}
    (hunion : s.exhausted = false → Denotes s.nodes child_union language)
    {rest : ℕ → Interning T A (Option ℕ)} {all : List T → Bool}
    (hrest : ∀ s' id, s'.Valid →
      (Denotes s'.nodes id fun stack => language stack || language' stack) →
        After s' (rest id s') (Finds all)) :
    After s (continue_with (compute s) fun id => union_kid child_union id rest) (Finds all) := by
  have hkid := hcompute s hs
  apply hkid.continue_with
  intro id hid
  obtain ⟨hs₁, hgrows, -⟩ := hkid
  generalize (compute s).2 = s₁ at hs₁ hgrows hid ⊢
  cases hexhausted : s₁.exhausted with
  | true =>
      have hstop : union_ids child_union id s₁ = (0, s₁) := by rw [union_ids, if_pos hexhausted]
      unfold union_kid
      rw [hstop]
      dsimp only
      rw [if_pos hexhausted]
      exact ⟨hs₁, Grows.refl s₁, fun hex => absurd hexhausted (by rw [hex]; simp)⟩
  | false =>
      have h1 := (hunion (hgrows.not_exhausted hexhausted)).later hs hgrows
      have h2 := hid hexhausted
      have hids := union_ids_spec hs₁ h1.lt h2.lt
      unfold union_kid
      dsimp only
      split_ifs with hstop
      · exact ⟨hids.valid, hids.grows, fun hex => absurd hstop (by rw [hex]; simp)⟩
      · apply hids.trans
        apply hrest _ _ hids.valid
        apply (hids.result (Bool.eq_false_iff.mpr hstop)).congr
        intro stack
        rw [h1.holds, h2.holds]

omit [Sharing] in
/-- The ids of the children of all values. -/
theorem union_values_spec {kids : T → Interning T A (Option ℕ)} {languages : T → List T → Bool}
    (hkids : ∀ v, Keys (languages v) (kids v)) (values : List T) (hs : s.Valid) :
    After s (union_values kids values s) fun s' found => Ensures found fun children =>
      children.map Prod.fst = values ∧ ∀ e ∈ children, Denotes s'.nodes e.2 (languages e.1) := by
  induction values generalizing s with
  | nil => exact After.pure hs (Ensures.some ⟨rfl, fun _ he => by cases he⟩)
  | cons v values ih =>
      rw [union_values]
      have hv := hkids v s hs
      apply hv.continue_with
      intro id hid
      split_ifs with hexhausted
      · exact ⟨hv.valid, Grows.refl _, fun hex => absurd hexhausted (by rw [hex]; simp)⟩
      · have hid := hid (Bool.eq_false_iff.mpr hexhausted)
        have hrest := ih hv.valid
        apply hrest.continue_with
        intro rest hall
        refine ⟨hrest.valid, Grows.refl _, fun hex => Ensures.some ?_⟩
        obtain ⟨hkeys, hdenotes⟩ := hall hex
        exact ⟨congrArg (v :: ·) hkeys, List.forall_mem_cons.mpr ⟨hid.later hv.valid hrest.grows, hdenotes⟩⟩

omit [Sharing] in
/-- What the node with the children of all values holds. -/
theorem childrenHold_eq {nodes : List (SemanticTrieNode T)} {empty : Bool} {children : List (T × ℕ)}
    {values : List T} {languages : T → List T → Bool} (hkeys : children.map Prod.fst = values)
    (hdenotes : ∀ e ∈ children, Denotes nodes e.2 (languages e.1)) (v : T) (stack : List T)
    (hother : v ∉ values → languages v stack = false) :
    childrenHold nodes empty children (v :: stack) = languages v stack := by
  rw [childrenHold]
  cases hlookup : SortedMap.lookupEntry children v with
  | some child => exact (hdenotes _ (SortedMap.lookupEntry_eq_some hlookup)).holds stack
  | none =>
      symm
      apply hother
      rw [← hkeys]
      exact SortedMap.not_mem_of_lookupEntry hlookup

omit [Sharing] in
/-- The node with the children of all values. -/
theorem finish_node_spec (hs : s.Valid) (empty : Bool) {children : List (T × ℕ)} {values : List T}
    {languages : T → List T → Bool} (hnodup : values.Nodup)
    (h : s.exhausted = false → children.map Prod.fst = values ∧
      ∀ e ∈ children, Denotes s.nodes e.2 (languages e.1))
    (hother : ∀ v stack, v ∉ values → languages v stack = false) :
    After s (finish_node empty children s) fun s' id => Denotes s'.nodes id fun stack =>
      match stack with
      | [] => empty
      | v :: stack => languages v stack := by
  unfold finish_node
  split_ifs with hexhausted
  · exact ⟨hs, Grows.refl s, fun hex => absurd hexhausted (by rw [hex]; simp)⟩
  · obtain ⟨hkeys, hdenotes⟩ := h (Bool.eq_false_iff.mpr hexhausted)
    have hintern := intern_node_spec hs empty (hkeys ▸ hnodup) fun e he => (hdenotes e he).lt
    apply hintern.mono
    intro hid
    apply hid.congr
    intro stack
    cases stack with
    | nil => rfl
    | cons v stack => exact childrenHold_eq hkeys hdenotes v stack (hother v stack)

omit [Sharing] in
/-- The ids of the children of all values make up the id of the node. -/
theorem finish_values_spec {kids : T → Interning T A (Option ℕ)} {languages : T → List T → Bool}
    (hkids : ∀ v, Keys (languages v) (kids v)) {values : List T} (hnodup : values.Nodup)
    (hother : ∀ v stack, v ∉ values → languages v stack = false) (empty : Bool)
    {remember : ℕ × GssSemanticKeyInterner T A → ℕ × GssSemanticKeyInterner T A}
    (hnil : language [] = empty) (hcons : ∀ v stack, language (v :: stack) = languages v stack)
    (hremember : ∀ r : ℕ × GssSemanticKeyInterner T A, r.2.Valid →
      (r.2.exhausted = false → Denotes r.2.nodes r.1 language) →
        After r.2 (remember r) fun s' id => Denotes s'.nodes id language) (hs : s.Valid) :
    After s (continue_with (union_values kids values s) fun canonical_children s =>
      let r := remember (finish_node empty canonical_children s)
      (some r.1, r.2)) (Finds language) := by
  have hvalues := union_values_spec hkids values hs
  apply hvalues.continue_with
  intro children hchildren
  have hfinish := finish_node_spec hvalues.valid empty hnodup hchildren hother
  have hnode := hremember _ hfinish.valid fun hex => (hfinish.result hex).congr fun stack => by
    cases stack with
    | nil => exact hnil.symm
    | cons v stack => exact (hcons v stack).symm
  exact (hfinish.trans hnode).found

/-! ## The recursive route -/

omit [Sharing] in
/-- The values of a segment, one on top of the other. -/
theorem push_values_spec {next : Lower T} {r : ℕ × GssSemanticKeyInterner T A} (hs : r.2.Valid)
    (h : r.2.exhausted = false → Denotes r.2.nodes r.1 fun stack => next.has stack)
    {values : List T} (hne : values ≠ []) (max_depth segments_len : ℕ) :
    After r.2 (values.foldr push_value r) fun s' id => Denotes s'.nodes id fun stack =>
      (Lower.segment values next max_depth segments_len).has stack := by
  induction values generalizing max_depth segments_len with
  | nil => exact absurd rfl hne
  | cons v values ih =>
      have hbelow : After r.2 (values.foldr push_value r) fun s' id => Denotes s'.nodes id fun stack =>
          (Lower.segment_rest (v :: values) next max_depth segments_len).has stack := by
        cases values with
        | nil => exact ⟨hs, Grows.refl _, h⟩
        | cons w values => exact ih (by simp) _ _
      rw [List.foldr_cons]
      have hpush := push_value_spec v hbelow.valid hbelow.result
      apply (hbelow.trans hpush).mono
      intro hid
      apply hid.congr
      intro stack
      cases stack with
      | nil => rfl
      | cons w stack =>
          rw [pushed, Lower.has, Lower.children, Slot.joined_cons, Slot.joined_nil, sup_bot_eq]
          by_cases hv : v = w
          · rw [if_pos hv, decide_eq_true hv, Bool.true_and]
          · rw [if_neg hv, decide_eq_false hv]
            rfl

theorem key_lower_kids_spec {max_depth : ℕ} {children : List (Slot T (Lower T))}
    (h : ∀ t ∈ children, ∀ depth, Keys (fun stack => t.node.has stack)
      (key_lower_recursive (A := A) max_depth t.node depth)) (v : T) (depth : ℕ) (hs : s.Valid)
    {child_union : ℕ} (hunion : s.exhausted = false → Denotes s.nodes child_union language) :
    After s (key_lower_kids max_depth children v depth child_union s) (Finds fun stack =>
      language stack || Slot.joined (Lower.has stack) v children) := by
  induction children generalizing s child_union language with
  | nil =>
      rw [key_lower_kids]
      refine ⟨hs, Grows.refl s, fun hex => Ensures.some ((hunion hex).congr fun stack => ?_)⟩
      exact (Bool.or_false _).symm
  | cons t children ih =>
      obtain ⟨ht, hrest⟩ := List.forall_mem_cons.mp h
      rw [key_lower_kids]
      split_ifs with hv
      · apply union_kid_spec (ht depth) hs hunion
        intro s' id hs' hdenotes
        apply (ih hrest hs' fun _ => hdenotes).congr
        intro stack
        rw [Slot.joined_cons, if_pos hv, Bool.or_assoc]
        rfl
      · apply (ih hrest hs hunion).congr
        intro stack
        rw [Slot.joined_cons, if_neg hv, bot_sup_eq]

theorem key_lower_recursive_spec (max_depth : ℕ) {node : Lower T} (h : node.WF) (depth : ℕ) :
    Keys (fun stack => node.has stack) (key_lower_recursive (A := A) max_depth node depth) := by
  induction h generalizing depth with
  | @general children empty d hdistinct hdeep hwf hdepth ih =>
      intro s hs
      rw [key_lower_recursive]
      dsimp only
      split
      · rename_i id hid
        exact After.pure hs (Ensures.some (lower_id_spec hs hid))
      · split_ifs
        · exact After.pure hs (Ensures.none _)
        · apply finish_values_spec
          · intro v s hs
            apply (key_lower_kids_spec ih v (depth + 1) hs fun _ => hs.zero).congr
            exact fun stack => Bool.false_or _
          · exact Slot.values_nodup
          · exact fun v stack hv => Slot.joined_eq_bot hv
          · rfl
          · exact fun v stack => rfl
          · exact fun r hr => remember_lower_spec hr
          · exact hs
  | @segment values next d l hne hwf hdepth hlength ih =>
      intro s hs
      rw [key_lower_recursive]
      dsimp only
      split
      · rename_i id hid
        exact After.pure hs (Ensures.some (lower_id_spec hs hid))
      · split_ifs
        · exact After.pure hs (Ensures.none _)
        · have hnext := ih (depth + 1) s hs
          apply hnext.continue_with
          intro id hid
          have hvalues := push_values_spec (r := (id, _)) hnext.valid hid hne d l
          exact (hvalues.trans (remember_lower_spec hvalues.valid hvalues.result)).found

theorem key_upper_kids_spec {max_depth : ℕ} {children : List (Slot T (Upper T A))}
    (h : ∀ t ∈ children, ∀ depth, Keys (fun stack => t.node.has stack)
      (key_upper_recursive max_depth t.node depth)) (v : T) (depth : ℕ) (hs : s.Valid)
    {child_union : ℕ} (hunion : s.exhausted = false → Denotes s.nodes child_union language) :
    After s (key_upper_kids max_depth children v depth child_union s) (Finds fun stack =>
      language stack || Slot.joined (Upper.has stack) v children) := by
  induction children generalizing s child_union language with
  | nil =>
      rw [key_upper_kids]
      refine ⟨hs, Grows.refl s, fun hex => Ensures.some ((hunion hex).congr fun stack => ?_)⟩
      exact (Bool.or_false _).symm
  | cons t children ih =>
      obtain ⟨ht, hrest⟩ := List.forall_mem_cons.mp h
      rw [key_upper_kids]
      split_ifs with hv
      · apply union_kid_spec (ht depth) hs hunion
        intro s' id hs' hdenotes
        apply (ih hrest hs' fun _ => hdenotes).congr
        intro stack
        rw [Slot.joined_cons, if_pos hv, Bool.or_assoc]
        rfl
      · apply (ih hrest hs hunion).congr
        intro stack
        rw [Slot.joined_cons, if_neg hv, bot_sup_eq]

theorem key_upper_recursive_spec (max_depth : ℕ) {node : Upper T A} (h : node.WF) (depth : ℕ) :
    Keys (fun stack => node.has stack) (key_upper_recursive max_depth node depth) := by
  induction h generalizing depth with
  | @branch children empty d hdistinct hdeep hwf hdepth ih =>
      intro s hs
      rw [key_upper_recursive]
      dsimp only
      split
      · rename_i id hid
        exact After.pure hs (Ensures.some (upper_id_spec hs hid))
      · split_ifs
        · exact After.pure hs (Ensures.none _)
        · apply finish_values_spec
          · intro v s hs
            apply (key_upper_kids_spec ih v (depth + 1) hs fun _ => hs.zero).congr
            exact fun stack => Bool.false_or _
          · exact Slot.values_nodup
          · exact fun v stack hv => Slot.joined_eq_bot hv
          · rfl
          · exact fun v stack => rfl
          · exact fun r hr => remember_upper_spec hr
          · exact hs
  | @interface inner a hwf =>
      intro s hs
      rw [key_upper_recursive]
      dsimp only
      split
      · rename_i id hid
        exact After.pure hs (Ensures.some (upper_id_spec hs hid))
      · split_ifs
        · exact After.pure hs (Ensures.none _)
        · have hinner := key_lower_recursive_spec max_depth hwf (depth + 1) s hs
          apply hinner.continue_with
          intro id hid
          apply After.found
          apply (remember_upper_spec hinner.valid _ : After _ (remember_upper _ (id, _)) _)
          intro hex
          apply (hid hex).congr
          exact fun stack => (Upper.has_interface stack inner a).symm

end GssSemanticKeyInterner

end GlrMask
