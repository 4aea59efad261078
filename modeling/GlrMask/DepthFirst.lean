import GlrMask.Fuel
import GlrMask.TopologicalSort

/-!
# Depth-first search

The search lists a node after the nodes that it enters. In a graph whose nodes are
ranked, the marks on the way to a node do not matter, and the search only has to
know which nodes are listed already.
-/

namespace GlrMask

namespace DepthFirst

variable (succ : ℕ → List ℕ) (n : ℕ)

structure Search where
  visited : List Bool
  order : List ℕ

/-- Visit a node; `none` is a panic or out of fuel. -/
def dfs : ℕ → Search → ℕ → Option Search
  | 0, _, _ => none
  | fuel + 1, s, node =>
      match s.visited[node]? with
      | none => none
      | some true => some s
      | some false =>
          (((succ node).filter (· < n)).foldlM (dfs fuel)
            { s with visited := s.visited.set node true }).map fun s =>
              { s with order := s.order ++ [node] }

/-- The nodes that are reached from a start, every node after those that it enters. -/
def postorder (start fuel : ℕ) : Option (List ℕ) :=
  (dfs succ n fuel ⟨List.replicate n false, []⟩ start).map (·.order)

/-- The search on the listed nodes alone. -/
def walk : ℕ → List ℕ → ℕ → List ℕ
  | 0, order, _ => order
  | fuel + 1, order, node =>
      if node ∈ order then order
      else ((succ node).filter (· < n)).foldl (walk fuel) order ++ [node]

def Enters (s t : ℕ) : Prop := t ∈ succ s ∧ t < n

/-- Nodes in range without repetition, every node after those that it enters. -/
structure PostOrder (order : List ℕ) : Prop where
  lt : ∀ node ∈ order, node < n
  nodup : order.Nodup
  closed : ∀ l₁ node l₂, order = l₁ ++ node :: l₂ → ∀ t, Enters succ n node t → t ∈ l₁

variable {succ n} {order : List ℕ} {rank : ℕ → ℕ}

theorem postOrder_nil : PostOrder succ n [] where
  lt node h := by cases h
  nodup := List.nodup_nil
  closed l₁ node l₂ h := by
    have hlength := congrArg List.length h
    simp at hlength

/-- What a listed node enters is listed. -/
theorem PostOrder.mem (h : PostOrder succ n order) {s t : ℕ} (hs : s ∈ order)
    (ht : Enters succ n s t) : t ∈ order := by
  obtain ⟨l₁, l₂, he⟩ := List.append_of_mem hs
  rw [he]
  exact List.mem_append_left _ (h.closed l₁ s l₂ he t ht)

theorem PostOrder.concat (h : PostOrder succ n order) {node : ℕ} (hlt : node < n)
    (hnew : node ∉ order) (henters : ∀ t, Enters succ n node t → t ∈ order) :
    PostOrder succ n (order ++ [node]) where
  lt s hs := by
    obtain hs | hs := List.mem_append.mp hs
    · exact h.lt s hs
    · exact List.mem_singleton.mp hs ▸ hlt
  nodup := List.nodup_append.mpr ⟨h.nodup, List.nodup_singleton node, fun s hs t ht he =>
    hnew (List.mem_singleton.mp ht ▸ he ▸ hs)⟩
  closed l₁ s l₂ he t ht := by
    obtain rfl | ⟨l₂, x, rfl⟩ := List.eq_nil_or_concat l₂
    · obtain ⟨rfl, hs⟩ := List.append_inj' he rfl
      rw [← List.singleton_inj.mp hs] at ht
      exact henters t ht
    · rw [List.concat_eq_append, ← List.cons_append, ← List.append_assoc] at he
      exact h.closed l₁ s l₂ (List.append_inj' he rfl).1 t ht

theorem PostOrder.of_append {rest : List ℕ} (h : PostOrder succ n (order ++ rest)) :
    PostOrder succ n order where
  lt s hs := h.lt s (List.mem_append_left _ hs)
  nodup := (List.nodup_append.mp h.nodup).1
  closed l₁ s l₂ he := h.closed l₁ s (l₂ ++ rest) (by rw [he, List.append_assoc, List.cons_append])

theorem Ranked.enters (hrank : Ranked succ n rank) {s t : ℕ} (hs : s < n) (ht : Enters succ n s t) :
    rank t < rank s := hrank s hs t ht.1 ht.2

theorem Ranked.descends (hrank : Ranked succ n rank) {s t : ℕ} (hs : s < n)
    (ht : Relation.ReflTransGen (Enters succ n) s t) : t < n ∧ rank t ≤ rank s := by
  induction ht with
  | refl => exact ⟨hs, le_rfl⟩
  | tail _ hstep ih =>
      exact ⟨hstep.2, (Ranked.enters hrank ih.1 hstep).le.trans ih.2⟩

theorem mem_targets {s t : ℕ} : t ∈ (succ s).filter (· < n) ↔ Enters succ n s t := by
  rw [List.mem_filter, decide_eq_true_eq, Enters]

/-! ## What is listed -/

/-- What a visit adds: nodes that are reached from the node, and the node is listed in the end. -/
structure Visits (succ : ℕ → List ℕ) (n : ℕ) (order : List ℕ) (node : ℕ) (new : List ℕ) : Prop where
  postOrder : PostOrder succ n (order ++ new)
  listed : node ∈ order ++ new
  descends : ∀ t ∈ new, Relation.ReflTransGen (Enters succ n) node t

theorem foldl_spec {f : List ℕ → ℕ → List ℕ} {targets : List ℕ}
    (hstep : ∀ order, PostOrder succ n order → ∀ t ∈ targets,
      ∃ new, f order t = order ++ new ∧ Visits succ n order t new)
    (h : PostOrder succ n order) :
    ∃ new, targets.foldl f order = order ++ new ∧ PostOrder succ n (order ++ new) ∧
      (∀ t ∈ targets, t ∈ order ++ new) ∧
      ∀ u ∈ new, ∃ t ∈ targets, Relation.ReflTransGen (Enters succ n) t u := by
  induction targets generalizing order with
  | nil =>
      refine ⟨[], (List.append_nil order).symm, ?_, ?_, ?_⟩
      · rwa [List.append_nil]
      · intro t ht
        cases ht
      · intro u hu
        cases hu
  | cons t targets ih =>
      obtain ⟨new, he, hvisits⟩ := hstep order h t List.mem_cons_self
      obtain ⟨new', he', hpost, hall, hdescends⟩ := ih
        (fun order h t ht => hstep order h t (List.mem_cons_of_mem _ ht)) hvisits.postOrder
      rw [List.append_assoc] at he' hpost hall
      refine ⟨new ++ new', ?_, hpost, ?_, ?_⟩
      · rw [List.foldl_cons, he, he']
      · intro u hu
        obtain rfl | hu := List.mem_cons.mp hu
        · rw [← List.append_assoc]
          exact List.mem_append_left _ hvisits.listed
        · exact hall u hu
      · intro u hu
        obtain hu | hu := List.mem_append.mp hu
        · exact ⟨t, List.mem_cons_self, hvisits.descends u hu⟩
        · obtain ⟨t', ht', hdesc⟩ := hdescends u hu
          exact ⟨t', List.mem_cons_of_mem _ ht', hdesc⟩

theorem walk_spec (hrank : Ranked succ n rank) {fuel node : ℕ} (hlt : node < n)
    (hfuel : rank node < fuel) (h : PostOrder succ n order) :
    ∃ new, walk succ n fuel order node = order ++ new ∧ Visits succ n order node new := by
  induction fuel generalizing order node with
  | zero => omega
  | succ fuel ih =>
      rw [walk]
      split_ifs with hmem
      · refine ⟨[], (List.append_nil order).symm, ?_, ?_, ?_⟩
        · rwa [List.append_nil]
        · rwa [List.append_nil]
        · intro t ht
          cases ht
      · have hstep : ∀ order, PostOrder succ n order → ∀ t ∈ (succ node).filter (· < n),
            ∃ new, walk succ n fuel order t = order ++ new ∧ Visits succ n order t new := by
          intro order h t ht
          have hlower := Ranked.enters hrank hlt (mem_targets.mp ht)
          exact ih (mem_targets.mp ht).2 (by omega) h
        obtain ⟨new, he, hpost, hall, hdescends⟩ := foldl_spec hstep h
        have hnew : node ∉ order ++ new := by
          intro hc
          obtain hc | hc := List.mem_append.mp hc
          · exact hmem hc
          · -- a node is not reached from what it enters
            obtain ⟨t, ht, hdesc⟩ := hdescends node hc
            have hlower := Ranked.enters hrank hlt (mem_targets.mp ht)
            have hle := (Ranked.descends hrank (mem_targets.mp ht).2 hdesc).2
            omega
        refine ⟨new ++ [node], ?_, ?_, ?_, ?_⟩
        · rw [he, List.append_assoc]
        · rw [← List.append_assoc]
          exact hpost.concat hlt hnew fun t ht => hall t (mem_targets.mpr ht)
        · rw [← List.append_assoc]
          exact List.mem_append_right _ (List.mem_singleton_self node)
        · intro u hu
          obtain hu | hu := List.mem_append.mp hu
          · obtain ⟨t, ht, hdesc⟩ := hdescends u hu
            exact Relation.ReflTransGen.head (mem_targets.mp ht) hdesc
          · rw [List.mem_singleton.mp hu]

/-- Fuel above the rank makes no difference. -/
theorem walk_congr (hrank : Ranked succ n rank) {fuel fuel' node : ℕ} (hlt : node < n)
    (h : rank node < fuel) (h' : rank node < fuel') :
    walk succ n fuel order node = walk succ n fuel' order node := by
  induction fuel generalizing fuel' order node with
  | zero => omega
  | succ fuel ih =>
      obtain ⟨fuel', rfl⟩ : ∃ m, fuel' = m + 1 := ⟨fuel' - 1, by omega⟩
      rw [walk, walk]
      congr 2
      apply List.foldl_ext
      intro order t ht
      have hlower := Ranked.enters hrank hlt (mem_targets.mp ht)
      exact ih (mem_targets.mp ht).2 (by omega) (by omega)

/-! ## The marks -/

/-- The listed nodes are marked, and of the nodes with a rank below the bound only these. -/
structure Marked (succ : ℕ → List ℕ) (n : ℕ) (rank : ℕ → ℕ) (bound : ℕ) (s : Search) : Prop where
  length : s.visited.length = n
  postOrder : PostOrder succ n s.order
  marked : ∀ t ∈ s.order, s.visited[t]? = some true
  listed : ∀ t, rank t < bound → s.visited[t]? = some true → t ∈ s.order

/-- The same marks, except for nodes that are listed now. -/
def MarksListed (s s' : Search) : Prop :=
  ∀ t : ℕ, s'.visited[t]? = some true ↔ s.visited[t]? = some true ∨ t ∈ s'.order

theorem foldlM_dfs {fuel bound : ℕ} {targets : List ℕ} {s : Search}
    (hstep : ∀ t ∈ targets, ∀ s, Marked succ n rank bound s → ∃ s', dfs succ n fuel s t = some s' ∧
      s'.order = walk succ n fuel s.order t ∧ Marked succ n rank bound s' ∧ MarksListed s s' ∧
        ∀ t ∈ s.order, t ∈ s'.order)
    (h : Marked succ n rank bound s) :
    ∃ s', targets.foldlM (dfs succ n fuel) s = some s' ∧
      s'.order = targets.foldl (walk succ n fuel) s.order ∧ Marked succ n rank bound s' ∧
        MarksListed s s' ∧ ∀ t ∈ s.order, t ∈ s'.order := by
  induction targets generalizing s with
  | nil =>
      refine ⟨s, rfl, rfl, h, ?_, fun t ht => ht⟩
      intro t
      exact ⟨Or.inl, fun ht => ht.elim id (h.marked t)⟩
  | cons t targets ih =>
      obtain ⟨s₁, hs₁, horder₁, h₁, hmarks₁, hsub₁⟩ := hstep t List.mem_cons_self s h
      obtain ⟨s₂, hs₂, horder₂, h₂, hmarks₂, hsub₂⟩ := ih
        (fun t ht => hstep t (List.mem_cons_of_mem _ ht)) h₁
      refine ⟨s₂, ?_, ?_, h₂, ?_, fun t ht => hsub₂ t (hsub₁ t ht)⟩
      · rw [List.foldlM_cons, hs₁]
        exact hs₂
      · rw [List.foldl_cons, ← horder₁, horder₂]
      · intro u
        rw [hmarks₂, hmarks₁]
        constructor
        · intro hu
          obtain (hu | hu) | hu := hu
          · exact Or.inl hu
          · exact Or.inr (hsub₂ u hu)
          · exact Or.inr hu
        · intro hu
          exact hu.imp_left Or.inl

/-- The search lists what the walk lists. -/
theorem dfs_eq_walk (hrank : Ranked succ n rank) {fuel bound node : ℕ} {s : Search} (hlt : node < n)
    (hfuel : rank node < fuel) (hbound : rank node < bound) (h : Marked succ n rank bound s) :
    ∃ s', dfs succ n fuel s node = some s' ∧ s'.order = walk succ n fuel s.order node ∧
      Marked succ n rank bound s' ∧ MarksListed s s' ∧ ∀ t ∈ s.order, t ∈ s'.order := by
  induction fuel generalizing bound node s with
  | zero => omega
  | succ fuel ih =>
      rw [dfs, walk]
      cases hmark : s.visited[node]? with
      | none =>
          rw [List.getElem?_eq_none_iff, h.length] at hmark
          omega
      | some mark =>
      cases mark with
      | true =>
          dsimp only
          rw [if_pos (h.listed node hbound hmark)]
          refine ⟨s, rfl, rfl, h, ?_, fun t ht => ht⟩
          intro t
          exact ⟨Or.inl, fun ht => ht.elim id (h.marked t)⟩
      | false =>
          have hnew : node ∉ s.order := by
            intro hc
            rw [h.marked node hc] at hmark
            cases hmark
          have hvisited : node < s.visited.length := h.length.symm ▸ hlt
          have hset : ∀ t : ℕ, (s.visited.set node true)[t]? = some true ↔
              t = node ∨ s.visited[t]? = some true := by
            intro t
            by_cases he : node = t
            · subst he
              simp only [List.getElem?_set_self hvisited, true_or]
            · rw [List.getElem?_set_ne he]
              simp only [Ne.symm he, false_or]
          have hstart : Marked succ n rank (rank node)
              { s with visited := s.visited.set node true } := by
            refine ⟨List.length_set.trans h.length, h.postOrder, ?_, ?_⟩
            · intro t ht
              exact (hset t).mpr (Or.inr (h.marked t ht))
            · intro t ht hmarked
              obtain rfl | hmarked := (hset t).mp hmarked
              · omega
              · exact h.listed t (ht.trans hbound) hmarked
          obtain ⟨s₂, hs₂, horder, h₂, hmarks, hsub⟩ := foldlM_dfs (fun t ht s hs => by
            have hlower := Ranked.enters hrank hlt (mem_targets.mp ht)
            exact ih (mem_targets.mp ht).2 (by omega) hlower hs) hstart
          obtain ⟨new, he, hvisits⟩ := walk_spec hrank hlt hfuel h.postOrder
          rw [walk, if_neg hnew, ← horder] at he
          have hpost := hvisits.postOrder
          rw [← he] at hpost
          dsimp only
          rw [if_neg hnew, hs₂]
          refine ⟨{ s₂ with order := s₂.order ++ [node] }, rfl, ?_, ?_, ?_, ?_⟩
          · rw [← horder]
          · refine ⟨h₂.length, hpost, ?_, ?_⟩
            · intro t ht
              obtain ht | ht := List.mem_append.mp ht
              · exact h₂.marked t ht
              · exact (hmarks t).mpr (Or.inl ((hset t).mpr (Or.inl (List.mem_singleton.mp ht))))
            · intro t ht hmarked
              obtain hmarked | hlisted := (hmarks t).mp hmarked
              · obtain rfl | hmarked := (hset t).mp hmarked
                · exact List.mem_append_right _ (List.mem_singleton_self t)
                · exact List.mem_append_left _ (hsub t (h.listed t ht hmarked))
              · exact List.mem_append_left _ hlisted
          · intro t
            rw [hmarks, hset, List.mem_append, List.mem_singleton]
            tauto
          · intro t ht
            exact List.mem_append_left _ (hsub t ht)

theorem marked_start (bound : ℕ) :
    Marked succ n rank bound ⟨List.replicate n false, []⟩ where
  length := List.length_replicate
  postOrder := postOrder_nil
  marked t ht := by cases ht
  listed t _ ht := by
    rw [List.getElem?_replicate] at ht
    split_ifs at ht
    cases ht

/-- In a ranked graph the search ends, and lists what the walk lists. -/
theorem postorder_yields (hrank : Ranked succ n rank) {start : ℕ} (hlt : start < n) :
    Yields (postorder succ n start) (walk succ n (rank start + 1) [] start) := by
  refine ⟨rank start + 1, ?_⟩
  intro fuel hfuel
  obtain ⟨s, hs, horder, -⟩ := dfs_eq_walk hrank hlt (Nat.lt_of_succ_le hfuel)
    (Nat.lt_succ_self _) (marked_start (rank start + 1))
  rw [postorder, hs, Option.map_some, horder]
  exact congrArg some (walk_congr hrank hlt (Nat.lt_of_succ_le hfuel) (Nat.lt_succ_self _))

end DepthFirst

end GlrMask
