import GlrMask.TopologicalSort

/-!
# Heights and reachability

In a graph that can be sorted, the height of a node is one more than the largest
height of the nodes that it enters. The nodes that are reachable from a start are
closed under edges. Edges to nodes out of range are ignored.
-/

namespace GlrMask

variable (succ : ℕ → List ℕ) (n : ℕ)

/-! ## Heights -/

def heightOf (heights : List ℕ) (node : ℕ) : ℕ :=
  (((succ node).filter (· < n)).map fun t => heights.getD t 0 + 1).foldl max 0

/-- The heights, from the last released node to the first. -/
def nodeHeights (order : List ℕ) : List ℕ :=
  order.reverse.foldl (fun heights node => heights.set node (heightOf succ n heights node))
    (List.replicate n 0)

theorem le_foldl_max (l : List ℕ) (start : ℕ) :
    start ≤ l.foldl max start ∧ ∀ x ∈ l, x ≤ l.foldl max start := by
  induction l generalizing start with
  | nil => exact ⟨le_rfl, by simp⟩
  | cons a l ih =>
      obtain ⟨hstart, hrest⟩ := ih (max start a)
      rw [List.foldl_cons]
      refine ⟨(le_max_left _ _).trans hstart, ?_⟩
      intro x hx
      obtain rfl | hx := List.mem_cons.mp hx
      · exact (le_max_right _ _).trans hstart
      · exact hrest x hx

theorem foldl_heights_of_not_mem {l heights : List ℕ} {t : ℕ} (h : t ∉ l) :
    (l.foldl (fun heights node => heights.set node (heightOf succ n heights node)) heights)[t]? =
      heights[t]? := by
  induction l generalizing heights with
  | nil => rfl
  | cons node l ih =>
      rw [List.mem_cons, not_or] at h
      rw [List.foldl_cons, ih h.2, List.getElem?_set_ne (Ne.symm h.1)]

theorem length_foldl_heights (l heights : List ℕ) :
    (l.foldl (fun heights node => heights.set node (heightOf succ n heights node)) heights).length =
      heights.length := by
  induction l generalizing heights with
  | nil => rfl
  | cons node l ih => rw [List.foldl_cons, ih, List.length_set]

/-- A node is higher than the nodes that it enters. -/
theorem height_lt (h : allReleased succ n = true) {s t : ℕ} (hs : s < n) (ht : t ∈ succ s)
    (htn : t < n) :
    (nodeHeights succ n (releaseOrder succ n)).getD t 0 <
      (nodeHeights succ n (releaseOrder succ n)).getD s 0 := by
  obtain ⟨hmem, -⟩ := releaseOrder_before succ n h
  have hnodup := releaseOrder_nodup succ n
  obtain ⟨l₁, l₂, he⟩ := List.append_of_mem ((hmem s).mpr hs)
  have hafter := releaseOrder_after succ n h he ht htn
  rw [he] at hnodup
  have hsl₁ : s ∉ l₁ := fun hc => (List.nodup_append.mp hnodup).2.2 s hc s List.mem_cons_self rfl
  have htl : t ∉ s :: l₁ := by
    intro hc
    obtain rfl | hc := List.mem_cons.mp hc
    · exact (List.nodup_cons.mp (List.nodup_append.mp hnodup).2.1).1 hafter
    · exact (List.nodup_append.mp hnodup).2.2 t hc t (List.mem_cons_of_mem _ hafter) rfl
  have hne : s ≠ t := by
    intro hst
    exact htl (hst ▸ List.mem_cons_self)
  rw [nodeHeights, he, List.reverse_append, List.reverse_cons, List.append_assoc, List.foldl_append,
    List.singleton_append, List.foldl_cons]
  generalize hheights : l₂.reverse.foldl
    (fun heights node => heights.set node (heightOf succ n heights node)) (List.replicate n 0) = heights
  have hlength : heights.length = n := by
    rw [← hheights, length_foldl_heights, List.length_replicate]
  -- the nodes before `s` change neither height
  rw [List.getD_eq_getElem?_getD, List.getD_eq_getElem?_getD,
    foldl_heights_of_not_mem succ n (fun hc => htl (List.mem_cons_of_mem _ (List.mem_reverse.mp hc))),
    foldl_heights_of_not_mem succ n (fun hc => hsl₁ (List.mem_reverse.mp hc)),
    List.getElem?_set_self (hlength ▸ hs), List.getElem?_set_ne hne, Option.getD_some]
  have hle := (le_foldl_max (((succ s).filter (· < n)).map fun t => heights.getD t 0 + 1) 0).2
    (heights.getD t 0 + 1)
    (List.mem_map.mpr ⟨t, List.mem_filter.mpr ⟨ht, by simpa using htn⟩, rfl⟩)
  rw [List.getD_eq_getElem?_getD] at hle
  exact hle

/-! ## Reachability -/

/-- Mark the nodes on the stack and what they enter, the top of the stack first. -/
def reachLoop (reachable : List Bool) (stack : List ℕ) : List Bool :=
  match stack with
  | [] => reachable
  | node :: stack =>
      if reachable[node]? = some false then
        let reachable' := reachable.set node true
        reachLoop reachable'
          (((succ node).filter fun t => reachable'[t]? = some false).reverse ++ stack)
      else reachLoop reachable stack
termination_by (reachable.count false, stack.length)
decreasing_by
  · apply Prod.Lex.left
    rename_i hfalse
    obtain ⟨hlt, hget⟩ := List.getElem?_eq_some_iff.mp hfalse
    have hpos : 0 < reachable.count false := List.count_pos_iff.mpr (hget ▸ List.getElem_mem hlt)
    have hcount : (reachable.set node true).count false = reachable.count false - 1 := by
      rw [List.count_set hlt, hget]
      simp
    change (reachable.set node true).count false < reachable.count false
    omega
  · apply Prod.Lex.right
    simp

def reachableFrom (start : ℕ) : List Bool :=
  reachLoop succ (List.replicate n false) [start]

/-- Every edge from a marked node leads to a marked node or to one on the stack. -/
def EdgesMarked (reachable : List Bool) (stack : List ℕ) : Prop :=
  ∀ s, reachable[s]? = some true → ∀ t ∈ succ s, t < reachable.length →
    reachable[t]? = some true ∨ t ∈ stack

theorem reachLoop_closed {reachable : List Bool} {stack : List ℕ}
    (h : EdgesMarked succ reachable stack) :
    EdgesMarked succ (reachLoop succ reachable stack) [] ∧
      (reachLoop succ reachable stack).length = reachable.length := by
  fun_induction reachLoop succ reachable stack with
  | case1 reachable => exact ⟨h, rfl⟩
  | case2 reachable node stack hfalse reachable' ih =>
      have hlt := (List.getElem?_eq_some_iff.mp hfalse).1
      have hlength : reachable'.length = reachable.length := List.length_set
      obtain ⟨hclosed, hsame⟩ := ih (by
        intro s hs t ht htlt
        have hmarked : ∀ u : ℕ, reachable[u]? = some true → reachable'[u]? = some true := by
          intro u hu
          by_cases he : node = u
          · subst he
            exact List.getElem?_set_self hlt
          · exact (List.getElem?_set_ne he).trans hu
        cases hget : reachable'[t]? with
        | none =>
            have := List.getElem?_eq_none_iff.mp hget
            omega
        | some mark =>
            cases mark with
            | true => exact Or.inl rfl
            | false =>
                right
                rw [List.mem_append, List.mem_reverse, List.mem_filter]
                by_cases he : node = s
                · exact Or.inl ⟨he ▸ ht, by simpa using hget⟩
                · rw [List.getElem?_set_ne he] at hs
                  obtain hold | hold := h s hs t ht (hlength ▸ htlt)
                  · rw [hmarked t hold] at hget
                    cases hget
                  · obtain rfl | hold := List.mem_cons.mp hold
                    · rw [List.getElem?_set_self hlt] at hget
                      cases hget
                    · exact Or.inr hold)
      exact ⟨hclosed, hsame.trans hlength⟩
  | case3 reachable node stack hnot ih =>
      apply ih
      intro s hs t ht htlt
      obtain hmarked | hstack := h s hs t ht htlt
      · exact Or.inl hmarked
      · obtain rfl | hstack := List.mem_cons.mp hstack
        · left
          cases hget : reachable[t]? with
          | none =>
              have := List.getElem?_eq_none_iff.mp hget
              omega
          | some mark =>
              cases mark with
              | true => rfl
              | false => exact absurd hget hnot
        · exact Or.inr hstack

/-- What a reachable node enters is reachable. -/
theorem reachableFrom_closed {start s t : ℕ} (hs : (reachableFrom succ n start)[s]? = some true)
    (ht : t ∈ succ s) (htn : t < n) : (reachableFrom succ n start)[t]? = some true := by
  have hstart : EdgesMarked succ (List.replicate n false) [start] := by
    intro s hs
    rw [List.getElem?_replicate] at hs
    split_ifs at hs
    cases hs
  obtain ⟨hclosed, hlength⟩ := reachLoop_closed succ hstart
  obtain hmarked | hstack := hclosed s hs t ht (by
    rw [hlength, List.length_replicate]
    exact htn)
  · exact hmarked
  · cases hstack

/-- Marks stay, and what is on the stack is marked in the end. -/
theorem reachLoop_marked {reachable : List Bool} {stack : List ℕ} {s : ℕ}
    (hs : reachable[s]? = some true ∨ s ∈ stack) (hlt : s < reachable.length) :
    (reachLoop succ reachable stack)[s]? = some true := by
  fun_induction reachLoop succ reachable stack with
  | case1 reachable =>
      obtain hs | hs := hs
      · exact hs
      · cases hs
  | case2 reachable node stack hfalse reachable' ih =>
      apply ih
      · by_cases he : node = s
        · subst he
          exact Or.inl (List.getElem?_set_self hlt)
        · obtain hs | hs := hs
          · exact Or.inl ((List.getElem?_set_ne he).trans hs)
          · obtain rfl | hs := List.mem_cons.mp hs
            · exact absurd rfl he
            · exact Or.inr (List.mem_append_right _ hs)
      · rwa [List.length_set]
  | case3 reachable node stack hnot ih =>
      apply ih _ hlt
      obtain hs | hs := hs
      · exact Or.inl hs
      · obtain rfl | hs := List.mem_cons.mp hs
        · left
          cases hget : reachable[s]? with
          | none =>
              rw [List.getElem?_eq_none_iff] at hget
              omega
          | some mark =>
              cases mark with
              | true => rfl
              | false => exact absurd hget hnot
        · exact Or.inr hs

theorem reachableFrom_start {start : ℕ} (h : start < n) :
    (reachableFrom succ n start)[start]? = some true := by
  apply reachLoop_marked succ (Or.inr List.mem_cons_self)
  rwa [List.length_replicate]

/-- What holds on the stack and along edges holds of all new marks. -/
theorem reachLoop_sound {P : ℕ → Prop} (hP : ∀ s t, P s → t ∈ succ s → P t)
    {reachable : List Bool} {stack : List ℕ} (hstack : ∀ s ∈ stack, P s)
    (hmarked : ∀ s : ℕ, reachable[s]? = some true → P s) {s : ℕ}
    (hs : (reachLoop succ reachable stack)[s]? = some true) : P s := by
  fun_induction reachLoop succ reachable stack with
  | case1 reachable => exact hmarked s hs
  | case2 reachable node stack hfalse reachable' ih =>
      have hnode := hstack node List.mem_cons_self
      apply ih _ _ hs
      · intro t ht
        obtain ht | ht := List.mem_append.mp ht
        · exact hP node t hnode (List.mem_filter.mp (List.mem_reverse.mp ht)).1
        · exact hstack t (List.mem_cons_of_mem _ ht)
      · intro t ht
        by_cases he : node = t
        · exact he ▸ hnode
        · exact hmarked t ((List.getElem?_set_ne he).symm.trans ht)
  | case3 reachable node stack hnot ih =>
      exact ih (fun t ht => hstack t (List.mem_cons_of_mem _ ht)) hmarked hs

theorem reachableFrom_sound {P : ℕ → Prop} (hP : ∀ s t, P s → t ∈ succ s → P t) {start s : ℕ}
    (hstart : P start) (hs : (reachableFrom succ n start)[s]? = some true) : P s := by
  apply reachLoop_sound succ hP _ _ hs
  · intro t ht
    rwa [List.mem_singleton.mp ht]
  · intro t ht
    rw [List.getElem?_replicate] at ht
    split_ifs at ht
    cases ht

end GlrMask
