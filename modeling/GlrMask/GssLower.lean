import GlrMask.Slots

/-!
# Lower nodes of a graph-structured stack

A lower node stands for a set of stacks. A general node has children by top
value and depth; a segment packs a run of single children into one node. The
stored depths are those of the longest stacks, and merging relies on it: two
children of one value share a slot exactly when they have the same depth.
-/

namespace GlrMask

/-- What the operations depend on beside their operands: which equal nodes are one allocation,
and which segments have room for more values. -/
class Sharing where
  same : {N : Type} → N → N → Bool
  eq_of_same : ∀ {N : Type} {a b : N}, same a b = true → a = b
  fits : {T : Type} → List T → List T → Bool

/-- Nothing shared, and segments without a capacity. -/
@[reducible] def Sharing.default : Sharing := 
  ⟨fun _ _ => false, (fun h => nomatch h), fun _ _ => true⟩

/-- The joins of truth values, in a form that can be run. -/
instance (priority := high) boolSemilatticeSup : SemilatticeSup Bool :=
  (@LinearOrder.toLattice Bool Bool.linearOrder).toSemilatticeSup

instance (priority := high) boolOrderBot : OrderBot Bool := ⟨Bool.false_le⟩

/-- The values of a segment are listed from the top down. -/
inductive Lower (T : Type)
  | general (children : List (Slot T (Lower T))) (empty : Bool) (max_depth : ℕ)
  | segment (values : List T) (next : Lower T) (max_depth segments_len : ℕ)

instance {T : Type} : Inhabited (Lower T) := ⟨.general [] false 0⟩

namespace Lower

variable {T : Type}

def empty : Lower T → Bool
  | general _ empty _ => empty
  | segment .. => false

def max_depth : Lower T → ℕ
  | general _ _ max_depth => max_depth
  | segment _ _ max_depth _ => max_depth

def segments_len : Lower T → ℕ
  | general .. => 0
  | segment _ _ _ segments_len => segments_len

/-- The part of a segment below its top value. -/
def segment_rest (values : List T) (next : Lower T) (max_depth segments_len : ℕ) : Lower T :=
  match values with
  | _ :: v :: rest => segment (v :: rest) next (max_depth - 1) (segments_len - 1)
  | _ => next

def children : Lower T → List (Slot T (Lower T))
  | general children _ _ => children
  | segment [] _ _ _ => []
  | segment (v :: values) next max_depth segments_len =>
      let child := segment_rest (v :: values) next max_depth segments_len
      [⟨v, child.max_depth, child⟩]

/-- Whether a stack, listed from the top down, is one of the node's. -/
def has [DecidableEq T] : List T → Lower T → Bool
  | [], node => node.empty
  | v :: stack, node => Slot.joined (has stack) v node.children

/-- The stored depths and lengths are right, and no value has two children of one depth. -/
inductive WF : Lower T → Prop
  | general {children : List (Slot T (Lower T))} {empty : Bool} {max_depth : ℕ}
      (distinct : Slot.Distinct children) (deep : Slot.Deep Lower.max_depth children)
      (wf : ∀ s ∈ children, WF s.node) (depth : max_depth = Slot.height Lower.max_depth children) :
      WF (general children empty max_depth)
  | segment {values : List T} {next : Lower T} {max_depth segments_len : ℕ}
      (nonempty : values ≠ []) (wf : WF next) (depth : max_depth = next.max_depth + values.length)
      (length : segments_len = next.segments_len + values.length) :
      WF (segment values next max_depth segments_len)

/-- A family of children as a well-formed node has it. -/
structure Family (children : List (Slot T (Lower T))) : Prop where
  distinct : Slot.Distinct children
  deep : Slot.Deep Lower.max_depth children
  wf : ∀ s ∈ children, s.node.WF

theorem segment_rest_wf {values : List T} {next : Lower T} {max_depth segments_len : ℕ}
    (h : (segment values next max_depth segments_len).WF) :
    (segment_rest values next max_depth segments_len).WF ∧
      (segment_rest values next max_depth segments_len).max_depth + 1 = max_depth := by
  cases h with
  | segment hne hwf hdepth hlength =>
      match values with
      | [_] =>
          exact ⟨hwf, hdepth.symm⟩
      | _ :: v :: rest =>
          simp only [List.length_cons] at hdepth hlength
          constructor
          · apply WF.segment (by simp) hwf
            · rw [List.length_cons]
              omega
            · rw [List.length_cons]
              omega
          · change max_depth - 1 + 1 = max_depth
            omega

theorem WF.family {node : Lower T} (h : node.WF) : Family node.children := by
  cases h with
  | general hdistinct hdeep hwf hdepth => exact ⟨hdistinct, hdeep, hwf⟩
  | segment hne hwf hdepth hlength =>
      rename_i values next max_depth segments_len
      obtain ⟨hrest, -⟩ := segment_rest_wf (WF.segment hne hwf hdepth hlength)
      match values with
      | v :: rest =>
          refine ⟨List.nodup_singleton _, ?_, ?_⟩
          · intro s hs
            rw [List.mem_singleton.mp hs]
          · intro s hs
            rw [List.mem_singleton.mp hs]
            exact hrest

theorem WF.max_depth_eq {node : Lower T} (h : node.WF) :
    node.max_depth = Slot.height Lower.max_depth node.children := by
  cases h with
  | general hdistinct hdeep hwf hdepth => exact hdepth
  | segment hne hwf hdepth hlength =>
      rename_i values next max_depth segments_len
      obtain ⟨-, hrest⟩ := segment_rest_wf (WF.segment hne hwf hdepth hlength)
      match values with
      | v :: rest =>
          change max_depth = max (_ + 1) 0
          rw [hrest, max_eq_left (Nat.zero_le _)]

theorem WF.child_lt {node : Lower T} (h : node.WF) {s : Slot T (Lower T)} (hs : s ∈ node.children) :
    s.node.max_depth < node.max_depth := by
  rw [h.max_depth_eq]
  exact Slot.lt_height hs

/-! ## Building nodes -/

section

variable [Sharing]

open Sharing

/-- Append to a segment below if its storage has room. -/
def new_segment (values : List T) (next : Lower T) : Lower T :=
  match next with
  | segment below rest _ _ =>
      if fits below values then
        segment (values ++ below) rest (rest.max_depth + (values ++ below).length)
          ((values ++ below).length + rest.segments_len)
      else segment values next (next.max_depth + values.length) (values.length + next.segments_len)
  | general .. => segment values next (next.max_depth + values.length) (values.length + next.segments_len)

/-- A node with these children. Replacing children by equal shared ones changes no value. -/
def new_lower (children : List (Slot T (Lower T))) (empty : Bool) : Lower T :=
  match empty, children with
  | false, [s] => new_segment [s.value] s.node
  | _, _ => general children empty (Slot.height Lower.max_depth children)

theorem new_segment_spec (v : T) {next : Lower T} (h : next.WF) :
    (new_segment [v] next).WF ∧ (new_segment [v] next).children = [⟨v, next.max_depth, next⟩] ∧
      (new_segment [v] next).empty = false := by
  have hplain : ∀ node : Lower T, node.WF →
      (segment [v] node (node.max_depth + [v].length) ([v].length + node.segments_len)).WF ∧
        (segment [v] node (node.max_depth + [v].length) ([v].length + node.segments_len)).children =
          [⟨v, node.max_depth, node⟩] := fun node hnode =>
    ⟨WF.segment (by simp) hnode rfl (add_comm _ _), rfl⟩
  cases next with
  | general children empty max_depth => exact ⟨(hplain _ h).1, (hplain _ h).2, rfl⟩
  | segment below rest max_depth segments_len =>
      unfold new_segment
      dsimp only
      split_ifs
      · cases h with
        | segment hne hwf hdepth hlength =>
            refine ⟨WF.segment (by simp) hwf rfl (add_comm _ _), ?_, rfl⟩
            match below with
            | w :: below =>
                subst hdepth hlength
                change [Slot.mk v _ (segment (w :: below) rest _ _)] = [⟨v, _, _⟩]
                have h₁ : rest.max_depth + (v :: w :: below).length - 1 =
                    rest.max_depth + (w :: below).length := by simp
                have h₂ : (v :: w :: below).length + rest.segments_len - 1 =
                    rest.segments_len + (w :: below).length := by
                  simp only [List.length_cons]
                  omega
                rw [List.singleton_append, h₁, h₂]
                rfl
      · exact ⟨(hplain _ h).1, (hplain _ h).2, rfl⟩

/-- A new node has exactly the children and the emptiness it was made from. -/
theorem new_lower_spec {children : List (Slot T (Lower T))} (h : Family children) (empty : Bool) :
    (new_lower children empty).WF ∧ (new_lower children empty).children = children ∧
      (new_lower children empty).empty = empty := by
  have hgeneral : ∀ children : List (Slot T (Lower T)), Family children →
      (general children empty (Slot.height Lower.max_depth children)).WF := fun children h =>
    WF.general h.distinct h.deep h.wf rfl
  unfold new_lower
  split
  · rename_i s
    obtain ⟨hwf, hchildren, hempty⟩ := new_segment_spec s.value (h.wf s List.mem_cons_self)
    refine ⟨hwf, ?_, hempty⟩
    rw [hchildren, h.deep s List.mem_cons_self]
  · exact ⟨hgeneral _ h, rfl, rfl⟩

/-! ## Merging -/

variable [DecidableEq T]

/-- Merging goes down one level at a time; the levels are never used up on nodes whose depth is
less than their number. -/
def merge_lower_within : ℕ → Lower T → Lower T → Lower T
  | 0, l1, _ => l1
  | levels + 1, l1, l2 =>
      if same l1 l2 then l1
      else
        let new_empty := l1.empty || l2.empty
        match l1, l2 with
        | segment values1 next1 _ _, segment values2 next2 _ _ =>
            if same next1 next2 && decide (values1 = values2) then l1
            else
              match l1.children, l2.children with
              | [s1], [s2] =>
                  if s1.value = s2.value then
                    let merged_next := merge_lower_within levels s1.node s2.node
                    new_lower [⟨s1.value, merged_next.max_depth, merged_next⟩] new_empty
                  else new_lower [s1, s2] new_empty
              | _, _ => l1
        | segment .., general children _ _ =>
            new_lower (Slot.mergeAll (merge_lower_within levels) children l1.children) new_empty
        | general children _ _, segment .. =>
            new_lower (Slot.mergeAll (merge_lower_within levels) children l2.children) new_empty
        | general children1 _ _, general children2 _ _ =>
            if same children1 children2 then new_lower children1 new_empty
            else new_lower (Slot.mergeAll (merge_lower_within levels) children1 children2) new_empty

def merge_lower (l1 l2 : Lower T) : Lower T :=
  merge_lower_within (max l1.max_depth l2.max_depth + 1) l1 l2

omit [Sharing] in
theorem has_cons (v : T) (stack : List T) (node : Lower T) :
    has (v :: stack) node = Slot.joined (has stack) v node.children := rfl

/-- What merging two well-formed nodes gives. -/
structure Merged (l1 l2 merged : Lower T) : Prop where
  wf : merged.WF
  depth : merged.max_depth = max l1.max_depth l2.max_depth
  has : ∀ stack, has stack merged = (has stack l1 || has stack l2)

/-- A node made from the children of two nodes. -/
theorem Merged.of_children {l1 l2 : Lower T} {children : List (Slot T (Lower T))} (hfamily : Family children)
    (hdepth : Slot.height Lower.max_depth children = max l1.max_depth l2.max_depth)
    (hhas : ∀ v stack, Slot.joined (Lower.has stack) v children =
      Slot.joined (Lower.has stack) v l1.children ⊔ Slot.joined (Lower.has stack) v l2.children) :
    Merged l1 l2 (new_lower children (l1.empty || l2.empty)) := by
  obtain ⟨hwf, hchildren, hempty⟩ := new_lower_spec hfamily (l1.empty || l2.empty)
  apply Merged.mk hwf
  · rw [hwf.max_depth_eq, hchildren, hdepth]
  · intro stack
    cases stack with
    | nil => exact hempty
    | cons v stack =>
        rw [has_cons, has_cons, has_cons, hchildren, hhas]
        rfl

/-- A well-formed node of a given depth. -/
def Good (d : ℕ) (node : Lower T) : Prop := node.WF ∧ node.max_depth = d

omit [Sharing] [DecidableEq T] in
theorem Family.good {children : List (Slot T (Lower T))} (h : Family children) :
    ∀ s ∈ children, Good s.depth s.node := fun s hs => ⟨h.wf s hs, h.deep s hs⟩

theorem mergeAll_merged {l1 l2 : Lower T} (h1 : l1.WF) (h2 : l2.WF)
    {join : Lower T → Lower T → Lower T}
    (hjoin : ∀ d n m, d < max l1.max_depth l2.max_depth → Good d n → Good d m →
      Merged n m (join n m)) :
    Merged l1 l2 (new_lower (Slot.mergeAll join l1.children l2.children)
      (l1.empty || l2.empty)) := by
  -- Every child is less deep than the nodes it is a child of.
  have hgood : ∀ l : Lower T, l.WF → l.max_depth ≤ max l1.max_depth l2.max_depth →
      ∀ s ∈ l.children, s.depth < max l1.max_depth l2.max_depth ∧ Good s.depth s.node := by
    intro l hl hle s hs
    have hdepth := hl.family.deep s hs
    exact ⟨hdepth ▸ (hl.child_lt hs).trans_le hle, hl.family.wf s hs, hdepth⟩
  have hg1 := hgood l1 h1 (le_max_left _ _)
  have hg2 := hgood l2 h2 (le_max_right _ _)
  have hstep : ∀ d n m, (d < max l1.max_depth l2.max_depth ∧ Good d n) →
      (d < max l1.max_depth l2.max_depth ∧ Good d m) →
      d < max l1.max_depth l2.max_depth ∧ Good d (join n m) := by
    intro d n m hn hm
    have hmerged := hjoin d n m hn.1 hn.2 hm.2
    exact ⟨hn.1, hmerged.wf, by rw [hmerged.depth, hn.2.2, hm.2.2, max_self]⟩
  have hall := Slot.good_mergeAll hstep hg1 hg2
  have hdeep : Slot.Deep Lower.max_depth (Slot.mergeAll join l1.children l2.children) :=
    fun s hs => (hall s hs).2.2
  apply Merged.of_children
  · exact ⟨h1.family.distinct.mergeAll, hdeep, fun s hs => (hall s hs).2.1⟩
  · rw [Slot.height_mergeAll h1.family.deep h2.family.deep hdeep, h1.max_depth_eq, h2.max_depth_eq]
  · intro v stack
    apply Slot.joined_mergeAll hstep _ hg1 hg2
    intro d n m hn hm
    exact (hjoin d n m hn.1 hn.2 hm.2).has stack

omit [Sharing] in
theorem Merged.self {l : Lower T} (h : l.WF) : Merged l l l :=
  ⟨h, (max_self _).symm, fun _ => (Bool.or_self _).symm⟩

omit [Sharing] in
theorem Merged.symm {l1 l2 merged : Lower T} (h : Merged l1 l2 merged) : Merged l2 l1 merged :=
  ⟨h.wf, h.depth.trans (max_comm _ _), fun stack => (h.has stack).trans (Bool.or_comm _ _)⟩

omit [Sharing] [DecidableEq T] in
/-- A well-formed segment has one child. -/
theorem WF.segment_children {values : List T} {next : Lower T} {max_depth segments_len : ℕ}
    (h : (Lower.segment values next max_depth segments_len).WF) :
    ∃ s, (Lower.segment values next max_depth segments_len).children = [s] := by
  cases h with
  | segment hne _ _ _ =>
      match values with
      | v :: rest => exact ⟨_, rfl⟩

theorem merge_lower_within_spec (levels : ℕ) {l1 l2 : Lower T} (h1 : l1.WF) (h2 : l2.WF)
    (hlevels : max l1.max_depth l2.max_depth < levels) :
    Merged l1 l2 (merge_lower_within levels l1 l2) := by
  induction levels generalizing l1 l2 with
  | zero => exact absurd hlevels (Nat.not_lt_zero _)
  | succ levels ih =>
      have hjoin : ∀ (d : ℕ) (n m : Lower T), d < max l1.max_depth l2.max_depth → Good d n → Good d m →
          Merged n m (merge_lower_within levels n m) := by
        intro d n m hd hn hm
        apply ih hn.1 hm.1
        rw [hn.2, hm.2, max_self]
        omega
      unfold merge_lower_within
      split_ifs with hsame
      · obtain rfl := eq_of_same hsame
        exact Merged.self h1
      dsimp only
      have hall := mergeAll_merged h1 h2 hjoin
      cases l1 with
      | general children1 empty1 depth1 =>
          cases l2 with
          | general children2 empty2 depth2 =>
              dsimp only
              split_ifs with hchildren
              · obtain rfl := eq_of_same hchildren
                apply Merged.of_children h1.family
                · rw [h1.max_depth_eq, h2.max_depth_eq]
                  exact (max_self _).symm
                · exact fun v stack => (sup_idem _).symm
              · exact hall
          | segment values2 next2 depth2 len2 => exact hall
      | segment values1 next1 depth1 len1 =>
          cases l2 with
          | general children2 empty2 depth2 =>
              have hsymm := mergeAll_merged h2 h1 fun d n m hd hn hm =>
                hjoin d n m (max_comm depth2 depth1 ▸ hd) hn hm
              rw [Bool.or_comm] at hsymm
              exact hsymm.symm
          | segment values2 next2 depth2 len2 =>
              obtain ⟨s1, hs1⟩ := h1.segment_children
              obtain ⟨s2, hs2⟩ := h2.segment_children
              dsimp only
              split_ifs with hequal
              · rw [Bool.and_eq_true, decide_eq_true_eq] at hequal
                obtain ⟨hnext, rfl⟩ := hequal
                obtain rfl := eq_of_same hnext
                have heq : Lower.segment values1 next1 depth1 len1 =
                    Lower.segment values1 next1 depth2 len2 := by
                  cases h1
                  cases h2
                  subst_vars
                  rfl
                rw [← heq]
                exact Merged.self h1
              · rw [hs1, hs2]
                dsimp only
                have hm1 : s1 ∈ (Lower.segment values1 next1 depth1 len1).children :=
                  hs1 ▸ List.mem_singleton_self s1
                have hm2 : s2 ∈ (Lower.segment values2 next2 depth2 len2).children :=
                  hs2 ▸ List.mem_singleton_self s2
                have hwf1 := h1.family.wf s1 hm1
                have hwf2 := h2.family.wf s2 hm2
                have hd1 : depth1 = s1.node.max_depth + 1 := by
                  have h := h1.max_depth_eq
                  rwa [hs1, Slot.height, Slot.height, max_eq_left (Nat.zero_le _)] at h
                have hd2 : depth2 = s2.node.max_depth + 1 := by
                  have h := h2.max_depth_eq
                  rwa [hs2, Slot.height, Slot.height, max_eq_left (Nat.zero_le _)] at h
                split_ifs with hvalue
                · have hmerged : Merged s1.node s2.node (merge_lower_within levels s1.node s2.node) := by
                    apply ih hwf1 hwf2
                    change max depth1 depth2 < levels + 1 at hlevels
                    omega
                  apply Merged.of_children
                  · refine ⟨List.nodup_singleton _, ?_, ?_⟩
                    · intro s hs
                      rw [List.mem_singleton.mp hs]
                    · intro s hs
                      rw [List.mem_singleton.mp hs]
                      exact hmerged.wf
                  · rw [Slot.height, Slot.height, hmerged.depth]
                    change _ = max depth1 depth2
                    omega
                  · intro v stack
                    rw [hs1, hs2, Slot.joined_cons, Slot.joined_cons, Slot.joined_cons,
                      Slot.joined_nil, hmerged.has, hvalue]
                    by_cases hv : s2.value = v
                    · simp [hv]
                    · simp [hv]
                · apply Merged.of_children
                  · refine ⟨?_, ?_, ?_⟩
                    · apply List.nodup_cons.mpr ⟨?_, List.nodup_singleton _⟩
                      intro hmem
                      exact hvalue (Prod.mk.inj (List.mem_singleton.mp hmem)).1
                    · intro s hs
                      rcases List.mem_pair.mp hs with rfl | rfl
                      · exact h1.family.deep _ hm1
                      · exact h2.family.deep _ hm2
                    · intro s hs
                      rcases List.mem_pair.mp hs with rfl | rfl
                      · exact hwf1
                      · exact hwf2
                  · rw [Slot.height, Slot.height, Slot.height]
                    change _ = max depth1 depth2
                    omega
                  · intro v stack
                    rw [hs1, hs2]
                    exact @Slot.joined_append _ _ _ _ [s1] [s2] v _ _ (Lower.has stack)

/-- Merging nodes merges their sets of stacks. -/
theorem merge_lower_spec {l1 l2 : Lower T} (h1 : l1.WF) (h2 : l2.WF) :
    Merged l1 l2 (merge_lower l1 l2) :=
  merge_lower_within_spec _ h1 h2 (Nat.lt_succ_self _)

end

end Lower

end GlrMask
