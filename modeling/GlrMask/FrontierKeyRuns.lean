import GlrMask.FrontierKeys

/-!
# Computing frontier keys

What an interner remembers stays right while nodes are added. Two keys of one
interner are equal exactly when the stacks branch alike.
-/

namespace GlrMask

namespace GssFrontierKeyInterner

variable {T A : Type} [DecidableEq T]

/-- No node is interned twice, and the remembered numbers are right. -/
structure Valid (s : GssFrontierKeyInterner T A) : Prop where
  nodup : s.interned.Nodup
  upper : ∀ e ∈ s.upper_memo, Keyed s.interned (Upper.heads e.1) e.2
  lower : ∀ e ∈ s.lower_memo, Keyed s.interned (Upper.heads (.interface e.1.1 e.1.2)) e.2

/-- A computation finds the numbers of the heads, and only adds nodes. -/
structure Finds (hs : List (Head T A)) (s : GssFrontierKeyInterner T A)
    (r : List ℕ × GssFrontierKeyInterner T A) : Prop where
  valid : r.2.Valid
  grows : s.interned <+: r.2.interned
  keyed : Keyed r.2.interned hs r.1

def Computes (hs : List (Head T A))
    (compute : GssFrontierKeyInterner T A → List ℕ × GssFrontierKeyInterner T A) : Prop :=
  ∀ s, s.Valid → Finds hs s (compute s)

theorem new_valid : (new : GssFrontierKeyInterner T A).Valid :=
  ⟨List.nodup_nil, (fun _ h => by cases h), fun _ h => by cases h⟩

theorem Computes.nil : Computes ([] : List (Head T A)) fun s => ([], s) := fun s hs =>
  ⟨hs, List.prefix_refl _, (fun _ h => by cases h), fun _ h => by cases h⟩

theorem Finds.add {hs hs' : List (Head T A)} {s : GssFrontierKeyInterner T A}
    {r : List ℕ × GssFrontierKeyInterner T A}
    {compute : GssFrontierKeyInterner T A → List ℕ × GssFrontierKeyInterner T A}
    (h : Finds hs s r) (h' : Computes hs' compute) : Finds (hs ++ hs') s (add_elems r compute) := by
  obtain ⟨hvalid, hgrows, hkeyed⟩ := h' r.2 h.valid
  exact ⟨hvalid, h.grows.trans hgrows, (h.keyed.later hgrows).append hkeyed⟩

/-- The numbers of the heads of all values. -/
theorem Finds.add_all {hs : List (Head T A)} {s : GssFrontierKeyInterner T A}
    {r : List ℕ × GssFrontierKeyInterner T A} (h : Finds hs s r) (vs : List T)
    {compute : T → GssFrontierKeyInterner T A → List ℕ × GssFrontierKeyInterner T A}
    {head : T → Head T A} (hcompute : ∀ v, Computes [head v] (compute v)) :
    Finds (hs ++ vs.map head) s (vs.foldl (fun r v => add_elems r (compute v)) r) := by
  induction vs generalizing hs r with
  | nil =>
      rw [List.map_nil, List.append_nil]
      exact h
  | cons v vs ih =>
      have hstep := ih (h.add (hcompute v))
      rwa [List.append_assoc, List.singleton_append] at hstep

theorem Finds.sorted {hs : List (Head T A)} {s : GssFrontierKeyInterner T A}
    {r : List ℕ × GssFrontierKeyInterner T A} (h : Finds hs s r) :
    Finds hs s (sortDedup r.1, r.2) :=
  ⟨h.valid, h.grows, h.keyed.sorted⟩

variable [DecidableEq A]

theorem intern_spec (node : FrontierKeyNode T A) {s : GssFrontierKeyInterner T A} (hs : s.Valid) :
    (s.intern node).2.Valid ∧ s.interned <+: (s.intern node).2.interned ∧
      (s.intern node).2.interned[(s.intern node).1]? = some node := by
  unfold intern
  split_ifs with hmem
  · exact ⟨hs, List.prefix_refl _, List.getElem?_idxOf hmem⟩
  · have hgrows : s.interned <+: s.interned ++ [node] := List.prefix_append _ _
    refine ⟨⟨?_, fun e he => (hs.upper e he).later hgrows,
      fun e he => (hs.lower e he).later hgrows⟩, hgrows, List.getElem?_concat_length⟩
    apply List.nodup_append.mpr ⟨hs.nodup, List.nodup_singleton node, fun a ha b hb he => ?_⟩
    rw [List.mem_singleton.mp hb] at he
    exact hmem (he ▸ ha)

theorem bottom_elems_spec (accumulator : Option A) :
    Computes (T := T) (accumulator.toList.map Head.bottom) (bottom_elems accumulator) := by
  intro s hs
  cases accumulator with
  | none => exact Computes.nil s hs
  | some a =>
      obtain ⟨hvalid, hgrows, hnode⟩ := intern_spec (.Bottom a) hs
      refine ⟨hvalid, hgrows, fun h hh => ?_, fun i hi => ?_⟩
      · exact ⟨_, List.mem_singleton_self _, List.mem_singleton.mp hh ▸ KeyedHead.bottom hnode⟩
      · exact ⟨_, List.mem_singleton_self _, List.mem_singleton.mp hi ▸ KeyedHead.bottom hnode⟩

/-- The number of a value on top of the heads of its nodes. -/
theorem Finds.cons {kids : List (Upper T A)} {s : GssFrontierKeyInterner T A}
    {r : List ℕ × GssFrontierKeyInterner T A} (h : Finds (kids.flatMap Upper.heads) s r) (v : T) :
    Finds [.cons v kids] s (cons_elems v r) := by
  obtain ⟨hvalid, hgrows, hnode⟩ := intern_spec (.Cons v (sortDedup r.1)) h.valid
  have hkeyed := KeyedHead.of_keyed hnode (sortDedup_sorted r.1) (h.keyed.later hgrows).sorted
  refine ⟨hvalid, h.grows.trans hgrows, fun k hk => ?_, fun i hi => ?_⟩
  · exact ⟨_, List.mem_singleton_self _, List.mem_singleton.mp hk ▸ hkeyed⟩
  · exact ⟨_, List.mem_singleton_self _, List.mem_singleton.mp hi ▸ hkeyed⟩

variable [Sharing]

open Sharing

theorem remember_lower_spec {node : Lower T} {accumulator : A}
    {compute : GssFrontierKeyInterner T A → List ℕ × GssFrontierKeyInterner T A}
    (h : Computes (Upper.heads (.interface node accumulator)) compute) :
    Computes (Upper.heads (.interface node accumulator))
      (remember_lower node accumulator compute) := by
  intro s hs
  unfold remember_lower
  split
  · rename_i e he
    have hfound := List.find?_some he
    rw [Bool.and_eq_true, decide_eq_true_eq] at hfound
    have hkeyed := hs.lower e (List.mem_of_find?_eq_some he)
    rw [eq_of_same hfound.1, hfound.2] at hkeyed
    exact ⟨hs, List.prefix_refl _, hkeyed⟩
  · obtain ⟨hvalid, hgrows, hkeyed⟩ := h s hs
    exact ⟨⟨hvalid.nodup, hvalid.upper, List.forall_mem_cons.mpr ⟨hkeyed, hvalid.lower⟩⟩,
      hgrows, hkeyed⟩

omit [DecidableEq A] in
theorem remember_upper_spec {node : Upper T A}
    {compute : GssFrontierKeyInterner T A → List ℕ × GssFrontierKeyInterner T A}
    (h : Computes (Upper.heads node) compute) :
    Computes (Upper.heads node) (remember_upper node compute) := by
  intro s hs
  unfold remember_upper
  split
  · rename_i e he
    have hfound := List.find?_some he
    have hkeyed := hs.upper e (List.mem_of_find?_eq_some he)
    rw [eq_of_same hfound] at hkeyed
    exact ⟨hs, List.prefix_refl _, hkeyed⟩
  · obtain ⟨hvalid, hgrows, hkeyed⟩ := h s hs
    exact ⟨⟨hvalid.nodup, List.forall_mem_cons.mpr ⟨hkeyed, hvalid.upper⟩, hvalid.lower⟩,
      hgrows, hkeyed⟩

omit [Sharing] in
/-- The heads of a segment, one value at a time. -/
theorem segment_elems_spec {accumulator : A} {next : Lower T} {s : GssFrontierKeyInterner T A}
    {r : List ℕ × GssFrontierKeyInterner T A}
    (h : Finds (Upper.heads (.interface next accumulator)) s r) {values : List T}
    (hne : values ≠ []) (max_depth segments_len : ℕ) :
    Finds (Upper.heads (.interface (.segment values next max_depth segments_len) accumulator)) s
      (values.foldr cons_elems r) := by
  induction values generalizing max_depth segments_len with
  | nil => exact absurd rfl hne
  | cons v values ih =>
      have hheads : ∀ child, Lower.segment_rest (v :: values) next max_depth segments_len = child →
          Upper.heads (.interface (.segment (v :: values) next max_depth segments_len) accumulator) =
            [.cons v [.interface child accumulator]] := by
        rintro child rfl
        simp [Upper.heads, Lower.empty, Lower.children, Slot.values, Slot.kids]
      have hbelow : Finds (Upper.heads (.interface (Lower.segment_rest (v :: values) next max_depth
          segments_len) accumulator)) s (values.foldr cons_elems r) := by
        cases values with
        | nil => exact h
        | cons w values => exact ih (by simp) _ _
      rw [hheads _ rfl, List.foldr_cons]
      apply Finds.cons
      rw [List.flatMap_singleton]
      exact hbelow

theorem lower_kids_spec {accumulator : A} {children : List (Slot T (Lower T))}
    (h : ∀ s ∈ children, Computes (Upper.heads (.interface s.node accumulator))
      (lower_elems accumulator s.node)) (v : T) :
    Computes (((Slot.kids v children).map fun child => .interface child accumulator).flatMap
      Upper.heads) (lower_kids accumulator children v) := by
  induction children with
  | nil => exact Computes.nil
  | cons t children ih =>
      obtain ⟨ht, hrest⟩ := List.forall_mem_cons.mp h
      intro s hs
      rw [lower_kids]
      by_cases hv : t.value = v
      · have hkids : Slot.kids v (t :: children) = t.node :: Slot.kids v children := by
          simp [Slot.kids, hv]
        rw [if_pos hv, hkids, List.map_cons, List.flatMap_cons]
        exact (ht s hs).add (ih hrest)
      · have hkids : Slot.kids v (t :: children) = Slot.kids v children := by
          simp [Slot.kids, hv]
        rw [if_neg hv, hkids]
        exact ih hrest s hs

theorem lower_elems_spec (accumulator : A) {node : Lower T} (h : node.WF) :
    Computes (Upper.heads (.interface node accumulator)) (lower_elems accumulator node) := by
  induction h with
  | general hdistinct hdeep hwf hdepth ih =>
      rw [lower_elems]
      apply remember_lower_spec
      intro s hs
      apply Finds.sorted
      apply Finds.add_all
      · exact bottom_elems_spec _ s hs
      · intro v s hs
        exact (lower_kids_spec ih v s hs).cons v
  | segment hne hwf hdepth hlength ih =>
      rw [lower_elems]
      apply remember_lower_spec
      intro s hs
      exact segment_elems_spec (ih s hs) hne _ _

theorem upper_kids_spec {children : List (Slot T (Upper T A))}
    (h : ∀ s ∈ children, Computes (Upper.heads s.node) (upper_elems s.node)) (v : T) :
    Computes ((Slot.kids v children).flatMap Upper.heads) (upper_kids children v) := by
  induction children with
  | nil => exact Computes.nil
  | cons t children ih =>
      obtain ⟨ht, hrest⟩ := List.forall_mem_cons.mp h
      intro s hs
      rw [upper_kids]
      by_cases hv : t.value = v
      · have hkids : Slot.kids v (t :: children) = t.node :: Slot.kids v children := by
          simp [Slot.kids, hv]
        rw [if_pos hv, hkids, List.flatMap_cons]
        exact (ht s hs).add (ih hrest)
      · have hkids : Slot.kids v (t :: children) = Slot.kids v children := by
          simp [Slot.kids, hv]
        rw [if_neg hv, hkids]
        exact ih hrest s hs

theorem upper_elems_spec {node : Upper T A} (h : node.WF) :
    Computes (Upper.heads node) (upper_elems node) := by
  induction h with
  | interface hwf =>
      rw [upper_elems]
      exact remember_upper_spec (lower_elems_spec _ hwf)
  | branch hdistinct hdeep hwf hdepth ih =>
      rw [upper_elems]
      apply remember_upper_spec
      intro s hs
      apply Finds.sorted
      apply Finds.add_all
      · exact bottom_elems_spec _ s hs
      · intro v s hs
        exact (upper_kids_spec ih v s hs).cons v

theorem key_spec (g : LeveledGSS T A) : Computes g.inner.heads (key g) := fun s hs =>
  (upper_elems_spec g.wf s hs).sorted

/-- All keys of a run are numbers of one list of nodes. -/
theorem keys_spec (calls : List (LeveledGSS T A)) {s : GssFrontierKeyInterner T A} (hs : s.Valid) :
    ∃ interned : List (FrontierKeyNode T A), interned.Nodup ∧ s.interned <+: interned ∧
      List.Forall₂ (fun (g : LeveledGSS T A) ids => Keyed interned g.inner.heads ids ∧
        ids.Pairwise (· < ·)) calls (keys calls s) := by
  induction calls generalizing s with
  | nil => exact ⟨s.interned, hs.nodup, List.prefix_refl _, List.Forall₂.nil⟩
  | cons g calls ih =>
      obtain ⟨hvalid, hgrows, hkeyed⟩ := key_spec g s hs
      obtain ⟨interned, hnodup, hgrows', hall⟩ := ih hvalid
      exact ⟨interned, hnodup, hgrows.trans hgrows',
        List.Forall₂.cons ⟨hkeyed.later hgrows', sortDedup_sorted _⟩ hall⟩

/-- Of the stacks given to one interner, two have the same key exactly when they branch alike. -/
theorem keys_eq_iff (calls : List (LeveledGSS T A)) (i j : Fin calls.length) :
    (keys calls new)[i]? = (keys calls new)[j]? ↔ (calls.get i).Bisimilar (calls.get j) := by
  obtain ⟨interned, hnodup, -, hall⟩ := keys_spec calls new_valid
  obtain ⟨hlength, hget⟩ := List.forall₂_iff_get.mp hall
  have hat : ∀ i : Fin calls.length, (keys calls new)[i]? = some ((keys calls new).get
      (i.cast hlength)) := fun i => List.getElem?_eq_getElem (hlength ▸ i.isLt)
  have hi := hget i.1 i.isLt (hlength ▸ i.isLt)
  have hj := hget j.1 j.isLt (hlength ▸ j.isLt)
  rw [hat i, hat j, Option.some_inj]
  exact Keyed.eq_iff hnodup hi.1 hj.1 hi.2 hj.2

/-- When keys identify the same stacks: when stacks that stand for the same pairs branch alike. -/
theorem frontier_keys_exact_iff (calls : List (LeveledGSS T A)) (i j : Fin calls.length) :
    ((keys calls new)[i]? = (keys calls new)[j]? ↔ (calls.get i).SamePairs (calls.get j)) ↔
      ((calls.get i).SamePairs (calls.get j) → (calls.get i).Bisimilar (calls.get j)) := by
  rw [keys_eq_iff]
  constructor
  · exact fun h => h.mpr
  · exact fun h => ⟨LeveledGSS.Bisimilar.samePairs, h⟩

end GssFrontierKeyInterner

/-! ## Two orders of merging -/

namespace LeveledGSS

/-- The two long stacks are merged after each is merged with another one. -/
def merged_apart : LeveledGSS ℕ Unit :=
  letI := Sharing.default
  ((from_single_stack [3, 2, 1] ()).merge (from_single_stack [9] ())).merge
    ((from_single_stack [5, 4, 2, 1] ()).merge (from_single_stack [9] ()))

/-- The two long stacks are merged first. -/
def merged_together : LeveledGSS ℕ Unit :=
  letI := Sharing.default
  ((from_single_stack [3, 2, 1] ()).merge (from_single_stack [5, 4, 2, 1] ())).merge
    (from_single_stack [9] ())

theorem merged_samePairs : merged_apart.SamePairs merged_together := by
  apply samePairs_of_acc
  intro stack
  rw [merged_apart, merged_together]
  simp only [acc_merge]
  rw [sup_sup_sup_comm, sup_idem]

/-- The same stacks get different keys: one has two heads with the value 2 below the value 1. -/
theorem merged_apart_key : letI := Sharing.default
    merged_apart.SamePairs merged_together ∧
      ¬((GssFrontierKeyInterner.keys [merged_apart, merged_together] .new)[0]? =
        (GssFrontierKeyInterner.keys [merged_apart, merged_together] .new)[1]? ↔
          merged_apart.SamePairs merged_together) := by
  refine ⟨merged_samePairs, fun h => ?_⟩
  exact absurd (h.mpr merged_samePairs) (by decide +kernel)

end LeveledGSS

end GlrMask
