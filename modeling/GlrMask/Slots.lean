import Mathlib.Data.List.Nodup
import Mathlib.Order.Lattice
import Mathlib.Tactic

/-!
# Slots

A map from a value and a depth to a node, as a list of slots. What a family of
nodes stands for is the join of what its members stand for.
-/

namespace GlrMask

structure Slot (T N : Type*) where
  value : T
  depth : ℕ
  node : N

namespace Slot

variable {T N B : Type*} [DecidableEq T]

def key (slot : Slot T N) : T × ℕ := (slot.value, slot.depth)

def lookup (v : T) (d : ℕ) : List (Slot T N) → Option N
  | [] => none
  | s :: slots => if s.key = (v, d) then some s.node else lookup v d slots

/-- Put a node into its slot, replacing the node that is there. -/
def put (v : T) (d : ℕ) (n : N) : List (Slot T N) → List (Slot T N)
  | [] => [⟨v, d, n⟩]
  | s :: slots => if s.key = (v, d) then ⟨v, d, n⟩ :: slots else s :: put v d n slots

/-- Put a node into its slot, joined with the node that is there. -/
def merge (join : N → N → N) (slots : List (Slot T N)) (s : Slot T N) : List (Slot T N) :=
  match lookup s.value s.depth slots with
  | some n => put s.value s.depth (join n s.node) slots
  | none => put s.value s.depth s.node slots

def Distinct (slots : List (Slot T N)) : Prop := (slots.map key).Nodup

/-- The join of what the nodes of a value stand for. -/
def joined [SemilatticeSup B] [OrderBot B] (F : N → B) (v : T) : List (Slot T N) → B
  | [] => ⊥
  | s :: slots => (if s.value = v then F s.node else ⊥) ⊔ joined F v slots

/-- One more than the greatest depth. -/
def height (depth : N → ℕ) : List (Slot T N) → ℕ
  | [] => 0
  | s :: slots => max (depth s.node + 1) (height depth slots)

variable {slots more : List (Slot T N)} {v w : T} {d : ℕ} {n old : N} {s : Slot T N}

theorem mem_of_lookup (h : lookup v d slots = some n) : ⟨v, d, n⟩ ∈ slots := by
  induction slots with
  | nil => cases h
  | cons s slots ih =>
      rw [lookup] at h
      split_ifs at h with hkey
      · obtain rfl := Option.some.inj h
        obtain ⟨rfl, rfl⟩ := Prod.mk.inj hkey
        exact List.mem_cons_self
      · exact List.mem_cons_of_mem _ (ih h)

theorem mem_put (h : s ∈ put v d n slots) : s = ⟨v, d, n⟩ ∨ s ∈ slots := by
  induction slots with
  | nil => exact Or.inl (List.mem_singleton.mp h)
  | cons t slots ih =>
      rw [put] at h
      split_ifs at h with hkey
      · exact (List.mem_cons.mp h).imp id (List.mem_cons_of_mem _)
      · rcases List.mem_cons.mp h with rfl | h
        · exact Or.inr List.mem_cons_self
        · exact (ih h).imp id (List.mem_cons_of_mem _)

theorem keys_put : (put v d n slots).map key =
    if (v, d) ∈ slots.map key then slots.map key else slots.map key ++ [(v, d)] := by
  induction slots with
  | nil => rfl
  | cons t slots ih =>
      rw [put]
      by_cases hkey : t.key = (v, d)
      · rw [if_pos hkey, List.map_cons, List.map_cons, hkey, if_pos List.mem_cons_self]
        rfl
      · rw [if_neg hkey, List.map_cons, ih, List.map_cons]
        have hne : (v, d) ≠ t.key := Ne.symm hkey
        by_cases hmem : (v, d) ∈ slots.map key
        · rw [if_pos hmem, if_pos (List.mem_cons_of_mem _ hmem)]
        · rw [if_neg hmem, if_neg (List.not_mem_cons_of_ne_of_not_mem hne hmem), List.cons_append]

theorem Distinct.put (h : Distinct slots) : Distinct (put v d n slots) := by
  unfold Distinct at h ⊢
  rw [keys_put]
  split_ifs with hmem
  · exact h
  · exact List.nodup_append.mpr ⟨h, List.nodup_singleton _, fun a ha b hb he => by
      rw [List.mem_singleton.mp hb] at he
      exact hmem (he ▸ ha)⟩

section Over

variable [SemilatticeSup B] [OrderBot B] {F : N → B} {x : B}

@[simp] theorem joined_nil : joined F v ([] : List (Slot T N)) = ⊥ := rfl

theorem joined_cons : joined F v (s :: slots) = (if s.value = v then F s.node else ⊥) ⊔ joined F v slots :=
  rfl

theorem joined_le_iff : joined F v slots ≤ x ↔ ∀ s ∈ slots, s.value = v → F s.node ≤ x := by
  induction slots with
  | nil => simp
  | cons s slots ih =>
      rw [joined_cons, sup_le_iff, ih, List.forall_mem_cons]
      apply and_congr_left'
      by_cases h : s.value = v
      · simp [h]
      · simp [h]

theorem joined_append : joined F v (slots ++ more) = joined F v slots ⊔ joined F v more := by
  induction slots with
  | nil => rw [List.nil_append, joined_nil, bot_sup_eq]
  | cons s slots ih => rw [List.cons_append, joined_cons, joined_cons, ih, sup_assoc]

theorem joined_congr {G : N → B} (h : ∀ s ∈ slots, s.value = v → F s.node = G s.node) :
    joined F v slots = joined G v slots := by
  induction slots with
  | nil => rfl
  | cons s slots ih =>
      rw [joined_cons, joined_cons, ih fun t ht => h t (List.mem_cons_of_mem _ ht)]
      by_cases hv : s.value = v
      · rw [if_pos hv, if_pos hv, h s List.mem_cons_self hv]
      · rw [if_neg hv, if_neg hv]

theorem joined_map {M : Type*} (f : N → M) (g : N → ℕ) {G : M → B} :
    joined G v (slots.map fun s => ⟨s.value, g s.node, f s.node⟩) =
      joined (fun n => G (f n)) v slots := by
  induction slots with
  | nil => rfl
  | cons s slots ih => rw [List.map_cons, joined_cons, joined_cons, ih]

/-- What the nodes stand for may be mapped after joining it. -/
theorem joined_hom {C : Type*} [SemilatticeSup C] [OrderBot C] {h : B → C} (hbot : h ⊥ = ⊥)
    (hsup : ∀ a b, h (a ⊔ b) = h a ⊔ h b) :
    joined (fun n => h (F n)) v slots = h (joined F v slots) := by
  induction slots with
  | nil => exact hbot.symm
  | cons s slots ih =>
      rw [joined_cons, joined_cons, hsup, ih]
      by_cases hv : s.value = v
      · rw [if_pos hv, if_pos hv]
      · rw [if_neg hv, if_neg hv, hbot]

theorem joined_put_new (h : lookup v d slots = none) :
    joined F w (put v d n slots) = joined F w slots ⊔ (if v = w then F n else ⊥) := by
  induction slots with
  | nil => rw [put, joined_cons, joined_nil, sup_comm]
  | cons s slots ih =>
      rw [lookup] at h
      split_ifs at h with hkey
      rw [put, if_neg hkey, joined_cons, joined_cons, ih h, sup_assoc]

theorem joined_put_old (h : lookup v d slots = some old) {x : B} (hn : F n = F old ⊔ x) :
    joined F w (put v d n slots) = joined F w slots ⊔ (if v = w then x else ⊥) := by
  induction slots with
  | nil => cases h
  | cons s slots ih =>
      rw [lookup] at h
      rw [put]
      split_ifs at h ⊢ with hkey hw
      · obtain rfl := Option.some.inj h
        obtain ⟨rfl, -⟩ := Prod.mk.inj hkey
        rw [joined_cons, joined_cons, if_pos hw, if_pos hw, hn, sup_right_comm]
      · obtain ⟨rfl, -⟩ := Prod.mk.inj hkey
        rw [joined_cons, joined_cons, if_neg hw, if_neg hw, sup_bot_eq]
      · rename_i hw
        rw [joined_cons, joined_cons, ih h, if_pos hw, sup_assoc]
      · rename_i hw
        rw [joined_cons, joined_cons, ih h, if_neg hw, sup_assoc]

end Over

/-! ## Merging families of slots -/

def mergeAll (join : N → N → N) (slots more : List (Slot T N)) : List (Slot T N) :=
  more.foldl (merge join) slots

theorem mem_keys_put {k : T × ℕ} :
    k ∈ (put v d n slots).map key ↔ k = (v, d) ∨ k ∈ slots.map key := by
  rw [keys_put]
  split_ifs with hmem
  · constructor
    · exact Or.inr
    · rintro (rfl | h)
      · exact hmem
      · exact h
  · rw [List.mem_append, List.mem_singleton, or_comm]

theorem mem_keys_mergeAll {join : N → N → N} {k : T × ℕ} :
    k ∈ (mergeAll join slots more).map key ↔ k ∈ slots.map key ∨ k ∈ more.map key := by
  induction more generalizing slots with
  | nil => simp [mergeAll]
  | cons s more ih =>
      have hstep : k ∈ (merge join slots s).map key ↔ k = s.key ∨ k ∈ slots.map key := by
        unfold merge
        cases lookup s.value s.depth slots <;> exact mem_keys_put
      rw [mergeAll, List.foldl_cons, ← mergeAll, ih, hstep, List.map_cons, List.mem_cons]
      tauto

theorem Distinct.mergeAll {join : N → N → N} (h : Distinct slots) :
    Distinct (mergeAll join slots more) := by
  induction more generalizing slots with
  | nil => exact h
  | cons s more ih =>
      apply ih
      unfold merge
      cases lookup s.value s.depth slots <;> exact h.put

section Good

variable [SemilatticeSup B] [OrderBot B] {F : N → B} {Good : ℕ → N → Prop} {join : N → N → N}

theorem good_put (h : ∀ s ∈ slots, Good s.depth s.node) (hn : Good d n) :
    ∀ s ∈ put v d n slots, Good s.depth s.node := by
  intro s hs
  rcases mem_put hs with rfl | hs
  · exact hn
  · exact h s hs

theorem good_merge (hjoin : ∀ d n m, Good d n → Good d m → Good d (join n m))
    (h : ∀ s ∈ slots, Good s.depth s.node) (hs : Good s.depth s.node) :
    ∀ t ∈ merge join slots s, Good t.depth t.node := by
  unfold merge
  cases hlookup : lookup s.value s.depth slots with
  | none => exact good_put h hs
  | some n => exact good_put h (hjoin _ _ _ (h _ (mem_of_lookup hlookup)) hs)

/-- Merging keeps what holds of all nodes of one depth. -/
theorem good_mergeAll (hjoin : ∀ d n m, Good d n → Good d m → Good d (join n m))
    (h : ∀ s ∈ slots, Good s.depth s.node) (hmore : ∀ s ∈ more, Good s.depth s.node) :
    ∀ s ∈ mergeAll join slots more, Good s.depth s.node := by
  induction more generalizing slots with
  | nil => exact h
  | cons s more ih =>
      apply ih
      · exact good_merge hjoin h (hmore s List.mem_cons_self)
      · exact fun t ht => hmore t (List.mem_cons_of_mem _ ht)

/-- Merging joins what the families stand for. -/
theorem joined_mergeAll (hjoin : ∀ d n m, Good d n → Good d m → Good d (join n m))
    (hF : ∀ d n m, Good d n → Good d m → F (join n m) = F n ⊔ F m)
    (h : ∀ s ∈ slots, Good s.depth s.node) (hmore : ∀ s ∈ more, Good s.depth s.node) :
    joined F w (mergeAll join slots more) = joined F w slots ⊔ joined F w more := by
  induction more generalizing slots with
  | nil => rw [mergeAll, List.foldl_nil, joined_nil, sup_bot_eq]
  | cons s more ih =>
      have hs := hmore s List.mem_cons_self
      have hrest : ∀ t ∈ more, Good t.depth t.node := fun t ht => hmore t (List.mem_cons_of_mem _ ht)
      have hstep : joined F w (merge join slots s) =
          joined F w slots ⊔ (if s.value = w then F s.node else ⊥) := by
        unfold merge
        cases hlookup : lookup s.value s.depth slots with
        | none => exact joined_put_new hlookup
        | some n => exact joined_put_old hlookup (hF _ _ _ (h _ (mem_of_lookup hlookup)) hs)
      have hgood := good_merge hjoin h hs
      rw [mergeAll, List.foldl_cons, ← mergeAll, ih hgood hrest, hstep, joined_cons, sup_assoc]

end Good

section Height

variable {depth : N → ℕ}

omit [DecidableEq T] in
theorem height_le_iff {x : ℕ} : height depth slots ≤ x ↔ ∀ s ∈ slots, depth s.node + 1 ≤ x := by
  induction slots with
  | nil => simp [height]
  | cons s slots ih => rw [height, max_le_iff, ih, List.forall_mem_cons]

omit [DecidableEq T] in
theorem lt_height (h : s ∈ slots) : depth s.node < height depth slots :=
  height_le_iff.mp le_rfl s h

/-- The depths of the slots are those of their nodes. -/
def Deep (depth : N → ℕ) (slots : List (Slot T N)) : Prop := ∀ s ∈ slots, depth s.node = s.depth

omit [DecidableEq T] in
theorem Deep.height_le_iff (h : Deep depth slots) {x : ℕ} :
    height depth slots ≤ x ↔ ∀ k ∈ slots.map key, k.2 + 1 ≤ x := by
  rw [Slot.height_le_iff, List.forall_mem_map]
  apply forall₂_congr
  intro s hs
  rw [h s hs]
  rfl

theorem height_mergeAll {join : N → N → N} (h : Deep depth slots) (hmore : Deep depth more)
    (hall : Deep depth (mergeAll join slots more)) :
    height depth (mergeAll join slots more) = max (height depth slots) (height depth more) := by
  apply eq_of_forall_ge_iff
  intro x
  rw [hall.height_le_iff, max_le_iff, h.height_le_iff, hmore.height_le_iff]
  simp only [mem_keys_mergeAll, or_imp, forall_and]

end Height

/-! ## Filling slots one after the other -/

/-- Put every node into its slot; of several nodes for one slot the last stays. -/
def putAll (slots : List (Slot T N)) : List (Slot T N) :=
  slots.foldl (fun acc s => put s.value s.depth s.node acc) []

theorem put_of_not_mem (h : (v, d) ∉ slots.map key) : put v d n slots = slots ++ [⟨v, d, n⟩] := by
  induction slots with
  | nil => rfl
  | cons s slots ih =>
      rw [List.map_cons, List.mem_cons, not_or] at h
      rw [put, if_neg (Ne.symm h.1), ih h.2, List.cons_append]

theorem putAll_of_distinct (h : Distinct slots) : putAll slots = slots := by
  suffices hfold : ∀ (done rest : List (Slot T N)), Distinct (done ++ rest) →
      rest.foldl (fun acc s => put s.value s.depth s.node acc) done = done ++ rest from
    hfold [] slots h
  intro done rest
  induction rest generalizing done with
  | nil => exact fun _ => (List.append_nil done).symm
  | cons s rest ih =>
      intro h
      have hnew : s.key ∉ done.map key := by
        unfold Distinct at h
        rw [List.map_append, List.map_cons] at h
        exact fun hmem => List.disjoint_of_nodup_append h hmem List.mem_cons_self
      rw [List.foldl_cons, put_of_not_mem hnew, ih, List.append_assoc, List.singleton_append]
      rwa [List.append_assoc, List.singleton_append]

/-- The nodes that stay when all are put into their slots. -/
def survivors : List (Slot T N) → List (Slot T N)
  | [] => []
  | s :: slots => if s.key ∈ slots.map key then survivors slots else s :: survivors slots

theorem mem_put_iff (h : Distinct slots) :
    s ∈ put v d n slots ↔ s = ⟨v, d, n⟩ ∨ s ∈ slots ∧ s.key ≠ (v, d) := by
  induction slots with
  | nil => simp [put]
  | cons t slots ih =>
      obtain ⟨ht, htail⟩ := List.nodup_cons.mp h
      have hne : ∀ u ∈ slots, u.key ≠ t.key := fun u hu he => ht (he ▸ List.mem_map_of_mem hu)
      rw [put]
      split_ifs with hkey
      · rw [List.mem_cons, List.mem_cons]
        constructor
        · rintro (rfl | hs)
          · exact Or.inl rfl
          · exact Or.inr ⟨Or.inr hs, hkey ▸ hne s hs⟩
        · rintro (rfl | ⟨rfl | hs, hs'⟩)
          · exact Or.inl rfl
          · exact absurd hkey hs'
          · exact Or.inr hs
      · rw [List.mem_cons, List.mem_cons, ih htail]
        constructor
        · rintro (rfl | rfl | hs)
          · exact Or.inr ⟨Or.inl rfl, hkey⟩
          · exact Or.inl rfl
          · exact Or.inr ⟨Or.inr hs.1, hs.2⟩
        · rintro (rfl | ⟨rfl | hs, hs'⟩)
          · exact Or.inr (Or.inl rfl)
          · exact Or.inl rfl
          · exact Or.inr (Or.inr ⟨hs, hs'⟩)

theorem mem_putAll : s ∈ putAll slots ↔ s ∈ survivors slots := by
  suffices hfold : ∀ (rest done : List (Slot T N)), Distinct done →
      (s ∈ rest.foldl (fun acc s => put s.value s.depth s.node acc) done ↔
        s ∈ done ∧ s.key ∉ rest.map key ∨ s ∈ survivors rest) by
    have h := hfold slots [] List.nodup_nil
    simpa [putAll] using h
  intro rest
  induction rest with
  | nil => simp [survivors]
  | cons t rest ih =>
      intro done hdone
      rw [List.foldl_cons, ih _ hdone.put, mem_put_iff hdone, survivors, List.map_cons,
        List.mem_cons]
      have hkey : (Slot.mk t.value t.depth t.node : Slot T N) = t := rfl
      rw [hkey]
      by_cases hlater : t.key ∈ rest.map key
      · rw [if_pos hlater]
        constructor
        · rintro (⟨rfl | hs, hs'⟩ | hs)
          · exact absurd hlater hs'
          · exact Or.inl ⟨hs.1, not_or.mpr ⟨hs.2, hs'⟩⟩
          · exact Or.inr hs
        · rintro (⟨hs, hs'⟩ | hs)
          · exact Or.inl ⟨Or.inr ⟨hs, (not_or.mp hs').1⟩, (not_or.mp hs').2⟩
          · exact Or.inr hs
      · rw [if_neg hlater, List.mem_cons]
        constructor
        · rintro (⟨rfl | hs, hs'⟩ | hs)
          · exact Or.inr (Or.inl rfl)
          · exact Or.inl ⟨hs.1, not_or.mpr ⟨hs.2, hs'⟩⟩
          · exact Or.inr (Or.inr hs)
        · rintro (⟨hs, hs'⟩ | rfl | hs)
          · exact Or.inl ⟨Or.inr ⟨hs, (not_or.mp hs').1⟩, (not_or.mp hs').2⟩
          · exact Or.inl ⟨Or.inl rfl, hlater⟩
          · exact Or.inr hs

theorem mem_keys_putAll {k : T × ℕ} : k ∈ (putAll slots).map key ↔ k ∈ slots.map key := by
  suffices hfold : ∀ (rest done : List (Slot T N)),
      k ∈ (rest.foldl (fun acc s => put s.value s.depth s.node acc) done).map key ↔
        k ∈ done.map key ∨ k ∈ rest.map key by
    have h := hfold slots []
    simpa [putAll] using h
  intro rest
  induction rest with
  | nil => simp
  | cons t rest ih =>
      intro done
      rw [List.foldl_cons, ih, mem_keys_put, List.map_cons, List.mem_cons]
      have hkey : (t.value, t.depth) = t.key := rfl
      rw [hkey]
      tauto

theorem putAll_distinct : Distinct (putAll slots) := by
  suffices hfold : ∀ (rest done : List (Slot T N)), Distinct done →
      Distinct (rest.foldl (fun acc s => put s.value s.depth s.node acc) done) from
    hfold slots [] List.nodup_nil
  intro rest
  induction rest with
  | nil => exact fun _ h => h
  | cons t rest ih => exact fun done h => ih _ h.put

theorem mem_of_mem_survivors (h : s ∈ survivors slots) : s ∈ slots := by
  induction slots with
  | nil => exact h
  | cons t slots ih =>
      rw [survivors] at h
      split_ifs at h
      · exact List.mem_cons_of_mem _ (ih h)
      · rcases List.mem_cons.mp h with rfl | h
        · exact List.mem_cons_self
        · exact List.mem_cons_of_mem _ (ih h)

theorem joined_eq_of_mem_iff [SemilatticeSup B] [OrderBot B] {F : N → B}
    (h : ∀ s, s ∈ slots ↔ s ∈ more) : joined F v slots = joined F v more := by
  apply eq_of_forall_ge_iff
  intro x
  simp only [joined_le_iff, h]

/-- One more than the greatest depth of a slot. -/
def levels : List (Slot T N) → ℕ
  | [] => 0
  | s :: slots => max (s.depth + 1) (levels slots)

omit [DecidableEq T] in
theorem levels_le_iff {x : ℕ} : levels slots ≤ x ↔ ∀ k ∈ slots.map key, k.2 + 1 ≤ x := by
  induction slots with
  | nil => simp [levels]
  | cons s slots ih => rw [levels, max_le_iff, ih, List.map_cons, List.forall_mem_cons]; rfl

omit [DecidableEq T] in
theorem Deep.height_eq_levels {depth : N → ℕ} (h : Deep depth slots) :
    height depth slots = levels slots := by
  apply eq_of_forall_ge_iff
  intro x
  rw [h.height_le_iff, levels_le_iff]

omit [DecidableEq T] in
theorem levels_eq_of_keys {M : Type*} {others : List (Slot T M)}
    (h : slots.map key = others.map key) : levels slots = levels others := by
  apply eq_of_forall_ge_iff
  intro x
  rw [levels_le_iff, levels_le_iff, h]

theorem putAll_eq_nil_iff : putAll slots = [] ↔ slots = [] := by
  rw [← List.map_eq_nil_iff (f := key), ← List.map_eq_nil_iff (f := key) (l := slots),
    List.eq_nil_iff_forall_not_mem, List.eq_nil_iff_forall_not_mem]
  simp only [mem_keys_putAll]

theorem joined_putAll [SemilatticeSup B] [OrderBot B] {F : N → B} :
    joined F v (putAll slots) = joined F v (survivors slots) :=
  joined_eq_of_mem_iff fun _ => mem_putAll

theorem levels_putAll : levels (putAll slots) = levels slots := by
  apply eq_of_forall_ge_iff
  intro x
  simp only [levels_le_iff, mem_keys_putAll]

/-! ## Families whose nodes correspond -/

section Related

variable {M : Type*} {R : Slot T N → Slot T M → Prop} {others : List (Slot T M)}

omit [DecidableEq T] in
theorem keys_eq_of_related (hkey : ∀ s t, R s t → s.key = t.key)
    (h : List.Forall₂ R slots others) : slots.map key = others.map key := by
  induction h with
  | nil => rfl
  | cons hst _ ih => rw [List.map_cons, List.map_cons, hkey _ _ hst, ih]

theorem survivors_related (hkey : ∀ s t, R s t → s.key = t.key)
    (h : List.Forall₂ R slots others) : List.Forall₂ R (survivors slots) (survivors others) := by
  induction h with
  | nil => exact List.Forall₂.nil
  | @cons s t slots others hst hrest ih =>
      rw [survivors, survivors, ← keys_eq_of_related hkey hrest, ← hkey s t hst]
      split_ifs
      · exact ih
      · exact List.Forall₂.cons hst ih

theorem joined_related [SemilatticeSup B] [OrderBot B] {F : N → B} {G : M → B}
    (h : List.Forall₂ (fun s t => s.value = t.value ∧ F s.node = G t.node) slots others) :
    joined F v slots = joined G v others := by
  induction h with
  | nil => rfl
  | cons hst _ ih => rw [joined_cons, joined_cons, ih, hst.1, hst.2]

end Related

/-! ## One value at a time -/

/-- The values of a family, each once. -/
def values : List (Slot T N) → List T
  | [] => []
  | s :: slots => s.value :: (values slots).filter fun v => decide (v ≠ s.value)

/-- The nodes of a value. -/
def kids (v : T) (slots : List (Slot T N)) : List N :=
  (slots.filter fun s => decide (s.value = v)).map node

theorem mem_values : v ∈ values slots ↔ ∃ s ∈ slots, s.value = v := by
  induction slots with
  | nil => simp [values]
  | cons s slots ih =>
      rw [values, List.mem_cons, List.mem_filter, ih, decide_eq_true_eq]
      simp only [List.mem_cons, exists_eq_or_imp]
      by_cases h : v = s.value
      · simp [h]
      · simp [h, Ne.symm h]

theorem values_nodup : (values slots).Nodup := by
  induction slots with
  | nil => exact List.nodup_nil
  | cons s slots ih =>
      rw [values]
      apply List.nodup_cons.mpr ⟨fun h => ?_, ih.filter _⟩
      exact of_decide_eq_true (List.mem_filter.mp h).2 rfl

theorem mem_kids : n ∈ kids v slots ↔ ∃ s ∈ slots, s.value = v ∧ s.node = n := by
  simp only [kids, List.mem_map, List.mem_filter, decide_eq_true_eq, and_assoc]

theorem kids_ne_nil (h : v ∈ values slots) : kids v slots ≠ [] := by
  obtain ⟨s, hs, hv⟩ := mem_values.mp h
  exact List.ne_nil_of_mem (mem_kids.mpr ⟨s, hs, hv, rfl⟩)

section Joins

variable [SemilatticeSup B] [OrderBot B] {F : N → B}

theorem joined_eq_bot (h : v ∉ values slots) : joined F v slots = ⊥ := by
  apply le_bot_iff.mp
  apply joined_le_iff.mpr
  intro s hs hv
  exact absurd (mem_values.mpr ⟨s, hs, hv⟩) h

/-- What a value stands for is the join over its nodes. -/
theorem joined_eq_kids : joined F v slots = (kids v slots).foldr (fun n x => F n ⊔ x) ⊥ := by
  induction slots with
  | nil => rfl
  | cons s slots ih =>
      rw [joined_cons, ih, kids, kids, List.filter_cons]
      by_cases h : s.value = v
      · simp [h]
      · simp [h]

omit [DecidableEq T] [SemilatticeSup B] [OrderBot B] in
theorem foldl_good {W : N → Prop} {join : N → N → N} (hW : ∀ n m, W n → W m → W (join n m))
    {first : N} {rest : List N} (hfirst : W first) (hrest : ∀ n ∈ rest, W n) :
    W (rest.foldl join first) := by
  induction rest generalizing first with
  | nil => exact hfirst
  | cons n rest ih =>
      obtain ⟨hn, hrest⟩ := List.forall_mem_cons.mp hrest
      exact ih (hW _ _ hfirst hn) hrest

omit [DecidableEq T] in
/-- Nodes may be joined one after the other. -/
theorem foldl_join {W : N → Prop} {join : N → N → N} (hW : ∀ n m, W n → W m → W (join n m))
    (hF : ∀ n m, W n → W m → F (join n m) = F n ⊔ F m) {first : N} {rest : List N}
    (hfirst : W first) (hrest : ∀ n ∈ rest, W n) :
    F (rest.foldl join first) = (first :: rest).foldr (fun n x => F n ⊔ x) ⊥ := by
  induction rest generalizing first with
  | nil => exact (sup_bot_eq _).symm
  | cons n rest ih =>
      obtain ⟨hn, hrest⟩ := List.forall_mem_cons.mp hrest
      rw [List.foldl_cons, ih (hW _ _ hfirst hn) hrest, List.foldr_cons, hF _ _ hfirst hn,
        List.foldr_cons, List.foldr_cons, sup_assoc]

/-- A family made with at most one node for a value. -/
theorem joined_filterMap {M : Type*} {G : M → B} (vs : List T) (g : T → Option M) (depth : M → ℕ) :
    joined G v (vs.filterMap fun w => (g w).map fun m => ⟨w, depth m, m⟩) =
      if v ∈ vs then (g v).elim ⊥ G else ⊥ := by
  induction vs with
  | nil => rfl
  | cons w vs ih =>
      rw [List.filterMap_cons]
      by_cases hv : v = w
      · subst hv
        rw [if_pos List.mem_cons_self]
        cases hg : g v with
        | none =>
            rw [hg] at ih
            rw [Option.map_none, ih]
            exact ite_self _
        | some m =>
            rw [hg] at ih
            rw [Option.map_some, joined_cons, ih, if_pos rfl]
            apply sup_eq_left.mpr
            split_ifs
            · exact le_rfl
            · exact bot_le
      · have hmem : v ∈ w :: vs ↔ v ∈ vs := by simp [hv]
        simp only [hmem]
        cases hg : g w with
        | none => exact ih
        | some m => rw [Option.map_some, joined_cons, ih, if_neg (Ne.symm hv), bot_sup_eq]

end Joins

end Slot

end GlrMask
