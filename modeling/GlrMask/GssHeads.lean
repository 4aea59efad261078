import GlrMask.LeveledGss

/-!
# Heads of a graph-structured stack

Seen from the top a node is a set of heads: the end of a stack with its
accumulator, or a value with the nodes below it. Two sets of heads that branch
alike stand for the same pairs of a stack and an accumulator.
-/

namespace GlrMask

inductive Head (T A : Type)
  | bottom (accumulator : A)
  | cons (value : T) (kids : List (Upper T A))

namespace Upper

variable {T A : Type} [DecidableEq T]

/-- The heads of a node, one for every value. -/
def heads : Upper T A → List (Head T A)
  | interface inner acc =>
      (if inner.empty then some acc else none).toList.map Head.bottom ++
        (Slot.values inner.children).map fun v =>
          Head.cons v ((Slot.kids v inner.children).map fun child => interface child acc)
  | branch children empty _ =>
      empty.toList.map Head.bottom ++
        (Slot.values children).map fun v => Head.cons v (Slot.kids v children)

/-- The stack, listed from the top down, occurs with the accumulator. -/
def Pairs (accumulator : A) : List T → Upper T A → Prop
  | stack, interface inner acc => inner.has stack = true ∧ accumulator = acc
  | [], branch _ empty _ => empty = some accumulator
  | v :: stack, branch children _ _ => ∃ n ∈ Slot.kids v children, Pairs accumulator stack n

end Upper

namespace Head

variable {T A : Type}

/-- The stack occurs with the accumulator below the head. -/
def Pairs [DecidableEq T] (accumulator : A) : List T → Head T A → Prop
  | [], bottom a => accumulator = a
  | v :: stack, cons w kids => v = w ∧ ∃ n ∈ kids, Upper.Pairs accumulator stack n
  | _, _ => False

/-- Every element of each list is related to one of the other. -/
def Matches {H : Type} (R : H → H → Prop) (hs hs' : List H) : Prop :=
  (∀ h ∈ hs, ∃ h' ∈ hs', R h h') ∧ ∀ h' ∈ hs', ∃ h ∈ hs, R h h'

variable [DecidableEq T]

/-- Related heads are of one kind, and the heads below them are related in turn. -/
structure Bisimulation (R : Head T A → Head T A → Prop) : Prop where
  bottom : ∀ a h, R (.bottom a) h → h = .bottom a
  cons : ∀ v kids h, R (.cons v kids) h →
    ∃ kids', h = .cons v kids' ∧ Matches R (kids.flatMap Upper.heads) (kids'.flatMap Upper.heads)

end Head

namespace Upper

variable {T A : Type} [DecidableEq T]

theorem exists_kids_iff {N : Type} {v : T} {slots : List (Slot T N)} {P : N → Prop} :
    (∃ n ∈ Slot.kids v slots, P n) ↔ ∃ s ∈ slots, s.value = v ∧ P s.node := by
  simp only [Slot.mem_kids]
  constructor
  · rintro ⟨n, ⟨s, hs, hv, rfl⟩, hP⟩
    exact ⟨s, hs, hv, hP⟩
  · rintro ⟨s, hs, hv, hP⟩
    exact ⟨_, ⟨s, hs, hv, rfl⟩, hP⟩

theorem joined_eq_true_iff {N : Type} {F : N → Bool} {v : T} {slots : List (Slot T N)} :
    Slot.joined F v slots = true ↔ ∃ n ∈ Slot.kids v slots, F n = true := by
  rw [Slot.joined_eq_kids]
  induction Slot.kids v slots with
  | nil => simp
  | cons n kids ih =>
      rw [List.foldr_cons, List.exists_mem_cons_iff, ← ih]
      exact Bool.or_eq_true_iff

theorem pairs_interface {accumulator acc : A} {stack : List T} {inner : Lower T} :
    Pairs accumulator stack (interface inner acc) ↔ inner.has stack = true ∧ accumulator = acc := by
  cases stack <;> rfl

/-- What occurs in a node occurs below one of its heads. -/
theorem pairs_iff_heads {accumulator : A} {stack : List T} {node : Upper T A} :
    Pairs accumulator stack node ↔ ∃ h ∈ heads node, h.Pairs accumulator stack := by
  have hvalues : ∀ {N : Type} {v : T} {slots : List (Slot T N)} {n : N},
      n ∈ Slot.kids v slots → v ∈ Slot.values slots := by
    intro N v slots n hn
    obtain ⟨s, hs, hv, -⟩ := Slot.mem_kids.mp hn
    exact Slot.mem_values.mpr ⟨s, hs, hv⟩
  cases node with
  | interface inner acc =>
      rw [pairs_interface, heads]
      simp only [List.mem_append, or_and_right, exists_or, List.mem_map, Option.mem_toList]
      cases stack with
      | nil =>
          constructor
          · rintro ⟨hempty, rfl⟩
            have hempty : inner.empty = true := hempty
            exact Or.inl ⟨_, ⟨accumulator, by rw [hempty]; rfl, rfl⟩, rfl⟩
          · rintro (⟨_, ⟨a, ha, rfl⟩, hpairs⟩ | ⟨_, ⟨v, -, rfl⟩, hpairs⟩)
            · split_ifs at ha with hempty
              obtain rfl := Option.some.inj ha
              exact ⟨hempty, hpairs⟩
            · cases hpairs
      | cons v stack =>
          rw [Lower.has_cons, joined_eq_true_iff]
          constructor
          · rintro ⟨⟨n, hn, hhas⟩, rfl⟩
            exact Or.inr ⟨_, ⟨v, hvalues hn, rfl⟩, rfl, _, List.mem_map_of_mem hn,
              pairs_interface.mpr ⟨hhas, rfl⟩⟩
          · rintro (⟨_, ⟨a, -, rfl⟩, hpairs⟩ | ⟨_, ⟨w, -, rfl⟩, rfl, m, hm, hpairs⟩)
            · cases hpairs
            · obtain ⟨n, hn, rfl⟩ := List.mem_map.mp hm
              obtain ⟨hhas, hacc⟩ := pairs_interface.mp hpairs
              exact ⟨⟨n, hn, hhas⟩, hacc⟩
  | branch children empty max_depth =>
      rw [heads]
      simp only [List.mem_append, or_and_right, exists_or, List.mem_map, Option.mem_toList]
      cases stack with
      | nil =>
          rw [Pairs]
          constructor
          · rintro rfl
            exact Or.inl ⟨_, ⟨accumulator, rfl, rfl⟩, rfl⟩
          · rintro (⟨_, ⟨a, ha, rfl⟩, hpairs⟩ | ⟨_, ⟨v, -, rfl⟩, hpairs⟩)
            · obtain rfl : accumulator = a := hpairs
              exact ha
            · cases hpairs
      | cons v stack =>
          rw [Pairs]
          constructor
          · rintro ⟨n, hn, hpairs⟩
            exact Or.inr ⟨_, ⟨v, hvalues hn, rfl⟩, rfl, n, hn, hpairs⟩
          · rintro (⟨_, ⟨a, -, rfl⟩, hpairs⟩ | ⟨_, ⟨w, -, rfl⟩, rfl, hpairs⟩)
            · cases hpairs
            · exact hpairs

/-- A stack has an accumulator when it occurs. -/
theorem acc_ne_bot_iff [SemilatticeSup A] {stack : List T} {node : Upper T A} :
    acc stack node ≠ ⊥ ↔ ∃ accumulator, Pairs accumulator stack node := by
  induction stack generalizing node with
  | nil =>
      cases node with
      | interface inner a =>
          simp only [acc_interface, pairs_interface]
          cases inner.has [] <;> simp [give]
      | branch children empty max_depth =>
          rw [acc_branch_nil]
          exact Option.ne_none_iff_exists'
  | cons v stack ih =>
      cases node with
      | interface inner a =>
          simp only [acc_interface, pairs_interface]
          cases inner.has (v :: stack) <;> simp [give]
      | branch children empty max_depth =>
          rw [acc_branch_cons, Slot.joined_eq_kids]
          simp only [Pairs]
          induction Slot.kids v children with
          | nil => simp
          | cons n kids ihk =>
              rw [List.foldr_cons, Ne, sup_eq_bot_iff, not_and_or, ← Ne, ← Ne, ih, ihk]
              simp only [List.exists_mem_cons_iff, exists_or]

theorem exists_pairs_iff_heads {accumulator : A} {stack : List T} {nodes : List (Upper T A)} :
    (∃ n ∈ nodes, Pairs accumulator stack n) ↔
      ∃ h ∈ nodes.flatMap heads, h.Pairs accumulator stack := by
  simp only [pairs_iff_heads, List.mem_flatMap]
  constructor
  · rintro ⟨n, hn, h, hh, hpairs⟩
    exact ⟨h, ⟨n, hn, hh⟩, hpairs⟩
  · rintro ⟨h, ⟨n, hn, hh⟩, hpairs⟩
    exact ⟨n, hn, h, hh, hpairs⟩

end Upper

namespace Head

variable {T A : Type} [DecidableEq T] {R : Head T A → Head T A → Prop}

omit [DecidableEq T] in
theorem exists_congr_of_matches {hs hs' : List (Head T A)} {P : Head T A → Prop}
    (h : Matches R hs hs') (hP : ∀ h h', R h h' → (P h ↔ P h')) :
    (∃ h ∈ hs, P h) ↔ ∃ h ∈ hs', P h := by
  constructor
  · rintro ⟨k, hk, hPk⟩
    obtain ⟨k', hk', hR⟩ := h.1 k hk
    exact ⟨k', hk', (hP k k' hR).mp hPk⟩
  · rintro ⟨k', hk', hPk⟩
    obtain ⟨k, hk, hR⟩ := h.2 k' hk'
    exact ⟨k, hk, (hP k k' hR).mpr hPk⟩

/-- The same pairs occur below related heads. -/
theorem Bisimulation.pairs_iff (hR : Bisimulation R) (accumulator : A) (stack : List T)
    {h h' : Head T A} (hh : R h h') : h.Pairs accumulator stack ↔ h'.Pairs accumulator stack := by
  induction stack generalizing h h' with
  | nil =>
      cases h with
      | bottom a => rw [hR.bottom a h' hh]
      | cons v kids =>
          obtain ⟨kids', rfl, -⟩ := hR.cons v kids h' hh
          rfl
  | cons w stack ih =>
      cases h with
      | bottom a => rw [hR.bottom a h' hh]
      | cons v kids =>
          obtain ⟨kids', rfl, hmatches⟩ := hR.cons v kids h' hh
          rw [Pairs, Pairs, Upper.exists_pairs_iff_heads, Upper.exists_pairs_iff_heads,
            exists_congr_of_matches hmatches fun _ _ => ih]

end Head

namespace LeveledGSS

variable {T A : Type} [DecidableEq T]

/-- The same stacks occur with the same accumulators. -/
def SamePairs (g g' : LeveledGSS T A) : Prop :=
  ∀ accumulator stack, g.inner.Pairs accumulator stack ↔ g'.inner.Pairs accumulator stack

/-- The heads of both branch alike. -/
def Bisimilar (g g' : LeveledGSS T A) : Prop :=
  ∃ R, Head.Bisimulation R ∧ Head.Matches R g.inner.heads g'.inner.heads

/-- Without accumulators to tell apart, only the stacks matter. -/
theorem samePairs_of_acc {g g' : LeveledGSS T Unit} (h : ∀ stack, g.acc stack = g'.acc stack) :
    SamePairs g g' := by
  have hexists : ∀ (g : LeveledGSS T Unit) stack, g.acc stack ≠ ⊥ ↔ g.inner.Pairs () stack := by
    intro g stack
    rw [acc, Upper.acc_ne_bot_iff]
    exact ⟨fun ⟨_, h⟩ => h, fun h => ⟨(), h⟩⟩
  intro _ stack
  rw [← hexists, ← hexists, h]

theorem Bisimilar.samePairs {g g' : LeveledGSS T A} (h : Bisimilar g g') : SamePairs g g' := by
  obtain ⟨R, hR, hmatches⟩ := h
  intro accumulator stack
  rw [Upper.pairs_iff_heads, Upper.pairs_iff_heads]
  exact Head.exists_congr_of_matches hmatches fun _ _ => hR.pairs_iff accumulator stack

end LeveledGSS

end GlrMask
