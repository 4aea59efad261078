import GlrMask.GssHeads

/-!
# Equality of nodes

Whether two nodes have the same value, and the set of stacks of a node when the
accumulators are ignored.
-/

namespace GlrMask

variable {T A : Type} [DecidableEq T]

namespace Lower

mutual

def beq : Lower T → Lower T → Bool
  | general children empty max_depth, general children' empty' max_depth' =>
      beq_all children children' && decide (empty = empty') && decide (max_depth = max_depth')
  | segment values next max_depth segments_len, segment values' next' max_depth' segments_len' =>
      decide (values = values') && beq next next' && decide (max_depth = max_depth') &&
        decide (segments_len = segments_len')
  | _, _ => false

def beq_all : List (Slot T (Lower T)) → List (Slot T (Lower T)) → Bool
  | [], [] => true
  | ⟨value, depth, child⟩ :: kids, ⟨value', depth', child'⟩ :: kids' =>
      decide (value = value') && decide (depth = depth') && beq child child' && beq_all kids kids'
  | _, _ => false

end

mutual

theorem beq_iff : ∀ (l l' : Lower T), beq l l' = true ↔ l = l'
  | general children empty max_depth, general children' empty' max_depth' => by
      simp only [beq, Bool.and_eq_true, decide_eq_true_eq, beq_all_iff, general.injEq, and_assoc]
  | segment values next max_depth segments_len, segment values' next' max_depth' segments_len' => by
      simp only [beq, Bool.and_eq_true, decide_eq_true_eq, beq_iff next next', segment.injEq, and_assoc]
  | general .., segment .. => by simp [beq]
  | segment .., general .. => by simp [beq]

theorem beq_all_iff : ∀ (kids kids' : List (Slot T (Lower T))), beq_all kids kids' = true ↔ kids = kids'
  | [], [] => by simp [beq_all]
  | ⟨value, depth, child⟩ :: kids, ⟨value', depth', child'⟩ :: kids' => by
      simp only [beq_all, Bool.and_eq_true, decide_eq_true_eq, beq_iff child child',
        beq_all_iff kids kids', List.cons.injEq, Slot.mk.injEq, and_assoc]
  | [], _ :: _ => by simp [beq_all]
  | _ :: _, [] => by simp [beq_all]

end

instance : DecidableEq (Lower T) := fun l l' => decidable_of_iff _ (beq_iff l l')

end Lower

namespace Upper

variable [DecidableEq A]

mutual

def beq : Upper T A → Upper T A → Bool
  | branch children empty max_depth, branch children' empty' max_depth' =>
      beq_all children children' && decide (empty = empty') && decide (max_depth = max_depth')
  | interface inner acc, interface inner' acc' => decide (inner = inner') && decide (acc = acc')
  | _, _ => false

def beq_all : List (Slot T (Upper T A)) → List (Slot T (Upper T A)) → Bool
  | [], [] => true
  | ⟨value, depth, child⟩ :: kids, ⟨value', depth', child'⟩ :: kids' =>
      decide (value = value') && decide (depth = depth') && beq child child' && beq_all kids kids'
  | _, _ => false

end

mutual

theorem beq_iff : ∀ (u u' : Upper T A), beq u u' = true ↔ u = u'
  | branch children empty max_depth, branch children' empty' max_depth' => by
      simp only [beq, Bool.and_eq_true, decide_eq_true_eq, beq_all_iff, branch.injEq, and_assoc]
  | interface inner acc, interface inner' acc' => by
      simp only [beq, Bool.and_eq_true, decide_eq_true_eq, interface.injEq]
  | branch .., interface .. => by simp [beq]
  | interface .., branch .. => by simp [beq]

theorem beq_all_iff : ∀ (kids kids' : List (Slot T (Upper T A))), beq_all kids kids' = true ↔ kids = kids'
  | [], [] => by simp [beq_all]
  | ⟨value, depth, child⟩ :: kids, ⟨value', depth', child'⟩ :: kids' => by
      simp only [beq_all, Bool.and_eq_true, decide_eq_true_eq, beq_iff child child',
        beq_all_iff kids kids', List.cons.injEq, Slot.mk.injEq, and_assoc]
  | [], _ :: _ => by simp [beq_all]
  | _ :: _, [] => by simp [beq_all]

end

instance : DecidableEq (Upper T A) := fun u u' => decidable_of_iff _ (beq_iff u u')

/-! ## Stacks without accumulators -/

omit [DecidableEq A]

/-- Whether a stack, listed from the top down, is one of the node's. -/
def has : List T → Upper T A → Bool
  | stack, interface inner _ => inner.has stack
  | [], branch _ empty _ => empty.isSome
  | v :: stack, branch children _ _ => Slot.joined (has stack) v children

theorem has_interface (stack : List T) (inner : Lower T) (acc : A) :
    has stack (interface inner acc) = inner.has stack := by
  cases stack <;> rfl

/-- The stacks are those that occur with some accumulator. -/
theorem has_iff {stack : List T} {node : Upper T A} :
    has stack node = true ↔ ∃ accumulator, Pairs accumulator stack node := by
  induction stack generalizing node with
  | nil =>
      cases node with
      | interface inner acc => simp [has, Pairs]
      | branch children empty max_depth => simp [has, Pairs, Option.isSome_iff_exists]
  | cons v stack ih =>
      cases node with
      | interface inner acc => simp [has, Pairs]
      | branch children empty max_depth =>
          rw [has, joined_eq_true_iff]
          simp only [ih, Pairs]
          constructor
          · rintro ⟨n, hn, a, ha⟩
            exact ⟨a, n, hn, ha⟩
          · rintro ⟨a, n, hn, ha⟩
            exact ⟨n, hn, a, ha⟩

end Upper

end GlrMask
