import Mathlib.Data.List.Perm.Basic
import Mathlib.Data.List.Forall2
import Mathlib.Tactic

/-!
# Grouping by first fit

Each element joins the first group that accepts it, or starts a group of its own.
Whatever holds of a group and its members when it starts, and survives a joining
element and every later change of the shared state, holds of all groups in the
end. Partial functions that agree pairwise have a union.
-/

namespace FirstFit

variable {C G σ : Type*}

/-! ## Unions of partial functions -/

section Union

variable {A V : Type*}

/-- A partial function that is defined where one of its parts is, with the part's value. -/
structure IsUnion (f : A → Option V) (parts : List (A → Option V)) : Prop where
  contains : ∀ part ∈ parts, ∀ a v, part a = some v → f a = some v
  covered : ∀ a v, f a = some v → ∃ part ∈ parts, part a = some v

variable {f g h : A → Option V} {parts : List (A → Option V)}

theorem isUnion_singleton (f : A → Option V) : IsUnion f [f] := by
  refine ⟨?_, ?_⟩
  · intro part hpart a v hv
    obtain rfl := List.mem_singleton.mp hpart
    exact hv
  · intro a v hv
    exact ⟨f, List.mem_singleton_self f, hv⟩

/-- A union grows by a part that agrees with it. -/
theorem IsUnion.concat (hf : IsUnion f parts) (hagree : ∀ a v w, f a = some v → g a = some w → v = w)
    (hh : ∀ a, h a = (f a).or (g a)) : IsUnion h (parts ++ [g]) := by
  refine ⟨?_, ?_⟩
  · intro part hpart a v hv
    rw [hh]
    obtain hpart | hpart := List.mem_append.mp hpart
    · rw [hf.contains part hpart a v hv, Option.some_or]
    · obtain rfl := List.mem_singleton.mp hpart
      cases hfa : f a with
      | none => rw [Option.none_or, hv]
      | some w => rw [Option.some_or, hagree a w v hfa hv]
  · intro a v hv
    rw [hh] at hv
    cases hfa : f a with
    | none =>
        rw [hfa, Option.none_or] at hv
        exact ⟨g, List.mem_append_right _ (List.mem_singleton_self g), hv⟩
    | some w =>
        rw [hfa, Option.some_or] at hv
        obtain ⟨part, hpart, hw⟩ := hf.covered a w hfa
        exact ⟨part, List.mem_append_left _ hpart, hw.trans hv⟩

/-- Two parts of a union agree wherever both are defined. -/
theorem IsUnion.agree (hf : IsUnion f parts) (hg : g ∈ parts) (hh : h ∈ parts) {a : A} {v w : V}
    (hv : g a = some v) (hw : h a = some w) : v = w :=
  Option.some.inj ((hf.contains g hg a v hv).symm.trans (hf.contains h hh a w hw))

end Union

/-! ## Groups -/

/-- Put an element in its group. -/
def place (accepts : G → C → Bool) (join : G → C → σ → G × σ) (start : C → σ → G × σ) (c : C) :
    List G → σ → List G × σ
  | [], state =>
      let started := start c state
      ([started.1], started.2)
  | group :: groups, state =>
      if accepts group c then
        let joined := join group c state
        (joined.1 :: groups, joined.2)
      else
        let placed := place accepts join start c groups state
        (group :: placed.1, placed.2)

def group (accepts : G → C → Bool) (join : G → C → σ → G × σ) (start : C → σ → G × σ)
    (order : List C) (state : σ) : List G × σ :=
  order.foldl (fun grouped c => place accepts join start c grouped.1 grouped.2) ([], state)

/-- What starting a group and joining one do for a property of a group and its members. -/
structure Keeps (accepts : G → C → Bool) (join : G → C → σ → G × σ) (start : C → σ → G × σ)
    (inv : σ → Prop) (before : σ → σ → Prop) (ok : C → Prop) (holds : σ → G → List C → Prop) :
    Prop where
  later : ∀ {state state' group members}, before state state' → holds state group members →
    holds state' group members
  start : ∀ {state c}, inv state → ok c → inv (start c state).2 ∧ before state (start c state).2 ∧
    holds (start c state).2 (start c state).1 [c]
  join : ∀ {state group members c}, inv state → ok c → holds state group members →
    accepts group c = true → inv (join group c state).2 ∧ before state (join group c state).2 ∧
      holds (join group c state).2 (join group c state).1 (members ++ [c])

/-- The groups together have the given members, and the property holds of each. -/
def Holds (holds : σ → G → List C → Prop) (state : σ) (groups : List G) (placed : List C) : Prop :=
  ∃ members : List (List C), List.Forall₂ (holds state) groups members ∧
    members.flatten.Perm placed

variable {accepts : G → C → Bool} {join : G → C → σ → G × σ} {start : C → σ → G × σ}
  {inv : σ → Prop} {before : σ → σ → Prop} {ok : C → Prop} {holds : σ → G → List C → Prop}

theorem place_spec (h : Keeps accepts join start inv before ok holds) {c : C} (hc : ok c)
    {groups : List G} {state : σ} {members : List (List C)} (hinv : inv state)
    (hgroups : List.Forall₂ (holds state) groups members) :
    inv (place accepts join start c groups state).2 ∧
      before state (place accepts join start c groups state).2 ∧
      ∃ members', List.Forall₂ (holds (place accepts join start c groups state).2)
        (place accepts join start c groups state).1 members' ∧
        members'.flatten.Perm (members.flatten ++ [c]) := by
  induction hgroups with
  | nil =>
      obtain ⟨hinv', hbefore, hholds⟩ := h.start hinv hc
      exact ⟨hinv', hbefore, [[c]], .cons hholds .nil, List.Perm.refl _⟩
  | cons hgroup hrest ih =>
      rename_i g cs groups members
      unfold place
      split_ifs with haccept
      · obtain ⟨hinv', hbefore, hholds⟩ := h.join hinv hc hgroup haccept
        refine ⟨hinv', hbefore, (cs ++ [c]) :: members, ?_, ?_⟩
        · exact .cons hholds (hrest.imp fun _ _ hg => h.later hbefore hg)
        · rw [List.flatten_cons, List.flatten_cons, List.append_assoc, List.append_assoc]
          exact (List.perm_append_comm).append_left cs
      · obtain ⟨hinv', hbefore, members', hholds, hperm⟩ := ih
        refine ⟨hinv', hbefore, cs :: members', .cons (h.later hbefore hgroup) hholds, ?_⟩
        rw [List.flatten_cons, List.flatten_cons, List.append_assoc]
        exact hperm.append_left cs

/-- Every element is in one group, and the property holds of every group and its members. -/
theorem group_spec (h : Keeps accepts join start inv before ok holds) {order : List C}
    (horder : ∀ c ∈ order, ok c) {state : σ} (hinv : inv state) :
    inv (group accepts join start order state).2 ∧
      Holds holds (group accepts join start order state).2 (group accepts join start order state).1
        order := by
  suffices hfold : ∀ (order placed : List C) (grouped : List G × σ), (∀ c ∈ order, ok c) →
      inv grouped.2 → Holds holds grouped.2 grouped.1 placed →
      inv (order.foldl (fun grouped c => place accepts join start c grouped.1 grouped.2) grouped).2 ∧
        Holds holds
          (order.foldl (fun grouped c => place accepts join start c grouped.1 grouped.2) grouped).2
          (order.foldl (fun grouped c => place accepts join start c grouped.1 grouped.2) grouped).1
          (placed ++ order) from
    hfold order [] ([], state) horder hinv ⟨[], .nil, List.Perm.refl _⟩
  intro order
  induction order with
  | nil =>
      intro placed grouped _ hinv hholds
      rw [List.append_nil]
      exact ⟨hinv, hholds⟩
  | cons c order ih =>
      intro placed grouped hok hinv hholds
      obtain ⟨members, hgroups, hperm⟩ := hholds
      obtain ⟨hinv', -, members', hgroups', hperm'⟩ :=
        place_spec h (hok c List.mem_cons_self) hinv hgroups
      rw [List.foldl_cons, List.append_cons]
      apply ih _ _ (fun d hd => hok d (List.mem_cons_of_mem _ hd)) hinv'
      exact ⟨members', hgroups', hperm'.trans (hperm.append_right [c])⟩

end FirstFit
