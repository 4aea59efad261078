import GlrMask.LeftCornerRepair
import GlrMask.StronglyConnected
import GlrMask.TopologicalSort

/-!
# Boundary graphs

A nonterminal leads to those at an end of its right-hand sides, through nullable ones. Releasing
nodes by their in-degrees tells whether a cycle runs through several nonterminals, and two
searches find the components that have several nonterminals. The repair takes these components,
and after it none of the components that are left needs another one.
-/

namespace GlrMask

namespace Grammar

open Relation (ReflTransGen)

inductive Boundary
  | left
  | right
deriving DecidableEq

namespace BoundaryGraph

section Definitions

variable (rules : List Rule) (nullable : Finset NonterminalID) (boundary : Boundary)

/-- The nonterminals at an end of a right-hand side, through nullable ones. -/
def edgesOf (rhs : List GrammarSymbol) : List NonterminalID :=
  match boundary with
  | .left => leadingHeads nullable rhs
  | .right => leadingHeads nullable rhs.reverse

def ntCount : ℕ := maxNtId rules + 1

def row (nt : NonterminalID) : List NonterminalID :=
  (rules.filter (·.lhs = nt)).flatMap fun rule => edgesOf nullable boundary rule.rhs

/-- Whether some node is never released. Loops of a single nonterminal do not count. -/
def hasIndirectCycle : Bool :=
  !allReleased (fun nt => (row rules nullable boundary nt).filter (· ≠ nt)) (ntCount rules)

/-- A row after `order_rows`. -/
def orderedRow (v : Fin (ntCount rules)) : List (Fin (ntCount rules)) :=
  (sortDedup (row rules nullable boundary v)).filterMap fun nt =>
    if h : nt < ntCount rules then some ⟨nt, h⟩ else none

def membership : Fin (ntCount rules) → Option ℕ :=
  CondensationDepths.nontrivialComponents (orderedRow rules nullable boundary)

/-- The nonterminals with one component number. -/
def component (c : ℕ) : Finset NonterminalID :=
  (Finset.univ.filter fun v => membership rules nullable boundary v = some c).map Fin.valEmbedding

/-- The components by their numbers. -/
def components : List (Finset NonterminalID) :=
  (sortDedup ((List.finRange (ntCount rules)).filterMap (membership rules nullable boundary))).map
    (component rules nullable boundary)

/-- A nonterminal leads to another one at the end. -/
def Leads (a b : NonterminalID) : Prop := b ∈ row rules nullable boundary a

def Mutual (a b : NonterminalID) : Prop :=
  ReflTransGen (Leads rules nullable boundary) a b ∧ ReflTransGen (Leads rules nullable boundary) b a

end Definitions

section Edges

variable {rules : List Rule} {nullable : Finset NonterminalID} {boundary : Boundary}

theorem mem_of_mem_leadingHeads {head : NonterminalID} {rhs : List GrammarSymbol}
    (h : head ∈ leadingHeads nullable rhs) : .nonterminal head ∈ rhs := by
  induction rhs with
  | nil => cases h
  | cons s rhs ih =>
      cases s with
      | terminal t => cases h
      | nonterminal nt =>
          obtain rfl | h := List.mem_cons.mp h
          · exact List.mem_cons_self
          · split_ifs at h
            · exact List.mem_cons_of_mem _ (ih h)
            · cases h

theorem mem_of_mem_edgesOf {nt : NonterminalID} {rhs : List GrammarSymbol}
    (h : nt ∈ edgesOf nullable boundary rhs) : .nonterminal nt ∈ rhs := by
  cases boundary with
  | left => exact mem_of_mem_leadingHeads h
  | right => exact List.mem_reverse.mp (mem_of_mem_leadingHeads h)

theorem Leads.lt {a b : NonterminalID} (h : Leads rules nullable boundary a b) :
    a < ntCount rules ∧ b < ntCount rules := by
  obtain ⟨rule, hfiltered, hb⟩ := List.mem_flatMap.mp h
  obtain ⟨hrule, hlhs⟩ := List.mem_filter.mp hfiltered
  obtain rfl := of_decide_eq_true hlhs
  exact ⟨Nat.lt_succ_of_le (le_maxNtId (occurring_of_rule hrule)),
    Nat.lt_succ_of_le (le_maxNtId (occurring_of_symbol hrule (mem_of_mem_edgesOf hb)))⟩

theorem mem_orderedRow {v w : Fin (ntCount rules)} :
    w ∈ orderedRow rules nullable boundary v ↔ Leads rules nullable boundary v w := by
  rw [orderedRow, List.mem_filterMap]
  constructor
  · rintro ⟨nt, hnt, he⟩
    split_ifs at he
    obtain rfl := Option.some.inj he
    exact mem_sortDedup.mp hnt
  · intro h
    exact ⟨w, mem_sortDedup.mpr h, dif_pos w.isLt⟩

/-- The paths of the graph are the paths of the rules. -/
theorem reaches_iff {v w : Fin (ntCount rules)} :
    CondensationDepths.Reaches (orderedRow rules nullable boundary) v w ↔
      ReflTransGen (Leads rules nullable boundary) v w := by
  constructor
  · intro h
    exact ReflTransGen.lift Fin.val (fun _ _ hab => mem_orderedRow.mp hab) v w h
  · intro h
    have hpath : ∀ b, ReflTransGen (Leads rules nullable boundary) v b → ∀ hb : b < ntCount rules,
        CondensationDepths.Reaches (orderedRow rules nullable boundary) v ⟨b, hb⟩ := by
      intro b hab
      induction hab with
      | refl => exact fun _ => .refl
      | tail _ hstep ih =>
          intro hb
          exact (ih hstep.lt.1).tail (mem_orderedRow.mpr hstep)
    exact hpath w h w.isLt

theorem mutual_iff {v w : Fin (ntCount rules)} :
    CondensationDepths.Mutual (orderedRow rules nullable boundary) v w ↔
      Mutual rules nullable boundary v w :=
  and_congr reaches_iff reaches_iff

theorem Mutual.lt {a b : NonterminalID} (hne : a ≠ b) (h : Mutual rules nullable boundary a b) :
    a < ntCount rules ∧ b < ntCount rules := by
  obtain he | ⟨c, hac, -⟩ := ReflTransGen.cases_head h.1
  · exact absurd he hne
  · obtain he | ⟨d, hbd, -⟩ := ReflTransGen.cases_head h.2
    · exact absurd he.symm hne
    · exact ⟨hac.lt.1, hbd.lt.1⟩

end Edges

/-! ## The check for cycles -/

section Cycles

variable (rules : List Rule) (nullable : Finset NonterminalID) (boundary : Boundary)

/-- The nodes are numbered by how many nodes they reach. -/
theorem hasIndirectCycle_iff : hasIndirectCycle rules nullable boundary = true ↔
    ∃ a b, a ≠ b ∧ Mutual rules nullable boundary a b := by
  have hrow : ∀ {a b}, b ∈ (row rules nullable boundary a).filter (· ≠ a) ↔
      Leads rules nullable boundary a b ∧ b ≠ a := by
    intro a b
    simp [Leads]
  rw [hasIndirectCycle, Bool.not_eq_true', ← Bool.not_eq_true, allReleased_iff, ← not_iff_not, not_not]
  constructor
  · rintro ⟨rank, hrank⟩ ⟨a, b, hne, hab, hba⟩
    apply hne
    refine LeftCornerClosure.eq_of_ranked (γ := ℕᵒᵈ) (T := fun _ => True) rank (fun _ _ _ => trivial) ?_
      hab hba
    intro x y _ _ hxy
    by_cases he : x = y
    · exact ⟨he ▸ le_rfl, fun _ => he⟩
    · have hlt := hrank x hxy.lt.1 y (hrow.mpr ⟨hxy, Ne.symm he⟩) hxy.lt.2
      exact ⟨hlt.le, fun he' => absurd he' hlt.ne'⟩
  · intro hnone
    classical
    let reached : ℕ → Finset ℕ := fun a =>
      (Finset.range (ntCount rules)).filter fun b => ReflTransGen (Leads rules nullable boundary) a b
    refine ⟨fun a => (reached a).card, ?_⟩
    intro a ha b hb hlt
    obtain ⟨hab, hne⟩ := hrow.mp hb
    apply Finset.card_lt_card
    refine Finset.ssubset_iff_of_subset ?_ |>.mpr ⟨a, ?_, ?_⟩
    · intro c hc
      obtain ⟨hc, hbc⟩ := Finset.mem_filter.mp hc
      exact Finset.mem_filter.mpr ⟨hc, ReflTransGen.head hab hbc⟩
    · exact Finset.mem_filter.mpr ⟨Finset.mem_range.mpr ha, .refl⟩
    · intro hback
      exact hnone ⟨a, b, hne.symm, .single hab, (Finset.mem_filter.mp hback).2⟩

end Cycles

/-! ## The components -/

section Components

variable {rules : List Rule} {nullable : Finset NonterminalID} {boundary : Boundary}

theorem mem_component {c : ℕ} {a : NonterminalID} : a ∈ component rules nullable boundary c ↔
    ∃ h : a < ntCount rules, membership rules nullable boundary ⟨a, h⟩ = some c := by
  rw [component, Finset.mem_map]
  constructor
  · rintro ⟨v, hv, rfl⟩
    exact ⟨v.isLt, (Finset.mem_filter.mp hv).2⟩
  · rintro ⟨h, hc⟩
    exact ⟨⟨a, h⟩, Finset.mem_filter.mpr ⟨Finset.mem_univ _, hc⟩, rfl⟩

theorem mem_components {members : Finset NonterminalID} :
    members ∈ components rules nullable boundary ↔ ∃ c, members = component rules nullable boundary c ∧
      ∃ v, membership rules nullable boundary v = some c := by
  rw [components, List.mem_map]
  constructor
  · rintro ⟨c, hc, rfl⟩
    obtain ⟨v, -, hv⟩ := List.mem_filterMap.mp (mem_sortDedup.mp hc)
    exact ⟨c, rfl, v, hv⟩
  · rintro ⟨c, rfl, v, hv⟩
    exact ⟨c, mem_sortDedup.mpr (List.mem_filterMap.mpr ⟨v, List.mem_finRange v, hv⟩), rfl⟩

theorem components_disjoint : (components rules nullable boundary).Pairwise Disjoint := by
  rw [components, List.pairwise_map]
  refine (sortDedup_sorted _).imp fun {c c'} hlt => ?_
  rw [Finset.disjoint_left]
  intro a hc hc'
  obtain ⟨h, hnumber⟩ := mem_component.mp hc
  obtain ⟨_, hnumber'⟩ := mem_component.mp hc'
  exact hlt.ne (Option.some.inj (hnumber.symm.trans hnumber'))

/-- A component has all nonterminals that lead to one of its members and back. -/
theorem components_closed {members : Finset NonterminalID}
    (hmembers : members ∈ components rules nullable boundary) {a : NonterminalID} (ha : a ∈ members)
    (b : NonterminalID) : Mutual rules nullable boundary a b ↔ b ∈ members := by
  obtain ⟨c, rfl, -⟩ := mem_components.mp hmembers
  obtain ⟨ha, hc⟩ := mem_component.mp ha
  have hspec := (CondensationDepths.nontrivialComponents_spec _ ⟨a, ha⟩).2 c hc
  rw [mem_component]
  constructor
  · intro hmutual
    have hb : b < ntCount rules := by
      by_cases he : a = b
      · exact he ▸ ha
      · exact (hmutual.lt he).2
    exact ⟨hb, (hspec ⟨b, hb⟩).mpr (mutual_iff.mpr hmutual)⟩
  · rintro ⟨hb, hc'⟩
    exact mutual_iff.mp ((hspec ⟨b, hb⟩).mp hc')

theorem components_complete {a b : NonterminalID} (hne : a ≠ b)
    (hmutual : Mutual rules nullable boundary a b) :
    ∃ members ∈ components rules nullable boundary, a ∈ members := by
  obtain ⟨ha, hb⟩ := hmutual.lt hne
  have hspec := (CondensationDepths.nontrivialComponents_spec
    (orderedRow rules nullable boundary) ⟨a, ha⟩).1
  cases hc : membership rules nullable boundary ⟨a, ha⟩ with
  | none =>
      have he := hspec.mp hc ⟨b, hb⟩ (mutual_iff.mpr hmutual)
      exact absurd (congrArg Fin.val he).symm hne
  | some c => exact ⟨_, mem_components.mpr ⟨c, rfl, _, hc⟩, mem_component.mpr ⟨ha, hc⟩⟩

theorem components_nontrivial {members : Finset NonterminalID}
    (hmembers : members ∈ components rules nullable boundary) : 1 < members.card := by
  obtain ⟨c, rfl, v, hv⟩ := mem_components.mp hmembers
  have hspec := (CondensationDepths.nontrivialComponents_spec (orderedRow rules nullable boundary) v).1
  have hother : ∃ w, CondensationDepths.Mutual (orderedRow rules nullable boundary) v w ∧ w ≠ v := by
    by_contra hnone
    have halone := hspec.mpr fun w hmutual => not_not.mp fun hne => hnone ⟨w, hmutual, hne⟩
    exact Option.some_ne_none c (hv.symm.trans halone)
  obtain ⟨w, hmutual, hne⟩ := hother
  have hmem : (v : ℕ) ∈ component rules nullable boundary c := mem_component.mpr ⟨v.isLt, hv⟩
  refine Finset.one_lt_card.mpr ⟨v, hmem, w, ?_, fun he => hne (Fin.ext he.symm)⟩
  exact (components_closed hmembers hmem w).mp (mutual_iff.mp hmutual)

end Components

/-- The check answers for cycles through several nonterminals, and the listed components are the
classes of the nonterminals on such cycles. -/
theorem boundaryGraph_spec (rules : List Rule) (nullable : Finset NonterminalID) (boundary : Boundary) :
    (hasIndirectCycle rules nullable boundary = true ↔
      ∃ a b, a ≠ b ∧ Mutual rules nullable boundary a b) ∧
    (components rules nullable boundary).Pairwise Disjoint ∧
    (∀ members ∈ components rules nullable boundary, 1 < members.card ∧
      ∀ a ∈ members, ∀ b, Mutual rules nullable boundary a b ↔ b ∈ members) ∧
    ∀ a b, a ≠ b → Mutual rules nullable boundary a b →
      ∃ members ∈ components rules nullable boundary, a ∈ members :=
  ⟨hasIndirectCycle_iff rules nullable boundary, components_disjoint,
    fun _ h => ⟨components_nontrivial h, fun _ ha => components_closed h ha⟩,
    fun _ _ => components_complete⟩

/-! ## The repair of the components -/

section Repair

open LeftCornerClosure

variable {rules out : List Rule}

theorem leads_iff {a b : NonterminalID} : Leads rules ∅ .left a b ↔ LeadsTo rules a b := by
  simp only [Leads, row, edgesOf, List.mem_flatMap, List.mem_filter, decide_eq_true_eq, LeadsTo,
    mem_leadingHeads_empty, and_assoc]

theorem leads_eq (rules : List Rule) : Leads rules ∅ .left = LeadsTo rules := by
  funext a b
  exact propext leads_iff

theorem components_repairable (rules : List Rule) : Components rules (components rules ∅ .left) := by
  have hmutual : ∀ a b, LeftMutual rules a b ↔ Mutual rules ∅ .left a b := by
    intro a b
    rw [Mutual, leads_eq]
    rfl
  constructor
  · exact components_disjoint
  · intro members hmembers a ha b
    rw [hmutual]
    exact components_closed hmembers ha b
  · intro a b hne h
    exact components_complete hne ((hmutual a b).mp h)

/-- In calm rules no component needs a repair. -/
theorem needsClosure_of_calm (hcalm : Calm rules) {members : Finset NonterminalID}
    (hmembers : members ∈ components rules ∅ .left) : needsClosure rules members ∅ = false := by
  have hclosed := (components_repairable rules).closed members hmembers
  rw [needsClosure, decide_eq_false_iff_not]
  rintro ⟨a, ha, hcase⟩
  obtain ⟨b, hb, hne⟩ := Finset.exists_mem_ne (components_nontrivial hmembers) a
  obtain ⟨hself, hunique⟩ := hcalm a b hne.symm ((hclosed a ha b).mpr hb)
  obtain hloop | hcard := hcase
  · exact hself (mem_innerTargets.mp hloop).1
  · obtain ⟨x, hx, y, hy, hxy⟩ := Finset.one_lt_card.mp hcard
    rw [mem_innerTargets] at hx hy
    exact hxy (hunique x y hx.1 hy.1 ((hclosed a ha x).mpr hx.2) ((hclosed a ha y).mpr hy.2))

/-- The repair keeps the words of all nonterminals, leaves only simple rings that were there before
as cycles through several of them, and is not needed again. -/
theorem repair_components_derived {S : UnstableSort} {fuel : ℕ}
    (hnonempty : ∀ rule ∈ rules, rule.rhs ≠ [])
    (h : repair S rules (components rules ∅ .left) ∅ fuel = some (some out)) :
    (∀ nt ≤ maxNtId rules, derived out nt = derived rules nt) ∧
      (∀ a b, a ≠ b → LeftMutual out a b → LeftMutual rules a b ∧
        ∀ members ∈ components rules ∅ .left, a ∈ members → needsClosure rules members ∅ = false) ∧
      (∀ rule ∈ out, rule.rhs ≠ []) ∧ repair S out (components out ∅ .left) ∅ fuel = some none := by
  have hcomponents := components_repairable rules
  obtain ⟨hwords, hcycles⟩ := repair_derived hnonempty hcomponents h
  obtain ⟨next, next', -, hpass⟩ := (repair_spec hnonempty hcomponents _ h).2 out rfl
  have hselected : selected out (components out ∅ .left) ∅ = [] := by
    rw [selected, List.filter_eq_nil_iff]
    intro members hmembers
    rw [needsClosure_of_calm (hpass.calm hcomponents) hmembers]
    exact Bool.false_ne_true
  refine ⟨hwords, hcycles, hpass.nonempty, ?_⟩
  rw [repair, if_pos hselected]

/-- A nonterminal with a loop and an exit through another one that comes back to it. -/
def loopedRules : List Rule :=
  [⟨0, [.nonterminal 0, .terminal 1]⟩, ⟨0, [.nonterminal 1, .terminal 2]⟩, ⟨0, [.terminal 3]⟩,
    ⟨1, [.nonterminal 0, .terminal 4]⟩, ⟨1, [.terminal 5]⟩]

theorem components_loopedRules : components loopedRules ∅ .left = [{0, 1}] := by
  have hall : ∀ members ∈ components loopedRules ∅ .left, members = {0, 1} := by
    intro members hmembers
    have hsub : members ⊆ {0, 1} := by
      intro a ha
      obtain ⟨c, rfl, -⟩ := mem_components.mp hmembers
      obtain ⟨hlt, -⟩ := mem_component.mp ha
      have hcount : ntCount loopedRules = 2 := by decide +kernel
      rw [hcount] at hlt
      rw [Finset.mem_insert, Finset.mem_singleton]
      exact Nat.le_one_iff_eq_zero_or_eq_one.mp (Nat.le_of_lt_succ hlt)
    exact Finset.eq_of_subset_of_card_le hsub (components_nontrivial hmembers)
  have hforth : LeadsTo loopedRules 0 1 := ⟨⟨0, [.nonterminal 1, .terminal 2]⟩, by decide, rfl, rfl⟩
  have hback : LeadsTo loopedRules 1 0 := ⟨⟨1, [.nonterminal 0, .terminal 4]⟩, by decide, rfl, rfl⟩
  obtain ⟨members, hmembers, -⟩ := components_complete (by decide)
    ⟨.single (leads_iff.mpr hforth), .single (leads_iff.mpr hback)⟩
  have hdisjoint := @components_disjoint loopedRules ∅ .left
  cases hcomponents : components loopedRules ∅ .left with
  | nil => exact absurd (hcomponents ▸ hmembers) List.not_mem_nil
  | cons first rest =>
      rw [hcomponents] at hall hdisjoint
      obtain rfl := hall first List.mem_cons_self
      cases rest with
      | nil => rfl
      | cons second rest =>
          have hsecond := hall second (List.mem_cons_of_mem _ List.mem_cons_self)
          have h := (List.pairwise_cons.mp hdisjoint).1 second List.mem_cons_self
          rw [hsecond, disjoint_self] at h
          exact absurd h (Finset.insert_ne_empty _ _)

theorem repair_components_derived_loopedRules : ∃ out,
    repair insertionSortBy loopedRules (components loopedRules ∅ .left) ∅ 0 = some (some out) ∧
      (∀ nt ≤ maxNtId loopedRules, derived out nt = derived loopedRules nt) ∧
      (∀ a b, a ≠ b → LeftMutual out a b → LeftMutual loopedRules a b ∧
        ∀ members ∈ components loopedRules ∅ .left, a ∈ members →
          needsClosure loopedRules members ∅ = false) ∧
      (∀ rule ∈ out, rule.rhs ≠ []) ∧
      repair insertionSortBy out (components out ∅ .left) ∅ 0 = some none := by
  have horder : ({0, 1} : Finset NonterminalID).sort (· ≤ ·) = [0, 1] :=
    (List.toFinset_sort (r := (· ≤ ·)) (l := [0, 1]) (by decide)).mpr (by decide)
  have hpass : ((repairPass loopedRules false [{0, 1}] 2).filter fun result =>
      result.1.length ≤ loopedRules.length * 4 + 64).isSome = true := by
    simp only [repairPass, repairComponent, memberOrder, List.foldlM, horder]
    decide +kernel
  obtain ⟨result, hfilter⟩ := Option.isSome_iff_exists.mp hpass
  obtain ⟨hresult, hlength⟩ := Option.filter_eq_some_iff.mp hfilter
  have hselected : selected loopedRules [{0, 1}] ∅ = [{0, 1}] := by decide +kernel
  have hnext : checkedNext (maxNtId loopedRules) = some 2 := by decide +kernel
  have hsort : insertionSortBy.sort firstMember [({0, 1} : Finset NonterminalID)] = [{0, 1}] := rfl
  have hcard : ([({0, 1} : Finset NonterminalID)].any fun component => 8 < component.card) = false := by
    decide
  have hr : repair insertionSortBy loopedRules [{0, 1}] ∅ 0 = some (some result.1) := by
    rw [repair, hselected, if_neg (List.cons_ne_nil _ _), hnext, Option.bind_some, if_pos rfl,
      repairSelected, hselected, hsort, hcard, hresult, Option.bind_some, if_neg]
    · rfl
    · rintro ⟨-, hlt⟩
      exact absurd hlt (not_lt.mpr (of_decide_eq_true hlength))
  rw [← components_loopedRules] at hr
  exact ⟨result.1, hr, repair_components_derived (by decide) hr⟩

end Repair

end BoundaryGraph

end Grammar

end GlrMask
