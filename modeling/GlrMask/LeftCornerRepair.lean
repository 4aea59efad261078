import GlrMask.LeftCornerClosure
import GlrMask.NullProductions
import GlrMask.UnstableSort

/-!
# Repairing all left-corner components

The components with an interior cycle are repaired one after the other. What stays of the other
components are simple rings, and the new nonterminals are on no cycle, so that nothing needs a
second repair.
-/

namespace GlrMask

namespace Grammar

namespace LeftCornerClosure

open ContextFree Relation

section Definitions

variable (S : UnstableSort) (rules : List Rule) (components : List (Finset NonterminalID))
  (nullable : Finset NonterminalID)

def selected : List (Finset NonterminalID) := components.filter (needsClosure rules · nullable)

/-- A selected component is not empty. -/
def firstMember (component : Finset NonterminalID) : NonterminalID :=
  (component.sort (· ≤ ·)).headD 0

def repairSelected (next : NonterminalID) : Option (List Rule) :=
  let ordered := S.sort firstMember (selected rules components nullable)
  let force_by_size := ordered.any fun component => 8 < component.card
  (repairPass rules force_by_size ordered next).bind fun result =>
    if !force_by_size ∧ rules.length * 4 + 64 < result.1.length then
      (repairPass rules true ordered result.2).map Prod.fst
    else some result.1

/-- The inner option is empty when no component needs a repair. -/
def repair (fuel : ℕ) : Option (Option (List Rule)) :=
  if selected rules components nullable = [] then some none
  else
    (checkedNext (maxNtId rules)).bind fun next =>
      if nullable = ∅ then (repairSelected S rules components nullable next).map some
      else
        (NullProductions.inlineNullProductions rules next fuel).bind fun rewritten =>
          if rewritten = rules then none else some (some rewritten)

end Definitions

/-! ## Cycles -/

def LeftMutual (rules : List Rule) (a b : NonterminalID) : Prop :=
  ReflTransGen (LeadsTo rules) a b ∧ ReflTransGen (LeadsTo rules) b a

/-- Along a cycle a rank that goes one way does not change. -/
theorem eq_of_ranked {α γ : Type*} [PartialOrder γ] {r : α → α → Prop} {T : α → Prop} (rank : α → γ)
    {a b : α} (hT : ∀ x, ReflTransGen r a x → ReflTransGen r x a → T x)
    (hrank : ∀ x y, T x → T y → r x y → rank x ≤ rank y ∧ (rank x = rank y → x = y))
    (hab : ReflTransGen r a b) (hba : ReflTransGen r b a) : a = b := by
  have hpath : ∀ x, ReflTransGen r a x → ReflTransGen r x a →
      rank a ≤ rank x ∧ (rank a = rank x → a = x) := by
    intro x hax
    induction hax with
    | refl => exact fun _ => ⟨le_rfl, fun _ => rfl⟩
    | @tail y z hay hyz ih =>
        intro hza
        have hya := ReflTransGen.head hyz hza
        obtain ⟨hle, heq⟩ := ih hya
        obtain ⟨hle', heq'⟩ := hrank y z (hT y hay hya) (hT z (hay.tail hyz) hza) hyz
        refine ⟨hle.trans hle', ?_⟩
        intro he
        have hmid : rank a = rank y := le_antisymm hle (he ▸ hle')
        rw [heq hmid]
        exact heq' (hmid ▸ he)
  have hback : ∀ x, ReflTransGen r x a → ReflTransGen r a x → rank x ≤ rank a := by
    intro x hxa
    induction hxa using ReflTransGen.head_induction_on with
    | refl => exact fun _ => le_rfl
    | @head y z hyz hza ih =>
        intro hay
        have hya := ReflTransGen.head hyz hza
        exact (hrank y z (hT y hay hya) (hT z (hay.tail hyz) hza) hyz).1.trans (ih (hay.tail hyz))
  exact (hpath b hab hba).2 (le_antisymm (hpath b hab hba).1 (hback b hba hab))

/-! ## All components -/

section Pass

variable {rules out : List Rule} {next next' : NonterminalID} {done : List (Finset NonterminalID)}

/-- What the repair of the components leaves. -/
structure PassRepaired (rules : List Rule) (done : List (Finset NonterminalID)) (next : NonterminalID)
    (out : List Rule) (next' : NonterminalID) : Prop where
  next_le : next ≤ next'
  small : ∀ nt ∈ occurring out, nt < next'
  nonempty : ∀ rule ∈ out, rule.rhs ≠ []
  words : ∀ nt < next, words (Produces out) nt = words (Produces rules) nt
  kept : ∀ rule, rule.lhs < next → (∀ component ∈ done, rule.lhs ∉ component) →
    (rule ∈ out ↔ rule ∈ rules)
  leads : ∀ a b, a < next → LeadsTo out a b → b < next ∧ TransGen (LeadsTo rules) a b
  ordered : ∀ component ∈ done, ∃ rank : NonterminalID → ℕ, ∀ a ∈ component, ∀ b ∈ component,
    LeadsTo out a b → rank a ≤ rank b ∧ (rank a = rank b → a = b)
  helpers : ∃ rank : NonterminalID → ℕ, ∀ a b, next ≤ a → next ≤ b → LeadsTo out a b → a ≠ b →
    rank b < rank a

theorem PassRepaired.refl (hsmall : ∀ nt ∈ occurring rules, nt < next)
    (hnonempty : ∀ rule ∈ rules, rule.rhs ≠ []) : PassRepaired rules [] next rules next where
  next_le := le_rfl
  small := hsmall
  nonempty := hnonempty
  words _ _ := rfl
  kept _ _ _ := Iff.rfl
  leads _ b _ h := ⟨hsmall b h.occurring.2, TransGen.single h⟩
  ordered _ h := absurd h List.not_mem_nil
  helpers := ⟨fun _ => 0, fun a _ ha _ h _ => absurd (hsmall a h.occurring.1) (not_lt.mpr ha)⟩

theorem LeadsTo.of_kept {out' : List Rule} {a b : NonterminalID}
    (hkept : ∀ rule, rule.lhs = a → (rule ∈ out' ↔ rule ∈ out)) (h : LeadsTo out' a b) :
    LeadsTo out a b := by
  obtain ⟨rule, hrule, hlhs, hb⟩ := h
  exact ⟨rule, (hkept rule hlhs).mp hrule, hlhs, hb⟩

/-- One more component. -/
theorem PassRepaired.step {component : Finset NonterminalID} {out' : List Rule} {next'' : NonterminalID}
    (h : PassRepaired rules done next out next') (hcomponent : ∀ nt ∈ component, nt < next)
    (hdisjoint : ∀ component' ∈ done, Disjoint component' component)
    (hsmall : ∀ component' ∈ done, ∀ nt ∈ component', nt < next)
    (h' : ComponentRepaired out component next' out' next'') :
    PassRepaired rules (done ++ [component]) next out' next'' := by
  have hsame : ∀ a, a < next' → a ∉ component → ∀ rule, rule.lhs = a → (rule ∈ out' ↔ rule ∈ out) := by
    rintro a ha hout rule rfl
    exact h'.kept rule ha hout
  have hnotin : ∀ {a}, next ≤ a → a ∉ component := fun ha hmem =>
    absurd (hcomponent _ hmem) (not_lt.mpr ha)
  constructor
  · exact h.next_le.trans h'.next_le
  · exact h'.small
  · exact h'.nonempty h.nonempty
  · intro nt hnt
    rw [h'.words nt (hnt.trans_le h.next_le), h.words nt hnt]
  · intro rule hlhs hout
    rw [h'.kept rule (hlhs.trans_le h.next_le) (hout component (by simp))]
    exact h.kept rule hlhs fun c hc => hout c (List.mem_append_left _ hc)
  · intro a b ha hab
    obtain ⟨hle, -⟩ | ⟨-, -, hpath⟩ := h'.leads a b hab
    · exact absurd (ha.trans_le h.next_le) (not_lt.mpr hle)
    · clear hab
      induction hpath with
      | single hstep => exact h.leads a _ ha hstep
      | tail _ hstep ih =>
          obtain ⟨hlt, hpath⟩ := ih
          obtain ⟨hlt', hpath'⟩ := h.leads _ _ hlt hstep
          exact ⟨hlt', hpath.trans hpath'⟩
  · intro c hc
    obtain hc | hc := List.mem_append.mp hc
    · obtain ⟨rank, hrank⟩ := h.ordered c hc
      refine ⟨rank, fun a ha b hb hab => hrank a ha b hb (hab.of_kept ?_)⟩
      exact hsame a ((hsmall c hc a ha).trans_le h.next_le)
        (Finset.disjoint_left.mp (hdisjoint c hc) ha)
    · rw [List.mem_singleton.mp hc]
      exact h'.ordered
  · obtain ⟨rank, hrank⟩ := h.helpers
    obtain ⟨rank', hrank'⟩ := h'.helpers
    refine ⟨fun nt => if nt < next' then rank nt else (Finset.range next').sup rank + 1 + rank' nt, ?_⟩
    intro a b ha hb hab hne
    dsimp only
    by_cases hlta : a < next'
    · have hold : LeadsTo out a b := hab.of_kept (hsame a hlta (hnotin ha))
      rw [if_pos hlta, if_pos (h.small b hold.occurring.2)]
      exact hrank a b ha hb hold hne
    · rw [if_neg hlta]
      by_cases hltb : b < next'
      · rw [if_pos hltb]
        have hle : rank b ≤ (Finset.range next').sup rank := Finset.le_sup (Finset.mem_range.mpr hltb)
        omega
      · rw [if_neg hltb]
        exact Nat.add_lt_add_left (hrank' a b (not_lt.mp hlta) (not_lt.mp hltb) hab hne) _

theorem repairPass_spec (by_size : Bool) {components : List (Finset NonterminalID)}
    (hsmall : ∀ nt ∈ occurring rules, nt < next) (hnonempty : ∀ rule ∈ rules, rule.rhs ≠ [])
    (hcomponents : ∀ component ∈ components, ∀ nt ∈ component, nt < next)
    (hdisjoint : components.Pairwise Disjoint) :
    Ensures (repairPass rules by_size components next) fun r =>
      PassRepaired rules components next r.1 r.2 := by
  have hfold : ∀ (todo done : List (Finset NonterminalID)) (r : List Rule × NonterminalID),
      (done ++ todo).Pairwise Disjoint → (∀ component ∈ done ++ todo, ∀ nt ∈ component, nt < next) →
      PassRepaired rules done next r.1 r.2 →
      Ensures (todo.foldlM (fun (r : List Rule × NonterminalID) component =>
        repairComponent r.1 component by_size r.2) r) fun r =>
          PassRepaired rules (done ++ todo) next r.1 r.2 := by
    intro todo
    induction todo with
    | nil =>
        intro done r _ _ h
        rw [List.append_nil]
        exact Ensures.some h
    | cons component todo ih =>
        intro done r hpairwise hlt h
        rw [List.foldlM_cons]
        have hcomponent : ∀ nt ∈ component, nt < next := hlt component (by simp)
        have hrepaired := repairComponent_spec by_size h.small
          (fun nt hnt => (hcomponent nt hnt).trans_le h.next_le) fun rule hrule _ => h.nonempty rule hrule
        have hassoc : done ++ component :: todo = done ++ [component] ++ todo := by simp
        refine Ensures.bind hrepaired fun r' hr' => ?_
        have hstep := h.step hcomponent
          (fun c hc => (List.pairwise_append.mp hpairwise).2.2 c hc component List.mem_cons_self)
          (fun c hc => hlt c (List.mem_append_left _ hc)) hr'
        rw [hassoc] at hpairwise hlt ⊢
        exact ih (done ++ [component]) r' hpairwise hlt hstep
  exact hfold components [] (rules, next) hdisjoint hcomponents (PassRepaired.refl hsmall hnonempty)

theorem PassRepaired.congr {done' : List (Finset NonterminalID)}
    (h : PassRepaired rules done next out next') (hperm : ∀ component, component ∈ done' ↔ component ∈ done) :
    PassRepaired rules done' next out next' :=
  ⟨h.next_le, h.small, h.nonempty, h.words,
    fun rule hlhs hout => h.kept rule hlhs fun c hc => hout c ((hperm c).mpr hc), h.leads,
    fun c hc => h.ordered c ((hperm c).mp hc), h.helpers⟩

variable {S : UnstableSort} {components : List (Finset NonterminalID)} {nullable : Finset NonterminalID}

theorem repairSelected_spec (hsmall : ∀ nt ∈ occurring rules, nt < next)
    (hnonempty : ∀ rule ∈ rules, rule.rhs ≠ [])
    (hcomponents : ∀ component ∈ selected rules components nullable, ∀ nt ∈ component, nt < next)
    (hdisjoint : components.Pairwise Disjoint) :
    Ensures (repairSelected S rules components nullable next) fun out => ∃ next₁ next₂, next ≤ next₁ ∧
      PassRepaired rules (selected rules components nullable) next₁ out next₂ := by
  have hperm := S.perm firstMember (selected rules components nullable)
  have hpairwise : (S.sort firstMember (selected rules components nullable)).Pairwise Disjoint :=
    (hperm.pairwise_iff fun h => disjoint_comm.mp h).mpr (hdisjoint.filter _)
  have hpass : ∀ (by_size : Bool) (next₁ : NonterminalID), next ≤ next₁ →
      Ensures (repairPass rules by_size (S.sort firstMember (selected rules components nullable)) next₁)
        fun r => PassRepaired rules (selected rules components nullable) next₁ r.1 r.2 := by
    intro by_size next₁ hle
    have h := repairPass_spec by_size (fun nt hnt => (hsmall nt hnt).trans_le hle) hnonempty
      (fun component hc nt hnt =>
        (hcomponents component (hperm.mem_iff.mp hc) nt hnt).trans_le hle) hpairwise
    exact h.mono fun r hr => hr.congr fun component => hperm.mem_iff.symm
  unfold repairSelected
  refine Ensures.bind (hpass _ next le_rfl) fun r hr => ?_
  split_ifs
  · apply Ensures.map
    exact (hpass true r.2 hr.next_le).mono fun r' hr' => ⟨r.2, r'.2, hr.next_le, hr'⟩
  · exact Ensures.some ⟨next, r.2, le_rfl, hr⟩

end Pass

/-! ## What is left of the cycles -/

section Cycles

variable {rules out : List Rule} {next next' : NonterminalID} {components : List (Finset NonterminalID)}

/-- The sets are the components of more than one nonterminal. -/
structure Components (rules : List Rule) (components : List (Finset NonterminalID)) : Prop where
  disjoint : components.Pairwise Disjoint
  closed : ∀ component ∈ components, ∀ a ∈ component, ∀ b, LeftMutual rules a b ↔ b ∈ component
  complete : ∀ a b, a ≠ b → LeftMutual rules a b → ∃ component ∈ components, a ∈ component

/-- A nonterminal on a cycle leads to one of its component only, and not to itself. -/
def Calm (rules : List Rule) : Prop :=
  ∀ a b, a ≠ b → LeftMutual rules a b → ¬ LeadsTo rules a a ∧ ∀ x y, LeadsTo rules a x →
    LeadsTo rules a y → LeftMutual rules a x → LeftMutual rules a y → x = y

theorem mem_leadingHeads_empty {head : NonterminalID} {rhs : List GrammarSymbol} :
    head ∈ leadingHeads ∅ rhs ↔ rhs.head? = some (.nonterminal head) := by
  cases rhs with
  | nil => simp [leadingHeads]
  | cons s rhs => cases s <;> simp [leadingHeads, eq_comm]

theorem mem_innerTargets {component : Finset NonterminalID} {a b : NonterminalID} :
    b ∈ innerTargets rules component ∅ a ↔ LeadsTo rules a b ∧ b ∈ component := by
  simp only [innerTargets, Finset.mem_inter, List.mem_toFinset, List.mem_flatMap, List.mem_filter,
    decide_eq_true_eq, mem_leadingHeads_empty, LeadsTo, and_assoc]

/-- A component that needs no repair is a simple ring. -/
theorem ring_of_not_needsClosure {component : Finset NonterminalID}
    (h : needsClosure rules component ∅ = false) {a : NonterminalID} (ha : a ∈ component) :
    ¬ LeadsTo rules a a ∧ ∀ x ∈ component, ∀ y ∈ component, LeadsTo rules a x → LeadsTo rules a y →
      x = y := by
  unfold needsClosure at h
  rw [decide_eq_false_iff_not, not_exists] at h
  have hcase := h a
  rw [not_and, not_or] at hcase
  obtain ⟨hself, hcard⟩ := hcase ha
  refine ⟨fun hlead => hself (mem_innerTargets.mpr ⟨hlead, ha⟩), ?_⟩
  intro x hx y hy hax hay
  exact Finset.card_le_one.mp (not_lt.mp hcard) x (mem_innerTargets.mpr ⟨hax, hx⟩) y
    (mem_innerTargets.mpr ⟨hay, hy⟩)

theorem LeftMutual.occurring {a b : NonterminalID} (hne : a ≠ b) (h : LeftMutual rules a b) :
    a ∈ occurring rules ∧ b ∈ occurring rules := by
  obtain he | ⟨c, hac, -⟩ := ReflTransGen.cases_head h.1
  · exact absurd he hne
  · obtain he | ⟨d, hbd, -⟩ := ReflTransGen.cases_head h.2
    · exact absurd he.symm hne
    · exact ⟨hac.occurring.1, hbd.occurring.1⟩

/-- After the repair a cycle is one of the rules before, outside the repaired components. -/
theorem PassRepaired.mutual {done : List (Finset NonterminalID)} (h : PassRepaired rules done next out next')
    (hdone : ∀ component ∈ done, component ∈ components) (hcomponents : Components rules components)
    {a b : NonterminalID} (hne : a ≠ b) (hmutual : LeftMutual out a b) :
    a < next ∧ LeftMutual rules a b ∧ ∀ component ∈ done, a ∉ component := by
  have hold : ∀ x y, x < next → ReflTransGen (LeadsTo out) x y → y < next ∧ ReflTransGen (LeadsTo rules) x y := by
    intro x y hx hxy
    induction hxy with
    | refl => exact ⟨hx, .refl⟩
    | tail _ hstep ih =>
        obtain ⟨hlt, hpath⟩ := ih
        obtain ⟨hlt', hpath'⟩ := h.leads _ _ hlt hstep
        exact ⟨hlt', hpath.trans hpath'.to_reflTransGen⟩
  have ha : a < next := by
    by_contra hnext
    obtain ⟨rank, hrank⟩ := h.helpers
    apply hne
    refine eq_of_ranked (γ := ℕᵒᵈ) (T := fun x => next ≤ x) rank ?_ ?_ hmutual.1 hmutual.2
    · intro x _ hxa
      by_contra hx
      exact hnext (hold x a (not_le.mp hx) hxa).1
    · intro x y hx hy hxy
      by_cases he : x = y
      · exact ⟨he ▸ le_rfl, fun _ => he⟩
      · have hlt := hrank x y hx hy hxy he
        exact ⟨hlt.le, fun he' => absurd he' hlt.ne'⟩
  obtain ⟨hb, hab⟩ := hold a b ha hmutual.1
  refine ⟨ha, ⟨hab, (hold b a hb hmutual.2).2⟩, ?_⟩
  intro component hc hmem
  obtain ⟨rank, hrank⟩ := h.ordered component hc
  apply hne
  refine eq_of_ranked (T := (· ∈ component)) rank ?_ (fun x y hx hy => hrank x hx y hy) hmutual.1 hmutual.2
  intro x hax hxa
  obtain ⟨hx, hax'⟩ := hold a x ha hax
  exact (hcomponents.closed component (hdone component hc) a hmem x).mp ⟨hax', (hold x a hx hxa).2⟩

/-- Nothing needs a repair any more. -/
theorem PassRepaired.calm (hcomponents : Components rules components)
    (h : PassRepaired rules (selected rules components ∅) next out next') : Calm out := by
  intro a b hne hmutual
  have hselected : ∀ component ∈ selected rules components ∅, component ∈ components := fun _ hc =>
    List.mem_of_mem_filter hc
  obtain ⟨ha, hmutual', hnone⟩ := h.mutual hselected hcomponents hne hmutual
  obtain ⟨component, hcomponent, hmem⟩ := hcomponents.complete a b hne hmutual'
  have hring : needsClosure rules component ∅ = false := by
    by_contra hneeds
    rw [Bool.not_eq_false] at hneeds
    exact hnone component (List.mem_filter.mpr ⟨hcomponent, hneeds⟩) hmem
  have hkept : ∀ {x}, LeadsTo out a x → LeadsTo rules a x := fun hlead => by
    refine hlead.of_kept ?_
    rintro rule rfl
    exact h.kept rule ha hnone
  obtain ⟨hself, hunique⟩ := ring_of_not_needsClosure hring hmem
  refine ⟨fun hlead => hself (hkept hlead), ?_⟩
  intro x y hx hy hax hay
  have hin : ∀ {z}, LeadsTo out a z → LeftMutual out a z → z ∈ component := by
    intro z hz haz
    by_cases he : a = z
    · rwa [← he]
    · exact (hcomponents.closed component hcomponent a hmem z).mp
        (h.mutual hselected hcomponents he haz).2.1
  exact hunique x (hin hx hax) y (hin hy hay) (hkept hx) (hkept hy)

theorem Components.lt_next (hcomponents : Components rules components) {component : Finset NonterminalID}
    (hcomponent : component ∈ components) (hneeds : needsClosure rules component ∅ = true)
    {nt : NonterminalID} (hnt : nt ∈ component) : nt < maxNtId rules + 1 := by
  have hoccurring : ∀ {a b}, LeadsTo rules a b → a < maxNtId rules + 1 := fun h =>
    Nat.lt_succ_of_le (le_maxNtId h.occurring.1)
  obtain ⟨a, ha, hcase⟩ := of_decide_eq_true hneeds
  have hlead : ∃ b, LeadsTo rules a b := by
    obtain hself | hcard := hcase
    · exact ⟨a, (mem_innerTargets.mp hself).1⟩
    · obtain ⟨b, hb⟩ := Finset.card_pos.mp (Nat.zero_lt_of_lt hcard)
      exact ⟨b, (mem_innerTargets.mp hb).1⟩
  obtain ⟨b, hlead⟩ := hlead
  by_cases he : nt = a
  · rw [he]
    exact hoccurring hlead
  · have hmutual := (hcomponents.closed component hcomponent nt hnt a).mpr ha
    exact Nat.lt_succ_of_le (le_maxNtId (hmutual.occurring he).1)

/-- With no empty right-hand sides the repair keeps the words, and calms the rules. -/
theorem repair_spec {S : UnstableSort} {fuel : ℕ} (hnonempty : ∀ rule ∈ rules, rule.rhs ≠ [])
    (hcomponents : Components rules components) :
    Ensures (repair S rules components ∅ fuel) fun r =>
      (r = none → ∀ component ∈ components, needsClosure rules component ∅ = false) ∧
      ∀ out, r = some out → ∃ next next', maxNtId rules < next ∧
        PassRepaired rules (selected rules components ∅) next out next' := by
  unfold repair
  by_cases hnone : selected rules components ∅ = []
  · rw [if_pos hnone]
    refine Ensures.some ⟨fun _ component hc => ?_, fun out he => by cases he⟩
    by_contra hneeds
    rw [Bool.not_eq_false] at hneeds
    exact List.ne_nil_of_mem (List.mem_filter.mpr ⟨hc, hneeds⟩) hnone
  · rw [if_neg hnone]
    have hnext : Ensures (checkedNext (maxNtId rules)) fun next => next = maxNtId rules + 1 :=
      fun next hnext => checkedNext_eq_some hnext
    refine Ensures.bind hnext ?_
    rintro next rfl
    simp only [if_true]
    apply Ensures.map
    have hrepaired := repairSelected_spec (S := S)
      (fun nt hnt => Nat.lt_succ_of_le (le_maxNtId hnt)) hnonempty
      (fun component hc nt hnt => hcomponents.lt_next (List.mem_of_mem_filter hc)
        (List.mem_filter.mp hc).2 hnt) hcomponents.disjoint
    refine hrepaired.mono ?_
    rintro out ⟨next₁, next₂, hle, h⟩
    refine ⟨fun he => absurd he (Option.some_ne_none out), ?_⟩
    intro out' he
    obtain rfl := Option.some.inj he
    exact ⟨next₁, next₂, hle, h⟩

/-- The repair keeps the words of all nonterminals, and afterwards a left-recursive cycle through
several nonterminals is one of the simple rings that were there before. -/
theorem repair_derived {S : UnstableSort} {fuel : ℕ} (hnonempty : ∀ rule ∈ rules, rule.rhs ≠ [])
    (hcomponents : Components rules components)
    (h : repair S rules components ∅ fuel = some (some out)) :
    (∀ nt ≤ maxNtId rules, derived out nt = derived rules nt) ∧
      ∀ a b, a ≠ b → LeftMutual out a b → LeftMutual rules a b ∧
        ∀ component ∈ components, a ∈ component → needsClosure rules component ∅ = false := by
  obtain ⟨next, next', hlt, hpass⟩ := (repair_spec hnonempty hcomponents _ h).2 out rfl
  refine ⟨?_, ?_⟩
  · intro nt hnt
    rw [derived_eq_words, derived_eq_words]
    exact hpass.words nt (hnt.trans_lt hlt)
  · intro a b hne hmutual
    obtain ⟨-, hmutual', hnone⟩ := hpass.mutual (fun _ hc => List.mem_of_mem_filter hc) hcomponents hne
      hmutual
    refine ⟨hmutual', fun component hc hmem => ?_⟩
    by_contra hneeds
    rw [Bool.not_eq_false] at hneeds
    exact hnone component (List.mem_filter.mpr ⟨hc, hneeds⟩) hmem

end Cycles

end LeftCornerClosure

end Grammar

end GlrMask
