import GlrMask.NullableRuns

/-!
# The words of the trees

The new nonterminals can be read as languages, one after the other as they are made, so that all
rules are respected. In the other direction, whatever respects the rules of the trees has the
words of the segments that they were built for.
-/

namespace GlrMask

namespace Grammar

namespace NullableRuns

open ContextFree

/-- What is known of the sets, and of the words that the trees are for. -/
structure Setting (nullable productive : Finset NonterminalID)
    (byLhs : NonterminalID → List (List GrammarSymbol)) (I : NonterminalID → Language TerminalID)
    (bound : NonterminalID) : Prop where
  nullable_lt : ∀ nt ∈ nullable, nt < bound
  nullable_iff : ∀ nt < bound, nt ∈ nullable ↔ [] ∈ I nt
  productive_rule : ∀ nt ∈ productive, ∃ rhs ∈ byLhs nt, HasMore productive rhs
  unproductive : ∀ nt < bound, nt ∉ productive → I nt ≤ 1
  small : ∀ nt, ∀ rhs ∈ byLhs nt, ∀ nt', .nonterminal nt' ∈ rhs → nt' < bound
  sound : ∀ nt, ∀ rhs ∈ byLhs nt, denote I rhs ≤ I nt

section Invariants

variable (nullable productive : Finset NonterminalID)
  (byLhs : NonterminalID → List (List GrammarSymbol)) (I : NonterminalID → Language TerminalID)
  (bound : NonterminalID)

/-- The new nonterminals are read so that the rules are respected. -/
structure Reads (J : NonterminalID → Language TerminalID) (s : Building) : Prop where
  old : ∀ nt < bound, J nt = I nt
  rules : ∀ rule ∈ s.rules, denote J rule.rhs ≤ J rule.lhs
  cached : ∀ nt id, s.cache.get nt = some id → J id = proper (I nt)

/-- Whoever can read the one state can read the other one. -/
def Refines (s s' : Building) : Prop :=
  ∀ J, Reads I bound J s → ∃ J', Reads I bound J' s' ∧ ∀ nt < s.next, J' nt = J nt

/-- The rules of new nonterminals are respected, and the cached nonterminals have the words of
theirs. -/
structure Closes (M : NonterminalID → Language TerminalID) (s : Building) : Prop where
  rules : ∀ rule ∈ s.rules, bound ≤ rule.lhs → denote M rule.rhs ≤ M rule.lhs
  cached : ∀ nt id, s.cache.get nt = some id → proper (M nt) ≤ M id
  unproductive : ∀ nt ∈ nullable, nt ∉ productive → M nt ≤ 1

/-- A cached nonterminal has rules for all alternatives. -/
def Covered (s : Building) (nt id : NonterminalID) : Prop :=
  ∀ M, Closes nullable productive bound M s → ∀ rhs ∈ byLhs nt, proper (denote M rhs) ≤ M id

structure Extends (s s' : Building) : Prop where
  next : s.next ≤ s'.next
  rules : s.rules ⊆ s'.rules
  cache : ∀ nt id, s.cache.get nt = some id → s'.cache.get nt = some id

/-- All cached nonterminals but the pending ones have their rules. -/
structure Well (pending : Finset NonterminalID) (s : Building) : Prop where
  bound_le : bound ≤ s.next
  small : ∀ rule ∈ s.rules, rule.lhs < s.next ∧ ∀ nt, .nonterminal nt ∈ rule.rhs → nt < s.next
  ids : ∀ nt id, s.cache.get nt = some id → nt ∈ nullable ∧ bound ≤ id ∧ id < s.next
  covered : ∀ nt id, s.cache.get nt = some id → nt ∉ pending → Covered nullable productive byLhs bound s nt id

/-- A symbol with words that are not empty. -/
def Fruitful (s : GrammarSymbol) : Prop :=
  isNullable nullable s = false ∨ ∃ nt ∈ productive, s = .nonterminal nt

/-- A tree for the words of a segment that are not empty. -/
structure Built (pending : Finset NonterminalID) (segment : List GrammarSymbol) (s : Building)
    (r : Option NonterminalID × Building) : Prop where
  well : Well nullable productive byLhs bound pending r.2
  keeps : Extends s r.2
  root_lt : ∀ root, r.1 = some root → bound ≤ root ∧ root < r.2.next
  sound : ∀ J, Reads I bound J s → (∀ a ∈ segment, isNullable nullable a = false → [] ∉ value J a) →
    ∃ J', Reads I bound J' r.2 ∧ (∀ nt < s.next, J' nt = J nt) ∧
      ∀ root, r.1 = some root → J' root ≤ proper (optional J segment)
  complete : ∀ M, Closes nullable productive bound M r.2 → (r.1 = none → optional M segment ≤ 1) ∧
    ∀ root, r.1 = some root → proper (optional M segment) ≤ M root
  found : (∃ a ∈ segment, Fruitful nullable productive a) → r.1 ≠ none

def Builds (build : Builder) : Prop :=
  ∀ pending segment s, Well nullable productive byLhs bound pending s →
    (∀ nt, .nonterminal nt ∈ segment → nt < s.next) →
      Ensures (build segment s) (Built nullable productive byLhs I bound pending segment s)

end Invariants

variable {nullable productive : Finset NonterminalID}
  {byLhs : NonterminalID → List (List GrammarSymbol)} {I J M : NonterminalID → Language TerminalID}
  {bound nt id : NonterminalID} {pending : Finset NonterminalID} {s s' s'' : Building}
  {segment rhs : List GrammarSymbol} {build : Builder}

theorem Extends.refl (s : Building) : Extends s s := ⟨le_rfl, fun _ h => h, fun _ _ h => h⟩

theorem Extends.trans (h : Extends s s') (h' : Extends s' s'') : Extends s s'' :=
  ⟨h.next.trans h'.next, fun _ hr => h'.rules (h.rules hr),
    fun nt id hid => h'.cache nt id (h.cache nt id hid)⟩

theorem Refines.refl (s : Building) : Refines I bound s s := fun J hJ => ⟨J, hJ, fun _ _ => rfl⟩

theorem Refines.trans (h : Refines I bound s s') (h' : Refines I bound s' s'') (hle : s.next ≤ s'.next) :
    Refines I bound s s'' := by
  intro J hJ
  obtain ⟨J', hJ', hagree⟩ := h J hJ
  obtain ⟨J'', hJ'', hagree'⟩ := h' J' hJ'
  exact ⟨J'', hJ'', fun nt hnt => (hagree' nt (hnt.trans_le hle)).trans (hagree nt hnt)⟩

theorem Closes.mono (h : Extends s s') (hM : Closes nullable productive bound M s') :
    Closes nullable productive bound M s :=
  ⟨fun rule hrule => hM.rules rule (h.rules hrule), fun nt id hid => hM.cached nt id (h.cache nt id hid),
    hM.unproductive⟩

theorem Covered.mono (h : Extends s s') (hcovered : Covered nullable productive byLhs bound s nt id) :
    Covered nullable productive byLhs bound s' nt id := fun M hM => hcovered M (hM.mono h)

theorem isNullable_iff {a : GrammarSymbol} : isNullable nullable a = true ↔
    ∃ nt ∈ nullable, a = .nonterminal nt := by
  cases a <;> simp [isNullable]

/-! ## New nonterminals and new rules -/

theorem Reads.update (hJ : Reads I bound J s) (hs : Well nullable productive byLhs bound pending s)
    (L : Language TerminalID) (next : NonterminalID) :
    Reads I bound (Function.update J s.next L) { s with next := next } := by
  have hold : ∀ nt < s.next, Function.update J s.next L nt = J nt := fun nt hnt =>
    Function.update_of_ne hnt.ne L J
  refine ⟨?_, ?_, ?_⟩
  · intro nt hnt
    rw [hold nt (hnt.trans_le hs.bound_le), hJ.old nt hnt]
  · intro rule hrule
    obtain ⟨hlhs, hrhs⟩ := hs.small rule hrule
    have hcongr : denote (Function.update J s.next L) rule.rhs = denote J rule.rhs :=
      denote_congr fun nt hnt => hold nt (hrhs nt hnt)
    rw [hcongr, hold rule.lhs hlhs]
    exact hJ.rules rule hrule
  · intro nt id hid
    rw [hold id (hs.ids nt id hid).2.2]
    exact hJ.cached nt id hid

theorem Reads.emit (hJ : Reads I bound J s) {rules : List Rule}
    (hrules : ∀ rule ∈ rules, denote J rule.rhs ≤ J rule.lhs) : Reads I bound J (s.emit rules) := by
  refine ⟨hJ.old, ?_, hJ.cached⟩
  intro rule hrule
  exact (List.mem_append.mp hrule).elim (hJ.rules rule) (hrules rule)

theorem Extends.emit (s : Building) (rules : List Rule) : Extends s (s.emit rules) :=
  ⟨le_rfl, List.subset_append_left _ _, fun _ _ h => h⟩

theorem Extends.fresh (s : Building) {next : NonterminalID} (h : s.next ≤ next) :
    Extends s { s with next := next } := ⟨h, fun _ hr => hr, fun _ _ hid => hid⟩

theorem Well.fresh (hs : Well nullable productive byLhs bound pending s) {next : NonterminalID}
    (h : s.next ≤ next) : Well nullable productive byLhs bound pending { s with next := next } := by
  refine ⟨hs.bound_le.trans h, ?_, ?_, ?_⟩
  · intro rule hrule
    obtain ⟨hlhs, hrhs⟩ := hs.small rule hrule
    exact ⟨hlhs.trans_le h, fun nt hnt => (hrhs nt hnt).trans_le h⟩
  · intro nt id hid
    obtain ⟨hnt, hle, hlt⟩ := hs.ids nt id hid
    exact ⟨hnt, hle, hlt.trans_le h⟩
  · intro nt id hid hpending
    exact (hs.covered nt id hid hpending).mono (Extends.fresh s h)

theorem Well.emit (hs : Well nullable productive byLhs bound pending s) {rules : List Rule}
    (hrules : ∀ rule ∈ rules, rule.lhs < s.next ∧ ∀ nt, .nonterminal nt ∈ rule.rhs → nt < s.next) :
    Well nullable productive byLhs bound pending (s.emit rules) := by
  refine ⟨hs.bound_le, ?_, hs.ids, ?_⟩
  · intro rule hrule
    exact (List.mem_append.mp hrule).elim (hs.small rule) (hrules rule)
  · intro nt id hid hpending
    exact (hs.covered nt id hid hpending).mono (Extends.emit s rules)

theorem fresh_spec (s : Building) : Ensures s.fresh fun r =>
    r.1 = s.next ∧ r.2 = { s with next := s.next + 1 } := by
  apply Ensures.map
  intro next hnext
  rw [checkedNext_eq_some hnext]
  exact ⟨rfl, rfl⟩

/-! ## The nonterminal of a nullable one -/

/-- The rules for some of the alternatives are there. -/
structure Emitted (nullable productive : Finset NonterminalID)
    (byLhs : NonterminalID → List (List GrammarSymbol)) (I : NonterminalID → Language TerminalID)
    (bound : NonterminalID) (pending : Finset NonterminalID) (id : NonterminalID) (start : Building)
    (done : List (List GrammarSymbol)) (r : Bool × Building) : Prop where
  well : Well nullable productive byLhs bound pending r.2
  keeps : Extends start r.2
  refines : Refines I bound start r.2
  complete : ∀ M, Closes nullable productive bound M r.2 → ∀ rhs ∈ done, proper (denote M rhs) ≤ M id
  found : (∃ rhs ∈ done, HasMore productive rhs) → r.1 = true

theorem fruitful_of_hasMore (h : HasMore productive rhs) : ∃ a ∈ rhs, Fruitful nullable productive a := by
  obtain ⟨a, ha, ⟨t, rfl⟩ | hproductive⟩ := h
  · exact ⟨_, ha, Or.inl rfl⟩
  · exact ⟨a, ha, Or.inr hproductive⟩

theorem proper_one_le {L : Language TerminalID} : proper 1 ≤ L := by
  rintro w ⟨hw, hne⟩
  exact absurd ((Language.mem_one w).mp hw) hne

theorem emitAlternative_spec (hset : Setting nullable productive byLhs I bound)
    (hbuild : Builds nullable productive byLhs I bound build) {start : Building}
    (hid : start.cache.get nt = some id) (hrhs : rhs ∈ byLhs nt) {done : List (List GrammarSymbol)}
    {r : Bool × Building} (h : Emitted nullable productive byLhs I bound pending id start done r) :
    Ensures (emitAlternative nullable build id r rhs)
      (Emitted nullable productive byLhs I bound pending id start (done ++ [rhs])) := by
  have hcached : ∀ {s}, Extends start s → s.cache.get nt = some id := fun hext => hext.cache nt id hid
  have hsmall : ∀ nt', .nonterminal nt' ∈ rhs → nt' < bound := hset.small nt rhs hrhs
  have hdenote : ∀ {s J}, Reads I bound J s → denote J rhs = denote I rhs := fun hJ =>
    denote_congr fun nt' hnt' => hJ.old nt' (hsmall nt' hnt')
  -- One more alternative, after which the flag is up or the alternative has no words.
  have hdone : ∀ r' : Bool × Building, Extends r.2 r'.2 → (r.1 = true → r'.1 = true) →
      Well nullable productive byLhs bound pending r'.2 → Refines I bound r.2 r'.2 →
      (∀ M, Closes nullable productive bound M r'.2 → proper (denote M rhs) ≤ M id) →
      (HasMore productive rhs → r'.1 = true) →
      Emitted nullable productive byLhs I bound pending id start (done ++ [rhs]) r' := by
    intro r' hext hflag hwell hrefines hcomplete hfound
    refine ⟨hwell, h.keeps.trans hext, h.refines.trans hrefines h.keeps.next, ?_, ?_⟩
    · intro M hM rhs' hrhs'
      obtain hrhs' | hrhs' := List.mem_append.mp hrhs'
      · exact h.complete M (hM.mono hext) rhs' hrhs'
      · rw [List.mem_singleton.mp hrhs']
        exact hcomplete M hM
    · rintro ⟨rhs', hrhs', hmore⟩
      obtain hrhs' | hrhs' := List.mem_append.mp hrhs'
      · exact hflag (h.found ⟨rhs', hrhs', hmore⟩)
      · rw [List.mem_singleton.mp hrhs'] at hmore
        exact hfound hmore
  unfold emitAlternative
  split_ifs with hnil hany
  · refine Ensures.some (hdone r (Extends.refl _) (fun hr => hr) h.well (Refines.refl _) ?_ ?_)
    · intro M _
      rw [hnil]
      exact proper_one_le
    · rintro ⟨a, ha, -⟩
      rw [hnil] at ha
      cases ha
  · have hemit := hcached h.keeps
    obtain ⟨-, hle, hlt⟩ := h.well.ids nt id hemit
    refine Ensures.some (hdone _ (Extends.emit _ _) (fun _ => rfl) ?_ ?_ ?_ fun _ => rfl)
    · apply h.well.emit
      intro rule hrule
      rw [List.mem_singleton.mp hrule]
      exact ⟨hlt, fun nt' hnt' => (hsmall nt' hnt').trans_le h.well.bound_le⟩
    · intro J hJ
      refine ⟨J, hJ.emit ?_, fun _ _ => rfl⟩
      intro rule hrule
      rw [List.mem_singleton.mp hrule]
      dsimp only
      rw [hJ.cached nt id hemit, hdenote hJ]
      apply le_proper (hset.sound nt rhs hrhs)
      intro hmem
      obtain ⟨a, ha, hnullable⟩ := List.any_eq_true.mp hany
      obtain ⟨nt', rfl, hnt'⟩ := nil_mem_denote.mp hmem a ha
      rw [Bool.not_eq_true', ← Bool.not_eq_true] at hnullable
      exact hnullable (isNullable_iff.mpr ⟨nt', (hset.nullable_iff nt' (hsmall nt' ha)).mpr hnt', rfl⟩)
    · intro M hM
      exact (proper_le _).trans (hM.rules ⟨id, rhs⟩ (by simp [Building.emit]) hle)
  · have hall : ∀ a ∈ rhs, isNullable nullable a = true := by
      intro a ha
      by_contra hno
      exact hany (List.any_eq_true.mpr ⟨a, ha, by simpa using hno⟩)
    apply Ensures.map
    refine (hbuild pending rhs r.2 h.well
      fun nt' hnt' => (hsmall nt' hnt').trans_le h.well.bound_le).mono ?_
    rintro ⟨root, s⟩ hbuilt
    have hepsilon : ∀ J : NonterminalID → Language TerminalID, ∀ a ∈ rhs,
        isNullable nullable a = false → [] ∉ value J a := by
      intro J a ha hfalse
      rw [hall a ha] at hfalse
      cases hfalse
    cases root with
    | none =>
        refine hdone _ hbuilt.keeps (fun hr => hr) hbuilt.well ?_ ?_ ?_
        · intro J hJ
          obtain ⟨J', hJ', hagree, -⟩ := hbuilt.sound J hJ (hepsilon J)
          exact ⟨J', hJ', hagree⟩
        · intro M hM
          have hone := (denote_le_optional rhs).trans ((hbuilt.complete M hM).1 rfl)
          exact (proper_mono hone).trans proper_one_le
        · intro hmore
          exact absurd rfl (hbuilt.found (fruitful_of_hasMore hmore))
    | some root =>
        obtain ⟨hroot, hrootlt⟩ := hbuilt.root_lt root rfl
        have hemit := hcached (h.keeps.trans hbuilt.keeps)
        obtain ⟨-, hle, hlt⟩ := hbuilt.well.ids nt id hemit
        refine hdone _ (hbuilt.keeps.trans (Extends.emit _ _)) (fun _ => rfl) ?_ ?_ ?_ fun _ => rfl
        · apply hbuilt.well.emit
          intro rule hrule
          rw [List.mem_singleton.mp hrule]
          refine ⟨hlt, fun nt' hnt' => ?_⟩
          obtain rfl := Symbol.nonterminal.inj (List.mem_singleton.mp hnt')
          exact hrootlt
        · intro J hJ
          obtain ⟨J', hJ', hagree, hrootle⟩ := hbuilt.sound J hJ (hepsilon J)
          refine ⟨J', hJ'.emit ?_, hagree⟩
          intro rule hrule
          rw [List.mem_singleton.mp hrule]
          dsimp only
          rw [denote_nonterminal, hJ'.cached nt id hemit]
          refine (hrootle root rfl).trans (proper_mono ?_)
          refine (optional_le_denote ?_).trans ((hdenote hJ).le.trans (hset.sound nt rhs hrhs))
          intro a ha
          obtain ⟨nt', hnt', rfl⟩ := isNullable_iff.mp (hall a ha)
          change [] ∈ J nt'
          rw [hJ.old nt' (hsmall nt' ha)]
          exact (hset.nullable_iff nt' (hsmall nt' ha)).mp hnt'
        · intro M hM
          have hrule := hM.rules ⟨id, [.nonterminal root]⟩ (by simp [Building.emit]) hle
          rw [denote_nonterminal] at hrule
          have hbuilt' := (hbuilt.complete M (hM.mono (Extends.emit _ _))).2 root rfl
          exact (proper_mono (denote_le_optional rhs)).trans (hbuilt'.trans hrule)

theorem getOrCreateNonNullableNt_spec (hset : Setting nullable productive byLhs I bound)
    (hbuild : Builds nullable productive byLhs I bound build)
    (hs : Well nullable productive byLhs bound pending s) (hnullable : nt ∈ nullable)
    (hproductive : nt ∈ productive) :
    Ensures (getOrCreateNonNullableNt nullable productive byLhs build nt s) fun r =>
      Well nullable productive byLhs bound pending r.2 ∧ Extends s r.2 ∧ Refines I bound s r.2 ∧
        ∃ id, r.1 = some id ∧ r.2.cache.get nt = some id := by
  obtain ⟨rhs₀, hrhs₀, hmore⟩ := hset.productive_rule nt hproductive
  unfold getOrCreateNonNullableNt
  rw [if_neg (not_not.mpr hnullable), if_neg (not_not.mpr hproductive)]
  cases hcache : s.cache.get nt with
  | some id => exact Ensures.some ⟨hs, Extends.refl s, Refines.refl s, id, rfl, hcache⟩
  | none =>
      dsimp only
      rw [if_neg (List.ne_nil_of_mem hrhs₀)]
      refine Ensures.bind (fresh_spec s) ?_
      rintro ⟨id, s₁⟩ ⟨rfl, rfl⟩
      dsimp only
      -- The nonterminal enters the cache before it has rules.
      generalize hstart : ({ s with next := s.next + 1, cache := s.cache.insert nt s.next } : Building)
        = start
      have hget : start.cache.get nt = some s.next := by
        rw [← hstart, SortedMap.get_insert, if_pos rfl]
      have hother : ∀ nt', nt' ≠ nt → start.cache.get nt' = s.cache.get nt' := by
        intro nt' hne
        rw [← hstart, SortedMap.get_insert, if_neg hne.symm]
      have hrules : start.rules = s.rules := by rw [← hstart]
      have hnext : start.next = s.next + 1 := by rw [← hstart]
      have hext : Extends s start := by
        refine ⟨by rw [hnext]; exact Nat.le_succ _, fun rule hrule => hrules ▸ hrule, ?_⟩
        intro nt' id hid
        rw [hother nt' ?_]
        · exact hid
        · rintro rfl
          rw [hcache] at hid
          cases hid
      have hwell : Well nullable productive byLhs bound (insert nt pending) start := by
        refine ⟨hs.bound_le.trans hext.next, ?_, ?_, ?_⟩
        · intro rule hrule
          rw [hrules] at hrule
          obtain ⟨hlhs, hrhs⟩ := hs.small rule hrule
          exact ⟨hlhs.trans_le hext.next, fun nt' hnt' => (hrhs nt' hnt').trans_le hext.next⟩
        · intro nt' id hid
          by_cases hne : nt' = nt
          · subst hne
            rw [hget] at hid
            obtain rfl := Option.some.inj hid
            exact ⟨hnullable, hs.bound_le, by rw [hnext]; exact Nat.lt_succ_self _⟩
          · rw [hother nt' hne] at hid
            obtain ⟨hnt', hle, hlt⟩ := hs.ids nt' id hid
            exact ⟨hnt', hle, hlt.trans_le hext.next⟩
        · intro nt' id hid hpending
          rw [Finset.mem_insert, not_or] at hpending
          rw [hother nt' hpending.1] at hid
          exact (hs.covered nt' id hid hpending.2).mono hext
      have hrefines : Refines I bound s start := by
        intro J hJ
        refine ⟨Function.update J s.next (proper (I nt)), ?_, fun nt' hnt' => Function.update_of_ne hnt'.ne _ _⟩
        have hJ' := hJ.update hs (proper (I nt)) (s.next + 1)
        refine ⟨hJ'.old, hrules ▸ hJ'.rules, ?_⟩
        intro nt' id hid
        by_cases hne : nt' = nt
        · subst hne
          rw [hget] at hid
          rw [← Option.some.inj hid, Function.update_self]
        · rw [hother nt' hne] at hid
          exact hJ'.cached nt' id hid
      have hbegin : Emitted nullable productive byLhs I bound (insert nt pending) s.next start []
          (false, start) := by
        refine ⟨hwell, Extends.refl _, Refines.refl _, fun M _ rhs hrhs => absurd hrhs List.not_mem_nil, ?_⟩
        rintro ⟨rhs, hrhs, -⟩
        exact absurd hrhs List.not_mem_nil
      apply Ensures.map
      refine (Ensures.foldlM [] hbegin fun done rhs r hrhs hr =>
        emitAlternative_spec hset hbuild hget hrhs hr).mono ?_
      rintro ⟨flag, s'⟩ h
      rw [List.nil_append] at h
      have hflag : flag = true := h.found ⟨rhs₀, hrhs₀, hmore⟩
      rw [hflag, if_pos rfl]
      have hget' := h.keeps.cache nt s.next hget
      refine ⟨⟨h.well.bound_le, h.well.small, h.well.ids, ?_⟩, hext.trans h.keeps,
        hrefines.trans h.refines hext.next, s.next, rfl, hget'⟩
      intro nt' id hid hpending
      by_cases hne : nt' = nt
      · subst hne
        dsimp only at hid
        rw [hget'] at hid
        obtain rfl := Option.some.inj hid
        exact h.complete
      · exact h.well.covered nt' id hid (by simp [hne, hpending])

/-! ## Trees -/

/-- The symbols of a segment after they are replaced. -/
structure Replaced (nullable productive : Finset NonterminalID)
    (byLhs : NonterminalID → List (List GrammarSymbol)) (I : NonterminalID → Language TerminalID)
    (bound : NonterminalID) (pending : Finset NonterminalID) (segment : List GrammarSymbol)
    (s : Building) (r : List GrammarSymbol × Building) : Prop where
  well : Well nullable productive byLhs bound pending r.2
  keeps : Extends s r.2
  small : ∀ nt, .nonterminal nt ∈ r.1 → nt < r.2.next
  solid : ∀ a ∈ r.1, isNullable nullable a = false
  sound : ∀ J, Reads I bound J s → (∀ a ∈ segment, isNullable nullable a = false → [] ∉ value J a) →
    ∃ J', Reads I bound J' r.2 ∧ (∀ nt < s.next, J' nt = J nt) ∧
      optional J' r.1 ≤ optional J segment ∧ ∀ a ∈ r.1, [] ∉ value J' a
  complete : ∀ M, Closes nullable productive bound M r.2 → optional M segment ≤ optional M r.1
  found : (∃ a ∈ segment, Fruitful nullable productive a) → r.1 ≠ []

/-- A symbol that stays as it is. -/
theorem Replaced.keep {a : GrammarSymbol} {rest : List GrammarSymbol} {r : List GrammarSymbol × Building}
    (h : Replaced nullable productive byLhs I bound pending rest s r)
    (ha : isNullable nullable a = false) (hsmall : ∀ nt, .nonterminal nt ∈ a :: rest → nt < s.next) :
    Replaced nullable productive byLhs I bound pending (a :: rest) s (a :: r.1, r.2) := by
  refine ⟨h.well, h.keeps, ?_, ?_, ?_, ?_, fun _ => List.cons_ne_nil _ _⟩
  · intro nt hnt
    obtain hnt | hnt := List.mem_cons.mp hnt
    · exact (hsmall nt (by rw [hnt]; exact List.mem_cons_self)).trans_le h.keeps.next
    · exact h.small nt hnt
  · intro b hb
    obtain rfl | hb := List.mem_cons.mp hb
    · exact ha
    · exact h.solid b hb
  · intro J hJ hnil
    obtain ⟨J', hJ', hagree, hle, hsolid⟩ := h.sound J hJ fun b hb => hnil b (List.mem_cons_of_mem _ hb)
    have hvalue : value J' a = value J a := by
      cases a with
      | terminal t => rfl
      | nonterminal nt => exact hagree nt (hsmall nt List.mem_cons_self)
    refine ⟨J', hJ', hagree, ?_, ?_⟩
    · rw [optional_cons, optional_cons, hvalue]
      exact mul_le_mul' le_rfl hle
    · intro b hb
      obtain rfl | hb := List.mem_cons.mp hb
      · rw [hvalue]
        exact hnil _ List.mem_cons_self ha
      · exact hsolid b hb
  · intro M hM
    rw [optional_cons, optional_cons]
    exact mul_le_mul' le_rfl (h.complete M hM)

theorem segmentSymbols_spec (hset : Setting nullable productive byLhs I bound)
    (hbuild : Builds nullable productive byLhs I bound build)
    (hs : Well nullable productive byLhs bound pending s)
    (hsmall : ∀ nt, .nonterminal nt ∈ segment → nt < s.next) :
    Ensures (segmentSymbols nullable productive byLhs build segment s)
      (Replaced nullable productive byLhs I bound pending segment s) := by
  induction segment generalizing s with
  | nil =>
      refine Ensures.some ⟨hs, Extends.refl s, by simp, by simp, ?_, fun M _ => le_rfl, by simp⟩
      intro J hJ _
      exact ⟨J, hJ, fun _ _ => rfl, le_rfl, by simp⟩
  | cons a rest ih =>
      have hrest : ∀ {s'}, s.next ≤ s'.next → Well nullable productive byLhs bound pending s' →
          Ensures (segmentSymbols nullable productive byLhs build rest s')
            (Replaced nullable productive byLhs I bound pending rest s') := fun hle hs' =>
        ih hs' fun nt hnt => (hsmall nt (List.mem_cons_of_mem _ hnt)).trans_le hle
      cases a with
      | terminal t =>
          apply Ensures.map
          exact (hrest le_rfl hs).mono fun r hr => hr.keep rfl hsmall
      | nonterminal nt =>
          have hnt := hsmall nt List.mem_cons_self
          unfold segmentSymbols
          split_ifs with hnullable hproductive
          · have hbound := hset.nullable_lt nt hnullable
            refine Ensures.bind (getOrCreateNonNullableNt_spec hset hbuild hs hnullable hproductive) ?_
            rintro ⟨root, s₁⟩ ⟨hwell, hext, hrefines, id, rfl, hget⟩
            apply Ensures.map
            refine (hrest hext.next hwell).mono ?_
            rintro ⟨symbols, s₂⟩ h
            have hget' := h.keeps.cache nt id hget
            obtain ⟨-, hid, hidlt⟩ := h.well.ids nt id hget'
            refine ⟨h.well, hext.trans h.keeps, ?_, ?_, ?_, ?_, fun _ => List.cons_ne_nil _ _⟩
            · intro nt' hnt'
              obtain hnt' | hnt' := List.mem_cons.mp hnt'
              · rwa [Symbol.nonterminal.inj hnt']
              · exact h.small nt' hnt'
            · intro b hb
              obtain rfl | hb := List.mem_cons.mp hb
              · by_contra htrue
                rw [Bool.not_eq_false] at htrue
                obtain ⟨nt', hnt', he⟩ := isNullable_iff.mp htrue
                rw [Symbol.nonterminal.inj he] at hid
                exact absurd (hset.nullable_lt nt' hnt') (not_lt.mpr hid)
              · exact h.solid b hb
            · intro J hJ hnil
              obtain ⟨J₁, hJ₁, hagree⟩ := hrefines J hJ
              have hsymbol : ∀ b ∈ rest, value J₁ b = value J b := by
                intro b hb
                cases b with
                | terminal t => rfl
                | nonterminal nt' => exact hagree nt' (hsmall nt' (List.mem_cons_of_mem _ hb))
              have hnil₁ : ∀ b ∈ rest, isNullable nullable b = false → [] ∉ value J₁ b := by
                intro b hb hfalse
                rw [hsymbol b hb]
                exact hnil b (List.mem_cons_of_mem _ hb) hfalse
              obtain ⟨J₂, hJ₂, hagree₂, hle, hsolid⟩ := h.sound J₁ hJ₁ hnil₁
              refine ⟨J₂, hJ₂, ?_, ?_, ?_⟩
              · intro nt' hnt'
                rw [hagree₂ nt' (hnt'.trans_le hext.next), hagree nt' hnt']
              · rw [optional_cons, optional_cons]
                refine mul_le_mul' (add_le_add le_rfl ?_) (hle.trans ?_)
                · change J₂ id ≤ J nt
                  rw [hJ₂.cached nt id hget', hJ.old nt hbound]
                  exact proper_le _
                · exact (optional_congr fun nt' hnt' => hagree nt'
                    (hsmall nt' (List.mem_cons_of_mem _ hnt'))).le
              · intro b hb
                obtain rfl | hb := List.mem_cons.mp hb
                · change [] ∉ J₂ id
                  rw [hJ₂.cached nt id hget']
                  exact nil_notMem_proper _
                · exact hsolid b hb
            · intro M hM
              rw [optional_cons, optional_cons]
              refine mul_le_mul' (one_add_le (le_one_add_of_proper_le ?_) (nil_mem_one_add _))
                (h.complete M hM)
              exact hM.cached nt id hget'
          · refine (hrest le_rfl hs).mono ?_
            intro r h
            refine ⟨h.well, h.keeps, h.small, h.solid, ?_, ?_, ?_⟩
            · intro J hJ hnil
              obtain ⟨J', hJ', hagree, hle, hsolid⟩ := h.sound J hJ fun b hb =>
                hnil b (List.mem_cons_of_mem _ hb)
              refine ⟨J', hJ', hagree, ?_, hsolid⟩
              intro w hw
              rw [optional_cons]
              exact Language.append_mem_mul (nil_mem_one_add _) (hle hw)
            · intro M hM
              rw [optional_cons]
              have hone : 1 + value M (.nonterminal nt) ≤ 1 :=
                one_add_le (hM.unproductive nt hnullable hproductive) Language.nil_mem_one
              calc (1 + value M (.nonterminal nt)) * optional M rest
                  ≤ 1 * optional M rest := mul_le_mul' hone le_rfl
                _ = optional M rest := one_mul _
                _ ≤ optional M r.1 := h.complete M hM
            · rintro ⟨a, ha, hfruitful⟩
              obtain rfl | ha := List.mem_cons.mp ha
              · obtain hfalse | ⟨nt', hnt', he⟩ := hfruitful
                · rw [isNullable_iff.mpr ⟨nt, hnullable, rfl⟩] at hfalse
                  cases hfalse
                · rw [← Symbol.nonterminal.inj he] at hnt'
                  exact absurd hnt' hproductive
              · exact h.found ⟨a, ha, hfruitful⟩
          · apply Ensures.map
            refine (hrest le_rfl hs).mono fun r hr => hr.keep ?_ hsmall
            simpa [isNullable] using hnullable

theorem leafTree_spec {symbols : List GrammarSymbol} (hs : Well nullable productive byLhs bound pending s)
    (hsmall : ∀ nt, .nonterminal nt ∈ symbols → nt < s.next)
    (hsolid : ∀ a ∈ symbols, isNullable nullable a = false) :
    Ensures (leafTree symbols s) fun r =>
      Built nullable productive byLhs I bound pending symbols s (some r.1, r.2) := by
  apply Ensures.map
  refine (fresh_spec s).mono ?_
  rintro ⟨root, s₁⟩ ⟨rfl, rfl⟩
  dsimp only
  have hmask : ∀ rule ∈ (List.range' 1 (2 ^ symbols.length - 1)).map fun mask =>
      (⟨s.next, selectBits mask symbols⟩ : Rule), rule.lhs = s.next ∧
        ∃ mask, 0 < mask ∧ mask < 2 ^ symbols.length ∧ rule.rhs = selectBits mask symbols := by
    intro rule hrule
    obtain ⟨mask, hmask, rfl⟩ := List.mem_map.mp hrule
    rw [List.mem_range'_1] at hmask
    exact ⟨rfl, mask, hmask.1, by omega, rfl⟩
  have hext := (Extends.fresh s (Nat.le_succ s.next)).trans (Extends.emit _
    ((List.range' 1 (2 ^ symbols.length - 1)).map fun mask => ⟨s.next, selectBits mask symbols⟩))
  refine ⟨?_, hext, ?_, ?_, ?_, fun _ => Option.some_ne_none _⟩
  · apply (hs.fresh (Nat.le_succ s.next)).emit
    intro rule hrule
    obtain ⟨hlhs, mask, -, -, hrhs⟩ := hmask rule hrule
    rw [hlhs, hrhs]
    exact ⟨Nat.lt_succ_self _, fun nt hnt => (hsmall nt (mem_selectBits hnt)).trans (Nat.lt_succ_self _)⟩
  · intro root he
    rw [← Option.some.inj he]
    exact ⟨hs.bound_le, Nat.lt_succ_self _⟩
  · intro J hJ hnil
    have hold : ∀ nt < s.next, Function.update J s.next (proper (optional J symbols)) nt = J nt :=
      fun nt hnt => Function.update_of_ne hnt.ne _ _
    refine ⟨_, (hJ.update hs (proper (optional J symbols)) (s.next + 1)).emit ?_, hold, ?_⟩
    · intro rule hrule
      obtain ⟨hlhs, mask, hpos, hlt, hrhs⟩ := hmask rule hrule
      have hcongr : denote (Function.update J s.next (proper (optional J symbols)))
          (selectBits mask symbols) = denote J (selectBits mask symbols) :=
        denote_congr fun nt hnt => hold nt (hsmall nt (mem_selectBits hnt))
      rw [hlhs, hrhs, Function.update_self, hcongr]
      apply le_proper (denote_selectBits_le mask symbols)
      intro hmem
      obtain ⟨a, ha⟩ := List.exists_mem_of_ne_nil _ (selectBits_ne_nil hpos hlt)
      obtain ⟨nt, rfl, hnt⟩ := nil_mem_denote.mp hmem a ha
      have hin := mem_selectBits ha
      exact hnil _ hin (hsolid _ hin) hnt
    · intro root he
      rw [← Option.some.inj he, Function.update_self]
  · intro M hM
    refine ⟨fun he => absurd he (Option.some_ne_none _), ?_⟩
    intro root he
    rw [← Option.some.inj he]
    rintro w ⟨hw, hne⟩
    obtain ⟨mask, hlt, hw⟩ := exists_selectBits hw
    have hpos : mask ≠ 0 := by
      rintro rfl
      rw [selectBits_zero] at hw
      exact hne ((Language.mem_one w).mp hw)
    refine hM.rules ⟨s.next, selectBits mask symbols⟩ ?_ hs.bound_le hw
    refine List.mem_append_right _ (List.mem_map.mpr ⟨mask, ?_, rfl⟩)
    rw [List.mem_range'_1]
    omega

theorem chunkTree_spec (hset : Setting nullable productive byLhs I bound)
    (hbuild : Builds nullable productive byLhs I bound build) {first : GrammarSymbol}
    {rest : List GrammarSymbol} (hs : Well nullable productive byLhs bound pending s)
    (hsmall : ∀ nt, .nonterminal nt ∈ first :: rest → nt < s.next) :
    Ensures (chunkTree build first rest s) fun r =>
      Built nullable productive byLhs I bound pending (first :: rest) s r ∧ r.1 ≠ none := by
  have hfirst : ∀ nt, .nonterminal nt ∈ [first] → nt < s.next := fun nt hnt =>
    hsmall nt (List.mem_cons.mpr (Or.inl (List.mem_singleton.mp hnt)))
  refine Ensures.bind (hbuild pending [first] s hs hfirst) ?_
  rintro ⟨left, s₁⟩ hleft
  have hrest : ∀ nt, .nonterminal nt ∈ rest → nt < s₁.next := fun nt hnt =>
    (hsmall nt (List.mem_cons_of_mem _ hnt)).trans_le hleft.keeps.next
  refine Ensures.bind (hbuild pending rest s₁ hleft.well hrest) ?_
  rintro ⟨right, s₂⟩ hright
  cases left with
  | none => exact Ensures.none _
  | some left =>
  cases right with
  | none => exact Ensures.none _
  | some right =>
  obtain ⟨hleftle, hleftlt⟩ := hleft.root_lt left rfl
  obtain ⟨hrightle, hrightlt⟩ := hright.root_lt right rfl
  have hroots : ∀ nt, .nonterminal nt ∈ [(.nonterminal left : GrammarSymbol), .nonterminal right] →
      nt < s₂.next := by
    intro nt hnt
    rw [List.mem_pair] at hnt
    obtain he | he := hnt
    · rw [Symbol.nonterminal.inj he]
      exact hleftlt.trans_le hright.keeps.next
    · rw [Symbol.nonterminal.inj he]
      exact hrightlt
  refine (hbuild pending _ s₂ hright.well hroots).mono ?_
  rintro ⟨root, s₃⟩ hroot
  have hext := (hleft.keeps.trans hright.keeps).trans hroot.keeps
  have hne : root ≠ none := by
    refine hroot.found ⟨_, List.mem_cons_self, Or.inl ?_⟩
    by_contra htrue
    rw [Bool.not_eq_false] at htrue
    obtain ⟨nt, hnt, he⟩ := isNullable_iff.mp htrue
    rw [Symbol.nonterminal.inj he] at hleftle
    exact absurd (hset.nullable_lt nt hnt) (not_lt.mpr hleftle)
  refine ⟨⟨hroot.well, hext, hroot.root_lt, ?_, ?_, fun _ => hne⟩, hne⟩
  · intro J hJ hnil
    obtain ⟨J₁, hJ₁, hagree₁, hle₁⟩ := hleft.sound J hJ fun a ha => hnil a
      (List.mem_cons.mpr (Or.inl (List.mem_singleton.mp ha)))
    have hvalue : ∀ a ∈ rest, value J₁ a = value J a := by
      intro a ha
      cases a with
      | terminal t => rfl
      | nonterminal nt => exact hagree₁ nt (hsmall nt (List.mem_cons_of_mem _ ha))
    obtain ⟨J₂, hJ₂, hagree₂, hle₂⟩ := hright.sound J₁ hJ₁ fun a ha hfalse => by
      rw [hvalue a ha]
      exact hnil a (List.mem_cons_of_mem _ ha) hfalse
    have hleftword : J₂ left ≤ proper (optional J [first]) := by
      rw [hagree₂ left hleftlt]
      exact hle₁ left rfl
    have hrightword : J₂ right ≤ proper (optional J rest) := by
      refine (hle₂ right rfl).trans (proper_mono (optional_congr ?_).le)
      exact fun nt hnt => hagree₁ nt (hsmall nt (List.mem_cons_of_mem _ hnt))
    obtain ⟨J₃, hJ₃, hagree₃, hle₃⟩ := hroot.sound J₂ hJ₂ fun a ha _ => by
      rw [List.mem_pair] at ha
      obtain rfl | rfl := ha
      · exact fun hmem => nil_notMem_proper _ (hleftword hmem)
      · exact fun hmem => nil_notMem_proper _ (hrightword hmem)
    refine ⟨J₃, hJ₃, ?_, ?_⟩
    · intro nt hnt
      rw [hagree₃ nt (hnt.trans_le (hleft.keeps.trans hright.keeps).next),
        hagree₂ nt (hnt.trans_le hleft.keeps.next), hagree₁ nt hnt]
    · intro root he
      refine (hle₃ root he).trans (proper_mono ?_)
      rw [optional_cons, optional_cons, optional_nil, mul_one, optional_cons]
      have hone : 1 + J₂ left ≤ 1 + value J first := by
        refine one_add_le (hleftword.trans ((proper_le _).trans ?_)) (nil_mem_one_add _)
        rw [optional_cons, optional_nil, mul_one]
      exact mul_le_mul' hone (one_add_le (hrightword.trans (proper_le _)) (nil_mem_optional rest))
  · intro M hM
    refine ⟨fun he => absurd he hne, ?_⟩
    intro root he
    refine (proper_mono ?_).trans ((hroot.complete M hM).2 root he)
    have hM₂ := hM.mono hroot.keeps
    have hleftword := (hleft.complete M (hM₂.mono hright.keeps)).2 left rfl
    have hrightword := (hright.complete M hM₂).2 right rfl
    rw [optional_cons, optional_cons, optional_cons, optional_nil, mul_one]
    rw [optional_cons, optional_nil, mul_one] at hleftword
    exact mul_le_mul' (le_one_add_of_proper_le hleftword) (le_one_add_of_proper_le hrightword)

/-- A tree for the replaced symbols is one for the segment. -/
theorem Replaced.built {symbols : List GrammarSymbol} {r : Option NonterminalID × Building}
    (h : Replaced nullable productive byLhs I bound pending segment s (symbols, s'))
    (hr : Built nullable productive byLhs I bound pending symbols s' r) (hne : r.1 ≠ none) :
    Built nullable productive byLhs I bound pending segment s r := by
  refine ⟨hr.well, h.keeps.trans hr.keeps, hr.root_lt, ?_, ?_, fun _ => hne⟩
  · intro J hJ hnil
    obtain ⟨J₁, hJ₁, hagree₁, hle, hsolid⟩ := h.sound J hJ hnil
    obtain ⟨J₂, hJ₂, hagree₂, hroot⟩ := hr.sound J₁ hJ₁ fun a ha _ => hsolid a ha
    refine ⟨J₂, hJ₂, ?_, fun root he => (hroot root he).trans (proper_mono hle)⟩
    intro nt hnt
    rw [hagree₂ nt (hnt.trans_le h.keeps.next), hagree₁ nt hnt]
  · intro M hM
    refine ⟨fun he => absurd he hne, ?_⟩
    intro root he
    exact (proper_mono (h.complete M (hM.mono hr.keeps))).trans ((hr.complete M hM).2 root he)

theorem buildNonNullableTree_spec (hset : Setting nullable productive byLhs I bound) (fuel : ℕ) :
    Builds nullable productive byLhs I bound (buildNonNullableTree nullable productive byLhs fuel) := by
  induction fuel with
  | zero => exact fun _ _ _ _ _ => Ensures.none _
  | succ fuel ih =>
      intro pending segment s hs hsmall
      unfold buildNonNullableTree
      split_ifs with hnil
      · subst hnil
        refine Ensures.some ⟨hs, Extends.refl s, ?_, ?_, ?_, by simp⟩
        · intro root he
          cases he
        · intro J hJ _
          exact ⟨J, hJ, fun _ _ => rfl, fun root he => by cases he⟩
        · intro M _
          exact ⟨fun _ => le_rfl, fun root he => by cases he⟩
      · refine Ensures.bind (segmentSymbols_spec hset ih hs hsmall) ?_
        rintro ⟨symbols, s'⟩ h
        cases symbols with
        | nil =>
            refine Ensures.some ⟨h.well, h.keeps, ?_, ?_, ?_, fun hfruitful => absurd rfl (h.found hfruitful)⟩
            · intro root he
              cases he
            · intro J hJ hnil
              obtain ⟨J', hJ', hagree, -⟩ := h.sound J hJ hnil
              exact ⟨J', hJ', hagree, fun root he => by cases he⟩
            · intro M hM
              exact ⟨fun _ => h.complete M hM, fun root he => by cases he⟩
        | cons first rest =>
            dsimp only
            split_ifs
            · apply Ensures.map
              exact (leafTree_spec h.well h.small h.solid).mono fun r hr =>
                h.built hr (Option.some_ne_none _)
            · exact (chunkTree_spec hset ih h.well h.small).mono fun r hr => h.built hr.1 hr.2

/-! ## Right-hand sides -/

/-- A right-hand side whose runs from a position on are replaced. -/
structure Spliced (nullable productive : Finset NonterminalID)
    (byLhs : NonterminalID → List (List GrammarSymbol)) (I : NonterminalID → Language TerminalID)
    (bound : NonterminalID) (rhs : List GrammarSymbol) (start : Building) (position : ℕ)
    (r : List GrammarSymbol × Building) : Prop where
  well : Well nullable productive byLhs bound ∅ r.2
  keeps : Extends start r.2
  small : ∀ nt, .nonterminal nt ∈ r.1 → nt < r.2.next
  untouched : r.1.take position = rhs.take position
  sound : ∀ J, Reads I bound J start → ∃ J', Reads I bound J' r.2 ∧ (∀ nt < start.next, J' nt = J nt) ∧
    denote J' r.1 ≤ denote I rhs
  complete : ∀ M, Closes nullable productive bound M r.2 → denote M rhs ≤ denote M r.1

/-- The symbols of a run, and those before and behind it. -/
theorem splice_eq (l : List GrammarSymbol) {first last : ℕ} (hle : first ≤ last) :
    l.take first ++ ((l.take (last + 1)).drop first ++ l.drop (last + 1)) = l := by
  have htake : (l.take (last + 1)).take first = l.take first := by
    rw [List.take_take, Nat.min_eq_left (Nat.le_succ_of_le hle)]
  rw [← List.append_assoc, ← htake, List.take_append_drop, List.take_append_drop]

theorem replaceRun_spec (hset : Setting nullable productive byLhs I bound)
    (hbuild : Builds nullable productive byLhs I bound build) {start : Building} {position : ℕ}
    {r : List GrammarSymbol × Building} {run : ℕ × ℕ}
    (h : Spliced nullable productive byLhs I bound rhs start position r)
    (hrun : NullableRun nullable rhs run) (hlt : run.2 < position) :
    Ensures (replaceRun build r run)
      (Spliced nullable productive byLhs I bound rhs start run.1) := by
  obtain ⟨hle, hlength, hnullable⟩ := hrun
  have htake : ∀ n ≤ position, r.1.take n = rhs.take n := by
    intro n hn
    have hmin : ∀ l : List GrammarSymbol, l.take n = (l.take position).take n := by
      intro l
      rw [List.take_take, Nat.min_eq_left hn]
    rw [hmin, h.untouched, ← hmin]
  have hsplice := splice_eq r.1 hle
  unfold replaceRun
  rw [htake run.1 (by omega), htake (run.2 + 1) (by omega)] at *
  generalize hbefore : rhs.take run.1 = before at *
  generalize hsegment : (rhs.take (run.2 + 1)).drop run.1 = segment at *
  generalize r.1.drop (run.2 + 1) = after at *
  have hmem : ∀ a ∈ segment, a ∈ rhs := fun a ha =>
    List.mem_of_mem_take (List.mem_of_mem_drop (hsegment ▸ ha))
  have hall : ∀ a ∈ segment, isNullable nullable a = true := by
    intro a ha
    rw [← hsegment] at ha
    obtain ⟨i, hi, rfl⟩ := List.getElem_of_mem ha
    rw [List.length_drop, List.length_take] at hi
    have hindex : run.1 + i < run.2 + 1 := by omega
    refine hnullable (run.1 + i) (Nat.le_add_right _ _) (by omega) _ ?_
    rw [List.getElem_drop, List.getElem_take, List.getElem?_eq_getElem (by omega)]
  have hbeforelen : before.length = run.1 := by
    rw [← hbefore, List.length_take]
    omega
  have hbeforetake : ∀ l : List GrammarSymbol, (before ++ l).take run.1 = rhs.take run.1 := by
    intro l
    rw [hbefore, ← hbeforelen, List.take_left]
  have hsymbols : ∀ nt, .nonterminal nt ∈ r.1 ↔ .nonterminal nt ∈ before ∨ .nonterminal nt ∈ segment ∨
      .nonterminal nt ∈ after := by
    intro nt
    rw [← hsplice, List.mem_append, List.mem_append]
  have hsmall : ∀ nt, .nonterminal nt ∈ segment → nt < r.2.next := fun nt hnt =>
    h.small nt ((hsymbols nt).mpr (Or.inr (Or.inl hnt)))
  have hepsilon : ∀ J : NonterminalID → Language TerminalID, ∀ a ∈ segment,
      isNullable nullable a = false → [] ∉ value J a := by
    intro J a ha hfalse
    rw [hall a ha] at hfalse
    cases hfalse
  have hnil : ∀ {J s}, Reads I bound J s → ∀ a ∈ segment, [] ∈ value J a := by
    intro J s hJ a ha
    obtain ⟨nt, hnt, rfl⟩ := isNullable_iff.mp (hall a ha)
    have hntlt := hset.nullable_lt nt hnt
    change [] ∈ J nt
    rw [hJ.old nt hntlt]
    exact (hset.nullable_iff nt hntlt).mp hnt
  have hdenote : ∀ J : NonterminalID → Language TerminalID,
      denote J r.1 = denote J before * (denote J segment * denote J after) := by
    intro J
    rw [← hsplice, denote_append, denote_append]
  refine Ensures.bind (hbuild ∅ segment r.2 h.well hsmall) ?_
  rintro ⟨root, s⟩ hbuilt
  have hext := h.keeps.trans hbuilt.keeps
  have hold : ∀ {J J' : NonterminalID → Language TerminalID}, (∀ nt < r.2.next, J' nt = J nt) →
      denote J' r.1 = denote J r.1 := fun hagree => denote_congr fun nt hnt => hagree nt (h.small nt hnt)
  cases root with
  | none =>
      refine Ensures.some ⟨hbuilt.well, hext, ?_, hbeforetake after, ?_, ?_⟩
      · intro nt hnt
        refine (h.small nt ((hsymbols nt).mpr ?_)).trans_le hbuilt.keeps.next
        exact (List.mem_append.mp hnt).imp_right Or.inr
      · intro J hJ
        obtain ⟨J₁, hJ₁, hagree₁, hle₁⟩ := h.sound J hJ
        obtain ⟨J₂, hJ₂, hagree₂, -⟩ := hbuilt.sound J₁ hJ₁ (hepsilon J₁)
        refine ⟨J₂, hJ₂, fun nt hnt => (hagree₂ nt (hnt.trans_le h.keeps.next)).trans (hagree₁ nt hnt), ?_⟩
        refine le_trans ?_ ((hold hagree₂).le.trans hle₁)
        rw [hdenote, denote_append]
        refine mul_le_mul' le_rfl ?_
        intro w hw
        have hempty : [] ∈ denote J₂ segment :=
          optional_le_denote (hnil hJ₂) (nil_mem_optional segment)
        exact Language.append_mem_mul hempty hw
      · intro M hM
        refine (h.complete M (hM.mono hbuilt.keeps)).trans ?_
        have hone := (denote_le_optional segment).trans ((hbuilt.complete M hM).1 rfl)
        calc denote M r.1 = denote M before * (denote M segment * denote M after) := hdenote M
          _ ≤ denote M before * (1 * denote M after) := mul_le_mul' le_rfl (mul_le_mul' hone le_rfl)
          _ = denote M (before ++ after) := by rw [one_mul, denote_append]
  | some root =>
      obtain ⟨-, hrootlt⟩ := hbuilt.root_lt root rfl
      apply Ensures.map
      refine (fresh_spec s).mono ?_
      rintro ⟨root_opt, s₁⟩ ⟨rfl, rfl⟩
      dsimp only
      have hfresh := Extends.fresh s (Nat.le_succ s.next)
      have hemit := hfresh.trans (Extends.emit _ [⟨s.next, [.nonterminal root]⟩, ⟨s.next, []⟩])
      refine ⟨?_, hext.trans hemit, ?_, hbeforetake _, ?_, ?_⟩
      · apply (hbuilt.well.fresh (Nat.le_succ s.next)).emit
        intro rule hrule
        rw [List.mem_pair] at hrule
        obtain rfl | rfl := hrule
        · refine ⟨Nat.lt_succ_self _, fun nt hnt => ?_⟩
          rw [Symbol.nonterminal.inj (List.mem_singleton.mp hnt)]
          exact hrootlt.trans (Nat.lt_succ_self _)
        · exact ⟨Nat.lt_succ_self _, fun nt hnt => absurd hnt List.not_mem_nil⟩
      · intro nt hnt
        have hlater : .nonterminal nt ∈ r.1 → nt < s.next + 1 := fun hin =>
          ((h.small nt hin).trans_le hbuilt.keeps.next).trans (Nat.lt_succ_self _)
        rw [List.mem_append, List.mem_cons] at hnt
        obtain hin | he | hin := hnt
        · exact hlater ((hsymbols nt).mpr (Or.inl hin))
        · rw [Symbol.nonterminal.inj he]
          exact Nat.lt_succ_self _
        · exact hlater ((hsymbols nt).mpr (Or.inr (Or.inr hin)))
      · intro J hJ
        obtain ⟨J₁, hJ₁, hagree₁, hle₁⟩ := h.sound J hJ
        obtain ⟨J₂, hJ₂, hagree₂, hroot⟩ := hbuilt.sound J₁ hJ₁ (hepsilon J₁)
        have hold₃ : ∀ nt < s.next, Function.update J₂ s.next (denote J₂ segment) nt = J₂ nt :=
          fun nt hnt => Function.update_of_ne hnt.ne _ _
        have hin : ∀ nt, .nonterminal nt ∈ r.1 → nt < s.next := fun nt hnt =>
          (h.small nt hnt).trans_le hbuilt.keeps.next
        refine ⟨_, (hJ₂.update hbuilt.well (denote J₂ segment) (s.next + 1)).emit ?_, ?_, ?_⟩
        · intro rule hrule
          rw [List.mem_pair] at hrule
          obtain rfl | rfl := hrule
          · rw [denote_nonterminal, hold₃ root hrootlt, Function.update_self]
            refine (hroot root rfl).trans ((proper_le _).trans ?_)
            have hcongr : optional J₁ segment = optional J₂ segment :=
              optional_congr fun nt hnt => (hagree₂ nt (hsmall nt hnt)).symm
            rw [hcongr]
            exact optional_le_denote (hnil hJ₂)
          · rw [denote_nil, Function.update_self]
            intro w hw
            rw [(Language.mem_one w).mp hw]
            exact optional_le_denote (hnil hJ₂) (nil_mem_optional segment)
        · intro nt hnt
          rw [hold₃ nt (hnt.trans_le hext.next), hagree₂ nt (hnt.trans_le h.keeps.next), hagree₁ nt hnt]
        · refine le_trans ?_ ((hold hagree₂).le.trans hle₁)
          have hbefore' : denote (Function.update J₂ s.next (denote J₂ segment)) before =
              denote J₂ before :=
            denote_congr fun nt hnt => hold₃ nt (hin nt ((hsymbols nt).mpr (Or.inl hnt)))
          have hafter' : denote (Function.update J₂ s.next (denote J₂ segment)) after = denote J₂ after :=
            denote_congr fun nt hnt => hold₃ nt (hin nt ((hsymbols nt).mpr (Or.inr (Or.inr hnt))))
          have hvalue : value (Function.update J₂ s.next (denote J₂ segment)) (.nonterminal s.next) =
              denote J₂ segment := Function.update_self ..
          rw [denote_append, denote_cons, hbefore', hafter', hvalue, hdenote]
      · intro M hM
        have hM' := hM.mono hemit
        refine (h.complete M (hM'.mono hbuilt.keeps)).trans ?_
        have hlink := hM.rules ⟨s.next, [.nonterminal root]⟩ (by simp [Building.emit])
          hbuilt.well.bound_le
        have hempty := hM.rules ⟨s.next, []⟩ (by simp [Building.emit]) hbuilt.well.bound_le
        rw [denote_nonterminal] at hlink
        have hword : denote M segment ≤ M s.next := by
          refine (denote_le_optional segment).trans ((le_one_add_of_proper_le
            ((hbuilt.complete M hM').2 root rfl)).trans (one_add_le hlink ?_))
          exact hempty Language.nil_mem_one
        rw [hdenote, denote_append, denote_cons]
        exact mul_le_mul' le_rfl (mul_le_mul' hword le_rfl)

theorem replaceRuns_spec (hset : Setting nullable productive byLhs I bound)
    (hbuild : Builds nullable productive byLhs I bound build) {start : Building} (runs : List (ℕ × ℕ))
    {position : ℕ} {r : List GrammarSymbol × Building}
    (h : Spliced nullable productive byLhs I bound rhs start position r)
    (hruns : ∀ run ∈ runs, NullableRun nullable rhs run ∧ run.2 < position)
    (hpairwise : runs.Pairwise fun run run' => run'.2 < run.1) :
    Ensures (runs.foldlM (replaceRun build) r) fun r' => ∃ position',
      Spliced nullable productive byLhs I bound rhs start position' r' := by
  induction runs generalizing position r with
  | nil => exact Ensures.some ⟨position, h⟩
  | cons run runs ih =>
      rw [List.foldlM_cons]
      obtain ⟨hrun, hlt⟩ := hruns run List.mem_cons_self
      obtain ⟨hlater, hpairwise⟩ := List.pairwise_cons.mp hpairwise
      refine Ensures.bind (replaceRun_spec hset hbuild h hrun hlt) fun r' hr' => ?_
      exact ih hr' (fun run' hrun' => ⟨(hruns run' (List.mem_cons_of_mem _ hrun')).1, hlater run' hrun'⟩)
        hpairwise

/-! ## All rules -/

/-- The rules that are done have their right-hand sides with runs replaced. -/
structure Compressed (nullable productive : Finset NonterminalID)
    (byLhs : NonterminalID → List (List GrammarSymbol)) (I : NonterminalID → Language TerminalID)
    (bound : NonterminalID) (done : List Rule) (s : Building) : Prop where
  well : Well nullable productive byLhs bound ∅ s
  read : ∃ J, Reads I bound J s
  covered : ∀ rule ∈ done, ∀ M, Closes nullable productive bound M s →
    ∃ rhs, ⟨rule.lhs, rhs⟩ ∈ s.rules ∧ denote M rule.rhs ≤ denote M rhs

theorem compressRule_spec (hset : Setting nullable productive byLhs I bound)
    (hbuild : Builds nullable productive byLhs I bound build) {rule : Rule} (hlhs : rule.lhs < bound)
    (hrhs : ∀ nt, .nonterminal nt ∈ rule.rhs → nt < bound) (hsound : denote I rule.rhs ≤ I rule.lhs)
    {done : List Rule} (h : Compressed nullable productive byLhs I bound done s) :
    Ensures (compressRule nullable build s rule)
      (Compressed nullable productive byLhs I bound (done ++ [rule])) := by
  have hstart : Spliced nullable productive byLhs I bound rule.rhs s rule.rhs.length (rule.rhs, s) := by
    refine ⟨h.well, Extends.refl s, fun nt hnt => (hrhs nt hnt).trans_le h.well.bound_le, rfl, ?_,
      fun M _ => le_rfl⟩
    intro J hJ
    exact ⟨J, hJ, fun _ _ => rfl, (denote_congr fun nt hnt => hJ.old nt (hrhs nt hnt)).le⟩
  have hspliced : ∀ position r,
      Spliced nullable productive byLhs I bound rule.rhs s position r →
        Compressed nullable productive byLhs I bound (done ++ [rule]) (r.2.emit [⟨rule.lhs, r.1⟩]) := by
    intro position r hr
    refine ⟨?_, ?_, ?_⟩
    · apply hr.well.emit
      intro rule' hrule'
      rw [List.mem_singleton.mp hrule']
      exact ⟨hlhs.trans_le hr.well.bound_le, hr.small⟩
    · obtain ⟨J, hJ⟩ := h.read
      obtain ⟨J', hJ', -, hle⟩ := hr.sound J hJ
      refine ⟨J', hJ'.emit ?_⟩
      intro rule' hrule'
      rw [List.mem_singleton.mp hrule']
      dsimp only
      rw [hJ'.old rule.lhs hlhs]
      exact hle.trans hsound
    · intro rule' hrule' M hM
      have hM' := hM.mono (Extends.emit _ _)
      obtain hrule' | hrule' := List.mem_append.mp hrule'
      · obtain ⟨rhs, hmem, hle⟩ := h.covered rule' hrule' M (hM'.mono hr.keeps)
        exact ⟨rhs, (Extends.emit _ _).rules (hr.keeps.rules hmem), hle⟩
      · rw [List.mem_singleton.mp hrule']
        exact ⟨r.1, by simp [Building.emit], hr.complete M hM'⟩
  unfold compressRule
  split_ifs
  · exact Ensures.some (hspliced _ _ hstart)
  · apply Ensures.map
    obtain ⟨hpairwise, hruns⟩ := findNullableRuns_spec rule.rhs nullable 1
    refine (replaceRuns_spec hset hbuild _ hstart ?_ ?_).mono ?_
    · intro run hrun
      have hnullable := hruns run (List.mem_reverse.mp hrun)
      exact ⟨hnullable, hnullable.2.1⟩
    · rwa [List.pairwise_reverse]
    · rintro r ⟨position, hr⟩
      exact hspliced position r hr

theorem mem_alternativesOf {rules : List Rule} {nt : NonterminalID} {rhs : List GrammarSymbol} :
    rhs ∈ alternativesOf rules nt ↔ ⟨nt, rhs⟩ ∈ rules := by
  simp only [alternativesOf, List.mem_map, List.mem_filter, decide_eq_true_eq]
  constructor
  · rintro ⟨rule, ⟨hrule, rfl⟩, rfl⟩
    exact hrule
  · intro h
    exact ⟨_, ⟨h, rfl⟩, rfl⟩

theorem setting_of_rules {rules : List Rule} {num_nt : ℕ} (hsmall : ∀ nt ∈ occurring rules, nt < num_nt) :
    Setting (computeNullable rules num_nt) (computeNonemptyProductive rules num_nt)
      (alternativesOf rules) (words (Produces rules)) (maxNtId rules + 1) := by
  have hle : ∀ nt ∈ occurring rules, nt < maxNtId rules + 1 := fun nt hnt =>
    Nat.lt_succ_of_le (le_maxNtId hnt)
  constructor
  · intro nt hnt
    obtain ⟨rhs, hrule, -⟩ := mem_words_iff.mp (nil_mem_words_of_nullable hnt)
    exact hle nt (occurring_of_rule hrule)
  · exact fun nt _ => mem_computeNullable hsmall
  · intro nt hnt
    obtain ⟨rhs, hrule, hmore⟩ := exists_rule_of_nonemptyProductive hnt
    exact ⟨rhs, mem_alternativesOf.mpr hrule, hmore⟩
  · intro nt _ hnt w hw
    refine (Language.mem_one w).mpr ?_
    by_contra hne
    exact hnt (mem_nonemptyProductive hsmall hw hne)
  · intro nt rhs hrhs nt' hnt'
    exact hle nt' (occurring_of_symbol (mem_alternativesOf.mp hrhs) hnt')
  · intro nt rhs hrhs
    exact closed_words _ nt rhs (mem_alternativesOf.mp hrhs)

theorem Compressed.words_eq {rules : List Rule}
    (hset : Setting nullable productive (alternativesOf rules) (words (Produces rules)) (maxNtId rules + 1))
    (h : Compressed nullable productive (alternativesOf rules) (words (Produces rules))
      (maxNtId rules + 1) rules s) {nt : NonterminalID} (hnt : nt < maxNtId rules + 1) :
    words (Produces s.rules) nt = words (Produces rules) nt := by
  apply le_antisymm
  · obtain ⟨J, hJ⟩ := h.read
    rw [← hJ.old nt hnt]
    exact words_le_of_closed (fun lhs rhs hrule => hJ.rules ⟨lhs, rhs⟩ hrule) nt
  -- The words of bounded height are words of the new rules, and so are those of the cached
  -- nonterminals.
  let K := words (Produces s.rules)
  let M : ℕ → NonterminalID → Language TerminalID := fun n nt =>
    if nt < maxNtId rules + 1 then stage (Produces rules) n nt else K nt
  have hold : ∀ n, ∀ nt < maxNtId rules + 1, M n nt = stage (Produces rules) n nt := fun n nt hnt =>
    if_pos hnt
  have hnew : ∀ n nt, maxNtId rules + 1 ≤ nt → M n nt = K nt := fun n nt hnt => if_neg (not_lt.mpr hnt)
  have hdenote : ∀ n lhs rhs, ⟨lhs, rhs⟩ ∈ rules →
      denote (stage (Produces rules) n) rhs = denote (M n) rhs := by
    intro n lhs rhs hrule
    exact denote_congr fun nt hnt => (hold n nt (Nat.lt_succ_of_le (nonterminal_le_maxNtId hrule hnt))).symm
  have hstage : ∀ n, (∀ nt < maxNtId rules + 1, stage (Produces rules) n nt ≤ K nt) ∧
      ∀ nt id, s.cache.get nt = some id → proper (stage (Produces rules) n nt) ≤ K id := by
    intro n
    induction n with
    | zero => exact ⟨fun nt _ => bot_le, fun nt id _ => (proper_le _).trans bot_le⟩
    | succ n ih =>
        have hM : ∀ nt, M n nt ≤ K nt := by
          intro nt
          by_cases hnt : nt < maxNtId rules + 1
          · rw [hold n nt hnt]
            exact ih.1 nt hnt
          · exact (hnew n nt (not_lt.mp hnt)).le
        have hcloses : Closes nullable productive (maxNtId rules + 1) (M n) s := by
          refine ⟨?_, ?_, ?_⟩
          · intro rule hrule hlhs
            rw [hnew n rule.lhs hlhs]
            exact (denote_mono hM rule.rhs).trans (closed_words _ rule.lhs rule.rhs hrule)
          · intro nt id hid
            obtain ⟨hnt, hle, -⟩ := h.well.ids nt id hid
            rw [hold n nt (hset.nullable_lt nt hnt), hnew n id hle]
            exact ih.2 nt id hid
          · intro nt hnt hproductive
            have hlt := hset.nullable_lt nt hnt
            rw [hold n nt hlt]
            exact (stage_le_words n nt).trans (hset.unproductive nt hlt hproductive)
        constructor
        · rintro nt - w ⟨rhs, hrule, hw⟩
          obtain ⟨rhs', hrule', hle⟩ := h.covered ⟨nt, rhs⟩ hrule (M n) hcloses
          rw [hdenote n nt rhs hrule] at hw
          exact closed_words _ nt rhs' hrule' (denote_mono hM rhs' (hle hw))
        · rintro nt id hid w ⟨⟨rhs, hrule, hw⟩, hne⟩
          have hcovered := h.well.covered nt id hid (Finset.notMem_empty nt) (M n) hcloses rhs
            (mem_alternativesOf.mpr hrule)
          rw [hdenote n nt rhs hrule] at hw
          rw [hnew n id (h.well.ids nt id hid).2.1] at hcovered
          exact hcovered ⟨hw, hne⟩
  rintro w ⟨n, hw⟩
  exact (hstage n).1 nt hnt hw

/-- Compression keeps the words of every nonterminal of the rules. -/
theorem compressNullableRunsWithOptionalTree_words {rules : List Rule} {num_nt : ℕ}
    (hsmall : ∀ nt ∈ occurring rules, nt < num_nt) (fuel : ℕ) :
    Ensures (compressNullableRunsWithOptionalTree rules num_nt fuel) fun out =>
      ∀ nt ≤ maxNtId rules, words (Produces out) nt = words (Produces rules) nt := by
  unfold compressNullableRunsWithOptionalTree
  split_ifs
  · exact Ensures.some fun _ _ => rfl
  · exact Ensures.some fun _ _ => rfl
  · have hset := setting_of_rules hsmall
    have hnext : Ensures (checkedNext (maxNtId rules)) fun next => next = maxNtId rules + 1 :=
      fun next hnext => checkedNext_eq_some hnext
    refine Ensures.bind hnext ?_
    rintro next rfl
    have hstart : Compressed (computeNullable rules num_nt) (computeNonemptyProductive rules num_nt)
        (alternativesOf rules) (words (Produces rules)) (maxNtId rules + 1) []
        ⟨maxNtId rules + 1, [], SortedMap.empty⟩ := by
      refine ⟨⟨le_rfl, by simp, ?_, ?_⟩, ⟨words (Produces rules), fun _ _ => rfl, by simp, ?_⟩, by simp⟩
      all_goals
        intro nt id hid
        cases hid
    refine Ensures.bind (Ensures.foldlM [] hstart fun done rule s hrule hs =>
      compressRule_spec hset (buildNonNullableTree_spec hset fuel)
        (Nat.lt_succ_of_le (lhs_le_maxNtId hrule))
        (fun nt hnt => Nat.lt_succ_of_le (nonterminal_le_maxNtId hrule hnt))
        (closed_words _ rule.lhs rule.rhs hrule) hs) ?_
    intro s hs
    rw [List.nil_append] at hs
    refine (Dedup.dedupRules_spec fuel).mono fun out hout nt hnt => ?_
    rw [hout.words nt]
    exact hs.words_eq hset (Nat.lt_succ_of_le hnt)

end NullableRuns

end Grammar

end GlrMask
