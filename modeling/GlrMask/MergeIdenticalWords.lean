import GlrMask.MergeIdenticalClasses

/-!
# Merging keeps the words

Nonterminals of one stable class derive the same words: a derivation of one is turned into
a derivation of the other by induction on its height. So the rules in which a class is
merged into one nonterminal derive the words that were derived before.
-/

namespace GlrMask

namespace MergeIdentical

open Grammar ContextFree

variable {rules : List Rule}

/-! ## The productions -/

theorem get_buildRhsByLhs (rules : List Rule) (nt : NonterminalID) :
    (∀ rhs, rhs ∈ ((buildRhsByLhs rules).get nt).getD ∅ ↔ ⟨nt, rhs⟩ ∈ rules) ∧
      (nt ∈ (buildRhsByLhs rules).keys ↔ ∃ rhs, ⟨nt, rhs⟩ ∈ rules) := by
  induction rules using List.reverseRecOn with
  | nil => simp [buildRhsByLhs, SortedMap.get, SortedMap.empty, SortedMap.lookupEntry, SortedMap.keys]
  | append_singleton rules rule ih =>
      have hstep : buildRhsByLhs (rules ++ [rule]) = (buildRhsByLhs rules).insert rule.lhs
          (insert rule.rhs (((buildRhsByLhs rules).get rule.lhs).getD ∅)) := by
        rw [buildRhsByLhs, List.foldl_append]
        rfl
      rw [SortedMap.mem_keys_iff] at ih ⊢
      rw [hstep, SortedMap.get_insert]
      by_cases he : rule.lhs = nt
      · subst he
        refine ⟨?_, ?_⟩
        · intro rhs
          have hrule : (⟨rule.lhs, rhs⟩ : Rule) = rule ↔ rhs = rule.rhs := by
            constructor
            · intro h
              rw [← h]
            · intro h
              rw [h]
          simp [ih.1, hrule, or_comm]
        · simp only [if_true, List.mem_append, List.mem_singleton]
          exact ⟨fun _ => ⟨rule.rhs, Or.inr rfl⟩, fun _ => ⟨_, rfl⟩⟩
      · have hrule : ∀ rhs, (⟨nt, rhs⟩ : Rule) ≠ rule := by
          rintro rhs rfl
          exact he rfl
        simp only [if_neg he, List.mem_append, List.mem_singleton, hrule, or_false]
        exact ih

theorem mem_rhssOf {nt : NonterminalID} {rhs : List GrammarSymbol} :
    rhs ∈ rhssOf (buildRhsByLhs rules) nt ↔ ⟨nt, rhs⟩ ∈ rules := by
  unfold rhssOf
  rw [Finset.mem_sort]
  exact (get_buildRhsByLhs rules nt).1 rhs

theorem mem_keys {nt : NonterminalID} :
    nt ∈ (buildRhsByLhs rules).keys ↔ ∃ rhs, ⟨nt, rhs⟩ ∈ rules := (get_buildRhsByLhs rules nt).2

theorem rhssOf_of_uniqueRhs {nt : NonterminalID} {rhs : List GrammarSymbol}
    (h : uniqueRhs (buildRhsByLhs rules) nt = some rhs) :
    rhssOf (buildRhsByLhs rules) nt = [rhs] := by
  unfold uniqueRhs at h
  split at h
  case h_1 rhs' he =>
    obtain rfl := Option.some.inj h
    exact he
  case h_2 => cases h

/-- A production that may be written out is a rule. -/
theorem produces_of_uniqueRhs {nt : NonterminalID} {rhs : List GrammarSymbol}
    (h : Unique (uniqueRhs (buildRhsByLhs rules)) nt rhs) : Produces rules nt rhs := by
  apply mem_rhssOf.mp
  rw [rhssOf_of_uniqueRhs h]
  exact List.mem_singleton_self rhs

/-- It is the only rule of its nonterminal. -/
theorem eq_of_uniqueRhs {nt : NonterminalID} {rhs rhs' : List GrammarSymbol}
    (h : Unique (uniqueRhs (buildRhsByLhs rules)) nt rhs) (h' : Produces rules nt rhs') :
    rhs' = rhs := by
  have hmem := mem_rhssOf.mpr h'
  rw [rhssOf_of_uniqueRhs h] at hmem
  exact List.mem_singleton.mp hmem

/-- The unfoldings of right-hand sides have their words. -/
theorem words_of_unfolds {α β : List GrammarSymbol}
    (h : Unfolds (Unique (uniqueRhs (buildRhsByLhs rules))) α β) :
    denote (words (Produces rules)) β ≤ denote (words (Produces rules)) α :=
  denote_le_of_unfolds
    (fun nt rhs hrhs => closed_words (Produces rules) nt rhs (produces_of_uniqueRhs hrhs)) h

/-! ## The written-out productions -/

/-- A computation with a cache, for every element. -/
theorem mapCached_yields {α β γ : Type*} {f : ℕ → α → γ → Option (β × γ)} {I : γ → Prop}
    {Q : α → β → Prop} (l : List α)
    (hstep : ∀ a ∈ l, ∀ cache, I cache →
      ∃ r, Yields (fun fuel => f fuel a cache) r ∧ I r.2 ∧ Q a r.1)
    {cache : γ} (hcache : I cache) :
    ∃ r, Yields (fun fuel => mapCached (f fuel) l cache) r ∧ I r.2 ∧ List.Forall₂ Q l r.1 := by
  induction l generalizing cache with
  | nil => exact ⟨([], cache), Yields.const _, hcache, .nil⟩
  | cons a l ih =>
      obtain ⟨r, hy, hr, hQ⟩ := hstep a List.mem_cons_self cache hcache
      obtain ⟨r', hy', hr', hQ'⟩ := ih (fun a ha => hstep a (List.mem_cons_of_mem _ ha)) hr
      exact ⟨(r.1 :: r'.1, r'.2), hy.bind (hy'.map fun r' => (r.1 :: r'.1, r'.2)), hr', .cons hQ hQ'⟩

/-- For every nonterminal its right-hand sides, unfolded. -/
def Flattened (rules : List Rule) (nt : NonterminalID) (rhss : List (List GrammarSymbol)) : Prop :=
  List.Forall₂ (Unfolds (Unique (uniqueRhs (buildRhsByLhs rules))))
    (rhssOf (buildRhsByLhs rules) nt) rhss

theorem uniqueRhs_isSome_iff (nt : NonterminalID) :
    (uniqueRhs (buildRhsByLhs rules) nt).isSome ↔ nt ∈ uniqueKeys (buildRhsByLhs rules) := by
  unfold uniqueKeys
  rw [List.mem_filter]
  constructor
  · intro h
    obtain ⟨rhs, hrhs⟩ := Option.isSome_iff_exists.mp h
    exact ⟨mem_keys.mpr ⟨rhs, produces_of_uniqueRhs hrhs⟩, h⟩
  · intro h
    exact h.2

theorem flattenedRhss_yields (rules : List Rule) :
    ∃ flattened, Yields (flattenedRhss (buildRhsByLhs rules)) flattened ∧
      List.Forall₂ (Flattened rules) (buildRhsByLhs rules).keys flattened := by
  obtain ⟨expandable, hy, rank, hrank⟩ :=
    computeExpandable_yields (@uniqueRhs_isSome_iff rules)
  have hstart : CacheUnfolds (uniqueRhs (buildRhsByLhs rules)) fun _ => none := by
    intro nt flattened h
    cases h
  obtain ⟨r, hy', -, hr⟩ := mapCached_yields (Q := Flattened rules) (buildRhsByLhs rules).keys
    (fun nt _ cache hcache => mapCached_yields (rhssOf (buildRhsByLhs rules) nt)
      (fun rhs _ cache hcache => flattenRhsSymbols_yields hrank rhs hcache) hcache) hstart
  exact ⟨r.1, hy.bind (hy'.map Prod.fst), hr⟩

/-! ## Nonterminals of one class -/

section OneClass

variable {flattened : List (List (List GrammarSymbol))} {classes : List ℕ}

theorem getElem?_of_ntToIdx {nts : List NonterminalID} {nt : NonterminalID} {m : Fin nts.length}
    (h : ntToIdx nts nt = some m) : nts.get m = nt := by
  unfold ntToIdx at h
  split_ifs at h with hmem
  obtain rfl := Option.some.inj h
  exact List.getElem_idxOf _

theorem flattened_at (hflat : List.Forall₂ (Flattened rules) (buildRhsByLhs rules).keys flattened)
    (i : Fin (buildRhsByLhs rules).keys.length) :
    Flattened rules ((buildRhsByLhs rules).keys.get i) (flattened.getD i []) := by
  have hlt : (i : ℕ) < flattened.length := hflat.length_eq ▸ i.isLt
  rw [List.getD_eq_getElem?_getD, List.getElem?_eq_getElem hlt]
  exact (List.forall₂_iff_get.mp hflat).2 i i.isLt hlt

theorem exists_partner {α β : Type*} {R : α → β → Prop} {l : List α} {l' : List β}
    (h : List.Forall₂ R l l') {a : α} (ha : a ∈ l) : ∃ b ∈ l', R a b := by
  induction h with
  | nil => cases ha
  | @cons x y l l' hxy _ ih =>
      obtain rfl | ha := List.mem_cons.mp ha
      · exact ⟨y, List.mem_cons_self, hxy⟩
      · obtain ⟨b, hb, hab⟩ := ih ha
        exact ⟨b, List.mem_cons_of_mem _ hb, hab⟩

/-- Nonterminals of one stable class derive the same words. -/
theorem stage_le_of_class
    (hflat : List.Forall₂ (Flattened rules) (buildRhsByLhs rules).keys flattened)
    (hstable : Stable (buildRhsByLhs rules).keys flattened classes) (n : ℕ)
    (i j : Fin (buildRhsByLhs rules).keys.length) (hclass : classAt classes i = classAt classes j) :
    stage (Produces rules) n ((buildRhsByLhs rules).keys.get i) ≤
      words (Produces rules) ((buildRhsByLhs rules).keys.get j) := by
  induction n generalizing i j with
  | zero => exact bot_le
  | succ n ih =>
      intro w hw
      obtain ⟨rhs, hrhs, hw⟩ := hw
      -- The derivation goes through the written-out right-hand side.
      obtain ⟨φ, hφ, hunfold⟩ := exists_partner (flattened_at hflat i) (mem_rhssOf.mpr hrhs)
      have hwφ := stage_le_of_unfolds (P := Produces rules) (fun _ _ _ => eq_of_uniqueRhs) hunfold n hw
      obtain ⟨ψ, hψ, hmatch⟩ := Multiset.exists_mem_of_rel_of_mem (hstable.alike i j hclass)
        (Multiset.mem_coe.mpr hφ)
      have hwψ : w ∈ denote (words (Produces rules)) ψ := by
        refine denote_le_of_forall₂ (hmatch.imp ?_) hwφ
        intro s s' hs
        cases hs with
        | terminal t => exact le_rfl
        | self => exact ih i j hclass
        | @related nt nt' m m' _ _ hm hm' hR =>
            have hle := ih m m' hR
            rw [getElem?_of_ntToIdx hm, getElem?_of_ntToIdx hm'] at hle
            exact hle
        | other => exact stage_le_words n _
      -- And the partner is written out from a right-hand side of the other nonterminal.
      obtain ⟨rhs', hrhs', hunfold'⟩ := exists_partner (flattened_at hflat j).flip
        (Multiset.mem_coe.mp hψ)
      exact closed_words (Produces rules) _ rhs' (mem_rhssOf.mp hrhs') (words_of_unfolds hunfold' hwψ)

theorem words_eq_of_class
    (hflat : List.Forall₂ (Flattened rules) (buildRhsByLhs rules).keys flattened)
    (hstable : Stable (buildRhsByLhs rules).keys flattened classes)
    (i j : Fin (buildRhsByLhs rules).keys.length) (hclass : classAt classes i = classAt classes j) :
    words (Produces rules) ((buildRhsByLhs rules).keys.get i) =
      words (Produces rules) ((buildRhsByLhs rules).keys.get j) := by
  apply le_antisymm
  · intro w hw
    obtain ⟨n, hw⟩ := hw
    exact stage_le_of_class hflat hstable n i j hclass hw
  · intro w hw
    obtain ⟨n, hw⟩ := hw
    exact stage_le_of_class hflat hstable n j i hclass.symm hw

end OneClass

/-! ## The representatives -/

section Representatives

variable {nts : List NonterminalID} {classes : List ℕ} {start : NonterminalID}

theorem foldl_classToRep (entries : List (NonterminalID × ℕ)) (c : ℕ) :
    let m := entries.foldl (fun m e =>
      m.insert e.2 (if e.1 = start then start else (m.get e.2).getD e.1)) SortedMap.empty
    (∀ rep, m.get c = some rep → (rep, c) ∈ entries) ∧
      (∀ nt, (nt, c) ∈ entries → ∃ rep, m.get c = some rep) ∧
        ((start, c) ∈ entries → m.get c = some start) := by
  induction entries using List.reverseRecOn with
  | nil => simp
  | append_singleton entries e ih =>
      obtain ⟨hmem, hsome, hstart⟩ := ih
      dsimp only at hmem hsome hstart ⊢
      rw [List.foldl_append, List.foldl_cons, List.foldl_nil]
      by_cases hc : e.2 = c
      · obtain ⟨nt, c'⟩ := e
        dsimp only at hc ⊢
        subst hc
        rw [SortedMap.get_insert, if_pos rfl]
        refine ⟨?_, ?_, ?_⟩
        · intro rep hrep
          rw [← Option.some.inj hrep]
          split_ifs with hs
          · rw [← hs]
            simp
          · cases hget : (entries.foldl (fun m e =>
              m.insert e.2 (if e.1 = start then start else (m.get e.2).getD e.1))
              SortedMap.empty).get c' with
            | none => simp
            | some rep' => exact List.mem_append_left _ (hmem rep' hget)
        · intro _ _
          exact ⟨_, rfl⟩
        · intro hs
          split_ifs with hnt
          · rfl
          · have hs : (start, c') ∈ entries := by
              obtain hs | hs := List.mem_append.mp hs
              · exact hs
              · exact absurd (Prod.mk.inj (List.mem_singleton.mp hs)).1.symm hnt
            rw [hstart hs]
            rfl
      · rw [SortedMap.get_insert, if_neg hc]
        have hiff : ∀ nt, (nt, c) ∈ entries ++ [e] ↔ (nt, c) ∈ entries := by
          intro nt
          rw [List.mem_append, List.mem_singleton]
          refine or_iff_left ?_
          rintro rfl
          exact hc rfl
        simp only [hiff]
        exact ⟨hmem, hsome, hstart⟩

theorem mem_of_classToRep {c : ℕ} {rep : NonterminalID}
    (h : (classToRep nts classes start).get c = some rep) : (rep, c) ∈ nts.zip classes :=
  (foldl_classToRep (nts.zip classes) c).1 rep h

theorem exists_classToRep {c : ℕ} {nt : NonterminalID} (h : (nt, c) ∈ nts.zip classes) :
    ∃ rep, (classToRep nts classes start).get c = some rep :=
  (foldl_classToRep (nts.zip classes) c).2.1 nt h

theorem classToRep_start {c : ℕ} (h : (start, c) ∈ nts.zip classes) :
    (classToRep nts classes start).get c = some start :=
  (foldl_classToRep (nts.zip classes) c).2.2 h

theorem foldl_mergeMap (reps : SortedMap ℕ NonterminalID) (entries : List (NonterminalID × ℕ))
    (nt rep : NonterminalID) :
    (entries.foldl (fun m e =>
      match reps.get e.2 with
      | none => m
      | some rep => if e.1 ≠ rep then m.insert e.1 rep else m) SortedMap.empty).get nt = some rep →
      ∃ c, (nt, c) ∈ entries ∧ reps.get c = some rep := by
  induction entries using List.reverseRecOn with
  | nil =>
      intro h
      cases h
  | append_singleton entries e ih =>
      rw [List.foldl_append, List.foldl_cons, List.foldl_nil]
      have hold : ∀ c, (nt, c) ∈ entries ∧ reps.get c = some rep →
          ∃ c, (nt, c) ∈ entries ++ [e] ∧ reps.get c = some rep := fun c h =>
        ⟨c, List.mem_append_left _ h.1, h.2⟩
      cases hrep : reps.get e.2 with
      | none =>
          intro h
          obtain ⟨c, hc⟩ := ih h
          exact hold c hc
      | some rep' =>
          dsimp only
          split_ifs with hne
          · rw [SortedMap.get_insert]
            split_ifs with he
            · intro h
              obtain rfl := Option.some.inj h
              refine ⟨e.2, ?_, hrep⟩
              rw [← he]
              exact List.mem_append_right _ (List.mem_singleton_self e)
            · intro h
              obtain ⟨c, hc⟩ := ih h
              exact hold c hc
          · intro h
            obtain ⟨c, hc⟩ := ih h
            exact hold c hc

/-- The entry of a nonterminal that is merged. -/
theorem foldl_mergeMap_of_mem (reps : SortedMap ℕ NonterminalID)
    (entries : List (NonterminalID × ℕ)) (hnodup : (entries.map Prod.fst).Nodup)
    {nt rep : NonterminalID} {c : ℕ} (hmem : (nt, c) ∈ entries) (hrep : reps.get c = some rep)
    (hne : nt ≠ rep) :
    (entries.foldl (fun m e =>
      match reps.get e.2 with
      | none => m
      | some rep => if e.1 ≠ rep then m.insert e.1 rep else m) SortedMap.empty).get nt = some rep := by
  induction entries using List.reverseRecOn with
  | nil => cases hmem
  | append_singleton entries e ih =>
      rw [List.foldl_append, List.foldl_cons, List.foldl_nil]
      rw [List.map_append, List.nodup_append] at hnodup
      obtain hmem | hmem := List.mem_append.mp hmem
      · have hother : e.1 ≠ nt := fun h => hnodup.2.2 nt (List.mem_map_of_mem hmem) e.1
          (List.mem_singleton_self _) h.symm
        have hget := ih hnodup.1 hmem
        cases hrep' : reps.get e.2 with
        | none => exact hget
        | some rep' =>
            dsimp only
            split_ifs
            · rw [SortedMap.get_insert, if_neg hother]
              exact hget
            · exact hget
      · obtain rfl := List.mem_singleton.mp hmem
        simp only [hrep, if_pos hne, SortedMap.get_insert, if_true]

/-- Every nonterminal becomes the one that stands for its class. -/
theorem applyMerge_of_mem (hnodup : nts.Nodup) (hlength : classes.length = nts.length)
    {nt rep : NonterminalID} {c : ℕ} (hmem : (nt, c) ∈ nts.zip classes)
    (hrep : (classToRep nts classes start).get c = some rep) :
    applyMerge (mergeMap nts classes start) nt = rep := by
  unfold applyMerge
  have hfst : ((nts.zip classes).map Prod.fst).Nodup := by
    rw [List.map_fst_zip hlength.ge]
    exact hnodup
  by_cases hne : nt = rep
  · cases hget : (mergeMap nts classes start).get nt with
    | none => exact hne
    | some rep' =>
        obtain ⟨c', hmem', hrep'⟩ := foldl_mergeMap _ _ nt rep' hget
        have he : (nt, c') = (nt, c) := List.inj_on_of_nodup_map hfst hmem' hmem rfl
        rw [(Prod.mk.inj he).2] at hrep'
        exact Option.some.inj (hrep'.symm.trans hrep)
  · have hget : (mergeMap nts classes start).get nt = some rep :=
      foldl_mergeMap_of_mem _ _ hfst hmem hrep hne
    rw [hget]
    rfl

theorem applyMerge_of_notMem {nt : NonterminalID} (hnt : nt ∉ nts) :
    applyMerge (mergeMap nts classes start) nt = nt := by
  unfold applyMerge
  cases hget : (mergeMap nts classes start).get nt with
  | none => rfl
  | some rep =>
      obtain ⟨c, hmem, -⟩ := foldl_mergeMap _ _ nt rep hget
      exact absurd (List.of_mem_zip hmem).1 hnt

theorem mem_zip_classes (hlength : classes.length = nts.length) (i : Fin nts.length) :
    (nts.get i, classAt classes i) ∈ nts.zip classes := by
  rw [classAt_eq hlength]
  apply List.mem_iff_getElem.mpr
  refine ⟨i, ?_, List.getElem_zip⟩
  rw [List.length_zip, hlength, min_self]
  exact i.isLt

theorem exists_of_mem_zip (hlength : classes.length = nts.length) {nt : NonterminalID} {c : ℕ}
    (h : (nt, c) ∈ nts.zip classes) : ∃ i : Fin nts.length, nts.get i = nt ∧ classAt classes i = c := by
  obtain ⟨i, hi, he⟩ := List.mem_iff_getElem.mp h
  rw [List.getElem_zip] at he
  rw [List.length_zip, hlength, min_self] at hi
  refine ⟨⟨i, hi⟩, congrArg Prod.fst he, ?_⟩
  rw [classAt_eq hlength]
  exact congrArg Prod.snd he

end Representatives

/-! ## The merged rules -/

theorem mem_mergeRules (m : SortedMap NonterminalID NonterminalID) (rule : Rule) :
    rule ∈ mergeRules m rules ↔
      isReflexiveUnitRule rule = false ∧ ∃ old ∈ rules, mergeRule m old = rule := by
  induction rules using List.reverseRecOn with
  | nil => simp [mergeRules]
  | append_singleton rules last ih =>
      have hstep : mergeRules m (rules ++ [last]) =
          if isReflexiveUnitRule (mergeRule m last) then mergeRules m rules
          else if mergeRule m last ∈ mergeRules m rules then mergeRules m rules
          else mergeRules m rules ++ [mergeRule m last] := by
        rw [mergeRules, List.foldl_append]
        rfl
      have hsplit : (∃ old ∈ rules ++ [last], mergeRule m old = rule) ↔
          (∃ old ∈ rules, mergeRule m old = rule) ∨ mergeRule m last = rule := by
        simp [or_and_right, exists_or]
      rw [hstep, hsplit]
      split_ifs with hunit hmem
      · rw [ih]
        refine and_congr_right fun hrule => ⟨Or.inl, ?_⟩
        intro h
        obtain h | rfl := h
        · exact h
        · rw [hrule] at hunit
          cases hunit
      · rw [ih]
        refine and_congr_right fun hrule => ⟨Or.inl, ?_⟩
        intro h
        obtain h | rfl := h
        · exact h
        · exact (ih.mp hmem).2
      · rw [List.mem_append, ih, List.mem_singleton]
        constructor
        · intro h
          obtain h | rfl := h
          · exact ⟨h.1, Or.inl h.2⟩
          · exact ⟨by simpa using hunit, Or.inr rfl⟩
        · intro h
          obtain ⟨hrule, h | h⟩ := h
          · exact Or.inl ⟨hrule, h⟩
          · exact Or.inr h.symm

variable {m : SortedMap NonterminalID NonterminalID}

theorem denote_mergeSymbol {J K : NonterminalID → Language TerminalID}
    (h : ∀ nt, J nt ≤ K (applyMerge m nt)) (rhs : List GrammarSymbol) :
    denote J rhs ≤ denote K (rhs.map (mergeSymbol m)) := by
  apply denote_le_of_forall₂
  rw [List.forall₂_map_right_iff, List.forall₂_same]
  intro s _
  cases s with
  | terminal t => exact le_rfl
  | nonterminal nt => exact h nt

theorem denote_of_mergeSymbol {J : NonterminalID → Language TerminalID}
    (h : ∀ nt, J (applyMerge m nt) = J nt) (rhs : List GrammarSymbol) :
    denote J (rhs.map (mergeSymbol m)) ≤ denote J rhs := by
  apply denote_le_of_forall₂
  rw [List.forall₂_map_left_iff, List.forall₂_same]
  intro s _
  cases s with
  | terminal t => exact le_rfl
  | nonterminal nt => exact (h nt).le

/-- Merging nonterminals with the same words keeps the words. -/
theorem words_mergeRules
    (h : ∀ nt, words (Produces rules) (applyMerge m nt) = words (Produces rules) nt)
    (nt : NonterminalID) :
    words (Produces (mergeRules m rules)) (applyMerge m nt) = words (Produces rules) nt := by
  apply le_antisymm
  · rw [← h nt]
    apply words_le_of_closed
    intro lhs rhs hrule
    obtain ⟨-, old, hold, he⟩ := (mem_mergeRules m ⟨lhs, rhs⟩).mp hrule
    obtain ⟨rfl, rfl⟩ := Rule.mk.inj he
    rw [h]
    exact (denote_of_mergeSymbol h old.rhs).trans (closed_words (Produces rules) _ _ hold)
  · intro w hw
    obtain ⟨n, hw⟩ := hw
    induction n generalizing nt w with
    | zero => exact absurd hw (Language.notMem_zero w)
    | succ n ih =>
        obtain ⟨rhs, hrhs, hw⟩ := hw
        have hmerged := denote_mergeSymbol ih rhs hw
        by_cases hunit : isReflexiveUnitRule (mergeRule m ⟨nt, rhs⟩) = true
        · have hrhs' : rhs.map (mergeSymbol m) = [.nonterminal (applyMerge m nt)] :=
            of_decide_eq_true hunit
          rwa [hrhs', denote_nonterminal] at hmerged
        · apply closed_words _ _ _ _ hmerged
          exact (mem_mergeRules m _).mpr ⟨(Bool.not_eq_true _).mp hunit, _, hrhs, rfl⟩

/-! ## The words of the result -/

def renameSymbol (rep : NonterminalID → NonterminalID) : GrammarSymbol → GrammarSymbol
  | .terminal t => .terminal t
  | .nonterminal nt => .nonterminal (rep nt)

def renameRule (rep : NonterminalID → NonterminalID) (rule : Rule) : Rule :=
  ⟨rep rule.lhs, rule.rhs.map (renameSymbol rep)⟩

/-- The result has the renamed rules, up to rules that produce their own nonterminal. -/
structure MergedInto (rules result : List Rule) (rep : NonterminalID → NonterminalID) : Prop where
  image : ∀ rule ∈ result, ∃ old ∈ rules, renameRule rep old = rule
  covers : ∀ old ∈ rules, renameRule rep old ∈ result ∨ isReflexiveUnitRule (renameRule rep old)

/-- The nonterminals that are kept derive what they derived before, and only nonterminals that
derive the same are merged. -/
structure KeepsWords (rules result : List Rule) (start : NonterminalID)
    (rep : NonterminalID → NonterminalID) : Prop where
  merged : MergedInto rules result rep
  start : rep start = start
  kept : ∀ nt, rep (rep nt) = rep nt
  words : ∀ nt, rep nt = nt → derived result nt = derived rules nt
  same : ∀ nt nt', rep nt = rep nt' → derived rules nt = derived rules nt'

theorem keepsWords_id (rules : List Rule) (start : NonterminalID) :
    KeepsWords rules rules start id := by
  have hsymbol : ∀ s, renameSymbol id s = s := by
    intro s
    cases s <;> rfl
  have hrule : ∀ rule, renameRule id rule = rule := by
    intro rule
    unfold renameRule
    rw [funext hsymbol, List.map_id']
    rfl
  refine ⟨⟨?_, ?_⟩, rfl, fun _ => rfl, fun _ _ => rfl, ?_⟩
  · intro rule h
    exact ⟨rule, h, hrule rule⟩
  · intro old h
    rw [hrule]
    exact Or.inl h
  · intro nt nt' h
    rw [show nt = nt' from h]

theorem mergeRule_eq_renameRule (m : SortedMap NonterminalID NonterminalID) (rule : Rule) :
    mergeRule m rule = renameRule (applyMerge m) rule := by
  have hsymbol : mergeSymbol m = renameSymbol (applyMerge m) := by
    funext s
    cases s <;> rfl
  rw [mergeRule, renameRule, hsymbol]

theorem keepsWords_mergeRules {flattened : List (List (List GrammarSymbol))} {classes : List ℕ}
    (hflat : List.Forall₂ (Flattened rules) (buildRhsByLhs rules).keys flattened)
    (hstable : Stable (buildRhsByLhs rules).keys flattened classes) (start : NonterminalID) :
    KeepsWords rules (mergeRules (mergeMap (buildRhsByLhs rules).keys classes start) rules) start
      (applyMerge (mergeMap (buildRhsByLhs rules).keys classes start)) := by
  have hnodup : (buildRhsByLhs rules).keys.Nodup :=
    (buildRhsByLhs rules).keys_sorted.imp fun h => h.ne
  have hlength := hstable.length
  -- Every nonterminal with rules becomes one of its class.
  have hrep : ∀ i : Fin (buildRhsByLhs rules).keys.length, ∃ j, classAt classes j = classAt classes i ∧
      applyMerge (mergeMap (buildRhsByLhs rules).keys classes start)
        ((buildRhsByLhs rules).keys.get i) = (buildRhsByLhs rules).keys.get j ∧
      applyMerge (mergeMap (buildRhsByLhs rules).keys classes start)
        ((buildRhsByLhs rules).keys.get j) = (buildRhsByLhs rules).keys.get j := by
    intro i
    have hmem := mem_zip_classes hlength i
    obtain ⟨rep, hget⟩ := @exists_classToRep _ _ start _ _ hmem
    obtain ⟨j, rfl, hj⟩ := exists_of_mem_zip hlength (mem_of_classToRep hget)
    refine ⟨j, hj, applyMerge_of_mem hnodup hlength hmem hget, ?_⟩
    exact applyMerge_of_mem hnodup hlength (mem_of_classToRep hget) hget
  have hidx : ∀ nt ∈ (buildRhsByLhs rules).keys, ∃ i, (buildRhsByLhs rules).keys.get i = nt :=
    fun nt hnt => List.mem_iff_get.mp hnt
  have hwords : ∀ nt, words (Produces rules)
      (applyMerge (mergeMap (buildRhsByLhs rules).keys classes start) nt) =
        words (Produces rules) nt := by
    intro nt
    by_cases hnt : nt ∈ (buildRhsByLhs rules).keys
    · obtain ⟨i, rfl⟩ := hidx nt hnt
      obtain ⟨j, hclass, happly, -⟩ := hrep i
      rw [happly]
      exact words_eq_of_class hflat hstable j i hclass
    · rw [applyMerge_of_notMem hnt]
  refine ⟨⟨?_, ?_⟩, ?_, ?_, ?_, ?_⟩
  · intro rule hrule
    obtain ⟨-, old, hold, he⟩ := (mem_mergeRules _ rule).mp hrule
    exact ⟨old, hold, (mergeRule_eq_renameRule _ old).symm.trans he⟩
  · intro old hold
    rw [← mergeRule_eq_renameRule]
    cases hunit : isReflexiveUnitRule (mergeRule (mergeMap (buildRhsByLhs rules).keys classes start)
      old) with
    | true => exact Or.inr rfl
    | false => exact Or.inl ((mem_mergeRules _ _).mpr ⟨hunit, old, hold, rfl⟩)
  · by_cases hnt : start ∈ (buildRhsByLhs rules).keys
    · obtain ⟨i, hi⟩ := hidx start hnt
      have hmem := mem_zip_classes hlength i
      rw [hi] at hmem
      exact applyMerge_of_mem hnodup hlength hmem (classToRep_start hmem)
    · exact applyMerge_of_notMem hnt
  · intro nt
    by_cases hnt : nt ∈ (buildRhsByLhs rules).keys
    · obtain ⟨i, rfl⟩ := hidx nt hnt
      obtain ⟨j, -, happly, hself⟩ := hrep i
      rw [happly, hself]
    · rw [applyMerge_of_notMem hnt, applyMerge_of_notMem hnt]
  · intro nt hnt
    have hmerged := words_mergeRules hwords nt
    rwa [hnt, ← derived_eq_words, ← derived_eq_words] at hmerged
  · intro nt nt' he
    rw [derived_eq_words, derived_eq_words, ← hwords nt, ← hwords nt', he]

theorem mergeIdenticalNonterminals_keeps_words {D : Type*} [DecidableEq D] (H : Digests D)
    (hH : H.Injective) (S : UnstableSort) (rules : List Rule) (start : NonterminalID) :
    ∃ result, Yields (mergeIdenticalNonterminals H S rules start) result ∧
      ∃ rep, KeepsWords rules result start rep := by
  unfold mergeIdenticalNonterminals
  dsimp only
  split_ifs with hsmall
  · exact ⟨rules, Yields.const rules, id, keepsWords_id rules start⟩
  · obtain ⟨flattened, hy, hflat⟩ := flattenedRhss_yields rules
    obtain ⟨r, hy', hr⟩ := finalClasses_yields hH S (buildRhsByLhs rules) flattened
    refine ⟨_, hy.bind (hy'.map _), ?_⟩
    cases r with
    | none => exact ⟨id, keepsWords_id rules start⟩
    | some classes =>
        dsimp only
        split_ifs
        · exact ⟨id, keepsWords_id rules start⟩
        · exact ⟨_, keepsWords_mergeRules hflat (hr classes rfl) start⟩

/-! ## Values that tell signatures apart -/

def tokenCode : Token ℕ → ℕ ⊕ ℕ ⊕ ℕ
  | .terminal t => .inl t
  | .classOf c => .inr (.inl c)
  | .other nt => .inr (.inr nt)

theorem tokenCode_injective : Function.Injective tokenCode := by
  intro t t' h
  cases t <;> cases t' <;> simp_all [tokenCode]

def codedDigests : Digests ℕ where
  selfSentinel := 0
  genericNt := 1
  ofNumber n := 2 * n + 2
  signature s := 2 * Encodable.encode (s.map (List.map tokenCode)) + 3

theorem codedDigests_injective : codedDigests.Injective where
  signature := by
    intro s s' h
    have he : 2 * Encodable.encode (s.map (List.map tokenCode)) + 3 =
      2 * Encodable.encode (s'.map (List.map tokenCode)) + 3 := h
    have hmap := Encodable.encode_injective (by omega :
      Encodable.encode (s.map (List.map tokenCode)) = Encodable.encode (s'.map (List.map tokenCode)))
    exact Multiset.map_injective (List.map_injective_iff.mpr tokenCode_injective) hmap
  ofNumber := by
    intro n n' h
    have he : 2 * n + 2 = 2 * n' + 2 := h
    omega
  signature_ne_number := by
    intro s n h
    have he : 2 * Encodable.encode (s.map (List.map tokenCode)) + 3 = 2 * n + 2 := h
    omega
  signature_ne_self := by
    intro s h
    have he : 2 * Encodable.encode (s.map (List.map tokenCode)) + 3 = 0 := h
    omega
  number_ne_self := by
    intro n h
    have he : 2 * n + 2 = 0 := h
    omega
  generic_ne_self := Nat.one_ne_zero

/-- A stable sort is an unstable one. -/
def mergeSortBy : UnstableSort where
  sort key l := l.mergeSort fun a b => key a ≤ key b
  perm key l := List.mergeSort_perm l _
  sorted key l := by
    have h := @List.pairwise_mergeSort _ (fun a b => decide (key a ≤ key b))
      (fun a b c hab hbc => by simp_all; omega) (fun a b => by simp; omega) l
    exact h.imp fun hab => of_decide_eq_true hab

/-- Two nonterminals that produce one terminal, and a start that produces both. -/
theorem mergeIdenticalNonterminals_keeps_words_pair :
    ∃ result, Yields (mergeIdenticalNonterminals codedDigests mergeSortBy
        [⟨0, [.nonterminal 1, .nonterminal 2]⟩, ⟨1, [.terminal 0]⟩, ⟨2, [.terminal 0]⟩] 0) result ∧
      ∃ rep, KeepsWords
        [⟨0, [.nonterminal 1, .nonterminal 2]⟩, ⟨1, [.terminal 0]⟩, ⟨2, [.terminal 0]⟩] result 0 rep :=
  mergeIdenticalNonterminals_keeps_words codedDigests codedDigests_injective mergeSortBy
    [⟨0, [.nonterminal 1, .nonterminal 2]⟩, ⟨1, [.terminal 0]⟩, ⟨2, [.terminal 0]⟩] 0

end MergeIdentical

end GlrMask
