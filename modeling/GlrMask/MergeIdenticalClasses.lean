import GlrMask.MergeIdentical
import GlrMask.PartitionRefinement

/-!
# Stable classes of nonterminals

Equal signatures mean that the productions can be paired so that their symbols match up
to the classes they were hashed with. A pass uses signatures of the nonterminals before
and old classes of the others, and still refines the classes of the pass before it. So
the passes end, and then nonterminals of one class match up to the classes.
-/

namespace GlrMask

namespace MergeIdentical

open Grammar Interning

variable {D : Type*} {H : Digests D} {nts : List NonterminalID}
  {flattened : List (List (List GrammarSymbol))}

/-! ## Equal signatures -/

/-- Two symbols match up to a relation of the nonterminals: themselves, related ones, or
equal ones without productions. -/
inductive Matches (R : Fin nts.length → Fin nts.length → Prop) (i j : Fin nts.length) :
    GrammarSymbol → GrammarSymbol → Prop
  | terminal (t : TerminalID) : Matches R i j (.terminal t) (.terminal t)
  | self : Matches R i j (.nonterminal (nts.get i)) (.nonterminal (nts.get j))
  | related {nt nt' : NonterminalID} {m m' : Fin nts.length} (hi : nt ≠ nts.get i)
      (hj : nt' ≠ nts.get j) (hm : ntToIdx nts nt = some m) (hm' : ntToIdx nts nt' = some m')
      (hR : R m m') : Matches R i j (.nonterminal nt) (.nonterminal nt')
  | other {nt : NonterminalID} (hi : nt ≠ nts.get i) (hj : nt ≠ nts.get j)
      (hnone : ntToIdx nts nt = none) : Matches R i j (.nonterminal nt) (.nonterminal nt)

theorem Matches.mono {R R' : Fin nts.length → Fin nts.length → Prop} {i j : Fin nts.length}
    (h : ∀ m m', R m m' → R' m m') {s s' : GrammarSymbol} (hs : Matches R i j s s') :
    Matches R' i j s s' := by
  cases hs with
  | terminal t => exact .terminal t
  | self => exact .self
  | related hi hj hm hm' hR => exact .related hi hj hm hm' (h _ _ hR)
  | other hi hj hnone => exact .other hi hj hnone

variable {c d : Fin nts.length → D} {i j : Fin nts.length}

theorem token_self (c : Fin nts.length → D) (nt : NonterminalID) :
    token H nts nt c (.nonterminal nt) = .classOf H.selfSentinel := by
  rw [token, if_pos rfl]

theorem token_class {nt nt' : NonterminalID} {m : Fin nts.length} (hne : nt' ≠ nt)
    (hm : ntToIdx nts nt' = some m) : token H nts nt c (.nonterminal nt') = .classOf (c m) := by
  rw [token, if_neg hne, hm]

theorem token_other {nt nt' : NonterminalID} (hne : nt' ≠ nt) (hnone : ntToIdx nts nt' = none) :
    token H nts nt c (.nonterminal nt') = .other nt' := by
  rw [token, if_neg hne, hnone]

/-- A nonterminal is hashed as itself, by its class, or by its id. -/
theorem token_cases (nts : List NonterminalID) (nt nt' : NonterminalID) : nt' = nt ∨
    (∃ m, nt' ≠ nt ∧ ntToIdx nts nt' = some m) ∨ (nt' ≠ nt ∧ ntToIdx nts nt' = none) := by
  by_cases hnt : nt' = nt
  · exact Or.inl hnt
  · cases hm : ntToIdx nts nt' with
    | none => exact Or.inr (Or.inr ⟨hnt, rfl⟩)
    | some m => exact Or.inr (Or.inl ⟨m, hnt, rfl⟩)

/-- Symbols with equal tokens match. -/
theorem matches_of_token (hc : ∀ m, c m ≠ H.selfSentinel) (hd : ∀ m, d m ≠ H.selfSentinel)
    {s s' : GrammarSymbol} (h : token H nts (nts.get i) c s = token H nts (nts.get j) d s') :
    Matches (fun m m' => c m = d m') i j s s' := by
  cases s with
  | terminal t =>
      cases s' with
      | terminal t' =>
          cases h
          exact .terminal t
      | nonterminal nt' =>
          obtain rfl | ⟨m', hj, hm'⟩ | ⟨hj, hnone⟩ := token_cases nts (nts.get j) nt'
          · rw [token_self] at h
            cases h
          · rw [token_class hj hm'] at h
            cases h
          · rw [token_other hj hnone] at h
            cases h
  | nonterminal nt =>
      cases s' with
      | terminal t' =>
          obtain rfl | ⟨m, hi, hm⟩ | ⟨hi, hnone⟩ := token_cases nts (nts.get i) nt
          · rw [token_self] at h
            cases h
          · rw [token_class hi hm] at h
            cases h
          · rw [token_other hi hnone] at h
            cases h
      | nonterminal nt' =>
          obtain rfl | ⟨m, hi, hm⟩ | ⟨hi, hnone⟩ := token_cases nts (nts.get i) nt
          · obtain rfl | ⟨m', hj, hm'⟩ | ⟨hj, hnone'⟩ := token_cases nts (nts.get j) nt'
            · exact .self
            · rw [token_self, token_class hj hm'] at h
              exact absurd (Token.classOf.inj h).symm (hd m')
            · rw [token_self, token_other hj hnone'] at h
              cases h
          · obtain rfl | ⟨m', hj, hm'⟩ | ⟨hj, hnone'⟩ := token_cases nts (nts.get j) nt'
            · rw [token_self, token_class hi hm] at h
              exact absurd (Token.classOf.inj h) (hc m)
            · rw [token_class hi hm, token_class hj hm'] at h
              exact .related hi hj hm hm' (Token.classOf.inj h)
            · rw [token_class hi hm, token_other hj hnone'] at h
              cases h
          · obtain rfl | ⟨m', hj, hm'⟩ | ⟨hj, hnone'⟩ := token_cases nts (nts.get j) nt'
            · rw [token_self, token_other hi hnone] at h
              cases h
            · rw [token_other hi hnone, token_class hj hm'] at h
              cases h
            · rw [token_other hi hnone, token_other hj hnone'] at h
              obtain rfl := Token.other.inj h
              exact .other hi hj hnone

theorem token_of_matches {s s' : GrammarSymbol} (h : Matches (fun m m' => c m = d m') i j s s') :
    token H nts (nts.get i) c s = token H nts (nts.get j) d s' := by
  cases h with
  | terminal t => rfl
  | self => rw [token_self, token_self]
  | related hi hj hm hm' hR => rw [token_class hi hm, token_class hj hm', hR]
  | other hi hj hnone => rw [token_other hi hnone, token_other hj hnone]

/-- The productions of two nonterminals can be paired so that they match. -/
def Alike (flattened : List (List (List GrammarSymbol)))
    (R : Fin nts.length → Fin nts.length → Prop) (i j : Fin nts.length) : Prop :=
  Multiset.Rel (List.Forall₂ (Matches R i j)) (flattened.getD i []) (flattened.getD j [])

theorem Alike.mono {R R' : Fin nts.length → Fin nts.length → Prop} (h : ∀ m m', R m m' → R' m m')
    (hR : Alike flattened R i j) : Alike flattened R' i j :=
  Multiset.Rel.mono hR fun _ _ _ _ hrhs => hrhs.imp fun _ _ hs => hs.mono h

theorem tokens_eq_iff (hc : ∀ m, c m ≠ H.selfSentinel) (hd : ∀ m, d m ≠ H.selfSentinel)
    {rhs rhs' : List GrammarSymbol} :
    rhs.map (token H nts (nts.get i) c) = rhs'.map (token H nts (nts.get j) d) ↔
      List.Forall₂ (Matches (fun m m' => c m = d m') i j) rhs rhs' := by
  rw [← List.forall₂_eq_eq_eq, List.forall₂_map_left_iff, List.forall₂_map_right_iff]
  constructor
  · intro h
    exact h.imp fun _ _ => matches_of_token hc hd
  · intro h
    exact h.imp fun _ _ => token_of_matches

/-- Signatures are equal if and only if the productions match. -/
theorem hashNt_eq_iff (hH : H.Injective) (hc : ∀ m, c m ≠ H.selfSentinel)
    (hd : ∀ m, d m ≠ H.selfSentinel) : hashNt H nts flattened c i = hashNt H nts flattened d j ↔
      Alike flattened (fun m m' => c m = d m') i j := by
  unfold hashNt Alike
  rw [hH.signature.eq_iff, ← Multiset.map_coe, ← Multiset.map_coe, ← Multiset.rel_eq,
    Multiset.rel_map]
  constructor
  · intro h
    exact Multiset.Rel.mono h fun _ _ _ _ he => (tokens_eq_iff hc hd).mp he
  · intro h
    exact Multiset.Rel.mono h fun _ _ _ _ he => (tokens_eq_iff hc hd).mpr he

/-! ## A pass -/

/-- In a pass, the nonterminals before have their new signatures and the others their old
classes. -/
def mixed (before : List (Fin nts.length)) (raw classOf : Fin nts.length → D) :
    Fin nts.length → D := fun m => if m ∈ before then raw m else classOf m

/-- Every signature of a pass is taken with the signatures of the nonterminals before. -/
def PassOf (H : Digests D) (flattened : List (List (List GrammarSymbol)))
    (order : List (Fin nts.length)) (classOf raw : Fin nts.length → D) : Prop :=
  ∀ before i after, order = before ++ i :: after →
    raw i = hashNt H nts flattened (mixed before raw classOf) i

theorem refinePass_concat (order : List (Fin nts.length)) (i : Fin nts.length)
    (classOf : Fin nts.length → D) : refinePass H nts flattened (order ++ [i]) classOf =
      (Function.update (refinePass H nts flattened order classOf).1 i
          (hashNt H nts flattened (refinePass H nts flattened order classOf).2 i),
        Function.update (refinePass H nts flattened order classOf).2 i
          (hashNt H nts flattened (refinePass H nts flattened order classOf).2 i)) := by
  rw [refinePass, List.foldl_append]
  rfl

theorem mixed_update {before : List (Fin nts.length)} {raw classOf : Fin nts.length → D}
    {v : D} (hi : i ∉ before) :
    mixed before (Function.update raw i v) classOf = mixed before raw classOf := by
  funext m
  unfold mixed
  split_ifs with hm
  · rw [Function.update_of_ne]
    rintro rfl
    exact hi hm
  · rfl

theorem refinePass_spec {order : List (Fin nts.length)} (horder : order.Nodup)
    (classOf : Fin nts.length → D) :
    PassOf H flattened order classOf (refinePass H nts flattened order classOf).1 ∧
      (refinePass H nts flattened order classOf).2 =
        mixed order (refinePass H nts flattened order classOf).1 classOf := by
  induction order using List.reverseRecOn with
  | nil =>
      refine ⟨?_, ?_⟩
      · intro before i after he
        simp at he
      · funext m
        simp [refinePass, mixed]
  | append_singleton order i ih =>
      obtain ⟨hnodup, -, hdisjoint⟩ := List.nodup_append.mp horder
      have hi : i ∉ order := fun h => hdisjoint i h i (List.mem_singleton_self i) rfl
      obtain ⟨hpass, hplace⟩ := ih hnodup
      rw [refinePass_concat]
      refine ⟨?_, ?_⟩
      · intro before j after he
        obtain rfl | ⟨after, last, rfl⟩ := List.eq_nil_or_concat after
        · obtain ⟨rfl, hlast⟩ := List.append_inj' he rfl
          obtain rfl := List.singleton_inj.mp hlast
          dsimp only
          rw [mixed_update hi, Function.update_self, hplace]
        · rw [List.concat_eq_append, ← List.cons_append, ← List.append_assoc] at he
          obtain ⟨rfl, -⟩ := List.append_inj' he rfl
          have hbefore : i ∉ before := fun h => hi (List.mem_append_left _ h)
          have hne : j ≠ i := by
            rintro rfl
            exact hi (List.mem_append_right _ List.mem_cons_self)
          dsimp only
          rw [mixed_update hbefore, Function.update_of_ne hne]
          exact hpass before j after rfl
      · funext m
        by_cases hm : m = i
        · subst hm
          simp [mixed]
        · dsimp only
          rw [Function.update_of_ne hm, hplace]
          simp [mixed, hm]

/-- A value that a pass can see: it is no sentinel. -/
theorem PassOf.ne_self (hH : H.Injective) {order before : List (Fin nts.length)}
    {classOf raw : Fin nts.length → D} (hpass : PassOf H flattened order classOf raw)
    (hclass : ∀ m, classOf m ≠ H.selfSentinel) (hbefore : ∀ m ∈ before, m ∈ order) (m : Fin nts.length) :
    mixed before raw classOf m ≠ H.selfSentinel := by
  unfold mixed
  split_ifs with hm
  · obtain ⟨l, r, he⟩ := List.append_of_mem (hbefore m hm)
    rw [hpass l m r he]
    exact hH.signature_ne_self _
  · exact hclass m

/-- Equal signatures of a pass. -/
theorem PassOf.alike (hH : H.Injective) {order before before' after after' : List (Fin nts.length)}
    {classOf raw : Fin nts.length → D} (hpass : PassOf H flattened order classOf raw)
    (hclass : ∀ m, classOf m ≠ H.selfSentinel) (hi : order = before ++ i :: after)
    (hj : order = before' ++ j :: after') : raw i = raw j ↔ Alike flattened
      (fun m m' => mixed before raw classOf m = mixed before' raw classOf m') i j := by
  rw [hpass before i after hi, hpass before' j after' hj]
  apply hashNt_eq_iff hH
  · exact hpass.ne_self hH hclass fun m hm => hi ▸ List.mem_append_left _ hm
  · exact hpass.ne_self hH hclass fun m hm => hj ▸ List.mem_append_left _ hm

/-- A pass from finer classes gives finer signatures. -/
theorem PassOf.refines (hH : H.Injective) {order : List (Fin nts.length)}
    (hcomplete : ∀ m, m ∈ order) {classOf classOf' raw raw' : Fin nts.length → D}
    (hpass : PassOf H flattened order classOf raw) (hpass' : PassOf H flattened order classOf' raw')
    (hclass : ∀ m, classOf m ≠ H.selfSentinel) (hclass' : ∀ m, ∃ n, classOf' m = H.ofNumber n)
    (hfiner : ∀ m m', classOf' m = classOf' m' → classOf m = classOf m') (bound : ℕ) :
    ∀ i j before before' after after', before.length + before'.length < bound →
      order = before ++ i :: after → order = before' ++ j :: after' →
      raw' i = raw' j → raw i = raw j := by
  have hnumber : ∀ m m', raw' m ≠ classOf' m' := by
    intro m m'
    obtain ⟨l, r, he⟩ := List.append_of_mem (hcomplete m)
    obtain ⟨n, hn⟩ := hclass' m'
    rw [hpass' l m r he, hn]
    exact hH.signature_ne_number _ n
  have hself : ∀ m, classOf' m ≠ H.selfSentinel := by
    intro m
    obtain ⟨n, hn⟩ := hclass' m
    rw [hn]
    exact hH.number_ne_self n
  induction bound with
  | zero => intro i j before before' after after' hlt; omega
  | succ bound ih =>
      intro i j before before' after after' hlt hi hj hraw
      rw [hpass.alike hH hclass hi hj]
      refine ((hpass'.alike hH hself hi hj).mp hraw).mono ?_
      intro m m' he
      unfold mixed at he ⊢
      split_ifs at he ⊢ with hm hm' hm'
      · obtain ⟨l, r, rfl⟩ := List.append_of_mem hm
        obtain ⟨l', r', rfl⟩ := List.append_of_mem hm'
        refine ih m m' l l' (r ++ i :: after) (r' ++ j :: after') ?_ ?_ ?_ he
        · simp only [List.length_append, List.length_cons] at hlt
          omega
        · rw [hi, List.append_assoc, List.cons_append]
        · rw [hj, List.append_assoc, List.cons_append]
      · exact absurd he (hnumber m m')
      · exact absurd he.symm (hnumber m' m)
      · exact hfiner m m' he

/-! ## The rounds -/

section Rounds

variable [DecidableEq D] {order : List (Fin nts.length)}

def classAt (classes : List ℕ) (i : Fin nts.length) : ℕ := classes.getD i 0

omit [DecidableEq D] in
theorem classAt_eq {classes : List ℕ} (h : classes.length = nts.length) (i : Fin nts.length) :
    classAt classes i = classes.get ⟨i, h.symm ▸ i.isLt⟩ := by
  unfold classAt
  rw [List.getD_eq_getElem?_getD, List.getElem?_eq_getElem (h.symm ▸ i.isLt)]
  rfl

/-- The signatures of a round. -/
def rawOf (H : Digests D) (flattened : List (List (List GrammarSymbol)))
    (order : List (Fin nts.length)) (classes : List ℕ) : Fin nts.length → D :=
  (refinePass H nts flattened order fun i => H.ofNumber (classes.getD i 0)).1

theorem refineRound_fst (classes : List ℕ) : (refineRound H nts flattened order classes).1 =
    numbers (List.ofFn (rawOf H flattened order classes)) := rfl

theorem classAt_numbers (raw : Fin nts.length → D) (i j : Fin nts.length) :
    classAt (numbers (List.ofFn raw)) i = classAt (numbers (List.ofFn raw)) j ↔ raw i = raw j := by
  have hlength : (numbers (List.ofFn raw)).length = nts.length := by
    rw [length_numbers, List.length_ofFn]
  have hlt : ∀ m : Fin nts.length, (m : ℕ) < (List.ofFn raw).length := by
    intro m
    rw [List.length_ofFn]
    exact m.isLt
  have hnumbers := numbers_eq_iff (hlt i) (hlt j)
  rw [List.getElem?_eq_getElem (hlength.symm ▸ i.isLt), List.getElem?_eq_getElem (hlength.symm ▸ j.isLt),
    List.getElem?_eq_getElem (hlt i), List.getElem?_eq_getElem (hlt j), Option.some.injEq,
    Option.some.injEq, List.getElem_ofFn, List.getElem_ofFn] at hnumbers
  rw [classAt_eq hlength, classAt_eq hlength]
  exact hnumbers

/-- Classes that are numbered by first appearance and that a round refines. -/
structure Refining (H : Digests D) (flattened : List (List (List GrammarSymbol)))
    (order : List (Fin nts.length)) (classes : List ℕ) : Prop where
  length : classes.length = nts.length
  normal : numbers classes = classes
  refines : ∀ i j, rawOf H flattened order classes i = rawOf H flattened order classes j →
    classAt classes i = classAt classes j

/-- Nonterminals of one class have productions that match up to the classes. -/
structure Stable (nts : List NonterminalID) (flattened : List (List (List GrammarSymbol)))
    (classes : List ℕ) : Prop where
  length : classes.length = nts.length
  alike : ∀ i j : Fin nts.length, classAt classes i = classAt classes j →
    Alike flattened (fun m m' => classAt classes m = classAt classes m') i j

omit [DecidableEq D] in
theorem passOf_rawOf (horder : order.Nodup) (classes : List ℕ) :
    PassOf H flattened order (fun i => H.ofNumber (classes.getD i 0))
      (rawOf H flattened order classes) :=
  (refinePass_spec horder _).1

theorem length_numbers_ofFn (raw : Fin nts.length → D) :
    (numbers (List.ofFn raw)).length = nts.length := by
  rw [length_numbers, List.length_ofFn]

theorem refining_start (hH : H.Injective) (horder : order.Nodup) (hcomplete : ∀ m, m ∈ order) :
    Refining H flattened order
      (numbers (List.ofFn (hashNt H nts flattened fun _ => H.genericNt))) where
  length := length_numbers_ofFn _
  normal := numbers_numbers _
  refines := by
    intro i j hraw
    obtain ⟨before, after, hi⟩ := List.append_of_mem (hcomplete i)
    obtain ⟨before', after', hj⟩ := List.append_of_mem (hcomplete j)
    rw [(passOf_rawOf horder _).alike hH (fun m => hH.number_ne_self _) hi hj] at hraw
    rw [classAt_numbers, hashNt_eq_iff hH (fun _ => hH.generic_ne_self) fun _ => hH.generic_ne_self]
    exact hraw.mono fun _ _ _ => rfl

theorem Refining.step (hH : H.Injective) (horder : order.Nodup) (hcomplete : ∀ m, m ∈ order)
    {classes : List ℕ} (h : Refining H flattened order classes) :
    Refining H flattened order (refineRound H nts flattened order classes).1 where
  length := length_numbers_ofFn _
  normal := numbers_numbers _
  refines := by
    intro i j hraw
    obtain ⟨before, after, hi⟩ := List.append_of_mem (hcomplete i)
    obtain ⟨before', after', hj⟩ := List.append_of_mem (hcomplete j)
    rw [refineRound_fst, classAt_numbers]
    refine (passOf_rawOf horder classes).refines hH hcomplete (passOf_rawOf horder _)
      (fun m => hH.number_ne_self _) (fun m => ⟨_, rfl⟩) ?_ _ i j before before' after after'
      (Nat.lt_succ_self _) hi hj hraw
    intro m m' he
    have hclass : classAt (numbers (List.ofFn (rawOf H flattened order classes))) m =
        classAt (numbers (List.ofFn (rawOf H flattened order classes))) m' := hH.ofNumber he
    exact congrArg H.ofNumber (h.refines m m' ((classAt_numbers _ m m').mp hclass))

/-- Classes that a round does not change are stable. -/
theorem Refining.stable (hH : H.Injective) (horder : order.Nodup) (hcomplete : ∀ m, m ∈ order)
    {classes : List ℕ} (h : Refining H flattened order classes)
    (hsame : (refineRound H nts flattened order classes).1 = classes) :
    Stable nts flattened classes where
  length := h.length
  alike := by
    intro i j hclass
    obtain ⟨before, after, hi⟩ := List.append_of_mem (hcomplete i)
    obtain ⟨before', after', hj⟩ := List.append_of_mem (hcomplete j)
    have hpass : PassOf H flattened order _ _ := passOf_rawOf horder classes
    rw [← hsame, refineRound_fst, classAt_numbers,
      hpass.alike hH (fun m => hH.number_ne_self _) hi hj] at hclass
    have hnumber : ∀ m n, rawOf H flattened order classes m ≠ H.ofNumber n := by
      intro m n
      obtain ⟨l, r, he⟩ := List.append_of_mem (hcomplete m)
      rw [hpass l m r he]
      exact hH.signature_ne_number _ n
    refine hclass.mono ?_
    intro m m' he
    unfold mixed at he
    split_ifs at he with hm hm' hm'
    · exact h.refines m m' he
    · exact absurd he (hnumber m _)
    · exact absurd he.symm (hnumber m' _)
    · exact hH.ofNumber he

open PartitionRefinement in
/-- A round that changes the classes splits one of them. -/
theorem Refining.card_lt {classes : List ℕ} (h : Refining H flattened order classes)
    (hne : (refineRound H nts flattened order classes).1 ≠ classes) :
    (samePairs (refineRound H nts flattened order classes).1).card < (samePairs classes).card := by
  let raw := List.ofFn (rawOf H flattened order classes)
  have hlength : (numbers raw).length = nts.length := length_numbers_ofFn _
  have hraw : raw.length = nts.length := List.length_ofFn
  have hiff : ∀ i j, i < nts.length → j < nts.length →
      ((numbers raw)[i]? = (numbers raw)[j]? ↔ raw[i]? = raw[j]?) := fun i j hi hj =>
    numbers_eq_iff (hraw.symm ▸ hi) (hraw.symm ▸ hj)
  have hfiner : ∀ i j, i < nts.length → j < nts.length → raw[i]? = raw[j]? →
      classes[i]? = classes[j]? := by
    intro i j hi hj he
    have hclass := h.refines ⟨i, hi⟩ ⟨j, hj⟩ (by simpa [raw, hi, hj] using he)
    rw [classAt_eq h.length, classAt_eq h.length] at hclass
    rw [List.getElem?_eq_getElem (h.length.symm ▸ hi), List.getElem?_eq_getElem (h.length.symm ▸ hj)]
    exact congrArg some hclass
  have hsub : samePairs (numbers raw) ⊆ samePairs classes := by
    intro p hp
    rw [mem_samePairs, hlength] at hp
    rw [mem_samePairs, h.length]
    exact ⟨hp.1, hfiner p.1 p.2 hp.1.1 hp.1.2 ((hiff p.1 p.2 hp.1.1 hp.1.2).mp hp.2)⟩
  refine Finset.card_lt_card (hsub.ssubset_of_ne ?_)
  intro hpairs
  apply hne
  rw [refineRound_fst]
  refine (numbers_congr (hraw.trans h.length.symm) ?_).trans h.normal
  intro i j hi hj
  rw [hraw] at hi hj
  refine ⟨hfiner i j hi hj, ?_⟩
  intro he
  have hp : (i, j) ∈ samePairs classes := by
    rw [mem_samePairs, h.length]
    exact ⟨⟨hi, hj⟩, he⟩
  rw [← hpairs] at hp
  exact (hiff i j hi hj).mp (mem_samePairs.mp hp).2

/-- The refinement ends, and its classes are stable. -/
theorem refineLoop_yields (hH : H.Injective) (horder : order.Nodup) (hcomplete : ∀ m, m ∈ order)
    (classes : List ℕ) (h : Refining H flattened order classes) :
    ∃ r, Yields (fun fuel => refineLoop H nts flattened order fuel classes) r ∧
      ∀ final, r = some final → Stable nts flattened final := by
  induction hn : (PartitionRefinement.samePairs classes).card using Nat.strong_induction_on
    generalizing classes with
  | _ n ih =>
  by_cases hsame : (refineRound H nts flattened order classes).1 = classes
  · refine ⟨some classes, (Yields.const _).succ fun fuel => ?_, ?_⟩
    · simp only [refineLoop, hsame, if_true]
    · intro final hfinal
      cases hfinal
      exact h.stable hH horder hcomplete hsame
  · by_cases hall : (refineRound H nts flattened order classes).2 = nts.length
    · refine ⟨none, (Yields.const _).succ fun fuel => ?_, fun final h => by cases h⟩
      simp only [refineLoop, if_neg hsame, if_pos hall]
    · obtain ⟨r, hy, hr⟩ := ih _ (hn ▸ h.card_lt hsame) _ (h.step hH horder hcomplete) rfl
      refine ⟨r, hy.succ fun fuel => ?_, hr⟩
      simp only [refineLoop, if_neg hsame, if_neg hall]

theorem processingOrder_perm (S : UnstableSort)
    (rhsByLhs : SortedMap NonterminalID (Finset (List GrammarSymbol))) :
    (processingOrder nts S rhsByLhs).Perm (List.finRange nts.length) := S.perm _ _

theorem finalClasses_yields (hH : H.Injective) (S : UnstableSort)
    (rhsByLhs : SortedMap NonterminalID (Finset (List GrammarSymbol)))
    (flattened : List (List (List GrammarSymbol))) :
    ∃ r, Yields (finalClasses H S rhsByLhs flattened) r ∧
      ∀ final, r = some final → Stable rhsByLhs.keys flattened final := by
  have hnone : ∃ r, Yields (fun _ => some (none : Option (List ℕ))) r ∧
      ∀ final, r = some final → Stable rhsByLhs.keys flattened final :=
    ⟨none, Yields.const _, fun final h => by cases h⟩
  unfold finalClasses
  dsimp only
  split_ifs
  · exact hnone
  · exact hnone
  · have hperm : (processingOrder rhsByLhs.keys S rhsByLhs).Perm _ :=
      processingOrder_perm S rhsByLhs
    have hnodup := hperm.nodup_iff.mpr (List.nodup_finRange _)
    have hcomplete : ∀ m, m ∈ processingOrder rhsByLhs.keys S rhsByLhs := fun m =>
      hperm.mem_iff.mpr (List.mem_finRange m)
    exact refineLoop_yields hH hnodup hcomplete _ (refining_start hH hnodup hcomplete)

end Rounds

end MergeIdentical

end GlrMask
