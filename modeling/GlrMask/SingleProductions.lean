import GlrMask.Fuel
import GlrMask.GrammarRules

/-!
# Nonterminals with a single production

A depth-first search finds the nonterminals with one production from which no cycle of
such productions is reached, and right-hand sides are compared after these nonterminals
are written out. Written-out right-hand sides that are too long stay as they are.
-/

namespace GlrMask

namespace Grammar

open ContextFree

inductive VisitState
  | Unseen
  | Visiting
  | Expandable
  | NotExpandable
deriving DecidableEq

section Visit

variable (unique : NonterminalID → Option (List GrammarSymbol))

/-- The states of the nonterminals, updated as the search goes on. -/
abbrev VisitStates := NonterminalID → VisitState

/-- Visit the symbols up to the first one that is not expandable. -/
def visitAll (visit : NonterminalID → VisitStates → Option (Bool × VisitStates)) :
    List GrammarSymbol → VisitStates → Option (Bool × VisitStates)
  | [], states => some (true, states)
  | .terminal _ :: rest, states => visitAll visit rest states
  | .nonterminal child :: rest, states =>
      -- A child without a single production does not block its parent.
      if (unique child).isSome then
        (visit child states).bind fun r =>
          if r.1 then visitAll visit rest r.2 else some (false, r.2)
      else visitAll visit rest states

def finishVisit (nt : NonterminalID) (r : Bool × VisitStates) : Bool × VisitStates :=
  (r.1, Function.update r.2 nt (if r.1 then .Expandable else .NotExpandable))

def visit : ℕ → NonterminalID → VisitStates → Option (Bool × VisitStates)
  | 0, _, _ => none
  | fuel + 1, nt, states =>
      match states nt with
      | .Expandable => some (true, states)
      | .Visiting => some (false, states)
      | .NotExpandable => some (false, states)
      | .Unseen =>
          match unique nt with
          | none => some (false, states)
          | some rhs =>
              (visitAll unique (visit fuel) rhs (Function.update states nt .Visiting)).map
                (finishVisit nt)

def computeExpandable (keys : List NonterminalID) (fuel : ℕ) : Option (Finset NonterminalID) :=
  (keys.foldlM (fun (acc : VisitStates × Finset NonterminalID) nt =>
    (visit unique fuel nt acc.1).map fun r => (r.2, if r.1 then insert nt acc.2 else acc.2))
    (fun _ => .Unseen, ∅)).map Prod.snd

end Visit

/-! ## Writing out right-hand sides -/

section Flatten

variable (unique : NonterminalID → Option (List GrammarSymbol)) (expandable : Finset NonterminalID)

def maxFlattenedRhsLen : ℕ := 4096

/-- What is known of a nonterminal: nothing, that it is too long, or its symbols. -/
abbrev FlattenCache := NonterminalID → Option (Option (List GrammarSymbol))

/-- Append symbol by symbol; there is no list when it gets too long. -/
def flattenInto (step : GrammarSymbol → List GrammarSymbol → FlattenCache →
    Option (List GrammarSymbol × FlattenCache)) :
    List GrammarSymbol → List GrammarSymbol → FlattenCache →
      Option (Option (List GrammarSymbol) × FlattenCache)
  | [], out, cache => some (some out, cache)
  | s :: rest, out, cache =>
      (step s out cache).bind fun r =>
        if maxFlattenedRhsLen < r.1.length then some (none, r.2)
        else flattenInto step rest r.1 r.2

/-- Remember the symbols of a nonterminal, and append them unless they are too long. -/
def finishFlatten (nt : NonterminalID) (out : List GrammarSymbol)
    (r : Option (List GrammarSymbol) × FlattenCache) : List GrammarSymbol × FlattenCache :=
  (out ++ r.1.getD [.nonterminal nt], Function.update r.2 nt (some r.1))

def flattenSymbol : ℕ → GrammarSymbol → List GrammarSymbol → FlattenCache →
    Option (List GrammarSymbol × FlattenCache)
  | 0, _, _, _ => none
  | _ + 1, .terminal t, out, cache => some (out ++ [.terminal t], cache)
  | fuel + 1, .nonterminal nt, out, cache =>
      if nt ∈ expandable then
        match cache nt with
        | some (some flattened) =>
            if out.length + flattened.length ≤ maxFlattenedRhsLen then
              some (out ++ flattened, cache)
            else some (out ++ [.nonterminal nt], cache)
        | some none => some (out ++ [.nonterminal nt], cache)
        | none =>
            match unique nt with
            | none => some (out ++ [.nonterminal nt], cache)
            | some rhs =>
                (flattenInto (flattenSymbol fuel) rhs [] cache).map (finishFlatten nt out)
      else some (out ++ [.nonterminal nt], cache)

def flattenRhsSymbols (fuel : ℕ) (rhs : List GrammarSymbol) (cache : FlattenCache) :
    Option (List GrammarSymbol × FlattenCache) :=
  (flattenInto (flattenSymbol unique expandable fuel) rhs [] cache).map fun r =>
    (r.1.getD rhs, r.2)

end Flatten

/-! ## The search ends -/

section Search

variable {unique : NonterminalID → Option (List GrammarSymbol)}

/-- The states of the nonterminals that were seen are kept. -/
def Keeps (states states' : VisitStates) : Prop :=
  ∀ nt, states nt ≠ .Unseen → states' nt = states nt

/-- The single productions of expandable nonterminals lead down. -/
def Descends (unique : NonterminalID → Option (List GrammarSymbol)) (states : VisitStates)
    (rank : NonterminalID → ℕ) : Prop :=
  ∀ nt, states nt = .Expandable → ∀ rhs, unique nt = some rhs → ∀ child,
    .nonterminal child ∈ rhs → (unique child).isSome →
      states child = .Expandable ∧ rank child < rank nt

theorem Keeps.refl (states : VisitStates) : Keeps states states := fun _ _ => rfl

theorem Keeps.trans {s s' s'' : VisitStates} (h : Keeps s s') (h' : Keeps s' s'') : Keeps s s'' := by
  intro nt hnt
  rw [h' nt, h nt hnt]
  rw [h nt hnt]
  exact hnt

theorem Keeps.of_update {states states' : VisitStates} {nt : NonterminalID} {v w : VisitState}
    (hunseen : states nt = .Unseen) (hkeeps : Keeps (Function.update states nt v) states') :
    Keeps states (Function.update states' nt w) := by
  intro nt' hseen
  have hne : nt' ≠ nt := by
    rintro rfl
    exact hseen hunseen
  have hkept := hkeeps nt'
  rw [Function.update_of_ne hne] at hkept ⊢
  exact hkept hseen

def unseen (keys : Finset NonterminalID) (states : VisitStates) : Finset NonterminalID :=
  keys.filter fun nt => states nt = .Unseen

theorem Keeps.unseen_subset {keys : Finset NonterminalID} {states states' : VisitStates}
    (h : Keeps states states') : unseen keys states' ⊆ unseen keys states := by
  intro nt hnt
  obtain ⟨hkey, hunseen⟩ := Finset.mem_filter.mp hnt
  refine Finset.mem_filter.mpr ⟨hkey, ?_⟩
  by_contra hseen
  rw [h nt hseen] at hunseen
  exact hseen hunseen

theorem unseen_update_ssubset {keys : Finset NonterminalID} {states : VisitStates}
    {nt : NonterminalID} (hkey : nt ∈ keys) (hunseen : states nt = .Unseen) :
    unseen keys (Function.update states nt .Visiting) ⊂ unseen keys states := by
  rw [Finset.ssubset_iff_of_subset]
  · exact ⟨nt, Finset.mem_filter.mpr ⟨hkey, hunseen⟩, by simp [unseen]⟩
  · apply Keeps.unseen_subset
    intro nt' hseen
    have hne : nt' ≠ nt := by
      rintro rfl
      exact hseen hunseen
    rw [Function.update_of_ne hne]

/-- What a visit gives: it keeps what was seen and the descent. -/
structure Visited (unique : NonterminalID → Option (List GrammarSymbol)) (states : VisitStates)
    (children : List NonterminalID) (r : Bool × VisitStates) : Prop where
  keeps : Keeps states r.2
  descends : (∃ rank, Descends unique states rank) → ∃ rank, Descends unique r.2 rank
  expandable : r.1 = true → ∀ child ∈ children, (unique child).isSome → r.2 child = .Expandable

theorem visitAll_yields {visit : ℕ → NonterminalID → VisitStates → Option (Bool × VisitStates)}
    {keys : Finset NonterminalID} (bound : ℕ)
    (hvisit : ∀ nt states, (unique nt).isSome → (unseen keys states).card ≤ bound →
      ∃ r, Yields (fun fuel => visit fuel nt states) r ∧ Visited unique states [nt] r)
    (rhs : List GrammarSymbol) {states : VisitStates} (hbound : (unseen keys states).card ≤ bound) :
    ∃ r, Yields (fun fuel => visitAll unique (visit fuel) rhs states) r ∧
      Visited unique states (nonterminals rhs) r := by
  induction rhs generalizing states with
  | nil =>
      exact ⟨(true, states), Yields.const _, Keeps.refl states, id, fun _ child h => by cases h⟩
  | cons s rhs ih =>
      cases s with
      | terminal t => exact ih hbound
      | nonterminal nt =>
          unfold visitAll
          by_cases hnt : (unique nt).isSome
          · obtain ⟨r, hy, hr⟩ := hvisit nt states hnt hbound
            have hbound' := (Finset.card_le_card hr.keeps.unseen_subset).trans hbound
            obtain ⟨r', hy', hr'⟩ := ih hbound'
            simp only [if_pos hnt]
            by_cases hok : r.1 = true
            · refine ⟨r', hy.bind ?_, hr.keeps.trans hr'.keeps, fun h => hr'.descends (hr.descends h),
                ?_⟩
              · simpa only [if_pos hok] using hy'
              · intro hok' child hchild hsome
                obtain rfl | hchild := List.mem_cons.mp hchild
                · have he := hr.expandable hok child (List.mem_singleton_self child) hsome
                  rw [hr'.keeps child, he]
                  rw [he]
                  exact VisitState.noConfusion
                · exact hr'.expandable hok' child hchild hsome
            · refine ⟨(false, r.2), hy.bind ?_, hr.keeps, hr.descends, ?_⟩
              · simpa only [if_neg hok] using Yields.const _
              · intro h
                cases h
          · obtain ⟨r, hy, hr⟩ := ih hbound
            simp only [if_neg hnt]
            refine ⟨r, hy, hr.keeps, hr.descends, ?_⟩
            intro hok child hchild hsome
            obtain rfl | hchild := List.mem_cons.mp hchild
            · exact absurd hsome hnt
            · exact hr.expandable hok child hchild hsome

/-- Finishing a nonterminal keeps the descent. -/
theorem Descends.finish {states : VisitStates} {rank : NonterminalID → ℕ} {nt : NonterminalID}
    {rhs : List GrammarSymbol} (h : Descends unique states rank) (hnt : states nt = .Visiting)
    (hrhs : unique nt = some rhs)
    (hchildren : ∀ child ∈ nonterminals rhs, (unique child).isSome → states child = .Expandable) :
    Descends unique (Function.update states nt .Expandable)
      (Function.update rank nt ((nonterminals rhs).map rank).sum.succ) := by
  have hne : ∀ child, states child = .Expandable → child ≠ nt := by
    intro child hchild
    rintro rfl
    rw [hnt] at hchild
    cases hchild
  intro nt' hexp rhs' hrhs' child hchild hsome
  by_cases he : nt' = nt
  · subst he
    obtain rfl := Option.some.inj (hrhs.symm.trans hrhs')
    have hmem := mem_nonterminals.mpr hchild
    have hstate := hchildren child hmem hsome
    rw [Function.update_of_ne (hne child hstate), Function.update_self,
      Function.update_of_ne (hne child hstate)]
    exact ⟨hstate, Nat.lt_succ_of_le (List.le_sum_of_mem (List.mem_map_of_mem hmem))⟩
  · rw [Function.update_of_ne he] at hexp
    obtain ⟨hstate, hlt⟩ := h nt' hexp rhs' hrhs' child hchild hsome
    rw [Function.update_of_ne (hne child hstate), Function.update_of_ne (hne child hstate),
      Function.update_of_ne he]
    exact ⟨hstate, hlt⟩

theorem Descends.update {states : VisitStates} {rank : NonterminalID → ℕ} {nt : NonterminalID}
    {v : VisitState} (h : Descends unique states rank) (hnt : states nt ≠ .Expandable)
    (hv : v ≠ .Expandable) : Descends unique (Function.update states nt v) rank := by
  intro nt' hexp rhs hrhs child hchild hsome
  have hne : nt' ≠ nt := by
    rintro rfl
    rw [Function.update_self] at hexp
    exact hv hexp
  rw [Function.update_of_ne hne] at hexp
  obtain ⟨hstate, hlt⟩ := h nt' hexp rhs hrhs child hchild hsome
  have hne' : child ≠ nt := by
    rintro rfl
    exact hnt hstate
  rw [Function.update_of_ne hne']
  exact ⟨hstate, hlt⟩

theorem visit_yields (keys : Finset NonterminalID) (hkeys : ∀ nt, (unique nt).isSome → nt ∈ keys)
    (nt : NonterminalID) (states : VisitStates) (hsome : (unique nt).isSome) :
    ∃ r, Yields (fun fuel => visit unique fuel nt states) r ∧ Visited unique states [nt] r := by
  induction hn : (unseen keys states).card using Nat.strong_induction_on generalizing nt states with
  | _ n ih =>
  have hclosed : ∀ ok : Bool, (ok = true → states nt = .Expandable) →
      Visited unique states [nt] (ok, states) := by
    intro ok hok
    refine ⟨Keeps.refl states, id, ?_⟩
    intro h child hchild _
    rw [List.mem_singleton.mp hchild]
    exact hok h
  have hnow : ∀ ok : Bool, (∀ fuel, visit unique (fuel + 1) nt states = some (ok, states)) →
      (ok = true → states nt = .Expandable) →
      ∃ r, Yields (fun fuel => visit unique fuel nt states) r ∧ Visited unique states [nt] r := by
    intro ok hvisit hok
    exact ⟨(ok, states), (Yields.const _).succ hvisit, hclosed ok hok⟩
  cases hstate : states nt with
  | Expandable => exact hnow true (fun fuel => by rw [visit, hstate]) fun _ => hstate
  | Visiting => exact hnow false (fun fuel => by rw [visit, hstate]) fun h => by cases h
  | NotExpandable => exact hnow false (fun fuel => by rw [visit, hstate]) fun h => by cases h
  | Unseen =>
      obtain ⟨rhs, hrhs⟩ := Option.isSome_iff_exists.mp hsome
      have hlt := Finset.card_lt_card (unseen_update_ssubset (hkeys nt hsome) hstate)
      rw [hn] at hlt
      obtain ⟨r, hy, hr⟩ := visitAll_yields (n - 1)
        (fun nt' states' hsome' hbound => ih _ (by omega) nt' states' hsome' rfl) rhs
        (Nat.le_sub_one_of_lt hlt)
      have hvisiting : r.2 nt = .Visiting := by
        rw [hr.keeps nt, Function.update_self]
        rw [Function.update_self]
        exact VisitState.noConfusion
      refine ⟨finishVisit nt r, (hy.map (finishVisit nt)).succ (fun fuel => ?_),
        hr.keeps.of_update hstate, ?_, ?_⟩
      · rw [visit, hstate, hrhs]
      · intro hdesc
        obtain ⟨rank, hrank⟩ := hdesc
        obtain ⟨rank', hrank'⟩ := hr.descends ⟨rank, hrank.update (by rw [hstate]; simp) (by simp)⟩
        unfold finishVisit
        by_cases hok : r.1 = true
        · rw [if_pos hok]
          exact ⟨_, hrank'.finish hvisiting hrhs (hr.expandable hok)⟩
        · rw [if_neg hok]
          exact ⟨rank', hrank'.update (by rw [hvisiting]; simp) (by simp)⟩
      · intro hok child hchild _
        have hok' : r.1 = true := hok
        rw [List.mem_singleton.mp hchild, finishVisit, if_pos hok']
        exact Function.update_self ..

/-- The expandable nonterminals have single productions, and these lead down. -/
theorem computeExpandable_yields {keys : List NonterminalID}
    (hkeys : ∀ nt, (unique nt).isSome ↔ nt ∈ keys) :
    ∃ expandable, Yields (computeExpandable unique keys) expandable ∧
      ∃ rank : NonterminalID → ℕ, ∀ nt ∈ expandable, ∀ rhs, unique nt = some rhs → ∀ child,
        .nonterminal child ∈ rhs → child ∈ expandable → rank child < rank nt := by
  let P : List NonterminalID → VisitStates × Finset NonterminalID → Prop := fun _ acc =>
    (∃ rank, Descends unique acc.1 rank) ∧
      ∀ nt ∈ acc.2, (unique nt).isSome ∧ acc.1 nt = .Expandable
  have hstart : P [] (fun _ => .Unseen, ∅) := by
    refine ⟨⟨fun _ => 0, fun nt h => by cases h⟩, fun nt h => ?_⟩
    exact absurd h (Finset.notMem_empty nt)
  obtain ⟨acc, hy, hacc⟩ := foldlM_yields (P := P) [] hstart
    (l := keys) (f := fun fuel acc nt => (visit unique fuel nt acc.1).map fun r =>
      (r.2, if r.1 then insert nt acc.2 else acc.2)) (by
    intro _ nt acc hnt hacc
    have hsome := (hkeys nt).mpr hnt
    obtain ⟨r, hy, hr⟩ := visit_yields keys.toFinset
      (fun nt h => List.mem_toFinset.mpr ((hkeys nt).mp h)) nt acc.1 hsome
    have hkept : ∀ nt ∈ acc.2, (unique nt).isSome ∧ r.2 nt = .Expandable := by
      intro nt' hnt'
      obtain ⟨hsome', hexp⟩ := hacc.2 nt' hnt'
      rw [hr.keeps nt' (by rw [hexp]; simp)]
      exact ⟨hsome', hexp⟩
    refine ⟨_, hy.map _, hr.descends hacc.1, ?_⟩
    intro nt' hnt'
    dsimp only at hnt'
    split at hnt'
    case isTrue hok =>
      obtain rfl | hnt' := Finset.mem_insert.mp hnt'
      · exact ⟨hsome, hr.expandable hok nt' (List.mem_singleton_self nt') hsome⟩
      · exact hkept nt' hnt'
    case isFalse => exact hkept nt' hnt')
  obtain ⟨⟨rank, hrank⟩, hexp⟩ := hacc
  refine ⟨acc.2, hy.map Prod.snd, rank, ?_⟩
  intro nt hnt rhs hrhs child hchild hmem
  exact (hrank nt (hexp nt hnt).2 rhs hrhs child hchild (hexp child hmem).1).2

end Search

/-! ## A written-out right-hand side -/

section Flattened

variable {unique : NonterminalID → Option (List GrammarSymbol)} {expandable : Finset NonterminalID}

/-- The single productions that may be written out. -/
def Unique (unique : NonterminalID → Option (List GrammarSymbol)) :
    Productions TerminalID NonterminalID := fun nt rhs => unique nt = some rhs

/-- What is cached for a nonterminal unfolds it. -/
def CacheUnfolds (unique : NonterminalID → Option (List GrammarSymbol)) (cache : FlattenCache) :
    Prop :=
  ∀ nt flattened, cache nt = some (some flattened) →
    Unfolds (Unique unique) [.nonterminal nt] flattened

/-- Appending the unfolding of a sequence. -/
def Appends (unique : NonterminalID → Option (List GrammarSymbol)) (rhs out : List GrammarSymbol)
    (r : List GrammarSymbol × FlattenCache) : Prop :=
  CacheUnfolds unique r.2 ∧ ∃ new, Unfolds (Unique unique) rhs new ∧ r.1 = out ++ new

theorem CacheUnfolds.update {cache : FlattenCache} (h : CacheUnfolds unique cache)
    {nt : NonterminalID} {entry : Option (List GrammarSymbol)}
    (hentry : ∀ flattened, entry = some flattened →
      Unfolds (Unique unique) [.nonterminal nt] flattened) :
    CacheUnfolds unique (Function.update cache nt (some entry)) := by
  intro nt' flattened he
  by_cases hne : nt' = nt
  · subst hne
    rw [Function.update_self] at he
    exact hentry flattened (Option.some.inj he)
  · rw [Function.update_of_ne hne] at he
    exact h nt' flattened he

theorem flattenInto_yields {step : ℕ → GrammarSymbol → List GrammarSymbol → FlattenCache →
    Option (List GrammarSymbol × FlattenCache)} (rhs : List GrammarSymbol)
    (hstep : ∀ s ∈ rhs, ∀ out cache, CacheUnfolds unique cache →
      ∃ r, Yields (fun fuel => step fuel s out cache) r ∧ Appends unique [s] out r)
    (out : List GrammarSymbol) {cache : FlattenCache} (hcache : CacheUnfolds unique cache) :
    ∃ r, Yields (fun fuel => flattenInto (step fuel) rhs out cache) r ∧ CacheUnfolds unique r.2 ∧
      ∀ flattened, r.1 = some flattened → ∃ new, Unfolds (Unique unique) rhs new ∧
        flattened = out ++ new := by
  induction rhs generalizing out cache with
  | nil =>
      refine ⟨(some out, cache), Yields.const _, hcache, ?_⟩
      intro flattened he
      cases he
      exact ⟨[], .nil, (List.append_nil out).symm⟩
  | cons s rhs ih =>
      obtain ⟨r, hy, hr, new, hnew, hout⟩ := hstep s List.mem_cons_self out cache hcache
      obtain ⟨r', hy', hr', hflat⟩ := ih (fun s hs => hstep s (List.mem_cons_of_mem _ hs)) r.1 hr
      unfold flattenInto
      by_cases hlong : maxFlattenedRhsLen < r.1.length
      · refine ⟨(none, r.2), hy.bind ?_, hr, fun flattened he => by cases he⟩
        simpa only [if_pos hlong] using Yields.const _
      · refine ⟨r', hy.bind ?_, hr', ?_⟩
        · simpa only [if_neg hlong] using hy'
        · intro flattened he
          obtain ⟨new', hnew', rfl⟩ := hflat flattened he
          refine ⟨new ++ new', hnew.append hnew', ?_⟩
          rw [hout, List.append_assoc]

/-- A symbol is written out when the symbols of its single production are. -/
theorem flattenSymbol_step (s : GrammarSymbol)
    (hrec : ∀ nt ∈ expandable, s = .nonterminal nt → ∀ rhs, unique nt = some rhs →
      ∀ s' ∈ rhs, ∀ out cache, CacheUnfolds unique cache →
        ∃ r, Yields (fun fuel => flattenSymbol unique expandable fuel s' out cache) r ∧
          Appends unique [s'] out r)
    (out : List GrammarSymbol) {cache : FlattenCache} (hcache : CacheUnfolds unique cache) :
    ∃ r, Yields (fun fuel => flattenSymbol unique expandable fuel s out cache) r ∧
      Appends unique [s] out r := by
  have hnow : ∀ new, Unfolds (Unique unique) [s] new →
      (∀ fuel, flattenSymbol unique expandable (fuel + 1) s out cache = some (out ++ new, cache)) →
      ∃ r, Yields (fun fuel => flattenSymbol unique expandable fuel s out cache) r ∧
        Appends unique [s] out r := by
    intro new hnew hflatten
    exact ⟨(out ++ new, cache), (Yields.const _).succ hflatten, hcache, new, hnew, rfl⟩
  have hkeep := hnow [s] (Unfolds.refl [s])
  cases s with
  | terminal t => exact hkeep fun fuel => rfl
  | nonterminal nt =>
      by_cases hexp : nt ∈ expandable
      case neg => exact hkeep fun fuel => by rw [flattenSymbol, if_neg hexp]
      cases hc : cache nt with
      | some entry =>
          cases entry with
          | none => exact hkeep fun fuel => by rw [flattenSymbol, if_pos hexp, hc]
          | some flattened =>
              by_cases hshort : out.length + flattened.length ≤ maxFlattenedRhsLen
              · apply hnow flattened (hcache nt flattened hc)
                intro fuel
                rw [flattenSymbol, if_pos hexp, hc]
                exact if_pos hshort
              · apply hkeep
                intro fuel
                rw [flattenSymbol, if_pos hexp, hc]
                exact if_neg hshort
      | none =>
          cases hrhs : unique nt with
          | none => exact hkeep fun fuel => by rw [flattenSymbol, if_pos hexp, hc, hrhs]
          | some rhs =>
              obtain ⟨r, hy, hr, hflat⟩ :=
                flattenInto_yields rhs (hrec nt hexp rfl rhs hrhs) [] hcache
              have hunfold : ∀ flattened, r.1 = some flattened →
                  Unfolds (Unique unique) [.nonterminal nt] flattened := by
                intro flattened he
                obtain ⟨new, hnew, rfl⟩ := hflat flattened he
                have hone := Unfolds.unfold (U := Unique unique) hrhs hnew .nil
                rwa [List.append_nil] at hone
              refine ⟨finishFlatten nt out r, (hy.map (finishFlatten nt out)).succ fun fuel => ?_,
                hr.update hunfold, r.1.getD [.nonterminal nt], ?_, rfl⟩
              · rw [flattenSymbol, if_pos hexp, hc, hrhs]
              · cases he : r.1 with
                | none => exact Unfolds.refl _
                | some flattened => exact hunfold flattened he

theorem flattenSymbol_yields {rank : NonterminalID → ℕ}
    (hrank : ∀ nt ∈ expandable, ∀ rhs, unique nt = some rhs → ∀ child,
      .nonterminal child ∈ rhs → child ∈ expandable → rank child < rank nt)
    (bound : ℕ) (s : GrammarSymbol)
    (hbound : ∀ nt ∈ expandable, s = .nonterminal nt → rank nt < bound)
    (out : List GrammarSymbol) {cache : FlattenCache} (hcache : CacheUnfolds unique cache) :
    ∃ r, Yields (fun fuel => flattenSymbol unique expandable fuel s out cache) r ∧
      Appends unique [s] out r := by
  induction bound generalizing s out cache with
  | zero =>
      refine flattenSymbol_step s ?_ out hcache
      intro nt hexp hs
      exact absurd (hbound nt hexp hs) (Nat.not_lt_zero _)
  | succ bound ih =>
      refine flattenSymbol_step s ?_ out hcache
      rintro nt hexp rfl rhs hrhs s' hs' out cache hcache
      refine ih s' ?_ out hcache
      rintro child hchild rfl
      have hlt := hrank nt hexp rhs hrhs child hs' hchild
      have hle := hbound nt hexp rfl
      omega

/-- Writing out a right-hand side unfolds it. -/
theorem flattenRhsSymbols_yields {rank : NonterminalID → ℕ}
    (hrank : ∀ nt ∈ expandable, ∀ rhs, unique nt = some rhs → ∀ child,
      .nonterminal child ∈ rhs → child ∈ expandable → rank child < rank nt)
    (rhs : List GrammarSymbol) {cache : FlattenCache} (hcache : CacheUnfolds unique cache) :
    ∃ r, Yields (fun fuel => flattenRhsSymbols unique expandable fuel rhs cache) r ∧
      CacheUnfolds unique r.2 ∧ Unfolds (Unique unique) rhs r.1 := by
  obtain ⟨r, hy, hr, hflat⟩ := flattenInto_yields rhs
    (fun s _ out cache hcache => by
      cases s with
      | terminal t => exact flattenSymbol_yields hrank 0 _ (fun nt _ h => by cases h) out hcache
      | nonterminal nt =>
          refine flattenSymbol_yields hrank (rank nt + 1) _ ?_ out hcache
          intro nt' _ h
          cases h
          exact Nat.lt_succ_self _) [] hcache
  refine ⟨_, hy.map _, hr, ?_⟩
  cases he : r.1 with
  | none => exact Unfolds.refl rhs
  | some flattened =>
      obtain ⟨new, hnew, rfl⟩ := hflat flattened he
      exact hnew

end Flattened

end Grammar

end GlrMask
