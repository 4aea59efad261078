import GlrMask.ClauseCounting
import GlrMask.ContextFreeComparison
import GlrMask.SingleProductions

/-!
# Duplicate rules

Rules are the same when their right-hand sides are, after the nonterminals with a single
production are written out. The first one of the same rules is kept. The nonterminals that may
be written out are found by counting or by a search, and they are written out by a stack of
frames or by recursion.
-/

namespace GlrMask

namespace Grammar

open ContextFree ClauseCounting

namespace Dedup

section Definitions

variable (rules : List Rule)

/-- The right-hand side of a nonterminal whose productions are all the same. -/
def uniqueRhs (nt : NonterminalID) : Option (List GrammarSymbol) :=
  match rules.find? (·.lhs = nt) with
  | none => none
  | some first =>
      if rules.all (fun rule => rule.lhs = nt → rule.rhs = first.rhs) then some first.rhs else none

def uniqueNts : List NonterminalID :=
  (List.range (maxNtId rules + 1)).filter fun nt => (uniqueRhs rules nt).isSome

/-- A single production waits for its nonterminals with single productions. -/
def uniqueClauses : List (Clause NonterminalID) :=
  (List.range (maxNtId rules + 1)).filterMap fun nt => (uniqueRhs rules nt).map fun rhs =>
    ⟨(nonterminals rhs).filter fun child => (uniqueRhs rules child).isSome, nt⟩

structure FlattenFrame where
  owner : Option NonterminalID
  rhs : List GrammarSymbol
  position : ℕ
  output : List GrammarSymbol

namespace FlattenFrame

def advance (frame : FlattenFrame) : FlattenFrame := { frame with position := frame.position + 1 }

def append (frame : FlattenFrame) (symbols : List GrammarSymbol) : FlattenFrame :=
  { frame with output := frame.output ++ symbols }

end FlattenFrame

/-- The symbols to append for a symbol, or the right-hand side to write out. -/
def readSymbol (unique : NonterminalID → Option (List GrammarSymbol)) (expandable : Finset NonterminalID)
    (length : ℕ) (cache : FlattenCache) :
    GrammarSymbol → List GrammarSymbol ⊕ NonterminalID × List GrammarSymbol
  | .terminal t => .inl [.terminal t]
  | .nonterminal nt =>
      if nt ∈ expandable then
        match cache nt with
        | some (some flattened) =>
            if length + flattened.length ≤ maxFlattenedRhsLen then .inl flattened
            else .inl [.nonterminal nt]
        | some none => .inl [.nonterminal nt]
        | none =>
            match unique nt with
            | some expanded => .inr (nt, expanded)
            | none => .inl [.nonterminal nt]
      else .inl [.nonterminal nt]

/-- Write out one symbol after the other on a stack of frames, whose last one is the root. -/
def flattenFrames (unique : NonterminalID → Option (List GrammarSymbol))
    (expandable : Finset NonterminalID) (root : List GrammarSymbol) :
    ℕ → List FlattenFrame → FlattenCache → Option (List GrammarSymbol × FlattenCache)
  | 0, _, _ => none
  | _ + 1, [], _ => none
  | fuel + 1, frame :: stack, cache =>
      if maxFlattenedRhsLen < frame.output.length ∨ frame.position = frame.rhs.length then
        let flattened := if maxFlattenedRhsLen < frame.output.length then none else some frame.output
        match frame.owner, stack with
        | none, _ => some (flattened.getD root, cache)
        | some _, [] => none
        | some nt, parent :: stack =>
            flattenFrames unique expandable root fuel
              (parent.append (flattened.getD [.nonterminal nt]) :: stack)
              (Function.update cache nt (some flattened))
      else
        match frame.rhs[frame.position]? with
        | none => none
        | some s =>
            match readSymbol unique expandable frame.output.length cache s with
            | .inl symbols =>
                flattenFrames unique expandable root fuel (frame.advance.append symbols :: stack) cache
            | .inr (nt, expanded) =>
                flattenFrames unique expandable root fuel
                  (⟨some nt, expanded, 0, []⟩ :: frame.advance :: stack) cache

def flattenForDedup (unique : NonterminalID → Option (List GrammarSymbol))
    (expandable : Finset NonterminalID) (fuel : ℕ) (rhs : List GrammarSymbol) (cache : FlattenCache) :
    Option (List GrammarSymbol × FlattenCache) :=
  flattenFrames unique expandable rhs fuel [⟨none, rhs, 0, []⟩] cache

/-! ## Keeping the first of the same rules -/

structure Deduping where
  seen : List Rule
  kept : List Rule
  cache : FlattenCache

def Deduping.see (s : Deduping) (key rule : Rule) : Deduping :=
  if key ∈ s.seen then s else { s with seen := key :: s.seen, kept := s.kept ++ [rule] }

def dedupRule (expandable : Finset NonterminalID) (flatten : List GrammarSymbol → FlattenCache →
    Option (List GrammarSymbol × FlattenCache)) (s : Deduping) (rule : Rule) : Option Deduping :=
  if rules.countP (·.lhs = rule.lhs) = 1 then some { s with kept := s.kept ++ [rule] }
  else if (nonterminals rule.rhs).any (· ∈ expandable) then
    (flatten rule.rhs s.cache).map fun r => { s with cache := r.2 }.see ⟨rule.lhs, r.1⟩ rule
  else some (s.see rule rule)

def dedupWith (expandable : Finset NonterminalID) (flatten : List GrammarSymbol → FlattenCache →
    Option (List GrammarSymbol × FlattenCache)) : Option (List Rule) :=
  (rules.foldlM (dedupRule rules expandable flatten) ⟨[], [], fun _ => none⟩).map Deduping.kept

/-- Duplicates by counting and frames. -/
def dedupEdit (fuel : ℕ) : Option (List Rule) :=
  dedupWith rules (derivable (uniqueClauses rules))
    (flattenForDedup (uniqueRhs rules) (derivable (uniqueClauses rules)) fuel)

/-- Duplicates by searching and recursion. -/
def dedupRules (fuel : ℕ) : Option (List Rule) :=
  (computeExpandable (uniqueRhs rules) (uniqueNts rules) fuel).bind fun expandable =>
    dedupWith rules expandable (flattenRhsSymbols (uniqueRhs rules) expandable fuel)

end Definitions

/-! ## What is written out unfolds -/

section Flatten

variable {unique : NonterminalID → Option (List GrammarSymbol)} {expandable : Finset NonterminalID}

theorem flattenInto_ensures {step : GrammarSymbol → List GrammarSymbol → FlattenCache →
    Option (List GrammarSymbol × FlattenCache)}
    (hstep : ∀ s out cache, CacheUnfolds unique cache → Ensures (step s out cache) (Appends unique [s] out))
    (rhs out : List GrammarSymbol) {cache : FlattenCache} (hcache : CacheUnfolds unique cache) :
    Ensures (flattenInto step rhs out cache) fun r => CacheUnfolds unique r.2 ∧
      ∀ flattened, r.1 = some flattened → ∃ new, Unfolds (Unique unique) rhs new ∧
        flattened = out ++ new := by
  induction rhs generalizing out cache with
  | nil =>
      refine Ensures.some ⟨hcache, ?_⟩
      intro flattened he
      cases he
      exact ⟨[], .nil, (List.append_nil out).symm⟩
  | cons s rhs ih =>
      unfold flattenInto
      refine Ensures.bind (hstep s out cache hcache) ?_
      rintro r ⟨hr, new, hnew, hout⟩
      split_ifs
      · exact Ensures.some ⟨hr, fun flattened he => by cases he⟩
      · refine (ih r.1 hr).mono ?_
        rintro r' ⟨hr', hflat⟩
        refine ⟨hr', ?_⟩
        intro flattened he
        obtain ⟨new', hnew', rfl⟩ := hflat flattened he
        refine ⟨new ++ new', hnew.append hnew', ?_⟩
        rw [hout, List.append_assoc]

theorem flattenSymbol_ensures (fuel : ℕ) (s : GrammarSymbol) (out : List GrammarSymbol)
    (cache : FlattenCache) (hcache : CacheUnfolds unique cache) :
    Ensures (flattenSymbol unique expandable fuel s out cache) (Appends unique [s] out) := by
  induction fuel generalizing s out cache with
  | zero => exact Ensures.none _
  | succ fuel ih =>
      have hnow : ∀ new, Unfolds (Unique unique) [s] new → Appends unique [s] out (out ++ new, cache) :=
        fun new hnew => ⟨hcache, new, hnew, rfl⟩
      have hkeep := hnow [s] (Unfolds.refl [s])
      cases s with
      | terminal t => exact Ensures.some hkeep
      | nonterminal nt =>
          unfold flattenSymbol
          split_ifs with hexp
          · split
            · rename_i flattened hc
              split_ifs
              · exact Ensures.some (hnow flattened (hcache nt flattened hc))
              · exact Ensures.some hkeep
            · exact Ensures.some hkeep
            · split
              · exact Ensures.some hkeep
              · rename_i rhs hrhs
                apply Ensures.map
                refine (flattenInto_ensures ih rhs [] hcache).mono ?_
                rintro r ⟨hr, hflat⟩
                have hunfold : ∀ flattened, r.1 = some flattened →
                    Unfolds (Unique unique) [.nonterminal nt] flattened := by
                  intro flattened he
                  obtain ⟨new, hnew, rfl⟩ := hflat flattened he
                  have hone := Unfolds.unfold (U := Unique unique) hrhs hnew .nil
                  rwa [List.append_nil] at hone
                refine ⟨hr.update hunfold, r.1.getD [.nonterminal nt], ?_, rfl⟩
                cases he : r.1 with
                | none => exact Unfolds.refl _
                | some flattened => exact hunfold flattened he
          · exact Ensures.some hkeep

/-- What a right-hand side is compared by unfolds it. -/
def FlattensTo (unique : NonterminalID → Option (List GrammarSymbol))
    (flatten : List GrammarSymbol → FlattenCache → Option (List GrammarSymbol × FlattenCache)) : Prop :=
  ∀ rhs cache, CacheUnfolds unique cache → Ensures (flatten rhs cache) fun r =>
    CacheUnfolds unique r.2 ∧ Unfolds (Unique unique) rhs r.1

theorem flattenRhsSymbols_ensures (fuel : ℕ) :
    FlattensTo unique (flattenRhsSymbols unique expandable fuel) := by
  intro rhs cache hcache
  apply Ensures.map
  refine (flattenInto_ensures (flattenSymbol_ensures fuel) rhs [] hcache).mono ?_
  rintro r ⟨hr, hflat⟩
  refine ⟨hr, ?_⟩
  cases he : r.1 with
  | none => exact Unfolds.refl rhs
  | some flattened =>
      obtain ⟨new, hnew, rfl⟩ := hflat flattened he
      exact hnew

/-! ## The stack of frames -/

/-- A frame below waits for the nonterminal that owns the one above. -/
def Waits (unique : NonterminalID → Option (List GrammarSymbol)) (root : List GrammarSymbol) :
    FlattenFrame → List FlattenFrame → Prop
  | frame, [] => frame.owner = none ∧ frame.rhs = root
  | frame, parent :: stack => ∃ nt before, frame.owner = some nt ∧ unique nt = some frame.rhs ∧
      parent.rhs.take parent.position = before ++ [.nonterminal nt] ∧
        Unfolds (Unique unique) before parent.output ∧ Waits unique root parent stack

/-- The output of a frame unfolds its symbols before the position. -/
def Unfolded (unique : NonterminalID → Option (List GrammarSymbol)) (frame : FlattenFrame) : Prop :=
  Unfolds (Unique unique) (frame.rhs.take frame.position) frame.output

theorem Waits.of_eq {root : List GrammarSymbol} {frame frame' : FlattenFrame}
    {stack : List FlattenFrame} (h : Waits unique root frame stack) (howner : frame'.owner = frame.owner)
    (hrhs : frame'.rhs = frame.rhs) : Waits unique root frame' stack := by
  cases stack with
  | nil =>
      rw [Waits, howner, hrhs]
      exact h
  | cons parent stack =>
      rw [Waits, howner, hrhs]
      exact h

theorem Unfolded.advance {frame : FlattenFrame} (h : Unfolded unique frame) {s : GrammarSymbol}
    (hs : frame.rhs[frame.position]? = some s) {symbols : List GrammarSymbol}
    (hsymbols : Unfolds (Unique unique) [s] symbols) :
    Unfolded unique (frame.advance.append symbols) := by
  obtain ⟨hlt, hget⟩ := List.getElem?_eq_some_iff.mp hs
  have htake : frame.rhs.take (frame.position + 1) = frame.rhs.take frame.position ++ [s] := by
    rw [List.take_add_one, hs]
    rfl
  change Unfolds (Unique unique) (frame.rhs.take (frame.position + 1)) (frame.output ++ symbols)
  rw [htake]
  exact h.append hsymbols

theorem readSymbol_spec (expandable : Finset NonterminalID) {cache : FlattenCache} (hcache : CacheUnfolds unique cache) (length : ℕ)
    (s : GrammarSymbol) :
    match readSymbol unique expandable length cache s with
    | .inl symbols => Unfolds (Unique unique) [s] symbols
    | .inr r => s = .nonterminal r.1 ∧ unique r.1 = some r.2 := by
  cases s with
  | terminal t => exact Unfolds.refl _
  | nonterminal nt =>
      rw [readSymbol]
      by_cases hexp : nt ∈ expandable
      · rw [if_pos hexp]
        cases hc : cache nt with
        | none =>
            cases hunique : unique nt with
            | none => exact Unfolds.refl _
            | some expanded => exact ⟨rfl, hunique⟩
        | some entry =>
            cases entry with
            | none => exact Unfolds.refl _
            | some flattened =>
                by_cases hshort : length + flattened.length ≤ maxFlattenedRhsLen
                · simp only [if_pos hshort]
                  exact hcache nt flattened hc
                · simp only [if_neg hshort]
                  exact Unfolds.refl _
      · rw [if_neg hexp]
        exact Unfolds.refl _

theorem flattenFrames_ensures {root : List GrammarSymbol} (fuel : ℕ) {frame : FlattenFrame}
    {stack : List FlattenFrame} {cache : FlattenCache} (hunfolded : Unfolded unique frame)
    (hwaits : Waits unique root frame stack) (hcache : CacheUnfolds unique cache) :
    Ensures (flattenFrames unique expandable root fuel (frame :: stack) cache) fun r =>
      CacheUnfolds unique r.2 ∧ Unfolds (Unique unique) root r.1 := by
  induction fuel generalizing frame stack cache with
  | zero => exact Ensures.none _
  | succ fuel ih =>
      unfold flattenFrames
      by_cases hdone : maxFlattenedRhsLen < frame.output.length ∨ frame.position = frame.rhs.length
      · rw [if_pos hdone]
        dsimp only
        generalize hflattened : (if maxFlattenedRhsLen < frame.output.length then none
          else some frame.output) = flattened
        have hall : ∀ symbols, flattened = some symbols → Unfolds (Unique unique) frame.rhs symbols := by
          rintro symbols rfl
          split_ifs at hflattened with hlong
          have htake := hunfolded
          rw [Unfolded, hdone.resolve_left hlong, List.take_length] at htake
          rwa [← Option.some.inj hflattened]
        cases stack with
        | nil =>
            obtain ⟨howner, hroot⟩ := hwaits
            rw [howner]
            refine Ensures.some ⟨hcache, ?_⟩
            cases flattened with
            | none => exact Unfolds.refl root
            | some symbols => exact hroot ▸ hall symbols rfl
        | cons parent stack =>
            obtain ⟨nt, before, howner, hunique, htake, hbefore, hwaits⟩ := hwaits
            rw [howner]
            have hone : ∀ symbols, flattened = some symbols →
                Unfolds (Unique unique) [.nonterminal nt] symbols := by
              intro symbols he
              have h := Unfolds.unfold (U := Unique unique) hunique (hall symbols he) .nil
              rwa [List.append_nil] at h
            refine ih ?_ (hwaits.of_eq rfl rfl) (hcache.update hone)
            change Unfolds (Unique unique) (parent.rhs.take parent.position)
              (parent.output ++ flattened.getD [.nonterminal nt])
            rw [htake]
            apply hbefore.append
            cases flattened with
            | none => exact Unfolds.refl _
            | some symbols => exact hone symbols rfl
      · rw [if_neg hdone]
        cases hs : frame.rhs[frame.position]? with
        | none => exact Ensures.none _
        | some s =>
            have hread := readSymbol_spec expandable hcache frame.output.length s
            dsimp only
            cases hcase : readSymbol unique expandable frame.output.length cache s with
            | inl symbols =>
                rw [hcase] at hread
                exact ih (hunfolded.advance hs hread) (hwaits.of_eq rfl rfl) hcache
            | inr r =>
                rw [hcase] at hread
                obtain ⟨nt, expanded⟩ := r
                obtain ⟨rfl, hunique⟩ := hread
                refine ih (Unfolds.refl []) ?_ hcache
                refine ⟨nt, frame.rhs.take frame.position, rfl, hunique, ?_, hunfolded,
                  hwaits.of_eq rfl rfl⟩
                change frame.rhs.take (frame.position + 1) = _
                rw [List.take_add_one, hs]
                rfl

theorem flattenForDedup_ensures (fuel : ℕ) : FlattensTo unique (flattenForDedup unique expandable fuel) :=
  fun _ _ hcache => flattenFrames_ensures fuel (Unfolds.refl []) ⟨rfl, rfl⟩ hcache

end Flatten

/-! ## The kept rules -/

section Kept

variable {rules : List Rule}

theorem uniqueRhs_spec {nt : NonterminalID} {rhs : List GrammarSymbol} (h : uniqueRhs rules nt = some rhs) :
    ⟨nt, rhs⟩ ∈ rules ∧ ∀ rhs', ⟨nt, rhs'⟩ ∈ rules → rhs' = rhs := by
  unfold uniqueRhs at h
  cases hfirst : rules.find? (·.lhs = nt) with
  | none =>
      rw [hfirst] at h
      cases h
  | some first =>
      rw [hfirst] at h
      dsimp only at h
      split_ifs at h with hall
      obtain rfl := Option.some.inj h
      have hlhs : first.lhs = nt := by simpa using List.find?_some hfirst
      refine ⟨?_, ?_⟩
      · rw [← hlhs]
        exact List.mem_of_find?_eq_some hfirst
      · intro rhs' hrhs'
        exact of_decide_eq_true (List.all_eq_true.mp hall _ hrhs') rfl

/-- The rules have the same key. -/
def SameKey (rules : List Rule) (rule rule' : Rule) : Prop :=
  rule'.lhs = rule.lhs ∧ ∃ key, Unfolds (Unique (uniqueRhs rules)) rule.rhs key ∧
    Unfolds (Unique (uniqueRhs rules)) rule'.rhs key

/-- Every rule that is done has the same key as one that is kept. -/
structure DedupInvariant (rules done : List Rule) (s : Deduping) : Prop where
  kept : s.kept.Sublist done
  covered : ∀ rule ∈ done, ∃ rule' ∈ s.kept, SameKey rules rule rule'
  seen : ∀ key ∈ s.seen, ∃ rule' ∈ s.kept, rule'.lhs = key.lhs ∧
    Unfolds (Unique (uniqueRhs rules)) rule'.rhs key.rhs
  cache : CacheUnfolds (uniqueRhs rules) s.cache

variable {done : List Rule} {s : Deduping} {rule : Rule}

theorem DedupInvariant.keep (h : DedupInvariant rules done s) {seen : List Rule}
    (hseen : ∀ key ∈ seen, key ∈ s.seen ∨ key.lhs = rule.lhs ∧
      Unfolds (Unique (uniqueRhs rules)) rule.rhs key.rhs) :
    DedupInvariant rules (done ++ [rule]) { s with seen := seen, kept := s.kept ++ [rule] } := by
  refine ⟨h.kept.append (List.Sublist.refl _), ?_, ?_, h.cache⟩
  · intro rule' hrule'
    obtain hrule' | hrule' := List.mem_append.mp hrule'
    · obtain ⟨kept, hkept, hsame⟩ := h.covered rule' hrule'
      exact ⟨kept, List.mem_append_left _ hkept, hsame⟩
    · rw [List.mem_singleton.mp hrule']
      exact ⟨rule, by simp, rfl, rule.rhs, Unfolds.refl _, Unfolds.refl _⟩
  · intro key hkey
    obtain hold | ⟨hlhs, hunfolds⟩ := hseen key hkey
    · obtain ⟨kept, hkept, hsame⟩ := h.seen key hold
      exact ⟨kept, List.mem_append_left _ hkept, hsame⟩
    · exact ⟨rule, by simp, hlhs.symm, hunfolds⟩

theorem DedupInvariant.see (h : DedupInvariant rules done s) {key : List GrammarSymbol}
    (hkey : Unfolds (Unique (uniqueRhs rules)) rule.rhs key) :
    DedupInvariant rules (done ++ [rule]) (s.see ⟨rule.lhs, key⟩ rule) := by
  unfold Deduping.see
  split_ifs with hseen
  · refine ⟨h.kept.trans (List.sublist_append_left _ _), ?_, h.seen, h.cache⟩
    intro rule' hrule'
    obtain hrule' | hrule' := List.mem_append.mp hrule'
    · exact h.covered rule' hrule'
    · rw [List.mem_singleton.mp hrule']
      obtain ⟨kept, hkept, hlhs, hunfolds⟩ := h.seen _ hseen
      exact ⟨kept, hkept, hlhs, key, hkey, hunfolds⟩
  · apply h.keep
    intro key' hkey'
    obtain rfl | hold := List.mem_cons.mp hkey'
    · exact Or.inr ⟨rfl, hkey⟩
    · exact Or.inl hold

variable {expandable : Finset NonterminalID} {flatten : List GrammarSymbol → FlattenCache →
  Option (List GrammarSymbol × FlattenCache)}

theorem dedupRule_spec (hflatten : FlattensTo (uniqueRhs rules) flatten)
    (h : DedupInvariant rules done s) :
    Ensures (dedupRule rules expandable flatten s rule) (DedupInvariant rules (done ++ [rule])) := by
  unfold dedupRule
  split_ifs
  · exact Ensures.some (h.keep fun key hkey => Or.inl hkey)
  · apply Ensures.map
    refine (hflatten rule.rhs s.cache h.cache).mono ?_
    rintro r ⟨hcache, hunfolds⟩
    have hs : DedupInvariant rules done { s with cache := r.2 } :=
      ⟨h.kept, h.covered, h.seen, hcache⟩
    exact hs.see hunfolds
  · exact Ensures.some (h.see (Unfolds.refl rule.rhs))

/-- What is left when duplicates are removed. -/
structure Deduplicated (rules out : List Rule) : Prop where
  kept : out.Sublist rules
  heads : ∀ rule ∈ rules, ∃ rule' ∈ out, rule'.lhs = rule.lhs
  words : ∀ nt, words (Produces out) nt = words (Produces rules) nt

theorem DedupInvariant.deduplicated (h : DedupInvariant rules rules s) : Deduplicated rules s.kept := by
  refine ⟨h.kept, ?_, ?_⟩
  · intro rule hrule
    obtain ⟨rule', hrule', hlhs, -⟩ := h.covered rule hrule
    exact ⟨rule', hrule', hlhs⟩
  · intro nt
    apply le_antisymm
    · exact words_mono (fun A α hα => h.kept.subset hα) nt
    · apply words_le_of_step
      intro n ih A α hα
      obtain ⟨⟨lhs, rhs'⟩, hkept, hlhs, key, hkey, hkey'⟩ := h.covered ⟨A, α⟩ hα
      obtain rfl : lhs = A := hlhs
      have hunique : ∀ A γ α, Unique (uniqueRhs rules) A γ → Produces rules A α → α = γ :=
        fun A γ α hγ hα => (uniqueRhs_spec hγ).2 α hα
      have hclosed : Closed (Unique (uniqueRhs rules)) (ContextFree.words (Produces s.kept)) := by
        intro B γ hγ
        obtain ⟨hmem, hall⟩ := uniqueRhs_spec hγ
        obtain ⟨⟨B', γ'⟩, hkept, hlhs, -⟩ := h.covered ⟨B, γ⟩ hmem
        obtain rfl : B' = B := hlhs
        rw [hall γ' (h.kept.subset hkept)] at hkept
        exact closed_words _ B' γ hkept
      calc denote (stage (Produces rules) n) α
          ≤ denote (stage (Produces rules) n) key := stage_le_of_unfolds hunique hkey n
        _ ≤ denote (ContextFree.words (Produces s.kept)) key := denote_mono ih key
        _ ≤ denote (ContextFree.words (Produces s.kept)) rhs' := denote_le_of_unfolds hclosed hkey'
        _ ≤ ContextFree.words (Produces s.kept) lhs := closed_words _ lhs rhs' hkept

theorem dedupWith_spec (hflatten : FlattensTo (uniqueRhs rules) flatten) :
    Ensures (dedupWith rules expandable flatten) (Deduplicated rules) := by
  apply Ensures.map
  have hstart : DedupInvariant rules [] ⟨[], [], fun _ => none⟩ :=
    ⟨List.Sublist.refl _, by simp, by simp, fun nt flattened h => by cases h⟩
  refine (Ensures.foldlM [] hstart fun done rule s _ hs => dedupRule_spec hflatten hs).mono ?_
  intro s hs
  rw [List.nil_append] at hs
  exact hs.deduplicated

theorem dedupEdit_spec (fuel : ℕ) : Ensures (dedupEdit rules fuel) (Deduplicated rules) :=
  dedupWith_spec (flattenForDedup_ensures fuel)

theorem dedupRules_spec (fuel : ℕ) : Ensures (dedupRules rules fuel) (Deduplicated rules) := by
  have hany : Ensures (computeExpandable (uniqueRhs rules) (uniqueNts rules) fuel) fun _ => True :=
    fun _ _ => trivial
  exact hany.bind fun _ _ => dedupWith_spec (flattenRhsSymbols_ensures fuel)

end Kept

/-! ## Enough fuel -/

section Termination

variable {unique : NonterminalID → Option (List GrammarSymbol)} {expandable : Finset NonterminalID}
  {root : List GrammarSymbol}

/-- The stack of frames is worked off. -/
def Finishes (unique : NonterminalID → Option (List GrammarSymbol)) (expandable : Finset NonterminalID)
    (root : List GrammarSymbol) (stack : List FlattenFrame) (cache : FlattenCache) : Prop :=
  ∃ r, Yields (fun fuel => flattenFrames unique expandable root fuel stack cache) r

/-- The frame of a nonterminal is worked off above every frame that finishes with its output. -/
def WorkedOff (unique : NonterminalID → Option (List GrammarSymbol)) (expandable : Finset NonterminalID)
    (root : List GrammarSymbol) (nt : NonterminalID) : Prop :=
  ∀ expanded, unique nt = some expanded → ∀ parent stack cache,
    (∀ output cache', Finishes unique expandable root (parent.append output :: stack) cache') →
      Finishes unique expandable root (⟨some nt, expanded, 0, []⟩ :: parent :: stack) cache

theorem readSymbol_inr {length : ℕ} {cache : FlattenCache} {s : GrammarSymbol}
    {r : NonterminalID × List GrammarSymbol}
    (h : readSymbol unique expandable length cache s = .inr r) :
    s = .nonterminal r.1 ∧ r.1 ∈ expandable ∧ unique r.1 = some r.2 := by
  cases s with
  | terminal t => cases h
  | nonterminal nt =>
      rw [readSymbol] at h
      by_cases hexp : nt ∈ expandable
      · rw [if_pos hexp] at h
        cases hc : cache nt with
        | none =>
            cases hunique : unique nt with
            | none =>
                simp only [hc, hunique] at h
                cases h
            | some expanded =>
                simp only [hc, hunique] at h
                obtain rfl := Sum.inr.inj h
                exact ⟨rfl, hexp, hunique⟩
        | some entry =>
            cases entry with
            | none =>
                simp only [hc] at h
                cases h
            | some flattened =>
                simp only [hc] at h
                split_ifs at h
      · rw [if_neg hexp] at h
        cases h

/-- A frame is worked off symbol by symbol. -/
theorem Finishes.frame {frame : FlattenFrame} {stack : List FlattenFrame} {cache : FlattenCache}
    (hposition : frame.position ≤ frame.rhs.length)
    (hchildren : ∀ nt ∈ nonterminals frame.rhs, nt ∈ expandable → WorkedOff unique expandable root nt)
    (hcomplete : ∀ frame' cache', frame'.owner = frame.owner →
      (maxFlattenedRhsLen < frame'.output.length ∨ frame'.position = frame'.rhs.length) →
        Finishes unique expandable root (frame' :: stack) cache') :
    Finishes unique expandable root (frame :: stack) cache := by
  obtain ⟨left, hleft⟩ : ∃ left, frame.rhs.length = frame.position + left :=
    Nat.exists_eq_add_of_le hposition
  induction left generalizing frame cache with
  | zero => exact hcomplete frame cache rfl (Or.inr hleft.symm)
  | succ left ih =>
      by_cases hdone : maxFlattenedRhsLen < frame.output.length ∨ frame.position = frame.rhs.length
      · exact hcomplete frame cache rfl hdone
      · have hlt : frame.position < frame.rhs.length := by omega
        -- The frame with one more symbol written out.
        have hnext : ∀ output cache',
            Finishes unique expandable root (frame.advance.append output :: stack) cache' := by
          intro output cache'
          apply ih
          · exact hlt
          · exact hchildren
          · exact hcomplete
          · change frame.rhs.length = frame.position + 1 + left
            omega
        have hget : frame.rhs[frame.position]? = some (frame.rhs[frame.position]) :=
          List.getElem?_eq_getElem hlt
        cases hread : readSymbol unique expandable frame.output.length cache frame.rhs[frame.position] with
        | inl symbols =>
            obtain ⟨r, hr⟩ := hnext symbols cache
            refine ⟨r, hr.succ fun fuel => ?_⟩
            rw [flattenFrames, if_neg hdone]
            simp only [hget, hread]
        | inr r =>
            obtain ⟨hs, hexp, hunique⟩ := readSymbol_inr hread
            have hmem : r.1 ∈ nonterminals frame.rhs :=
              mem_nonterminals.mpr (hs ▸ List.getElem_mem hlt)
            obtain ⟨result, hresult⟩ := hchildren r.1 hmem hexp r.2 hunique frame.advance stack cache hnext
            refine ⟨result, hresult.succ fun fuel => ?_⟩
            rw [flattenFrames, if_neg hdone]
            simp only [hget, hread]

/-- What the clauses derive is worked off, by induction on the derivation. -/
theorem workedOff {rules : List Rule} {nt : NonterminalID} (h : Derives (uniqueClauses rules) nt) :
    WorkedOff (uniqueRhs rules) expandable root nt := by
  induction h with
  | @apply clause hclause _ ih =>
      obtain ⟨nt, -, hrhs⟩ := List.mem_filterMap.mp hclause
      obtain ⟨rhs, hunique, rfl⟩ := Option.map_eq_some_iff.mp hrhs
      intro expanded hexpanded parent stack cache hparent
      obtain rfl : rhs = expanded := Option.some.inj (hunique.symm.trans hexpanded)
      apply Finishes.frame
      · exact Nat.zero_le _
      · intro child hchild _ expanded hunique'
        have hpremise : child ∈ (nonterminals rhs).filter fun child => (uniqueRhs rules child).isSome :=
          List.mem_filter.mpr ⟨hchild, by rw [hunique', Option.isSome_some]⟩
        exact ih child hpremise expanded hunique'
      · intro frame' cache' howner hcomplete
        obtain ⟨r, hr⟩ := hparent _ _
        refine ⟨r, hr.succ fun fuel => ?_⟩
        rw [flattenFrames, if_pos hcomplete]
        simp only [howner]
        rfl

theorem flattenForDedup_yields (rules : List Rule) (rhs : List GrammarSymbol) (cache : FlattenCache) :
    ∃ r, Yields (fun fuel => flattenForDedup (uniqueRhs rules) (derivable (uniqueClauses rules)) fuel
      rhs cache) r := by
  change Finishes (uniqueRhs rules) (derivable (uniqueClauses rules)) rhs [⟨none, rhs, 0, []⟩] cache
  apply Finishes.frame
  · exact Nat.zero_le _
  · intro nt _ hexp
    exact workedOff ((mem_derivable nt).mp hexp)
  · intro frame' cache' howner hcomplete
    refine ⟨((if maxFlattenedRhsLen < frame'.output.length then none else some frame'.output).getD rhs,
      cache'), 1, fun fuel hfuel => ?_⟩
    obtain ⟨fuel, rfl⟩ := Nat.exists_eq_add_of_le' hfuel
    beta_reduce
    rw [flattenFrames, if_pos hcomplete]
    simp only [howner]

theorem dedupRule_yields (rules : List Rule) (s : Deduping) (rule : Rule) :
    ∃ s', Yields (fun fuel => dedupRule rules (derivable (uniqueClauses rules))
      (flattenForDedup (uniqueRhs rules) (derivable (uniqueClauses rules)) fuel) s rule) s' := by
  unfold dedupRule
  by_cases hone : rules.countP (·.lhs = rule.lhs) = 1
  · simp only [if_pos hone]
    exact ⟨_, Yields.const _⟩
  · simp only [if_neg hone]
    by_cases hany : ((nonterminals rule.rhs).any (· ∈ derivable (uniqueClauses rules))) = true
    · simp only [if_pos hany]
      obtain ⟨r, hr⟩ := flattenForDedup_yields rules rule.rhs s.cache
      exact ⟨_, hr.map _⟩
    · simp only [if_neg hany]
      exact ⟨_, Yields.const _⟩

theorem dedupEdit_yields (rules : List Rule) : ∃ out, Yields (dedupEdit rules) out := by
  obtain ⟨s, hs, -⟩ := foldlM_yields (σ := Deduping) (l := rules) (P := fun _ _ => True) []
    (s := ⟨[], [], fun _ => none⟩) trivial fun _ rule s _ _ =>
      (dedupRule_yields rules s rule).imp fun _ hs => ⟨hs, trivial⟩
  exact ⟨s.kept, hs.map Deduping.kept⟩

/-- Removing duplicates ends. It keeps a rule of every nonterminal that has one, and the words of
all nonterminals. -/
theorem dedupEdit_derived (rules : List Rule) : ∃ out, Yields (dedupEdit rules) out ∧
    out.Sublist rules ∧ (∀ rule ∈ rules, ∃ rule' ∈ out, rule'.lhs = rule.lhs) ∧
      ∀ nt, derived out nt = derived rules nt := by
  obtain ⟨out, enough, hout⟩ := dedupEdit_yields rules
  have h := dedupEdit_spec enough out (hout enough le_rfl)
  refine ⟨out, ⟨enough, hout⟩, h.kept, h.heads, fun nt => ?_⟩
  rw [derived_eq_words, derived_eq_words, h.words]

end Termination

end Dedup

end Grammar

end GlrMask
