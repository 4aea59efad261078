import GlrMask.DedupRules
import GlrMask.Nullability
import GlrMask.SortedMap

/-!
# Runs of nullable symbols

A run of nullable symbols in a right-hand side is replaced by one new nonterminal, which is
empty or has a tree for the words of the run that are not empty. In the tree every symbol has
been replaced by a nonterminal for its words that are not empty. These nonterminals are shared
through a cache, which they enter before they have rules, since they may call each other.
-/

namespace GlrMask

namespace Grammar

open ContextFree Dedup

namespace NullableRuns

def isNullable (nullable : Finset NonterminalID) : GrammarSymbol → Bool
  | .terminal _ => false
  | .nonterminal nt => nt ∈ nullable

def closeRun (threshold idx : ℕ) : Option ℕ → List (ℕ × ℕ)
  | none => []
  | some start => if threshold < idx - start then [(start, idx - 1)] else []

def runsFrom (nullable : Finset NonterminalID) (threshold : ℕ) :
    ℕ → Option ℕ → List GrammarSymbol → List (ℕ × ℕ)
  | idx, run, [] => closeRun threshold idx run
  | idx, run, s :: rest =>
      if isNullable nullable s then runsFrom nullable threshold (idx + 1) (some (run.getD idx)) rest
      else closeRun threshold idx run ++ runsFrom nullable threshold (idx + 1) none rest

/-- The first and last positions of the runs that are longer than the threshold. -/
def findNullableRuns (rhs : List GrammarSymbol) (nullable : Finset NonterminalID) (threshold : ℕ) :
    List (ℕ × ℕ) :=
  runsFrom nullable threshold 0 none rhs

structure Building where
  next : NonterminalID
  rules : List Rule
  cache : SortedMap NonterminalID NonterminalID

namespace Building

def fresh (s : Building) : Option (NonterminalID × Building) :=
  (checkedNext s.next).map fun next => (s.next, { s with next := next })

def emit (s : Building) (rules : List Rule) : Building := { s with rules := s.rules ++ rules }

end Building

section Definitions

variable (nullable nonemptyProductive : Finset NonterminalID)
  (byLhs : NonterminalID → List (List GrammarSymbol))

/-- A function that builds a tree for a segment. -/
abbrev Builder := List GrammarSymbol → Building → Option (Option NonterminalID × Building)

/-- The flag tells whether some rule was emitted. -/
def emitAlternative (build : Builder) (id : NonterminalID) (r : Bool × Building)
    (rhs : List GrammarSymbol) : Option (Bool × Building) :=
  if rhs = [] then some r
  else if rhs.any (!isNullable nullable ·) then some (true, r.2.emit [⟨id, rhs⟩])
  else
    (build rhs r.2).map fun built =>
      match built.1 with
      | none => (r.1, built.2)
      | some root => (true, built.2.emit [⟨id, [.nonterminal root]⟩])

def getOrCreateNonNullableNt (build : Builder) (nt : NonterminalID) (s : Building) :
    Option (Option NonterminalID × Building) :=
  if nt ∉ nullable then some (some nt, s)
  else if nt ∉ nonemptyProductive then some (none, s)
  else
    match s.cache.get nt with
    | some cached => some (some cached, s)
    | none =>
        if byLhs nt = [] then some (none, s)
        else
          s.fresh.bind fun r =>
            ((byLhs nt).foldlM (emitAlternative nullable build r.1)
              (false, { r.2 with cache := r.2.cache.insert nt r.1 })).map fun e =>
                if e.1 then (some r.1, e.2) else (none, { e.2 with cache := e.2.cache.remove nt })

/-- Replace nullable symbols by nonterminals for their words that are not empty. -/
def segmentSymbols (build : Builder) :
    List GrammarSymbol → Building → Option (List GrammarSymbol × Building)
  | [], s => some ([], s)
  | .terminal t :: rest, s => (segmentSymbols build rest s).map fun r => (.terminal t :: r.1, r.2)
  | .nonterminal nt :: rest, s =>
      if nt ∉ nullable then
        (segmentSymbols build rest s).map fun r => (.nonterminal nt :: r.1, r.2)
      else if nt ∈ nonemptyProductive then
        (getOrCreateNonNullableNt nullable nonemptyProductive byLhs build nt s).bind fun r =>
          (segmentSymbols build rest r.2).map fun r' =>
            (match r.1 with
              | some id => .nonterminal id :: r'.1
              | none => r'.1, r'.2)
      else segmentSymbols build rest s

/-- A nonterminal for all nonempty subsequences. -/
def leafTree (symbols : List GrammarSymbol) (s : Building) : Option (NonterminalID × Building) :=
  s.fresh.map fun r => (r.1, r.2.emit
    ((List.range' 1 (2 ^ symbols.length - 1)).map fun mask => ⟨r.1, selectBits mask symbols⟩))

/-- A tree of the trees for the first symbol and for the others. -/
def chunkTree (build : Builder) (first : GrammarSymbol) (rest : List GrammarSymbol) (s : Building) :
    Option (Option NonterminalID × Building) :=
  (build [first] s).bind fun left =>
    (build rest left.2).bind fun right =>
      match left.1, right.1 with
      | some first_nt, some rest_nt => build [.nonterminal first_nt, .nonterminal rest_nt] right.2
      | _, _ => none

/-- A tree for the words of a segment of optional symbols that are not empty. -/
def buildNonNullableTree : ℕ → Builder
  | 0, _, _ => none
  | fuel + 1, segment, s =>
      if segment = [] then some (none, s)
      else
        (segmentSymbols nullable nonemptyProductive byLhs (buildNonNullableTree fuel) segment s).bind
          fun r =>
            match r.1 with
            | [] => some (none, r.2)
            | first :: rest =>
                if (first :: rest).length ≤ 2 then
                  (leafTree (first :: rest) r.2).map fun leaf => (some leaf.1, leaf.2)
                else chunkTree (buildNonNullableTree fuel) first rest r.2

/-- Replace the symbols between two positions. -/
def replaceRun (build : Builder) (r : List GrammarSymbol × Building) (run : ℕ × ℕ) :
    Option (List GrammarSymbol × Building) :=
  (build ((r.1.take (run.2 + 1)).drop run.1) r.2).bind fun built =>
    match built.1 with
    | none => some (r.1.take run.1 ++ r.1.drop (run.2 + 1), built.2)
    | some root =>
        built.2.fresh.map fun f =>
          (r.1.take run.1 ++ .nonterminal f.1 :: r.1.drop (run.2 + 1),
            f.2.emit [⟨f.1, [.nonterminal root]⟩, ⟨f.1, []⟩])

def compressRule (build : Builder) (s : Building) (rule : Rule) : Option Building :=
  if findNullableRuns rule.rhs nullable 1 = [] then some (s.emit [rule])
  else
    ((findNullableRuns rule.rhs nullable 1).reverse.foldlM (replaceRun build) (rule.rhs, s)).map fun r =>
      r.2.emit [⟨rule.lhs, r.1⟩]

end Definitions

def alternativesOf (rules : List Rule) (nt : NonterminalID) : List (List GrammarSymbol) :=
  (rules.filter (·.lhs = nt)).map Rule.rhs

def compressNullableRunsWithOptionalTree (rules : List Rule) (num_nt fuel : ℕ) : Option (List Rule) :=
  if computeNullable rules num_nt = ∅ then some rules
  else if rules.all fun rule => findNullableRuns rule.rhs (computeNullable rules num_nt) 1 = [] then
    some rules
  else
    (checkedNext (maxNtId rules)).bind fun next =>
      (rules.foldlM (compressRule (computeNullable rules num_nt)
        (buildNonNullableTree (computeNullable rules num_nt) (computeNonemptyProductive rules num_nt)
          (alternativesOf rules) fuel)) ⟨next, [], SortedMap.empty⟩).bind fun s =>
            dedupRules s.rules fuel

/-! ## Runs -/

section Runs

variable {nullable : Finset NonterminalID} {threshold : ℕ}

/-- The symbols between the positions are nullable. -/
def NullableRun (nullable : Finset NonterminalID) (rhs : List GrammarSymbol) (run : ℕ × ℕ) : Prop :=
  run.1 ≤ run.2 ∧ run.2 < rhs.length ∧
    ∀ i, run.1 ≤ i → i ≤ run.2 → ∀ s, rhs[i]? = some s → isNullable nullable s = true

/-- The open run reaches up to the index. -/
def OpenRun (nullable : Finset NonterminalID) (rhs : List GrammarSymbol) (idx : ℕ) (run : Option ℕ) :
    Prop :=
  ∀ start, run = some start → start < idx ∧
    ∀ i, start ≤ i → i < idx → ∀ s, rhs[i]? = some s → isNullable nullable s = true

theorem closeRun_pairwise (threshold idx : ℕ) (run : Option ℕ) :
    (closeRun threshold idx run).Pairwise fun r r' => r.2 < r'.1 := by
  cases run with
  | none => exact List.Pairwise.nil
  | some start =>
      rw [closeRun]
      split_ifs
      · exact List.pairwise_singleton _ _
      · exact List.Pairwise.nil

theorem closeRun_spec (threshold : ℕ) {rhs : List GrammarSymbol} {idx : ℕ} {run : Option ℕ} (hidx : idx ≤ rhs.length)
    (hrun : OpenRun nullable rhs idx run) :
    ∀ r ∈ closeRun threshold idx run, NullableRun nullable rhs r ∧ run = some r.1 ∧ r.2 < idx := by
  intro r hr
  cases run with
  | none => cases hr
  | some start =>
      rw [closeRun] at hr
      split_ifs at hr
      · obtain ⟨hlt, hall⟩ := hrun start rfl
        obtain rfl := List.mem_singleton.mp hr
        refine ⟨⟨by dsimp only; omega, by dsimp only; omega, ?_⟩, rfl, by dsimp only; omega⟩
        intro i hle hle' s hs
        exact hall i hle (by dsimp only at hle'; omega) s hs
      · cases hr

theorem runsFrom_spec (threshold : ℕ) {rhs rest : List GrammarSymbol} {idx : ℕ} {run : Option ℕ}
    (hrest : rhs.drop idx = rest) (hidx : idx ≤ rhs.length) (hrun : OpenRun nullable rhs idx run) :
    (runsFrom nullable threshold idx run rest).Pairwise (fun r r' => r.2 < r'.1) ∧
      ∀ r ∈ runsFrom nullable threshold idx run rest, NullableRun nullable rhs r ∧ run.getD idx ≤ r.1 := by
  induction rest generalizing idx run with
  | nil =>
      refine ⟨closeRun_pairwise threshold idx run, ?_⟩
      intro r hr
      obtain ⟨hnullable, he, -⟩ := closeRun_spec threshold hidx hrun r hr
      refine ⟨hnullable, ?_⟩
      rw [he, Option.getD_some]
  | cons s rest ih =>
      have hget : rhs[idx]? = some s := by
        rw [← List.head?_drop, hrest, List.head?_cons]
      have hlt : idx < rhs.length := (List.getElem?_eq_some_iff.mp hget).1
      have hnext : rhs.drop (idx + 1) = rest := by
        rw [← List.tail_drop, hrest, List.tail_cons]
      unfold runsFrom
      split_ifs with hs
      · have hopen : OpenRun nullable rhs (idx + 1) (some (run.getD idx)) := by
          intro start he
          cases he
          cases run with
          | none =>
              refine ⟨Nat.lt_succ_self _, ?_⟩
              intro i hle hlt' s' hs'
              obtain rfl : i = idx := by
                dsimp only [Option.getD_none] at hle
                omega
              rw [hget] at hs'
              rwa [← Option.some.inj hs']
          | some start =>
              obtain ⟨hstart, hall⟩ := hrun start rfl
              refine ⟨by dsimp only [Option.getD_some]; omega, ?_⟩
              intro i hle hlt' s' hs'
              by_cases hi : i = idx
              · rw [hi, hget] at hs'
                rwa [← Option.some.inj hs']
              · exact hall i hle (by omega) s' hs'
        exact ih hnext hlt hopen
      · have hopen : OpenRun nullable rhs (idx + 1) none := fun start he => by cases he
        obtain ⟨hpairwise, hruns⟩ := ih hnext hlt hopen
        have hclose := closeRun_spec threshold hidx hrun
        refine ⟨?_, ?_⟩
        · rw [List.pairwise_append]
          refine ⟨closeRun_pairwise threshold idx run, hpairwise, ?_⟩
          intro r hr r' hr'
          have hfirst := (hclose r hr).2.2
          have hsecond : idx + 1 ≤ r'.1 := (hruns r' hr').2
          omega
        · intro r hr
          obtain hr | hr := List.mem_append.mp hr
          · obtain ⟨hnullable, he, -⟩ := hclose r hr
            refine ⟨hnullable, ?_⟩
            rw [he, Option.getD_some]
          · obtain ⟨hnullable, hle⟩ := hruns r hr
            refine ⟨hnullable, ?_⟩
            cases run with
            | none =>
                dsimp only [Option.getD_none] at hle ⊢
                omega
            | some start =>
                have hstart := (hrun start rfl).1
                dsimp only [Option.getD_none, Option.getD_some] at hle ⊢
                omega

theorem findNullableRuns_spec (rhs : List GrammarSymbol) (nullable : Finset NonterminalID)
    (threshold : ℕ) :
    (findNullableRuns rhs nullable threshold).Pairwise (fun r r' => r.2 < r'.1) ∧
      ∀ r ∈ findNullableRuns rhs nullable threshold, NullableRun nullable rhs r := by
  have hopen : OpenRun nullable rhs 0 none := fun start he => by cases he
  obtain ⟨hpairwise, hruns⟩ := runsFrom_spec threshold (List.drop_zero ..)
    (Nat.zero_le _) hopen
  exact ⟨hpairwise, fun r hr => (hruns r hr).1⟩

end Runs

end NullableRuns

end Grammar

end GlrMask
