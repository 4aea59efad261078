import GlrMask.CondensationDepths
import GlrMask.Interning
import GlrMask.SingleProductions
import GlrMask.SortedMap
import GlrMask.UnstableSort

/-!
# Merging identical nonterminals

Nonterminals are put into classes by the signatures of their written-out productions, in
which a nonterminal is replaced by its class. The classes are refined until nothing
changes, and then every class is merged into one of its nonterminals.
-/

namespace GlrMask

namespace MergeIdentical

open Grammar ContextFree

/-- What is hashed of a symbol: its kind, and its id or its class. -/
inductive Token (D : Type*)
  | terminal (t : TerminalID)
  | classOf (c : D)
  | other (nt : NonterminalID)

/-- The values that stand for classes: numbers, two constants, and signatures. -/
structure Digests (D : Type*) where
  selfSentinel : D
  genericNt : D
  ofNumber : ℕ → D
  signature : Multiset (List (Token D)) → D

/-- Signatures tell apart what they are computed from, and are no other values. -/
structure Digests.Injective {D : Type*} (H : Digests D) : Prop where
  signature : Function.Injective H.signature
  ofNumber : Function.Injective H.ofNumber
  signature_ne_number : ∀ s n, H.signature s ≠ H.ofNumber n
  signature_ne_self : ∀ s, H.signature s ≠ H.selfSentinel
  number_ne_self : ∀ n, H.ofNumber n ≠ H.selfSentinel
  generic_ne_self : H.genericNt ≠ H.selfSentinel

/-! ## Productions -/

def buildRhsByLhs (rules : List Rule) : SortedMap NonterminalID (Finset (List GrammarSymbol)) :=
  rules.foldl (fun m rule => m.insert rule.lhs (insert rule.rhs ((m.get rule.lhs).getD ∅)))
    SortedMap.empty

section Productions

variable (rhsByLhs : SortedMap NonterminalID (Finset (List GrammarSymbol)))

def rhssOf (nt : NonterminalID) : List (List GrammarSymbol) :=
  ((rhsByLhs.get nt).getD ∅).sort (· ≤ ·)

/-- The right-hand side of a nonterminal with only one. -/
def uniqueRhs (nt : NonterminalID) : Option (List GrammarSymbol) :=
  match rhssOf rhsByLhs nt with
  | [rhs] => some rhs
  | _ => none

def uniqueKeys : List NonterminalID := rhsByLhs.keys.filter fun nt => (uniqueRhs rhsByLhs nt).isSome

end Productions

/-- Compute with a cache for every element. -/
def mapCached {α β γ : Type*} (f : α → γ → Option (β × γ)) : List α → γ → Option (List β × γ)
  | [], cache => some ([], cache)
  | a :: l, cache => (f a cache).bind fun r => (mapCached f l r.2).map fun r' => (r.1 :: r'.1, r'.2)

/-- The written-out right-hand sides of all nonterminals. -/
def flattenedRhss (rhsByLhs : SortedMap NonterminalID (Finset (List GrammarSymbol)))
    (fuel : ℕ) : Option (List (List (List GrammarSymbol))) :=
  (computeExpandable (uniqueRhs rhsByLhs) (uniqueKeys rhsByLhs) fuel).bind fun expandable =>
    (mapCached (fun nt => mapCached
      (flattenRhsSymbols (uniqueRhs rhsByLhs) expandable fuel) (rhssOf rhsByLhs nt))
      rhsByLhs.keys (fun _ => none)).map Prod.fst

/-! ## Classes -/

section Classes

variable {D : Type*} (H : Digests D) (nts : List NonterminalID)
  (flattened : List (List (List GrammarSymbol)))

def ntToIdx (nt : NonterminalID) : Option (Fin nts.length) :=
  if h : nt ∈ nts then some ⟨nts.idxOf nt, List.idxOf_lt_length_iff.mpr h⟩ else none

def token (nt : NonterminalID) (classOf : Fin nts.length → D) : GrammarSymbol → Token D
  | .terminal t => .terminal t
  | .nonterminal nt' =>
      if nt' = nt then .classOf H.selfSentinel
      else
        match ntToIdx nts nt' with
        | some i => .classOf (classOf i)
        | none => .other nt'

def hashNt (classOf : Fin nts.length → D) (i : Fin nts.length) : D :=
  H.signature (Multiset.ofList
    ((flattened.getD i []).map (List.map (token H nts (nts.get i) classOf))))

/-- The token of a symbol when every nonterminal is in a class of its own. -/
def realToken (nt : NonterminalID) : GrammarSymbol → Token D
  | .terminal t => .terminal t
  | .nonterminal nt' => if nt' = nt then .classOf H.selfSentinel else .other nt'

def realClass (i : Fin nts.length) : D :=
  H.signature (Multiset.ofList ((flattened.getD i []).map (List.map (realToken H (nts.get i)))))

/-- The classes by first appearance, and their number. -/
def normaliseCounted [DecidableEq D] (raw : List D) : List ℕ × ℕ :=
  (Interning.numbers raw, (Interning.tableFrom [] raw).length)

/-- The pass over the nonterminals, with the raw signatures and the classes in place. -/
def refinePass (order : List (Fin nts.length)) (classOf : Fin nts.length → D) :
    (Fin nts.length → D) × (Fin nts.length → D) :=
  order.foldl (fun acc i =>
    (Function.update acc.1 i (hashNt H nts flattened acc.2 i),
      Function.update acc.2 i (hashNt H nts flattened acc.2 i)))
    (fun _ => H.ofNumber 0, classOf)

def refineRound [DecidableEq D] (order : List (Fin nts.length)) (classes : List ℕ) : List ℕ × ℕ :=
  normaliseCounted (List.ofFn (refinePass H nts flattened order fun i =>
    H.ofNumber (classes.getD i 0)).1)

/-- Refine until nothing changes; there are no classes when every nonterminal is in its own. -/
def refineLoop [DecidableEq D] (order : List (Fin nts.length)) :
    ℕ → List ℕ → Option (Option (List ℕ))
  | 0, _ => none
  | fuel + 1, classes =>
      let new := refineRound H nts flattened order classes
      if new.1 = classes then some (some new.1)
      else if new.2 = nts.length then some none
      else refineLoop order fuel new.1

/-- The other nonterminals that the productions of a nonterminal refer to. -/
def refsOf (rhsByLhs : SortedMap NonterminalID (Finset (List GrammarSymbol)))
    (i : Fin nts.length) : List (Fin nts.length) :=
  (rhssOf rhsByLhs (nts.get i)).flatMap fun rhs => rhs.filterMap fun
    | .terminal _ => none
    | .nonterminal nt => if nt = nts.get i then none else ntToIdx nts nt

def processingOrder (S : UnstableSort)
    (rhsByLhs : SortedMap NonterminalID (Finset (List GrammarSymbol))) : List (Fin nts.length) :=
  S.sort (CondensationDepths.depth (refsOf nts rhsByLhs)) (List.finRange nts.length)

end Classes

/-! ## Merging -/

/-- The nonterminal that stands for a class: the start, or else the first one. -/
def classToRep (nts : List NonterminalID) (classes : List ℕ) (start : NonterminalID) :
    SortedMap ℕ NonterminalID :=
  (nts.zip classes).foldl (fun m e =>
    m.insert e.2 (if e.1 = start then start else (m.get e.2).getD e.1)) SortedMap.empty

def mergeMap (nts : List NonterminalID) (classes : List ℕ) (start : NonterminalID) :
    SortedMap NonterminalID NonterminalID :=
  (nts.zip classes).foldl (fun m e =>
    match (classToRep nts classes start).get e.2 with
    | none => m
    | some rep => if e.1 ≠ rep then m.insert e.1 rep else m) SortedMap.empty

def applyMerge (m : SortedMap NonterminalID NonterminalID) (nt : NonterminalID) : NonterminalID :=
  (m.get nt).getD nt

def mergeSymbol (m : SortedMap NonterminalID NonterminalID) : GrammarSymbol → GrammarSymbol
  | .terminal t => .terminal t
  | .nonterminal nt => .nonterminal (applyMerge m nt)

def mergeRule (m : SortedMap NonterminalID NonterminalID) (rule : Rule) : Rule :=
  ⟨applyMerge m rule.lhs, rule.rhs.map (mergeSymbol m)⟩

def isReflexiveUnitRule (rule : Rule) : Bool := rule.rhs = [.nonterminal rule.lhs]

def mergeRules (m : SortedMap NonterminalID NonterminalID) (rules : List Rule) : List Rule :=
  rules.foldl (fun result rule =>
    let merged := mergeRule m rule
    if isReflexiveUnitRule merged then result
    else if merged ∈ result then result
    else result ++ [merged]) []

section Run

variable {D : Type*} [DecidableEq D] (H : Digests D) (S : UnstableSort)

/-- The stable classes, unless no two nonterminals can be merged. -/
def finalClasses (rhsByLhs : SortedMap NonterminalID (Finset (List GrammarSymbol)))
    (flattened : List (List (List GrammarSymbol))) (fuel : ℕ) : Option (Option (List ℕ)) :=
  let nts := rhsByLhs.keys
  if (List.ofFn (realClass H nts flattened)).Nodup then some none
  else
    let initial := normaliseCounted (List.ofFn (hashNt H nts flattened fun _ => H.genericNt))
    if initial.2 = nts.length then some none
    else refineLoop H nts flattened (processingOrder nts S rhsByLhs) fuel initial.1

def mergeIdenticalNonterminals (rules : List Rule) (start : NonterminalID) (fuel : ℕ) :
    Option (List Rule) :=
  let rhsByLhs := buildRhsByLhs rules
  if rhsByLhs.keys.length ≤ 1 then some rules
  else
    (flattenedRhss rhsByLhs fuel).bind fun flattened =>
      (finalClasses H S rhsByLhs flattened fuel).map fun
        | none => rules
        | some classes =>
            let m := mergeMap rhsByLhs.keys classes start
            if m.entries = [] then rules else mergeRules m rules

end Run

end MergeIdentical

end GlrMask
