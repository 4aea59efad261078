import GlrMask.ContextFree

/-!
# Grammar rules

The flat rules of a grammar, and the words that a nonterminal derives by them.
-/

namespace GlrMask

namespace Grammar

open ContextFree

abbrev TerminalID := ℕ

abbrev NonterminalID := ℕ

abbrev GrammarSymbol := Symbol TerminalID NonterminalID

structure Rule where
  lhs : NonterminalID
  rhs : List GrammarSymbol
deriving DecidableEq

/-- The order of the variants: a terminal comes before every nonterminal. -/
def symbolKey : GrammarSymbol → ℕ ⊕ₗ ℕ
  | .terminal t => toLex (Sum.inl t)
  | .nonterminal nt => toLex (Sum.inr nt)

theorem symbolKey_injective : Function.Injective symbolKey := by
  intro s s' h
  cases s <;> cases s' <;> simp_all [symbolKey]

instance : LinearOrder GrammarSymbol := LinearOrder.lift' symbolKey symbolKey_injective

/-- The grammar with the rules and an initial nonterminal. -/
def toGrammar (rules : List Rule) (nt : NonterminalID) : ContextFreeGrammar TerminalID where
  NT := NonterminalID
  initial := nt
  rules := (rules.map fun rule => ⟨rule.lhs, rule.rhs⟩).toFinset

/-- The terminal words that the nonterminal derives. -/
def derived (rules : List Rule) (nt : NonterminalID) : Language TerminalID :=
  (toGrammar rules nt).language

def Produces (rules : List Rule) : Productions TerminalID NonterminalID := fun nt rhs =>
  ⟨nt, rhs⟩ ∈ rules

theorem productions_toGrammar (rules : List Rule) (nt : NonterminalID) :
    productions (toGrammar rules nt) = Produces rules := by
  funext A α
  apply propext
  change (⟨A, α⟩ : ContextFreeRule TerminalID NonterminalID) ∈
    (rules.map fun rule => (⟨rule.lhs, rule.rhs⟩ : ContextFreeRule _ _)).toFinset ↔ _
  rw [List.mem_toFinset, List.mem_map]
  constructor
  · intro h
    obtain ⟨rule, hrule, he⟩ := h
    cases he
    exact hrule
  · intro h
    exact ⟨⟨A, α⟩, h, rfl⟩

theorem derived_eq_words (rules : List Rule) (nt : NonterminalID) :
    derived rules nt = words (Produces rules) nt := by
  rw [← productions_toGrammar rules nt]
  exact language_eq_words _

def nonterminals : List GrammarSymbol → List NonterminalID :=
  List.filterMap fun
    | .terminal _ => none
    | .nonterminal nt => some nt

/-- The ids that occur in the rules. -/
def occurring (rules : List Rule) : List NonterminalID :=
  rules.flatMap fun rule => rule.lhs :: nonterminals rule.rhs

def maxNtId (rules : List Rule) : NonterminalID := (occurring rules).max?.getD 0

/-- The next 32-bit id, if there is one. -/
def checkedNext (nt : NonterminalID) : Option NonterminalID :=
  if nt < 2 ^ 32 - 1 then some (nt + 1) else none

theorem mem_nonterminals {rhs : List GrammarSymbol} {nt : NonterminalID} :
    nt ∈ nonterminals rhs ↔ .nonterminal nt ∈ rhs := by
  induction rhs with
  | nil => simp [nonterminals]
  | cons s rhs ih => cases s <;> simp_all [nonterminals]

theorem le_maxNtId {rules : List Rule} {nt : NonterminalID} (h : nt ∈ occurring rules) :
    nt ≤ maxNtId rules := by
  unfold maxNtId
  cases hmax : (occurring rules).max? with
  | none => rw [List.max?_eq_none_iff.mp hmax] at h; cases h
  | some m => exact (List.max?_eq_some_iff.mp hmax).2 nt h

theorem lhs_le_maxNtId {rules : List Rule} {rule : Rule} (h : rule ∈ rules) :
    rule.lhs ≤ maxNtId rules :=
  le_maxNtId (List.mem_flatMap.mpr ⟨rule, h, List.mem_cons_self⟩)

theorem nonterminal_le_maxNtId {rules : List Rule} {rule : Rule} (h : rule ∈ rules)
    {nt : NonterminalID} (hnt : .nonterminal nt ∈ rule.rhs) : nt ≤ maxNtId rules :=
  le_maxNtId (List.mem_flatMap.mpr
    ⟨rule, h, List.mem_cons_of_mem _ (mem_nonterminals.mpr hnt)⟩)

theorem checkedNext_eq_some {nt next : NonterminalID} (h : checkedNext nt = some next) :
    next = nt + 1 := by
  unfold checkedNext at h
  split_ifs at h
  exact (Option.some.inj h).symm

end Grammar

end GlrMask
