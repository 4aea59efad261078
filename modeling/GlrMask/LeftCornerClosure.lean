import GlrMask.ContextFreeComparison
import GlrMask.Fuel
import GlrMask.GrammarRules
import GlrMask.SortedMap

/-!
# Repairing a left-corner component

In a component of nonterminals that lead to each other at the left end, the nonterminals are
taken in an order, and every right-hand side that starts with an earlier one is rewritten by
the finished right-hand sides of that one. The loops of a nonterminal become a new
nonterminal for their tails, which repeats itself at its own left end.
-/

namespace GlrMask

namespace Grammar

open ContextFree

/-- `sort_unstable` and `dedup`. -/
def sortedRows (rhss : List (List GrammarSymbol)) : List (List GrammarSymbol) :=
  (rhss.insertionSort (· ≤ ·)).dedup

def startsWith (head : NonterminalID) (rhs : List GrammarSymbol) : Bool :=
  rhs.head? = some (.nonterminal head)

/-- The nonterminals at the left end, through nullable ones. -/
def leadingHeads (nullable : Finset NonterminalID) : List GrammarSymbol → List NonterminalID
  | [] => []
  | .terminal _ :: _ => []
  | .nonterminal head :: rest => head :: if head ∈ nullable then leadingHeads nullable rest else []

namespace LeftCornerClosure

section Definitions

variable (rules : List Rule) (component nullable : Finset NonterminalID)

/-- The members of the component at the left ends of a nonterminal. -/
def innerTargets (lhs : NonterminalID) : Finset NonterminalID :=
  ((rules.filter (·.lhs = lhs)).flatMap fun rule => leadingHeads nullable rule.rhs).toFinset ∩
    component

def needsClosure : Bool :=
  ∃ lhs ∈ component, lhs ∈ innerTargets rules component nullable lhs ∨
    1 < (innerTargets rules component nullable lhs).card

/-- The rows of a component while its members are processed. -/
structure Repairing where
  rows : SortedMap NonterminalID (List (List GrammarSymbol))
  closures : SortedMap NonterminalID NonterminalID
  helpers : SortedMap NonterminalID (List (List GrammarSymbol))
  next : NonterminalID

def startRows : SortedMap NonterminalID (List (List GrammarSymbol)) :=
  ((rules.filter (·.lhs ∈ component)).foldl (fun rows rule =>
    rows.insert rule.lhs ((rows.get rule.lhs).getD [] ++ [rule.rhs])) SortedMap.empty).mapValues
      sortedRows

/-- The tails of the right-hand sides that start with the nonterminal itself. -/
def loopsOf (head : NonterminalID) (alternatives : List (List GrammarSymbol)) :
    List (List GrammarSymbol) :=
  ((alternatives.filter (startsWith head)).map List.tail).filter (· ≠ [])

def exitsOf (head : NonterminalID) (alternatives : List (List GrammarSymbol)) :
    List (List GrammarSymbol) :=
  alternatives.filter (!startsWith head ·)

def generated (id : NonterminalID) (loops : List (List GrammarSymbol)) : List (List GrammarSymbol) :=
  sortedRows (loops.flatMap fun tail => [tail, .nonterminal id :: tail])

/-- The nonterminal for the repeated loops of a head, if there are loops and exits. -/
def closureOf (head : NonterminalID) (alternatives : List (List GrammarSymbol)) (s : Repairing) :
    Option (Option NonterminalID × Repairing) :=
  if loopsOf head alternatives = [] ∨ exitsOf head alternatives = [] then some (none, s)
  else
    match s.closures.get head with
    | some id => some (some id, s)
    | none =>
        (checkedNext s.next).map fun next => (some s.next, { s with
          closures := s.closures.insert head s.next
          helpers := s.helpers.insert s.next (generated s.next (loopsOf head alternatives))
          next := next })

/-- What a right-hand side becomes, by the exits of its head. -/
def expandHead (head : NonterminalID) (exits : List (List GrammarSymbol))
    (closure : Option NonterminalID) (rhs : List GrammarSymbol) : List (List GrammarSymbol) :=
  if startsWith head rhs then
    exits.flatMap fun exit => (exit ++ rhs.tail) ::
      match closure with
      | some id => [exit ++ .nonterminal id :: rhs.tail]
      | none => []
  else [rhs]

/-- Without a row for the head, or with an empty exit, the source panics. -/
def substituteHead (head : NonterminalID) (current : List (List GrammarSymbol)) (s : Repairing) :
    Option (List (List GrammarSymbol) × Repairing) :=
  if current.any (startsWith head) then
    (s.rows.get head).bind fun alternatives =>
      (closureOf head alternatives s).bind fun r =>
        if [] ∈ exitsOf head alternatives then none
        else some (sortedRows (current.flatMap (expandHead head (exitsOf head alternatives) r.1)), r.2)
  else some (current, s)

/-- Rewrite the right-hand sides of one member by the members before it. -/
def repairMember (before : List NonterminalID) (lhs : NonterminalID) (s : Repairing) :
    Option Repairing :=
  (before.foldlM (fun (r : List (List GrammarSymbol) × Repairing) head => substituteHead head r.1 r.2)
    ((s.rows.get lhs).getD [], { s with rows := s.rows.remove lhs })).map fun r =>
      { r.2 with rows := r.2.rows.insert lhs r.1 }

/-- The members in the order of their ids, or of the numbers of their rules. -/
def memberOrder (by_size : Bool) : List NonterminalID :=
  let order := component.sort (· ≤ ·)
  if by_size then
    order.insertionSort fun a b =>
      toLex (rules.countP (·.lhs = a), a) ≤ toLex (rules.countP (·.lhs = b), b)
  else order

def repairMembers : List NonterminalID → List NonterminalID → Repairing → Option Repairing
  | _, [], s => some s
  | before, lhs :: rest, s =>
      (repairMember before lhs s).bind fun s => repairMembers (before ++ [lhs]) rest s

def rulesOf (rows : List (NonterminalID × List (List GrammarSymbol))) : List Rule :=
  rows.flatMap fun row => row.2.map fun rhs => ⟨row.1, rhs⟩

def repairComponent (by_size : Bool) (next : NonterminalID) : Option (List Rule × NonterminalID) :=
  (repairMembers [] (memberOrder rules component by_size)
    ⟨startRows rules component, SortedMap.empty, SortedMap.empty, next⟩).map fun s =>
      (rules.filter (·.lhs ∉ component) ++ rulesOf (s.rows.entries ++ s.helpers.entries), s.next)

def repairPass (by_size : Bool) (selected : List (Finset NonterminalID)) (next : NonterminalID) :
    Option (List Rule × NonterminalID) :=
  selected.foldlM (fun (r : List Rule × NonterminalID) component =>
    repairComponent r.1 component by_size r.2) (rules, next)

end Definitions

/-! ## One substitution -/

open Computability

theorem mem_sortedRows {rhs : List GrammarSymbol} {rhss : List (List GrammarSymbol)} :
    rhs ∈ sortedRows rhss ↔ rhs ∈ rhss := by
  rw [sortedRows, List.mem_dedup, List.mem_insertionSort]

theorem startsWith_iff {head : NonterminalID} {rhs : List GrammarSymbol} :
    startsWith head rhs = true ↔ rhs = .nonterminal head :: rhs.tail := by
  rw [startsWith, decide_eq_true_eq]
  cases rhs with
  | nil => simp
  | cons s rhs => simp

theorem mem_loopsOf {head : NonterminalID} {alternatives : List (List GrammarSymbol)}
    {tail : List GrammarSymbol} : tail ∈ loopsOf head alternatives ↔
      .nonterminal head :: tail ∈ alternatives ∧ tail ≠ [] := by
  simp only [loopsOf, List.mem_filter, List.mem_map, decide_eq_true_eq]
  refine and_congr_left fun _ => ?_
  constructor
  · rintro ⟨rhs, ⟨hrhs, hstarts⟩, rfl⟩
    rwa [← startsWith_iff.mp hstarts]
  · intro h
    exact ⟨_, ⟨h, startsWith_iff.mpr rfl⟩, rfl⟩

theorem mem_exitsOf {head : NonterminalID} {alternatives : List (List GrammarSymbol)}
    {rhs : List GrammarSymbol} : rhs ∈ exitsOf head alternatives ↔
      rhs ∈ alternatives ∧ startsWith head rhs = false := by
  simp [exitsOf]

theorem mem_generated {id : NonterminalID} {loops : List (List GrammarSymbol)}
    {rhs : List GrammarSymbol} : rhs ∈ generated id loops ↔
      ∃ tail ∈ loops, rhs = tail ∨ rhs = .nonterminal id :: tail := by
  simp [generated, mem_sortedRows]

theorem mem_expandHead {head : NonterminalID} {exits : List (List GrammarSymbol)}
    {closure : Option NonterminalID} {rhs rhs' : List GrammarSymbol} :
    rhs' ∈ expandHead head exits closure rhs ↔
      startsWith head rhs = false ∧ rhs' = rhs ∨ startsWith head rhs = true ∧ ∃ exit ∈ exits,
        rhs' = exit ++ rhs.tail ∨ ∃ id, closure = some id ∧ rhs' = exit ++ .nonterminal id :: rhs.tail := by
  unfold expandHead
  split_ifs with hstarts
  · cases closure <;> simp [hstarts]
  · simp [hstarts]

section Words

variable {J : NonterminalID → Language TerminalID} {head : NonterminalID}
  {alternatives exits : List (List GrammarSymbol)} {closure : Option NonterminalID}
  {rhs rhs' : List GrammarSymbol} {L : Language TerminalID}

/-- The words of a rewritten right-hand side are words of the original one. -/
theorem denote_expandHead_le (hexits : ∀ exit ∈ exits, denote J exit ≤ J head)
    (hclosure : ∀ id, closure = some id → J head * J id ≤ J head)
    (hrhs' : rhs' ∈ expandHead head exits closure rhs) : denote J rhs' ≤ denote J rhs := by
  obtain ⟨-, rfl⟩ | ⟨hstarts, exit, hexit, hrhs'⟩ := mem_expandHead.mp hrhs'
  · exact le_rfl
  · rw [startsWith_iff.mp hstarts, denote_cons]
    obtain rfl | ⟨id, hid, rfl⟩ := hrhs'
    · rw [denote_append]
      exact mul_le_mul' (hexits exit hexit) le_rfl
    · rw [denote_append, denote_cons, ← mul_assoc]
      exact mul_le_mul' ((mul_le_mul' (hexits exit hexit) le_rfl).trans (hclosure id hid)) le_rfl

/-- The words of a right-hand side are words of what it is rewritten to. -/
theorem mem_denote_expandHead
    (hhead : J head ≤ denoteAny J {exit | exit ∈ exitsOf head alternatives} *
      (denoteAny J {tail | tail ∈ loopsOf head alternatives})∗)
    (hnone : closure = none → loopsOf head alternatives = [] ∨ exitsOf head alternatives = [])
    (hsome : ∀ id, closure = some id →
      ∀ generated' ∈ generated id (loopsOf head alternatives), denote J generated' ≤ J id)
    {w : List TerminalID} (hw : w ∈ denote J rhs) :
    ∃ rhs' ∈ expandHead head (exitsOf head alternatives) closure rhs, w ∈ denote J rhs' := by
  cases hstarts : startsWith head rhs with
  | false => exact ⟨rhs, mem_expandHead.mpr (Or.inl ⟨hstarts, rfl⟩), hw⟩
  | true =>
      rw [startsWith_iff.mp hstarts] at hw
      obtain ⟨u, hu, v, hv, rfl⟩ := mem_denote_cons.mp hw
      obtain ⟨e, he, f, hf, rfl⟩ := Language.mem_mul.mp (hhead hu)
      obtain ⟨exit, hexit, he⟩ := he
      have hdirect : f = [] → ∃ rhs' ∈ expandHead head (exitsOf head alternatives) closure rhs,
          e ++ f ++ v ∈ denote J rhs' := by
        rintro rfl
        refine ⟨exit ++ rhs.tail, mem_expandHead.mpr (Or.inr ⟨hstarts, exit, hexit, Or.inl rfl⟩), ?_⟩
        simpa using append_mem_denote he hv
      cases hclosure : closure with
      | none =>
          apply hclosure ▸ hdirect
          obtain hloops | hexits := hnone hclosure
          · have hempty : {tail | tail ∈ loopsOf head alternatives} = ∅ := by simp [hloops]
            rw [hempty, denoteAny_empty, kstar_zero] at hf
            exact (Language.mem_one f).mp hf
          · rw [Set.mem_ofPred_eq, hexits] at hexit
            cases hexit
      | some id =>
          have hgen := hsome id hclosure
          have hstar : (denoteAny J {tail | tail ∈ loopsOf head alternatives})∗ ≤ 1 + J id := by
            apply kstar_le_one_sup
            · apply denoteAny_le
              intro tail htail
              exact hgen tail (mem_generated.mpr ⟨tail, htail, Or.inl rfl⟩)
            · apply mul_denoteAny_le
              intro tail htail
              exact hgen _ (mem_generated.mpr ⟨tail, htail, Or.inr rfl⟩)
          obtain hnil | hid := hstar hf
          · exact hclosure ▸ hdirect ((Language.mem_one f).mp hnil)
          · refine ⟨exit ++ .nonterminal id :: rhs.tail,
              mem_expandHead.mpr (Or.inr ⟨hstarts, exit, hexit, Or.inr ⟨id, rfl, rfl⟩⟩), ?_⟩
            rw [List.append_assoc]
            exact append_mem_denote he (mem_denote_cons.mpr ⟨f, hid, v, hv, rfl⟩)

end Words

/-! ## Processing the members -/

section Processing

def rowOf (s : Repairing) (nt : NonterminalID) : List (List GrammarSymbol) := (s.rows.get nt).getD []

variable (initial : NonterminalID → List (List GrammarSymbol))
  (I : NonterminalID → Language TerminalID) (R : NonterminalID → NonterminalID → Prop)
  (bound : NonterminalID)

/-- The new nonterminals have the words by which the words of their heads can be continued. -/
def Agrees (s : Repairing) (J : NonterminalID → Language TerminalID) : Prop :=
  (∀ nt < bound, J nt = I nt) ∧
    ∀ head id, s.closures.get head = some id → J id = rightResidual (I head)

/-- The words of the finished members are those of their exits and loops, and the new
nonterminals have the words of their rows. -/
structure Closes (done : List NonterminalID) (s : Repairing)
    (K : NonterminalID → Language TerminalID) : Prop where
  heads : ∀ head ∈ done, K head ≤ denoteAny K {exit | exit ∈ exitsOf head (rowOf s head)} *
    (denoteAny K {tail | tail ∈ loopsOf head (rowOf s head)})∗
  helpers : ∀ id row, s.helpers.get id = some row → ∀ rhs ∈ row, denote K rhs ≤ K id

/-- A row of a member in which no right-hand side starts with one of the earlier members. -/
structure Row (done : List NonterminalID) (s : Repairing) (lhs : NonterminalID)
    (earlier : List NonterminalID) (row : List (List GrammarSymbol)) : Prop where
  sound : ∀ J, Agrees I bound s J → ∀ rhs ∈ row, denote J rhs ≤ I lhs
  complete : ∀ K, Closes done s K →
    denoteAny K {rhs | rhs ∈ initial lhs} ≤ denoteAny K {rhs | rhs ∈ row}
  nonempty : [] ∉ row
  small : ∀ rhs ∈ row, ∀ nt, .nonterminal nt ∈ rhs → nt < s.next
  leads : ∀ rhs ∈ row, ∀ nt, rhs.head? = some (.nonterminal nt) → R lhs nt
  ordered : ∀ rhs ∈ row, ∀ head ∈ earlier, startsWith head rhs = false
  owners : ∀ rhs ∈ row, ∀ nt, .nonterminal nt ∈ rhs → bound ≤ nt →
    ∃ head ∈ earlier, s.closures.get head = some nt

/-- The members in the list are finished, and those still to do have their first rows. -/
structure Repaired (done todo : List NonterminalID) (s : Repairing) : Prop where
  pending : ∀ nt ∈ todo, rowOf s nt = initial nt
  finished : ∀ nt ∈ done, s.rows.get nt = some (rowOf s nt)
  keys : ∀ nt row, s.rows.get nt = some row → nt ∈ done ∨ nt ∈ todo
  rows : ∀ before nt after, done = before ++ nt :: after →
    Row initial I R bound done s nt before (rowOf s nt)
  ids : ∀ head id, s.closures.get head = some id → head ∈ done ∧ bound ≤ id ∧ id < s.next ∧
    s.helpers.get id = some (generated id (loopsOf head (rowOf s head)))
  owned : ∀ id row, s.helpers.get id = some row → ∃ head, s.closures.get head = some id
  injective : ∀ head head' id, s.closures.get head = some id → s.closures.get head' = some id →
    head = head'
  bound_le : bound ≤ s.next

/-- What is known of a state is still known later. -/
structure Extends (done : List NonterminalID) (s s' : Repairing) : Prop where
  closures : ∀ head id, s.closures.get head = some id → s'.closures.get head = some id
  helpers : ∀ id row, s.helpers.get id = some row → s'.helpers.get id = some row
  rows : ∀ nt ∈ done, s'.rows.get nt = s.rows.get nt
  next : s.next ≤ s'.next

variable {initial I R bound}

variable {done done' todo earlier : List NonterminalID} {s s' : Repairing} {lhs head : NonterminalID}
  {row alternatives : List (List GrammarSymbol)}

theorem Extends.refl (done : List NonterminalID) (s : Repairing) : Extends done s s :=
  ⟨fun _ _ h => h, fun _ _ h => h, fun _ _ => rfl, le_rfl⟩

theorem Extends.rowOf (h : Extends done s s') {nt : NonterminalID} (hnt : nt ∈ done) :
    rowOf s' nt = rowOf s nt := by
  rw [LeftCornerClosure.rowOf, h.rows nt hnt]
  rfl

theorem Closes.mono (h : Extends done s s') (hsub : ∀ nt ∈ done, nt ∈ done')
    {K : NonterminalID → Language TerminalID} (hK : Closes done' s' K) : Closes done s K where
  heads head hhead := by
    have hrow := hK.heads head (hsub head hhead)
    rwa [h.rowOf hhead] at hrow
  helpers id row hrow := hK.helpers id row (h.helpers id row hrow)

theorem Row.mono (hrow : Row initial I R bound done s lhs earlier row) (h : Extends done s s')
    (hsub : ∀ nt ∈ done, nt ∈ done') : Row initial I R bound done' s' lhs earlier row where
  sound J hJ := hrow.sound J ⟨hJ.1, fun head id hid => hJ.2 head id (h.closures head id hid)⟩
  complete K hK := hrow.complete K (hK.mono h hsub)
  nonempty := hrow.nonempty
  small rhs hrhs nt hnt := (hrow.small rhs hrhs nt hnt).trans_le h.next
  leads := hrow.leads
  ordered := hrow.ordered
  owners rhs hrhs nt hnt hle := by
    obtain ⟨head, hhead, hid⟩ := hrow.owners rhs hrhs nt hnt hle
    exact ⟨head, hhead, h.closures head nt hid⟩

theorem Repaired.exists_row (hs : Repaired initial I R bound done todo s) (hhead : head ∈ done) :
    ∃ before after, done = before ++ head :: after ∧
      Row initial I R bound done s head before (rowOf s head) := by
  obtain ⟨before, after, hdone⟩ := List.append_of_mem hhead
  exact ⟨before, after, hdone, hs.rows before head after hdone⟩

/-- The state after a closure was made for a head. -/
theorem closureOf_spec (hs : Repaired initial I R bound done todo s) (hhead : head ∈ done) :
    Ensures (closureOf head (rowOf s head) s) fun r => Repaired initial I R bound done todo r.2 ∧
      Extends done s r.2 ∧ r.2.rows = s.rows ∧
      (r.1 = none → loopsOf head (rowOf s head) = [] ∨ exitsOf head (rowOf s head) = []) ∧
      ∀ id, r.1 = some id → r.2.closures.get head = some id := by
  unfold closureOf
  split_ifs with hnone
  · exact Ensures.some ⟨hs, Extends.refl done s, rfl, fun _ => hnone, fun id h => by cases h⟩
  · split
    · rename_i id hid
      refine Ensures.some ⟨hs, Extends.refl done s, rfl, (fun h => by cases h), ?_⟩
      rintro id' h
      rwa [← Option.some.inj h]
    · rename_i hnew
      apply Ensures.map
      intro next hnext
      have hlt : s.next < next := by
        rw [checkedNext_eq_some hnext]
        exact Nat.lt_succ_self _
      have hfresh : s.helpers.get s.next = none := by
        cases hget : s.helpers.get s.next with
        | none => rfl
        | some row =>
            obtain ⟨head', hhead'⟩ := hs.owned _ row hget
            exact absurd (hs.ids head' _ hhead').2.2.1 (lt_irrefl _)
      have hext : Extends done s { s with
          closures := s.closures.insert head s.next
          helpers := s.helpers.insert s.next (generated s.next (loopsOf head (rowOf s head)))
          next := next } := by
        refine ⟨?_, ?_, fun _ _ => rfl, hlt.le⟩
        · intro head' id hid
          rw [SortedMap.get_insert]
          split_ifs with he
          · rw [← he, hnew] at hid
            cases hid
          · exact hid
        · intro id row hrow
          rw [SortedMap.get_insert]
          split_ifs with he
          · rw [← he, hfresh] at hrow
            cases hrow
          · exact hrow
      refine ⟨⟨hs.pending, hs.finished, hs.keys, ?_, ?_, ?_, ?_, hs.bound_le.trans hlt.le⟩, hext, rfl,
        (fun h => by cases h), ?_⟩
      · intro before nt after hdone
        exact (hs.rows before nt after hdone).mono hext fun _ h => h
      · intro head' id hid
        rw [SortedMap.get_insert] at hid
        split_ifs at hid with he
        · obtain rfl := Option.some.inj hid
          subst he
          refine ⟨hhead, hs.bound_le, hlt, ?_⟩
          rw [SortedMap.get_insert, if_pos rfl]
          rfl
        · obtain ⟨hmem, hle, hlt', hget⟩ := hs.ids head' id hid
          exact ⟨hmem, hle, hlt'.trans hlt, hext.helpers id _ hget⟩
      · intro id row hrow
        rw [SortedMap.get_insert] at hrow
        split_ifs at hrow with he
        · exact ⟨head, by rw [SortedMap.get_insert, if_pos rfl, he]⟩
        · obtain ⟨head', hhead'⟩ := hs.owned id row hrow
          exact ⟨head', hext.closures head' id hhead'⟩
      · intro head₁ head₂ id h₁ h₂
        rw [SortedMap.get_insert] at h₁ h₂
        split_ifs at h₁ h₂ with he₁ he₂ he₂
        · exact he₁.symm.trans he₂
        · rw [← Option.some.inj h₁] at h₂
          exact absurd (hs.ids head₂ _ h₂).2.2.1 (lt_irrefl _)
        · rw [← Option.some.inj h₂] at h₁
          exact absurd (hs.ids head₁ _ h₁).2.2.1 (lt_irrefl _)
        · exact hs.injective head₁ head₂ id h₁ h₂
      · intro id h
        rw [SortedMap.get_insert, if_pos rfl, ← Option.some.inj h]

theorem startsWith_append {exit rest : List GrammarSymbol} (h : exit ≠ []) :
    startsWith head (exit ++ rest) = startsWith head exit := by
  cases exit with
  | nil => exact absurd rfl h
  | cons s exit => rfl

theorem head?_append_of_ne_nil {exit rest : List GrammarSymbol} (h : exit ≠ []) :
    (exit ++ rest).head? = exit.head? := by
  cases exit with
  | nil => exact absurd rfl h
  | cons s exit => rfl

/-- Rewriting the right-hand sides that start with a finished member. -/
theorem Row.expand {current : List (List GrammarSymbol)} {closure : Option NonterminalID}
    (htrans : ∀ a b c, R a b → R b c → R a c) (hs' : Repaired initial I R bound done todo s')
    (hbound : head < bound) (hhead : Row initial I R bound done s' head earlier (rowOf s' head))
    (hmem : head ∈ done) (hrow : Row initial I R bound done s' lhs earlier current)
    (hexits : [] ∉ exitsOf head (rowOf s' head))
    (hnone : closure = none → loopsOf head (rowOf s' head) = [] ∨ exitsOf head (rowOf s' head) = [])
    (hsome : ∀ id, closure = some id → s'.closures.get head = some id) :
    Row initial I R bound done s' lhs (earlier ++ [head])
      (sortedRows (current.flatMap (expandHead head (exitsOf head (rowOf s' head)) closure))) := by
  have hexpanded : ∀ rhs' ∈ sortedRows
      (current.flatMap (expandHead head (exitsOf head (rowOf s' head)) closure)),
      ∃ rhs ∈ current, rhs' ∈ expandHead head (exitsOf head (rowOf s' head)) closure rhs := by
    intro rhs' hrhs'
    rw [mem_sortedRows, List.mem_flatMap] at hrhs'
    exact hrhs'
  have hne : ∀ exit ∈ exitsOf head (rowOf s' head), exit ≠ [] := by
    rintro exit hexit rfl
    exact hexits hexit
  have hexit : ∀ exit ∈ exitsOf head (rowOf s' head), exit ∈ rowOf s' head := fun exit hexit =>
    (mem_exitsOf.mp hexit).1
  constructor
  · intro J hJ rhs' hrhs'
    obtain ⟨rhs, hrhs, hrhs'⟩ := hexpanded rhs' hrhs'
    have hJhead : J head = I head := hJ.1 head hbound
    refine (denote_expandHead_le ?_ ?_ hrhs').trans (hrow.sound J hJ rhs hrhs)
    · intro exit he
      rw [hJhead]
      exact hhead.sound J hJ exit (hexit exit he)
    · intro id hid
      rw [hJ.2 head id (hsome id hid), hJhead]
      exact mul_rightResidual_le (I head)
  · intro K hK
    refine (hrow.complete K hK).trans (denoteAny_le ?_)
    intro rhs hrhs w hw
    have hgen : ∀ id, closure = some id → ∀ rhs ∈ generated id (loopsOf head (rowOf s' head)),
        denote K rhs ≤ K id := by
      intro id hid
      exact hK.helpers id _ (hs'.ids head id (hsome id hid)).2.2.2
    obtain ⟨rhs', hrhs', hw'⟩ := mem_denote_expandHead (hK.heads head hmem) hnone hgen hw
    exact ⟨rhs', mem_sortedRows.mpr (List.mem_flatMap.mpr ⟨rhs, hrhs, hrhs'⟩), hw'⟩
  · intro hnil
    obtain ⟨rhs, hrhs, hrhs'⟩ := hexpanded [] hnil
    obtain ⟨-, rfl⟩ | ⟨-, exit, he, happ⟩ := mem_expandHead.mp hrhs'
    · exact hrow.nonempty hrhs
    · obtain happ | ⟨id, -, happ⟩ := happ
      · exact hne exit he (List.append_eq_nil_iff.mp happ.symm).1
      · exact hne exit he (List.append_eq_nil_iff.mp happ.symm).1
  · intro rhs' hrhs' nt hnt
    obtain ⟨rhs, hrhs, hrhs'⟩ := hexpanded rhs' hrhs'
    obtain ⟨-, rfl⟩ | ⟨-, exit, he, happ⟩ := mem_expandHead.mp hrhs'
    · exact hrow.small rhs' hrhs nt hnt
    · have htail : .nonterminal nt ∈ rhs.tail → nt < s'.next := fun h =>
        hrow.small rhs hrhs nt (List.mem_of_mem_tail h)
      obtain rfl | ⟨id, hid, rfl⟩ := happ
      · obtain h | h := List.mem_append.mp hnt
        · exact hhead.small exit (hexit exit he) nt h
        · exact htail h
      · rw [List.mem_append, List.mem_cons] at hnt
        obtain h | h | h := hnt
        · exact hhead.small exit (hexit exit he) nt h
        · obtain rfl := Symbol.nonterminal.inj h
          exact (hs'.ids head nt (hsome nt hid)).2.2.1
        · exact htail h
  · intro rhs' hrhs' nt hnt
    obtain ⟨rhs, hrhs, hrhs'⟩ := hexpanded rhs' hrhs'
    obtain ⟨-, rfl⟩ | ⟨hstarts, exit, he, happ⟩ := mem_expandHead.mp hrhs'
    · exact hrow.leads rhs' hrhs nt hnt
    · have hlead : rhs'.head? = exit.head? := by
        obtain rfl | ⟨id, -, rfl⟩ := happ <;> exact head?_append_of_ne_nil (hne exit he)
      rw [hlead] at hnt
      have hfirst : rhs.head? = some (.nonterminal head) := by rw [startsWith_iff.mp hstarts]; rfl
      exact htrans lhs head nt (hrow.leads rhs hrhs head hfirst)
        (hhead.leads exit (hexit exit he) nt hnt)
  · intro rhs' hrhs' h hh
    obtain ⟨rhs, hrhs, hrhs'⟩ := hexpanded rhs' hrhs'
    rw [List.mem_append, List.mem_singleton] at hh
    obtain ⟨hstarts, rfl⟩ | ⟨-, exit, he, happ⟩ := mem_expandHead.mp hrhs'
    · obtain hh | rfl := hh
      · exact hrow.ordered rhs' hrhs h hh
      · exact hstarts
    · have hstart : startsWith h rhs' = startsWith h exit := by
        obtain rfl | ⟨id, -, rfl⟩ := happ <;> exact startsWith_append (hne exit he)
      rw [hstart]
      obtain hh | rfl := hh
      · exact hhead.ordered exit (hexit exit he) h hh
      · exact (mem_exitsOf.mp he).2
  · intro rhs' hrhs' nt hnt hle
    have hearlier : ∀ {rhs}, rhs ∈ current → .nonterminal nt ∈ rhs →
        ∃ h ∈ earlier ++ [head], s'.closures.get h = some nt := by
      intro rhs hrhs hnt
      obtain ⟨h, hh, hid⟩ := hrow.owners rhs hrhs nt hnt hle
      exact ⟨h, List.mem_append_left _ hh, hid⟩
    have hexited : ∀ {exit}, exit ∈ exitsOf head (rowOf s' head) → .nonterminal nt ∈ exit →
        ∃ h ∈ earlier ++ [head], s'.closures.get h = some nt := by
      intro exit he hnt
      obtain ⟨h, hh, hid⟩ := hhead.owners exit (hexit exit he) nt hnt hle
      exact ⟨h, List.mem_append_left _ hh, hid⟩
    obtain ⟨rhs, hrhs, hrhs'⟩ := hexpanded rhs' hrhs'
    obtain ⟨-, rfl⟩ | ⟨-, exit, he, happ⟩ := mem_expandHead.mp hrhs'
    · exact hearlier hrhs hnt
    · obtain rfl | ⟨id, hid, rfl⟩ := happ
      · obtain hnt | hnt := List.mem_append.mp hnt
        · exact hexited he hnt
        · exact hearlier hrhs (List.mem_of_mem_tail hnt)
      · rw [List.mem_append, List.mem_cons] at hnt
        obtain hnt | hnt | hnt := hnt
        · exact hexited he hnt
        · obtain rfl := Symbol.nonterminal.inj hnt
          exact ⟨head, List.mem_append_right _ (List.mem_singleton_self head), hsome nt hid⟩
        · exact hearlier hrhs (List.mem_of_mem_tail hnt)

theorem substituteHead_spec {after : List NonterminalID} {current : List (List GrammarSymbol)}
    (htrans : ∀ a b c, R a b → R b c → R a c) (hs : Repaired initial I R bound done todo s)
    (hdone : done = earlier ++ head :: after) (hbound : head < bound)
    (hrow : Row initial I R bound done s lhs earlier current) :
    Ensures (substituteHead head current s) fun r => Repaired initial I R bound done todo r.2 ∧
      Extends done s r.2 ∧ r.2.rows = s.rows ∧
      Row initial I R bound done r.2 lhs (earlier ++ [head]) r.1 := by
  have hmem : head ∈ done := by rw [hdone]; simp
  unfold substituteHead
  split_ifs with hany
  · rw [hs.finished head hmem, Option.bind_some]
    refine Ensures.bind (closureOf_spec hs hmem) ?_
    rintro ⟨closure, s'⟩ ⟨hs', hext, hrows, hnone, hsome⟩
    dsimp only at hs' hext hrows hnone hsome ⊢
    rw [← hext.rowOf hmem] at hnone ⊢
    split_ifs with hnil
    · exact Ensures.none _
    · refine Ensures.some ⟨hs', hext, hrows, ?_⟩
      exact Row.expand htrans hs' hbound (hs'.rows earlier head after hdone) hmem
        (hrow.mono hext fun _ h => h) hnil hnone hsome
  · refine Ensures.some ⟨hs, Extends.refl done s, rfl, hrow.sound, hrow.complete, hrow.nonempty,
      hrow.small, hrow.leads, ?_, ?_⟩
    · intro rhs hrhs h hh
      rw [List.mem_append, List.mem_singleton] at hh
      obtain hh | rfl := hh
      · exact hrow.ordered rhs hrhs h hh
      · rw [Bool.not_eq_true, List.any_eq_false] at hany
        exact Bool.eq_false_iff.mpr (hany rhs hrhs)
    · intro rhs hrhs nt hnt hle
      obtain ⟨h, hh, hid⟩ := hrow.owners rhs hrhs nt hnt hle
      exact ⟨h, List.mem_append_left _ hh, hid⟩

theorem substituteHeads_spec {current : List (List GrammarSymbol)} {heads : List NonterminalID}
    (htrans : ∀ a b c, R a b → R b c → R a c) (hbound : ∀ nt ∈ done, nt < bound)
    (hs : Repaired initial I R bound done todo s) (hdone : done = earlier ++ heads)
    (hrow : Row initial I R bound done s lhs earlier current) :
    Ensures (heads.foldlM (fun (r : List (List GrammarSymbol) × Repairing) head =>
        substituteHead head r.1 r.2) (current, s)) fun r =>
      Repaired initial I R bound done todo r.2 ∧ r.2.rows = s.rows ∧
        Row initial I R bound done r.2 lhs done r.1 := by
  induction heads generalizing earlier current s with
  | nil =>
      rw [List.append_nil] at hdone
      exact Ensures.some ⟨hs, rfl, hdone ▸ hrow⟩
  | cons head heads ih =>
      rw [List.foldlM_cons]
      have hhead : head < bound := hbound head (by rw [hdone]; simp)
      refine Ensures.bind (substituteHead_spec htrans hs hdone hhead hrow) ?_
      rintro ⟨current', s'⟩ ⟨hs', -, hrows, hrow'⟩
      have hrest := ih hs' (by rw [hdone, List.append_assoc, List.singleton_append]) hrow'
      exact hrest.mono fun r hr => ⟨hr.1, hr.2.1.trans hrows, hr.2.2⟩

/-- The first row of a member. -/
structure FirstRow (initial : NonterminalID → List (List GrammarSymbol))
    (I : NonterminalID → Language TerminalID) (R : NonterminalID → NonterminalID → Prop)
    (bound lhs : NonterminalID) : Prop where
  sound : ∀ rhs ∈ initial lhs, denote I rhs ≤ I lhs
  nonempty : [] ∉ initial lhs
  small : ∀ rhs ∈ initial lhs, ∀ nt, .nonterminal nt ∈ rhs → nt < bound
  leads : ∀ rhs ∈ initial lhs, ∀ nt, rhs.head? = some (.nonterminal nt) → R lhs nt

theorem FirstRow.toRow (h : FirstRow initial I R bound lhs) (hle : bound ≤ s.next) :
    Row initial I R bound done s lhs [] (initial lhs) where
  sound J hJ rhs hrhs := by
    have hcongr : denote J rhs = denote I rhs :=
      denote_congr fun nt hnt => hJ.1 nt (h.small rhs hrhs nt hnt)
    rw [hcongr]
    exact h.sound rhs hrhs
  complete K _ := le_rfl
  nonempty := h.nonempty
  small rhs hrhs nt hnt := (h.small rhs hrhs nt hnt).trans_le hle
  leads := h.leads
  ordered rhs _ head hhead := absurd hhead List.not_mem_nil
  owners rhs hrhs nt hnt hle := absurd (h.small rhs hrhs nt hnt) (not_lt.mpr hle)

theorem Repaired.remove (hs : Repaired initial I R bound done (lhs :: todo) s)
    (hdone : lhs ∉ done) (htodo : lhs ∉ todo) :
    Repaired initial I R bound done todo { s with rows := s.rows.remove lhs } := by
  have hget : ∀ nt, nt ≠ lhs → (s.rows.remove lhs).get nt = s.rows.get nt := by
    intro nt hne
    rw [SortedMap.get_remove, if_neg hne.symm]
  have hrow : ∀ nt, nt ≠ lhs → rowOf { s with rows := s.rows.remove lhs } nt = rowOf s nt := by
    intro nt hne
    exact congrArg (·.getD []) (hget nt hne)
  have hne : ∀ nt ∈ done, nt ≠ lhs := by
    rintro nt hnt rfl
    exact hdone hnt
  have hext : Extends done s { s with rows := s.rows.remove lhs } :=
    ⟨fun _ _ h => h, fun _ _ h => h, fun nt hnt => hget nt (hne nt hnt), le_rfl⟩
  constructor
  · intro nt hnt
    have hne' : nt ≠ lhs := by
      rintro rfl
      exact htodo hnt
    rw [hrow nt hne']
    exact hs.pending nt (List.mem_cons_of_mem _ hnt)
  · intro nt hnt
    rw [hrow nt (hne nt hnt)]
    exact (hget nt (hne nt hnt)).trans (hs.finished nt hnt)
  · intro nt row hnt
    dsimp only at hnt
    rw [SortedMap.get_remove] at hnt
    split_ifs at hnt with he
    exact (hs.keys nt row hnt).imp_right fun hmem => (List.mem_cons.mp hmem).resolve_left (Ne.symm he)
  · intro before nt after heq
    rw [hrow nt (hne nt (by rw [heq]; simp))]
    exact (hs.rows before nt after heq).mono hext fun _ h => h
  · intro head id hid
    obtain ⟨hmem, hle, hlt, hhelper⟩ := hs.ids head id hid
    refine ⟨hmem, hle, hlt, ?_⟩
    rw [hrow head (hne head hmem)]
    exact hhelper
  · exact hs.owned
  · exact hs.injective
  · exact hs.bound_le

theorem Repaired.insert (hs : Repaired initial I R bound done todo s) (hdone : lhs ∉ done)
    (htodo : lhs ∉ todo) (hrow : Row initial I R bound done s lhs done row) :
    Repaired initial I R bound (done ++ [lhs]) todo { s with rows := s.rows.insert lhs row } := by
  have hget : ∀ nt, nt ≠ lhs → (s.rows.insert lhs row).get nt = s.rows.get nt := by
    intro nt hne
    rw [SortedMap.get_insert, if_neg hne.symm]
  have hold : ∀ nt, nt ≠ lhs → rowOf { s with rows := s.rows.insert lhs row } nt = rowOf s nt := by
    intro nt hne
    exact congrArg (·.getD []) (hget nt hne)
  have hself : (s.rows.insert lhs row).get lhs = some row := by
    rw [SortedMap.get_insert, if_pos rfl]
  have hnew : rowOf { s with rows := s.rows.insert lhs row } lhs = row :=
    congrArg (·.getD []) hself
  have hne : ∀ nt ∈ done, nt ≠ lhs := by
    rintro nt hnt rfl
    exact hdone hnt
  have hext : Extends done s { s with rows := s.rows.insert lhs row } :=
    ⟨fun _ _ h => h, fun _ _ h => h, fun nt hnt => hget nt (hne nt hnt), le_rfl⟩
  have hsub : ∀ nt ∈ done, nt ∈ done ++ [lhs] := fun nt hnt => List.mem_append_left _ hnt
  constructor
  · intro nt hnt
    have hne' : nt ≠ lhs := by
      rintro rfl
      exact htodo hnt
    rw [hold nt hne']
    exact hs.pending nt hnt
  · intro nt hnt
    obtain hnt | hnt := List.mem_append.mp hnt
    · rw [hold nt (hne nt hnt)]
      exact (hget nt (hne nt hnt)).trans (hs.finished nt hnt)
    · obtain rfl := List.mem_singleton.mp hnt
      rw [hnew]
      exact hself
  · intro nt row' hnt
    dsimp only at hnt
    rw [SortedMap.get_insert] at hnt
    split_ifs at hnt with he
    · exact Or.inl (by simp [he])
    · exact (hs.keys nt row' hnt).imp_left fun hmem => hsub nt hmem
  · intro before nt after heq
    obtain rfl | ⟨after', last, rfl⟩ := List.eq_nil_or_concat after
    · obtain ⟨rfl, he⟩ := List.append_inj' heq rfl
      obtain rfl := (List.cons.inj he).1
      rw [hnew]
      exact hrow.mono hext hsub
    · rw [List.concat_eq_append, ← List.cons_append, ← List.append_assoc] at heq
      obtain ⟨heq, -⟩ := List.append_inj' heq rfl
      rw [hold nt (hne nt (by rw [heq]; simp))]
      exact (hs.rows before nt after' heq).mono hext hsub
  · intro head id hid
    obtain ⟨hmem, hle, hlt, hhelper⟩ := hs.ids head id hid
    refine ⟨hsub head hmem, hle, hlt, ?_⟩
    rw [hold head (hne head hmem)]
    exact hhelper
  · exact hs.owned
  · exact hs.injective
  · exact hs.bound_le

theorem repairMember_spec (htrans : ∀ a b c, R a b → R b c → R a c)
    (hbound : ∀ nt ∈ done, nt < bound) (hs : Repaired initial I R bound done (lhs :: todo) s)
    (hdone : lhs ∉ done) (htodo : lhs ∉ todo) (hfirst : FirstRow initial I R bound lhs) :
    Ensures (repairMember done lhs s) (Repaired initial I R bound (done ++ [lhs]) todo) := by
  have hrow : (s.rows.get lhs).getD [] = initial lhs := hs.pending lhs List.mem_cons_self
  unfold repairMember
  rw [hrow]
  apply Ensures.map
  have hs' := hs.remove hdone htodo
  have hfold := substituteHeads_spec htrans hbound hs' (List.nil_append done).symm
    (hfirst.toRow hs'.bound_le)
  exact hfold.mono fun r hr => hr.1.insert hdone htodo hr.2.2

theorem repairMembers_spec (htrans : ∀ a b c, R a b → R b c → R a c)
    (hbound : ∀ nt ∈ done ++ todo, nt < bound) (hnodup : (done ++ todo).Nodup)
    (hfirst : ∀ nt ∈ todo, FirstRow initial I R bound nt)
    (hs : Repaired initial I R bound done todo s) :
    Ensures (repairMembers done todo s) (Repaired initial I R bound (done ++ todo) []) := by
  induction todo generalizing done s with
  | nil =>
      rw [List.append_nil]
      exact Ensures.some hs
  | cons lhs todo ih =>
      have hassoc : done ++ lhs :: todo = done ++ [lhs] ++ todo := by simp
      rw [List.nodup_middle, List.nodup_cons, List.mem_append, not_or] at hnodup
      have hmember := repairMember_spec htrans (fun nt hnt => hbound nt (List.mem_append_left _ hnt))
        hs hnodup.1.1 hnodup.1.2 (hfirst lhs List.mem_cons_self)
      refine Ensures.bind hmember fun s' hs' => ?_
      rw [hassoc] at hbound ⊢
      refine ih hbound ?_ (fun nt hnt => hfirst nt (List.mem_cons_of_mem _ hnt)) hs'
      rw [← hassoc, List.nodup_middle, List.nodup_cons, List.mem_append, not_or]
      exact hnodup

end Processing

/-! ## The repaired component -/

section Component

variable {rules : List Rule} {component : Finset NonterminalID}

theorem mem_startFold {rest : List Rule} {rows : SortedMap NonterminalID (List (List GrammarSymbol))}
    {nt : NonterminalID} {rhs : List GrammarSymbol} :
    rhs ∈ ((rest.foldl (fun rows rule =>
        rows.insert rule.lhs ((rows.get rule.lhs).getD [] ++ [rule.rhs])) rows).get nt).getD [] ↔
      rhs ∈ (rows.get nt).getD [] ∨ ⟨nt, rhs⟩ ∈ rest := by
  induction rest generalizing rows with
  | nil => simp
  | cons rule rest ih =>
      rw [List.foldl_cons, ih, SortedMap.get_insert, List.mem_cons, ← or_assoc]
      refine or_congr_left ?_
      obtain ⟨lhs, rhs'⟩ := rule
      split_ifs with hlhs
      · subst hlhs
        simp
      · have hne : (⟨nt, rhs⟩ : Rule) ≠ ⟨lhs, rhs'⟩ := fun he => hlhs (Rule.mk.inj he).1.symm
        simp [hne]

theorem startFold_keys {rest : List Rule} {rows : SortedMap NonterminalID (List (List GrammarSymbol))}
    {nt : NonterminalID} {row : List (List GrammarSymbol)}
    (h : (rest.foldl (fun rows rule =>
      rows.insert rule.lhs ((rows.get rule.lhs).getD [] ++ [rule.rhs])) rows).get nt = some row) :
    (∃ row', rows.get nt = some row') ∨ ∃ rule ∈ rest, rule.lhs = nt := by
  induction rest generalizing rows with
  | nil => exact Or.inl ⟨row, h⟩
  | cons rule rest ih =>
      obtain ⟨row', hrow'⟩ | ⟨rule', hrule', he⟩ := ih h
      · rw [SortedMap.get_insert] at hrow'
        split_ifs at hrow' with hlhs
        · exact Or.inr ⟨rule, List.mem_cons_self, hlhs⟩
        · exact Or.inl ⟨row', hrow'⟩
      · exact Or.inr ⟨rule', List.mem_cons_of_mem _ hrule', he⟩

theorem mem_startRows {nt : NonterminalID} {rhs : List GrammarSymbol} :
    rhs ∈ ((startRows rules component).get nt).getD [] ↔ nt ∈ component ∧ ⟨nt, rhs⟩ ∈ rules := by
  have hfold := @mem_startFold (rules.filter (·.lhs ∈ component)) SortedMap.empty nt rhs
  rw [startRows, SortedMap.get_mapValues]
  simp only [SortedMap.get_empty, Option.getD_none, List.not_mem_nil, false_or, List.mem_filter,
    decide_eq_true_eq] at hfold
  rw [and_comm, ← hfold]
  cases ((rules.filter (·.lhs ∈ component)).foldl (fun rows rule =>
    rows.insert rule.lhs ((rows.get rule.lhs).getD [] ++ [rule.rhs])) SortedMap.empty).get nt with
  | none => simp
  | some row => simp [mem_sortedRows]

theorem startRows_keys {nt : NonterminalID} {row : List (List GrammarSymbol)}
    (h : (startRows rules component).get nt = some row) : nt ∈ component := by
  rw [startRows, SortedMap.get_mapValues] at h
  obtain ⟨row', hrow', -⟩ := Option.map_eq_some_iff.mp h
  obtain ⟨_, hempty⟩ | ⟨rule, hrule, rfl⟩ := startFold_keys hrow'
  · cases hempty
  · exact of_decide_eq_true (List.mem_filter.mp hrule).2

theorem memberOrder_perm (by_size : Bool) :
    (memberOrder rules component by_size).Perm (component.sort (· ≤ ·)) := by
  unfold memberOrder
  dsimp only
  split_ifs
  · exact List.perm_insertionSort _ _
  · exact List.Perm.refl _

theorem mem_memberOrder {by_size : Bool} {nt : NonterminalID} :
    nt ∈ memberOrder rules component by_size ↔ nt ∈ component := by
  rw [(memberOrder_perm by_size).mem_iff, Finset.mem_sort]

theorem memberOrder_nodup (rules : List Rule) (component : Finset NonterminalID) (by_size : Bool) : (memberOrder rules component by_size).Nodup :=
  (memberOrder_perm by_size).nodup_iff.mpr (Finset.sort_nodup _ _)

theorem mem_rulesOf {rows : List (NonterminalID × List (List GrammarSymbol))} {rule : Rule} :
    rule ∈ rulesOf rows ↔ ∃ row, (rule.lhs, row) ∈ rows ∧ rule.rhs ∈ row := by
  obtain ⟨lhs, rhs⟩ := rule
  simp only [rulesOf, List.mem_flatMap, List.mem_map, Rule.mk.injEq, Prod.exists]
  constructor
  · rintro ⟨nt, row, hrow, rhs', hrhs', rfl, rfl⟩
    exact ⟨row, hrow, hrhs'⟩
  · rintro ⟨row, hrow, hrhs⟩
    exact ⟨lhs, row, hrow, rhs, hrhs, rfl, rfl⟩

/-- A nonterminal starts a right-hand side of another one. -/
def LeadsTo (rules : List Rule) (a b : NonterminalID) : Prop :=
  ∃ rule ∈ rules, rule.lhs = a ∧ rule.rhs.head? = some (.nonterminal b)

theorem LeadsTo.occurring {a b : NonterminalID} (h : LeadsTo rules a b) :
    a ∈ occurring rules ∧ b ∈ occurring rules := by
  obtain ⟨rule, hrule, rfl, hb⟩ := h
  refine ⟨List.mem_flatMap.mpr ⟨rule, hrule, List.mem_cons_self⟩, ?_⟩
  exact List.mem_flatMap.mpr ⟨rule, hrule, List.mem_cons_of_mem _
    (mem_nonterminals.mpr (List.mem_of_mem_head? hb))⟩

/-- What the repair of a component leaves. -/
structure ComponentRepaired (rules : List Rule) (component : Finset NonterminalID)
    (next : NonterminalID) (out : List Rule) (next' : NonterminalID) : Prop where
  next_le : next ≤ next'
  small : ∀ nt ∈ occurring out, nt < next'
  nonempty : (∀ rule ∈ rules, rule.rhs ≠ []) → ∀ rule ∈ out, rule.rhs ≠ []
  words : ∀ nt < next, words (Produces out) nt = words (Produces rules) nt
  kept : ∀ rule, rule.lhs < next → rule.lhs ∉ component → (rule ∈ out ↔ rule ∈ rules)
  leads : ∀ a b, LeadsTo out a b → (next ≤ a ∧ a < next') ∨
    a < next ∧ b < next ∧ Relation.TransGen (LeadsTo rules) a b
  ordered : ∃ rank : NonterminalID → ℕ, ∀ a ∈ component, ∀ b ∈ component, LeadsTo out a b →
    rank a ≤ rank b ∧ (rank a = rank b → a = b)
  helpers : ∃ rank : NonterminalID → ℕ, ∀ a b, next ≤ a → next ≤ b → LeadsTo out a b → a ≠ b →
    rank b < rank a

section Final

variable {initial : NonterminalID → List (List GrammarSymbol)}
  {R : NonterminalID → NonterminalID → Prop} {order : List NonterminalID} {s : Repairing}
  {next : NonterminalID}

def repairedRules (rules : List Rule) (component : Finset NonterminalID) (s : Repairing) : List Rule :=
  rules.filter (·.lhs ∉ component) ++ rulesOf (s.rows.entries ++ s.helpers.entries)

theorem mem_repairedRules {rule : Rule} : rule ∈ repairedRules rules component s ↔
    rule ∈ rules ∧ rule.lhs ∉ component ∨ (∃ row, s.rows.get rule.lhs = some row ∧ rule.rhs ∈ row) ∨
      ∃ row, s.helpers.get rule.lhs = some row ∧ rule.rhs ∈ row := by
  simp only [repairedRules, List.mem_append, List.mem_filter, decide_eq_true_eq, mem_rulesOf,
    SortedMap.get_eq_some_iff, or_and_right, exists_or]

theorem Repaired.mem_rowOf {I : NonterminalID → Language TerminalID}
    (h : Repaired initial I R next order [] s) {nt : NonterminalID} {rhs : List GrammarSymbol} :
    (∃ row, s.rows.get nt = some row ∧ rhs ∈ row) ↔ nt ∈ order ∧ rhs ∈ rowOf s nt := by
  constructor
  · rintro ⟨row, hrow, hrhs⟩
    refine ⟨(h.keys nt row hrow).resolve_right List.not_mem_nil, ?_⟩
    rwa [rowOf, hrow]
  · rintro ⟨hnt, hrhs⟩
    exact ⟨rowOf s nt, h.finished nt hnt, hrhs⟩

/-- The new nonterminals are read as the words that continue the words of their heads. -/
def ownerWords (I : NonterminalID → Language TerminalID) (next : NonterminalID) (s : Repairing)
    (nt : NonterminalID) : Language TerminalID :=
  if nt < next then I nt
  else
    match s.closures.entries.find? fun e => e.2 = nt with
    | some e => rightResidual (I e.1)
    | none => 0

theorem ownerWords_agrees {I : NonterminalID → Language TerminalID}
    (h : Repaired initial I R next order [] s) : Agrees I next s (ownerWords I next s) := by
  refine ⟨fun nt hnt => if_pos hnt, ?_⟩
  intro head id hid
  have hle := (h.ids head id hid).2.1
  rw [ownerWords, if_neg (not_lt.mpr hle)]
  cases hfind : s.closures.entries.find? fun e => e.2 = id with
  | none =>
      have hmem := SortedMap.get_eq_some_iff.mp hid
      exact absurd (List.find?_eq_none.mp hfind _ hmem) (by simp)
  | some e =>
      obtain ⟨head', id'⟩ := e
      have hid' : id' = id := by simpa using List.find?_some hfind
      have hmem := SortedMap.get_eq_some_iff.mpr (List.mem_of_find?_eq_some hfind)
      rw [hid'] at hmem
      rw [h.injective head head' id hid hmem]

variable (hsmall : ∀ nt ∈ occurring rules, nt < next) (hmem : ∀ nt, nt ∈ order ↔ nt ∈ component)
  (hlt : ∀ nt ∈ component, nt < next)
  (h : Repaired initial (words (Produces rules)) R next order [] s)

theorem helper_rule {id : NonterminalID} {row : List (List GrammarSymbol)}
    (h : Repaired initial (words (Produces rules)) R next order [] s)
    (hrow : s.helpers.get id = some row) : next ≤ id ∧ id < s.next ∧ ∃ head ∈ order,
      s.closures.get head = some id ∧ row = generated id (loopsOf head (rowOf s head)) := by
  obtain ⟨head, hhead⟩ := h.owned id row hrow
  obtain ⟨hmem, hle, hlt, hget⟩ := h.ids head id hhead
  exact ⟨hle, hlt, head, hmem, hhead, Option.some.inj (hrow.symm.trans hget)⟩

include hsmall hmem hlt h in
theorem words_repairedRules_le {nt : NonterminalID} (hnt : nt < next) :
    words (Produces (repairedRules rules component s)) nt ≤ words (Produces rules) nt := by
  have hagrees := ownerWords_agrees h
  have hold : ∀ nt < next, ownerWords (words (Produces rules)) next s nt =
      words (Produces rules) nt := hagrees.1
  rw [← hold nt hnt]
  apply words_le_of_closed
  intro lhs rhs hrule
  obtain ⟨hrule, -⟩ | hrow | ⟨row, hrow, hrhs⟩ := mem_repairedRules.mp hrule
  · have hcongr : denote (ownerWords (words (Produces rules)) next s) rhs =
        denote (words (Produces rules)) rhs := by
      apply denote_congr
      intro nt hnt
      exact hold nt (hsmall nt (List.mem_flatMap.mpr
        ⟨_, hrule, List.mem_cons_of_mem _ (mem_nonterminals.mpr hnt)⟩))
    rw [hcongr, hold lhs (hsmall lhs (List.mem_flatMap.mpr ⟨_, hrule, List.mem_cons_self⟩))]
    exact closed_words _ _ _ hrule
  · obtain ⟨hlhs, hrhs⟩ := h.mem_rowOf.mp hrow
    obtain ⟨before, after, -, hr⟩ := h.exists_row hlhs
    rw [hold lhs (hlt lhs ((hmem lhs).mp hlhs))]
    exact hr.sound _ hagrees rhs hrhs
  · dsimp only at hrow hrhs
    obtain ⟨-, -, head, hhead, hid, rfl⟩ := helper_rule h hrow
    obtain ⟨before, after, -, hr⟩ := h.exists_row hhead
    have hheadlt : head < next := hlt head ((hmem head).mp hhead)
    rw [hagrees.2 head lhs hid]
    obtain ⟨tail, htail, hrhs⟩ := mem_generated.mp hrhs
    have hloop : words (Produces rules) head * denote (ownerWords (words (Produces rules)) next s) tail ≤
        words (Produces rules) head := by
      have hle := hr.sound _ hagrees _ (mem_loopsOf.mp htail).1
      rw [denote_cons, show value (ownerWords (words (Produces rules)) next s) (.nonterminal head) =
        words (Produces rules) head from hold head hheadlt] at hle
      exact hle
    obtain rfl | rfl := hrhs
    · exact le_rightResidual_iff.mpr hloop
    · rw [denote_cons]
      have hvalue : value (ownerWords (words (Produces rules)) next s) (.nonterminal lhs) =
          rightResidual (words (Produces rules) head) := hagrees.2 head lhs hid
      rw [hvalue]
      exact rightResidual_mul_le hloop

include hmem hlt h in
theorem le_words_repairedRules
    (hinitial : ∀ nt ∈ component, ∀ rhs, ⟨nt, rhs⟩ ∈ rules → rhs ∈ initial nt) (nt : NonterminalID) :
    words (Produces rules) nt ≤ words (Produces (repairedRules rules component s)) nt := by
  have hrow : ∀ nt ∈ order, ∀ rhs, Produces (repairedRules rules component s) nt rhs ↔
      rhs ∈ rowOf s nt := by
    intro nt hnt rhs
    rw [Produces, mem_repairedRules]
    constructor
    · rintro (⟨-, hout⟩ | hrow | ⟨row, hrow, -⟩)
      · exact absurd ((hmem nt).mp hnt) hout
      · exact (h.mem_rowOf.mp hrow).2
      · exact absurd (hlt nt ((hmem nt).mp hnt)) (not_lt.mpr (helper_rule h hrow).1)
    · exact fun hrhs => Or.inr (Or.inl (h.mem_rowOf.mpr ⟨hnt, hrhs⟩))
  have hcloses : Closes order s (words (Produces (repairedRules rules component s))) := by
    constructor
    · intro head hhead
      apply words_le_of_leftRecursive
      intro rhs hrhs
      rw [hrow head hhead] at hrhs
      cases hstarts : startsWith head rhs with
      | false => exact Or.inl (denote_le_denoteAny (mem_exitsOf.mpr ⟨hrhs, hstarts⟩))
      | true =>
          have heq := startsWith_iff.mp hstarts
          refine Or.inr ⟨rhs.tail, heq, ?_⟩
          by_cases hnil : rhs.tail = []
          · rw [hnil]
            exact one_le_kstar
          · have htail : rhs.tail ∈ loopsOf head (rowOf s head) := mem_loopsOf.mpr ⟨heq ▸ hrhs, hnil⟩
            exact (denote_le_denoteAny htail).trans le_kstar
    · intro id row hrow rhs hrhs
      exact closed_words _ id rhs (mem_repairedRules.mpr (Or.inr (Or.inr ⟨row, hrow, hrhs⟩)))
  apply words_le_of_closed
  intro lhs rhs hrule
  by_cases hlhs : lhs ∈ component
  · have hdone : lhs ∈ order := (hmem lhs).mpr hlhs
    obtain ⟨before, after, -, hr⟩ := h.exists_row hdone
    refine (denote_le_denoteAny (hinitial lhs hlhs rhs hrule)).trans
      ((hr.complete _ hcloses).trans (denoteAny_le ?_))
    intro rhs' hrhs'
    exact closed_words _ lhs rhs' ((hrow lhs hdone rhs').mpr hrhs')
  · exact closed_words _ lhs rhs (mem_repairedRules.mpr (Or.inl ⟨hrule, hlhs⟩))

end Final

theorem repairComponent_spec (by_size : Bool) {next : NonterminalID}
    (hsmall : ∀ nt ∈ occurring rules, nt < next) (hlt : ∀ nt ∈ component, nt < next)
    (hnonempty : ∀ rule ∈ rules, rule.lhs ∈ component → rule.rhs ≠ []) :
    Ensures (repairComponent rules component by_size next) fun r =>
      ComponentRepaired rules component next r.1 r.2 := by
  let start : Repairing := ⟨startRows rules component, SortedMap.empty, SortedMap.empty, next⟩
  let R := Relation.TransGen (LeadsTo rules)
  have hmem : ∀ nt, nt ∈ memberOrder rules component by_size ↔ nt ∈ component := fun nt =>
    mem_memberOrder
  have hsymbol : ∀ rule ∈ rules, ∀ nt, .nonterminal nt ∈ rule.rhs → nt < next := by
    intro rule hrule nt hnt
    exact hsmall nt (List.mem_flatMap.mpr
      ⟨rule, hrule, List.mem_cons_of_mem _ (mem_nonterminals.mpr hnt)⟩)
  have hfirst : ∀ nt ∈ memberOrder rules component by_size,
      FirstRow (rowOf start) (words (Produces rules)) R next nt := by
    intro nt hnt
    have hrule : ∀ rhs ∈ rowOf start nt, ⟨nt, rhs⟩ ∈ rules := fun rhs hrhs =>
      (mem_startRows.mp hrhs).2
    constructor
    · exact fun rhs hrhs => closed_words (Produces rules) nt rhs (hrule rhs hrhs)
    · exact fun hnil => hnonempty _ (hrule [] hnil) ((hmem nt).mp hnt) rfl
    · exact fun rhs hrhs => hsymbol _ (hrule rhs hrhs)
    · exact fun rhs hrhs b hb => Relation.TransGen.single ⟨_, hrule rhs hrhs, rfl, hb⟩
  have hstart : Repaired (rowOf start) (words (Produces rules)) R next []
      (memberOrder rules component by_size) start := by
    refine ⟨fun _ _ => rfl, fun nt hnt => absurd hnt List.not_mem_nil, ?_, ?_, ?_, ?_, ?_, le_rfl⟩
    · exact fun nt row hrow => Or.inr ((hmem nt).mpr (startRows_keys hrow))
    · intro before nt after hdone
      simp at hdone
    · intro head id hid
      cases hid
    · intro id row hrow
      cases hrow
    · intro head head' id hid
      cases hid
  have hrun := repairMembers_spec (fun _ _ _ => Relation.TransGen.trans)
    (fun nt hnt => hlt nt ((hmem nt).mp (by simpa using hnt)))
    (by simpa using memberOrder_nodup rules component by_size) hfirst hstart
  apply Ensures.map
  refine hrun.mono fun s h => ?_
  rw [List.nil_append] at h
  change ComponentRepaired rules component next (repairedRules rules component s) s.next
  constructor
  · exact h.bound_le
  · intro nt hnt
    obtain ⟨rule, hrule, hocc⟩ := List.mem_flatMap.mp hnt
    obtain ⟨hold, hout⟩ | hrow | ⟨row, hrow, hrhs⟩ := mem_repairedRules.mp hrule
    · exact (hsmall nt (List.mem_flatMap.mpr ⟨rule, hold, hocc⟩)).trans_le h.bound_le
    · obtain ⟨hlhs, hrhs⟩ := h.mem_rowOf.mp hrow
      obtain ⟨before, after, -, hr⟩ := h.exists_row hlhs
      obtain rfl | hocc := List.mem_cons.mp hocc
      · exact (hlt _ ((hmem _).mp hlhs)).trans_le h.bound_le
      · exact hr.small rule.rhs hrhs nt (mem_nonterminals.mp hocc)
    · obtain ⟨-, hid, head, hhead, -, rfl⟩ := helper_rule h hrow
      obtain ⟨before, after, -, hr⟩ := h.exists_row hhead
      obtain rfl | hocc := List.mem_cons.mp hocc
      · exact hid
      · obtain ⟨tail, htail, hrhs⟩ := mem_generated.mp hrhs
        have hsmalltail : .nonterminal nt ∈ tail → nt < s.next := fun hnt =>
          hr.small _ (mem_loopsOf.mp htail).1 nt (List.mem_cons_of_mem _ hnt)
        have hocc' := mem_nonterminals.mp hocc
        obtain he | he := hrhs
        · exact hsmalltail (he ▸ hocc')
        · rw [he, List.mem_cons] at hocc'
          obtain he | hocc' := hocc'
          · rw [Symbol.nonterminal.inj he]
            exact hid
          · exact hsmalltail hocc'
  · intro hall rule hrule hnil
    obtain ⟨hold, -⟩ | hrow | ⟨row, hrow, hrhs⟩ := mem_repairedRules.mp hrule
    · exact hall rule hold hnil
    · obtain ⟨hlhs, hrhs⟩ := h.mem_rowOf.mp hrow
      obtain ⟨before, after, -, hr⟩ := h.exists_row hlhs
      exact hr.nonempty (hnil ▸ hrhs)
    · obtain ⟨-, -, head, -, -, rfl⟩ := helper_rule h hrow
      obtain ⟨tail, htail, hrhs⟩ := mem_generated.mp hrhs
      rw [hnil] at hrhs
      obtain he | he := hrhs
      · exact (mem_loopsOf.mp htail).2 he.symm
      · cases he
  · intro nt hnt
    apply le_antisymm (words_repairedRules_le hsmall hmem hlt h hnt)
    apply le_words_repairedRules hmem hlt h
    exact fun nt hnt rhs hrule => mem_startRows.mpr ⟨hnt, hrule⟩
  · intro rule hrulelt hout
    rw [mem_repairedRules]
    constructor
    · rintro (⟨hrule, -⟩ | hrow | ⟨row, hrow, -⟩)
      · exact hrule
      · exact absurd ((hmem _).mp (h.mem_rowOf.mp hrow).1) hout
      · exact absurd hrulelt (not_lt.mpr (helper_rule h hrow).1)
    · exact fun hrule => Or.inl ⟨hrule, hout⟩
  · rintro a b ⟨rule, hrule, rfl, hb⟩
    obtain ⟨hold, -⟩ | hrow | ⟨row, hrow, -⟩ := mem_repairedRules.mp hrule
    · have hlead : LeadsTo rules rule.lhs b := ⟨rule, hold, rfl, hb⟩
      exact Or.inr ⟨hsmall _ hlead.occurring.1, hsmall b hlead.occurring.2, .single hlead⟩
    · obtain ⟨hlhs, hrhs⟩ := h.mem_rowOf.mp hrow
      obtain ⟨before, after, -, hr⟩ := h.exists_row hlhs
      have hlead := hr.leads rule.rhs hrhs b hb
      refine Or.inr ⟨hlt _ ((hmem _).mp hlhs), ?_, hlead⟩
      obtain ⟨c, -, hc⟩ := Relation.TransGen.tail'_iff.mp hlead
      exact hsmall b hc.occurring.2
    · obtain ⟨hle, hid, -⟩ := helper_rule h hrow
      exact Or.inl ⟨hle, hid⟩
  · refine ⟨fun nt => (memberOrder rules component by_size).idxOf nt, ?_⟩
    rintro a ha b hbmem ⟨rule, hrule, rfl, hb⟩
    have hdone := (hmem _).mpr ha
    have hrhs : rule.rhs ∈ rowOf s rule.lhs := by
      obtain ⟨-, hout⟩ | hrow | ⟨row, hrow, -⟩ := mem_repairedRules.mp hrule
      · exact absurd ha hout
      · exact (h.mem_rowOf.mp hrow).2
      · exact absurd (hlt _ ha) (not_lt.mpr (helper_rule h hrow).1)
    obtain ⟨before, after, hsplit, hr⟩ := h.exists_row hdone
    have hbefore : b ∉ before := by
      intro hmemb
      have hstarts := hr.ordered rule.rhs hrhs b hmemb
      rw [startsWith, hb] at hstarts
      simp at hstarts
    have hnodup := memberOrder_nodup rules component by_size
    rw [hsplit] at hnodup ⊢
    have hlhs : rule.lhs ∉ before := fun hin =>
      (List.nodup_append.mp hnodup).2.2 _ hin _ List.mem_cons_self rfl
    dsimp only
    rw [List.idxOf_append_of_notMem hlhs, List.idxOf_append_of_notMem hbefore, List.idxOf_cons_self]
    refine ⟨by omega, ?_⟩
    intro he
    by_contra hne
    rw [List.idxOf_cons_ne _ hne] at he
    omega
  · -- A new nonterminal is ranked by the position of its head.
    let ownerOf : NonterminalID → NonterminalID := fun id =>
      (((memberOrder rules component by_size).find? fun head => s.closures.get head = some id).getD 0)
    have howner : ∀ head id, s.closures.get head = some id → ownerOf id = head := by
      intro head id hid
      have hin := (h.ids head id hid).1
      dsimp only [ownerOf]
      cases hfind : (memberOrder rules component by_size).find? fun head => s.closures.get head = some id with
      | none =>
          exact absurd (List.find?_eq_none.mp hfind head hin) (by simp [hid])
      | some head' =>
          have hid' : s.closures.get head' = some id := by simpa using List.find?_some hfind
          exact h.injective head' head id hid' hid
    refine ⟨fun id => (memberOrder rules component by_size).idxOf (ownerOf id), ?_⟩
    rintro a b ha hb ⟨rule, hrule, rfl, hlead⟩ hne
    have hrow : ∃ row, s.helpers.get rule.lhs = some row ∧ rule.rhs ∈ row := by
      obtain ⟨hold, -⟩ | hrow | hrow := mem_repairedRules.mp hrule
      · exact absurd (hsmall _ (List.mem_flatMap.mpr ⟨rule, hold, List.mem_cons_self⟩)) (not_lt.mpr ha)
      · exact absurd (hlt _ ((hmem _).mp (h.mem_rowOf.mp hrow).1)) (not_lt.mpr ha)
      · exact hrow
    obtain ⟨row, hrow, hrhs⟩ := hrow
    obtain ⟨-, -, head, hhead, hid, rfl⟩ := helper_rule h hrow
    obtain ⟨before, after, hsplit, hr⟩ := h.exists_row hhead
    obtain ⟨tail, htail, hrhs⟩ := mem_generated.mp hrhs
    have hin : .nonterminal b ∈ tail := by
      obtain he | he := hrhs
      · rw [he] at hlead
        exact List.mem_of_mem_head? hlead
      · rw [he, List.head?_cons] at hlead
        exact absurd (Symbol.nonterminal.inj (Option.some.inj hlead)) hne
    obtain ⟨head', hhead', hid'⟩ := hr.owners _ (mem_loopsOf.mp htail).1 b
      (List.mem_cons_of_mem _ hin) hb
    have hnodup := memberOrder_nodup rules component by_size
    dsimp only
    rw [howner head' b hid', howner head rule.lhs hid]
    rw [hsplit] at hnodup ⊢
    have hnotin : head ∉ before := fun hin =>
      (List.nodup_append.mp hnodup).2.2 _ hin _ List.mem_cons_self rfl
    rw [List.idxOf_append_of_mem hhead', List.idxOf_append_of_notMem hnotin, List.idxOf_cons_self]
    have := List.idxOf_lt_length_of_mem hhead'
    omega

end Component

end LeftCornerClosure

end Grammar

end GlrMask
