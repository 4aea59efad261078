import GlrMask.Determinize
import GlrMask.IntegerRange

/-!
# Multiples of an integer

`integer_modulo_expr` builds an automaton whose states are the remainders of the digits
read so far. It is a graph with literal bytes on its edges, which is compiled into a byte
automaton.
-/

namespace GlrMask

namespace NFA

def new : NFA := ⟨[default], [0]⟩

def add_state (self : NFA) : ℕ × NFA :=
  (self.states.length, { self with states := self.states ++ [default] })

def push_target (state : NFAState) (label : Label) (target : ℕ) : NFAState :=
  { state with transitions :=
      state.transitions.insert label ((state.transitions.get label).getD [] ++ [target]) }

def add_transition (self : NFA) (source : ℕ) (label : Label) (target : ℕ) : NFA :=
  { self with states := self.states.modify source fun state =>
      push_target state label target }

def set_accepting (self : NFA) (state : ℕ) : NFA :=
  { self with states := self.states.modify state fun data => { data with is_accepting := true } }

def labelled_targets (self : NFA) (source : ℕ) (label : Label) : List ℕ :=
  ((self.states[source]?).map fun data => (data.transitions.get label).getD []).getD []

theorem edgeTo_iff {self : NFA} {label : Label} {source target : ℕ} :
    self.EdgeTo label source target ↔ target ∈ self.labelled_targets source label := by
  unfold EdgeTo labelled_targets
  cases self.states[source]? with
  | none => simp
  | some data =>
    cases hget : data.transitions.get label with
    | none => simp [hget]
    | some targets => simp [hget]

theorem epsilons_of_add_transition (self : NFA) (source : ℕ) (label : Label) (target state : ℕ) :
    (self.add_transition source label target).epsilons_of state = self.epsilons_of state := by
  rw [epsilons_of, add_transition, List.getElem?_modify]
  unfold epsilons_of
  cases self.states[state]? with
  | none => rfl
  | some data =>
    simp only [Option.map_some, Option.getD_some]
    split_ifs <;> rfl

theorem accepting_add_transition (self : NFA) (source : ℕ) (label : Label) (target state : ℕ) :
    (self.add_transition source label target).accepting state = self.accepting state := by
  rw [accepting, add_transition, List.getElem?_modify]
  unfold accepting
  cases self.states[state]? with
  | none => rfl
  | some data =>
    simp only [Option.map_some, Option.getD_some]
    split_ifs <;> rfl

theorem mem_labelled_targets_add_transition {self : NFA} {source : ℕ}
    (hs : source < self.states.length) {label : Label} {target s t : ℕ} {l : Label} :
    t ∈ (self.add_transition source label target).labelled_targets s l ↔
      (s = source ∧ l = label ∧ t = target) ∨ t ∈ self.labelled_targets s l := by
  rw [labelled_targets, add_transition, List.getElem?_modify]
  unfold labelled_targets
  by_cases hsource : source = s
  · subst hsource
    rw [List.getElem?_eq_getElem hs]
    simp only [Option.map_eq_map, Option.map_some, Option.getD_some, if_true, true_and,
      push_target, SortedMap.get_insert]
    by_cases hlabel : label = l
    · subst hlabel
      rw [if_pos rfl, Option.getD_some, List.mem_append, List.mem_singleton, or_comm]
      simp only [true_and]
    · rw [if_neg hlabel]
      have : ¬ l = label := fun h => hlabel h.symm
      simp only [this, false_and, false_or]
  · have : ¬ s = source := fun h => hsource h.symm
    simp only [this, false_and, false_or, if_neg hsource]
    cases self.states[s]? <;> rfl

end NFA

abbrev Bytes := List UInt8

/-- A graph and the literals behind its labels; a literal gets one label. -/
structure ExprNfaBuilder where
  nfa : NFA
  symbols : List Bytes

namespace ExprNfaBuilder

def new : ExprNfaBuilder := ⟨NFA.new, []⟩

def start_state (self : ExprNfaBuilder) : ℕ := self.nfa.start_states.headD 0

def add_state (self : ExprNfaBuilder) : ℕ × ExprNfaBuilder :=
  (self.nfa.add_state.1, { self with nfa := self.nfa.add_state.2 })

def add_symbol (self : ExprNfaBuilder) (symbol : Bytes) : Label × ExprNfaBuilder :=
  if symbol ∈ self.symbols then (self.symbols.idxOf symbol, self)
  else (self.symbols.length, { self with symbols := self.symbols ++ [symbol] })

def add_labeled_transition (self : ExprNfaBuilder) (source : ℕ) (label : Label) (target : ℕ) :
    ExprNfaBuilder :=
  { self with nfa := self.nfa.add_transition source label target }

def add_transition (self : ExprNfaBuilder) (source : ℕ) (symbol : Bytes) (target : ℕ) :
    ExprNfaBuilder :=
  let labelled := self.add_symbol symbol
  labelled.2.add_labeled_transition source labelled.1 target

def set_accepting (self : ExprNfaBuilder) (state : ℕ) : ExprNfaBuilder :=
  { self with nfa := self.nfa.set_accepting state }

/-- Several new states. -/
def add_states (self : ExprNfaBuilder) (count : ℕ) : List ℕ × ExprNfaBuilder :=
  (List.range count).foldl (fun s _ => (s.1 ++ [s.2.add_state.1], s.2.add_state.2)) ([], self)

/-- The labels of several literals. -/
def add_symbols (self : ExprNfaBuilder) (symbols : List Bytes) : List Label × ExprNfaBuilder :=
  symbols.foldl (fun s symbol => (s.1 ++ [(s.2.add_symbol symbol).1], (s.2.add_symbol symbol).2))
    ([], self)

/-- The bytes of the labels of a path from a start state to an accepting state. -/
def AcceptsBytes (self : ExprNfaBuilder) (bytes : Bytes) : Prop :=
  ∃ word : List Label, self.nfa.AcceptsWord word ∧
    ∃ parts : List Bytes, List.Forall₂
      (fun label part => 0 ≤ label ∧ self.symbols[label.toNat]? = some part) word parts ∧
      bytes = parts.flatten

/-- The edges and the accepting states of a graph of `n` states without epsilon edges. -/
structure Built (graph : ExprNfaBuilder) (n : ℕ) (edges : Set (ℕ × Label × ℕ))
    (accepting : Set ℕ) : Prop where
  length : graph.nfa.states.length = n
  start : graph.nfa.start_states = [0]
  epsilons : ∀ state, graph.nfa.epsilons_of state = []
  edge : ∀ source label target,
    target ∈ graph.nfa.labelled_targets source label ↔ (source, label, target) ∈ edges
  accept : ∀ state, graph.nfa.accepting state = true ↔ state ∈ accepting

variable {graph : ExprNfaBuilder} {n : ℕ} {edges : Set (ℕ × Label × ℕ)} {accepting : Set ℕ}

theorem Built.of_edges (h : graph.Built n edges accepting) {edges' : Set (ℕ × Label × ℕ)}
    (heq : edges = edges') : graph.Built n edges' accepting := heq ▸ h

theorem built_new : new.Built 1 ∅ ∅ := by
  refine ⟨rfl, rfl, ?_, ?_, ?_⟩
  · intro state
    cases state <;> rfl
  · intro source label target
    cases source <;> exact iff_of_false List.not_mem_nil (Set.notMem_empty _)
  · intro state
    cases state <;> exact iff_of_false Bool.false_ne_true (Set.notMem_empty _)

/-- A new state is a row without edges. -/
theorem getElem?_add_state (nfa : NFA) (state : ℕ) (h : state ≠ nfa.states.length) :
    nfa.add_state.2.states[state]? = nfa.states[state]? := by
  rw [NFA.add_state]
  by_cases hlt : state < nfa.states.length
  · exact List.getElem?_append_left hlt
  · have hnone : nfa.states[state]? = none := List.getElem?_eq_none (by omega)
    rw [hnone]
    apply List.getElem?_eq_none
    rw [List.length_append, List.length_singleton]
    omega

theorem getElem?_add_state_new (nfa : NFA) :
    nfa.add_state.2.states[nfa.states.length]? = some default := by
  rw [NFA.add_state]
  exact List.getElem?_concat_length

theorem Built.add_state (h : graph.Built n edges accepting) :
    graph.add_state.1 = n ∧ graph.add_state.2.Built (n + 1) edges accepting := by
  have hnone : graph.nfa.states[graph.nfa.states.length]? = none :=
    List.getElem?_eq_none le_rfl
  have hrow : ∀ state : ℕ, graph.add_state.2.nfa.states[state]? = graph.nfa.states[state]? ∨
      graph.add_state.2.nfa.states[state]? = some (default : NFAState) ∧ graph.nfa.states[state]? = none := by
    intro state
    by_cases hstate : state = graph.nfa.states.length
    · subst hstate
      exact Or.inr ⟨getElem?_add_state_new graph.nfa, hnone⟩
    · exact Or.inl (getElem?_add_state graph.nfa state hstate)
  refine ⟨h.length, ?_, h.start, ?_, ?_, ?_⟩
  · rw [← h.length]
    exact List.length_append
  · intro state
    rw [← h.epsilons state]
    unfold NFA.epsilons_of
    obtain heq | ⟨hnew, hold⟩ := hrow state
    · rw [heq]
    · rw [hnew, hold]
      rfl
  · intro source label target
    rw [← h.edge source label target]
    unfold NFA.labelled_targets
    obtain heq | ⟨hnew, hold⟩ := hrow source
    · rw [heq]
    · rw [hnew, hold]
      rfl
  · intro state
    rw [← h.accept state]
    unfold NFA.accepting
    obtain heq | ⟨hnew, hold⟩ := hrow state
    · rw [heq]
    · rw [hnew, hold]
      rfl

theorem Built.add_labeled_transition (h : graph.Built n edges accepting) {source : ℕ}
    (hs : source < n) (label : Label) (target : ℕ) :
    (graph.add_labeled_transition source label target).Built n
      (insert (source, label, target) edges) accepting := by
  refine ⟨?_, h.start, ?_, ?_, ?_⟩
  · rw [← h.length]
    exact List.length_modify _ _ _
  · intro state
    rw [← h.epsilons state]
    exact NFA.epsilons_of_add_transition _ _ _ _ _
  · intro s l t
    rw [Set.mem_insert_iff, ← h.edge s l t, Prod.mk.injEq, Prod.mk.injEq]
    exact NFA.mem_labelled_targets_add_transition (h.length ▸ hs)
  · intro state
    have heq : (graph.add_labeled_transition source label target).nfa.accepting state =
        graph.nfa.accepting state := NFA.accepting_add_transition _ _ _ _ _
    rw [heq, h.accept state]

theorem Built.set_accepting (h : graph.Built n edges accepting) {state : ℕ} (hs : state < n) :
    (graph.set_accepting state).Built n edges (insert state accepting) := by
  have hrow : ∀ s : ℕ, (graph.set_accepting state).nfa.states[s]? =
      (graph.nfa.states[s]?).map fun data =>
        if state = s then { data with is_accepting := true } else data := by
    intro s
    exact (List.getElem?_modify _ _ _ _).trans (by split_ifs <;> simp)
  refine ⟨?_, h.start, ?_, ?_, ?_⟩
  · rw [← h.length]
    exact List.length_modify _ _ _
  · intro s
    rw [← h.epsilons s]
    unfold NFA.epsilons_of
    rw [hrow]
    cases graph.nfa.states[s]? with
    | none => rfl
    | some data =>
      simp only [Option.map_some, Option.getD_some]
      split_ifs <;> rfl
  · intro s l t
    rw [← h.edge s l t]
    unfold NFA.labelled_targets
    rw [hrow]
    cases graph.nfa.states[s]? with
    | none => rfl
    | some data =>
      simp only [Option.map_some, Option.getD_some]
      split_ifs <;> rfl
  · intro s
    rw [Set.mem_insert_iff, ← h.accept s]
    unfold NFA.accepting
    rw [hrow]
    by_cases hstate : s = state
    · subst hstate
      rw [List.getElem?_eq_getElem (h.length ▸ hs)]
      simp
    · have hne : ¬ state = s := fun heq => hstate heq.symm
      simp only [if_neg hne, hstate, false_or, Option.map_id']

/-- New states are numbered from the number of states on. -/
theorem Built.add_states (h : graph.Built n edges accepting) (count : ℕ) :
    (graph.add_states count).1 = List.range' n count ∧
      (graph.add_states count).2.Built (n + count) edges accepting ∧
      (graph.add_states count).2.symbols = graph.symbols := by
  induction count with
  | zero => exact ⟨rfl, h, rfl⟩
  | succ count ih =>
    obtain ⟨hids, hbuilt, hsymbols⟩ := ih
    obtain ⟨hid, hnext⟩ := hbuilt.add_state
    have hsucc : graph.add_states (count + 1) =
        ((graph.add_states count).1 ++ [(graph.add_states count).2.add_state.1],
          (graph.add_states count).2.add_state.2) := by
      unfold ExprNfaBuilder.add_states
      rw [List.range_succ, List.foldl_append]
      rfl
    rw [hsucc]
    refine ⟨?_, hnext, hsymbols⟩
    rw [hids, hid, List.range'_1_concat]

theorem add_symbol_new {symbol : Bytes} (h : symbol ∉ graph.symbols) :
    graph.add_symbol symbol =
      ((graph.symbols.length : ℤ), { graph with symbols := graph.symbols ++ [symbol] }) := if_neg h

/-- New literals are numbered from the number of literals on. -/
theorem add_symbols_new {symbols : List Bytes} (h : (graph.symbols ++ symbols).Nodup) :
    graph.add_symbols symbols =
      ((List.range symbols.length).map fun i => ((graph.symbols.length + i : ℕ) : ℤ),
        { graph with symbols := graph.symbols ++ symbols }) := by
  induction symbols using List.reverseRecOn with
  | nil =>
    rw [List.append_nil]
    rfl
  | append_singleton symbols symbol ih =>
    rw [← List.append_assoc] at h
    have hnot : symbol ∉ graph.symbols ++ symbols := by
      intro hmem
      exact (List.nodup_append.mp h).2.2 symbol hmem symbol (List.mem_singleton_self _) rfl
    have hlast : graph.add_symbols (symbols ++ [symbol]) =
        ((graph.add_symbols symbols).1 ++ [((graph.add_symbols symbols).2.add_symbol symbol).1],
          ((graph.add_symbols symbols).2.add_symbol symbol).2) := by
      unfold add_symbols
      rw [List.foldl_append]
      rfl
    rw [hlast, ih (List.nodup_append.mp h).1, add_symbol_new hnot, List.length_append,
      List.length_append, List.length_singleton, List.range_succ, List.map_append,
      List.append_assoc]
    rfl

theorem Built.foldl_transitions {ι : Type} (h : graph.Built n edges accepting) (l : List ι)
    (f : ι → ℕ × Label × ℕ) (hf : ∀ i ∈ l, (f i).1 < n) :
    (l.foldl (fun graph i => graph.add_labeled_transition (f i).1 (f i).2.1 (f i).2.2)
        graph).Built n ({e | ∃ i ∈ l, e = f i} ∪ edges) accepting ∧
      (l.foldl (fun graph i => graph.add_labeled_transition (f i).1 (f i).2.1 (f i).2.2)
        graph).symbols = graph.symbols := by
  induction l generalizing graph edges with
  | nil =>
    refine ⟨?_, rfl⟩
    have hset : {e | ∃ i ∈ ([] : List ι), e = f i} ∪ edges = edges := by
      ext e
      simp
    rw [hset]
    exact h
  | cons i l ih =>
    have hadd := h.add_labeled_transition (hf i List.mem_cons_self) (f i).2.1 (f i).2.2
    obtain ⟨hbuilt, hsymbols⟩ := ih hadd (fun j hj => hf j (List.mem_cons_of_mem _ hj))
    refine ⟨?_, hsymbols⟩
    have hset : {e | ∃ j ∈ i :: l, e = f j} ∪ edges =
        {e | ∃ j ∈ l, e = f j} ∪ insert (f i) edges := by
      ext e
      simp only [Set.mem_union, Set.mem_ofPred_eq, List.mem_cons, exists_eq_or_imp,
        Set.mem_insert_iff]
      rw [or_left_comm, or_assoc]
    rw [hset]
    exact hbuilt

end ExprNfaBuilder

namespace NumericRange

def MAX_INTEGER_REMAINDER_STATES : ℕ := 4096

def digit_byte (digit : ℕ) : UInt8 := UInt8.ofNat (48 + digit)

def digit_symbols : List Bytes := (List.range 10).map fun digit => [digit_byte digit]

/-- The edges of a leading digit. -/
def add_leading_digits (divisor : ℕ) (zero_state : ℕ) (remainders : List ℕ) (digits : List Label)
    (graph : ExprNfaBuilder) (source : ℕ) : ExprNfaBuilder :=
  (List.range' 1 9).foldl (fun graph digit =>
      graph.add_labeled_transition source (digits.getD digit 0)
        (remainders.getD (digit % divisor) 0))
    (graph.add_labeled_transition source (digits.getD 0 0) zero_state)

/-- The edges between remainders. -/
def add_remainder_digits (divisor : ℕ) (remainders : List ℕ) (digits : List Label)
    (graph : ExprNfaBuilder) : ExprNfaBuilder :=
  (List.range divisor).foldl (fun graph remainder =>
    (List.range 10).foldl (fun graph digit =>
      graph.add_labeled_transition (remainders.getD remainder 0) (digits.getD digit 0)
        (remainders.getD ((10 * remainder + digit) % divisor) 0)) graph) graph

def integer_modulo_graph (divisor : ℕ) : ExprNfaBuilder :=
  let graph := ExprNfaBuilder.new
  let start := graph.start_state
  let (after_minus, graph) := graph.add_state
  let (zero_state, graph) := graph.add_state
  let (remainders, graph) := graph.add_states divisor
  let (digits, graph) := graph.add_symbols digit_symbols
  let graph := graph.add_transition start [45] after_minus
  let graph := graph.set_accepting zero_state
  let graph := graph.set_accepting (remainders.getD 0 0)
  let graph := [start, after_minus].foldl
    (add_leading_digits divisor zero_state remainders digits) graph
  add_remainder_digits divisor remainders digits graph

/-- The automaton that `compile` makes of the graph. -/
def integer_modulo_expr {Dfa : Type} (compile : ExprNfaBuilder → Except String Dfa)
    (divisor : ℕ) : Except String Dfa :=
  if divisor = 0 ∨ divisor > MAX_INTEGER_REMAINDER_STATES then
    .error s!"integer multipleOf={divisor} exceeds the exact remainder-state budget of {MAX_INTEGER_REMAINDER_STATES}; supply finite bounds or a supported compact divisor"
  else compile (integer_modulo_graph divisor)

theorem digit_byte_toNat {digit : ℕ} (h : digit < 10) : (digit_byte digit).toNat = 48 + digit := by
  rw [digit_byte, UInt8.toNat_ofNat']
  omega

theorem digit_byte_injective {d e : ℕ} (hd : d < 10) (he : e < 10)
    (h : digit_byte d = digit_byte e) : d = e := by
  have := congrArg UInt8.toNat h
  rw [digit_byte_toNat hd, digit_byte_toNat he] at this
  omega

theorem digit_symbols_nodup : digit_symbols.Nodup := by
  apply List.Nodup.map_on _ List.nodup_range
  intro d hd e he h
  exact digit_byte_injective (List.mem_range.mp hd) (List.mem_range.mp he) (List.cons.inj h).1

theorem minus_notMem_digit_symbols : [45] ∉ digit_symbols := by
  intro h
  obtain ⟨d, hd, heq⟩ := List.mem_map.mp h
  have := congrArg UInt8.toNat (List.cons.inj heq).1
  rw [digit_byte_toNat (List.mem_range.mp hd)] at this
  have h45 : (45 : UInt8).toNat = 45 := rfl
  omega

/-- The edges of the automaton: a sign, a leading digit, and a digit after a remainder. -/
def modulo_edges (divisor : ℕ) : Set (ℕ × Label × ℕ) :=
  {e | e = (0, 10, 1) ∨ (∃ source ∈ [0, 1], e = (source, 0, 2) ∨
      ∃ digit : ℕ, digit ∈ List.range' 1 9 ∧ e = (source, (digit : ℤ), 3 + digit % divisor)) ∨
    ∃ remainder digit : ℕ, remainder < divisor ∧ digit < 10 ∧
      e = (3 + remainder, (digit : ℤ), 3 + (10 * remainder + digit) % divisor)}

theorem getD_remainder {divisor r : ℕ} (h : r < divisor) :
    (List.range' 3 divisor).getD r 0 = 3 + r := by
  rw [List.getD_eq_getElem?_getD, List.getElem?_range' h, Option.getD_some, one_mul]

theorem getD_digit {d : ℕ} (h : d < 10) : ((List.range 10).map Int.ofNat).getD d 0 = (d : ℤ) := by
  rw [List.getD_eq_getElem?_getD, List.getElem?_map, List.getElem?_range h]
  rfl

theorem add_digit_symbols (nfa : NFA) :
    (⟨nfa, []⟩ : ExprNfaBuilder).add_symbols digit_symbols =
      ((List.range 10).map Int.ofNat, ⟨nfa, digit_symbols⟩) := by
  have hnodup : ((⟨nfa, []⟩ : ExprNfaBuilder).symbols ++ digit_symbols).Nodup := by
    rw [List.nil_append]
    exact digit_symbols_nodup
  rw [ExprNfaBuilder.add_symbols_new hnodup]
  simp only [List.nil_append, List.length_nil, zero_add]
  rfl

theorem add_minus_symbol (nfa : NFA) (target : ℕ) :
    (⟨nfa, digit_symbols⟩ : ExprNfaBuilder).add_transition 0 [45] target =
      (⟨nfa, digit_symbols ++ [[45]]⟩ : ExprNfaBuilder).add_labeled_transition 0 10 target := by
  rw [ExprNfaBuilder.add_transition, ExprNfaBuilder.add_symbol_new minus_notMem_digit_symbols]
  rfl

section edges

variable {graph : ExprNfaBuilder} {n divisor : ℕ} {edges : Set (ℕ × Label × ℕ)}
  {accepting : Set ℕ}

theorem built_add_leading_digits (h : graph.Built n edges accepting) (hd : 0 < divisor)
    {source : ℕ} (hs : source < n) :
    (add_leading_digits divisor 2 (List.range' 3 divisor) ((List.range 10).map Int.ofNat) graph
        source).Built n ({e | e = (source, 0, 2) ∨ ∃ digit : ℕ, digit ∈ List.range' 1 9 ∧
          e = (source, (digit : ℤ), 3 + digit % divisor)} ∪ edges) accepting ∧
      (add_leading_digits divisor 2 (List.range' 3 divisor) ((List.range 10).map Int.ofNat) graph
        source).symbols = graph.symbols := by
  have hzero := h.add_labeled_transition hs 0 2
  obtain ⟨hbuilt, hsymbols⟩ := hzero.foldl_transitions (List.range' 1 9)
    (fun digit => (source, ((List.range 10).map Int.ofNat).getD digit 0,
      (List.range' 3 divisor).getD (digit % divisor) 0)) (fun _ _ => hs)
  refine ⟨?_, hsymbols⟩
  have hset : ({e | e = (source, 0, 2) ∨ ∃ digit : ℕ, digit ∈ List.range' 1 9 ∧
      e = (source, (digit : ℤ), 3 + digit % divisor)} ∪ edges : Set (ℕ × Label × ℕ)) =
      {e | ∃ digit ∈ List.range' 1 9, e = (source, ((List.range 10).map Int.ofNat).getD digit 0,
        (List.range' 3 divisor).getD (digit % divisor) 0)} ∪ insert (source, 0, 2) edges := by
    ext e
    have hdigit : (∃ digit ∈ List.range' 1 9, e = (source,
        ((List.range 10).map Int.ofNat).getD digit 0,
        (List.range' 3 divisor).getD (digit % divisor) 0)) ↔
        ∃ digit : ℕ, digit ∈ List.range' 1 9 ∧
          e = (source, (digit : ℤ), 3 + digit % divisor) := by
      apply exists_congr
      intro digit
      apply and_congr_right
      intro hmem
      have hlt : digit < 10 := by
        have := (List.mem_range'_1.mp hmem).2
        omega
      rw [getD_digit hlt, getD_remainder (Nat.mod_lt _ hd)]
    simp only [Set.mem_union, Set.mem_ofPred_eq, Set.mem_insert_iff, hdigit]
    rw [or_comm (a := e = (source, 0, 2)), or_assoc]
  rw [hset]
  exact hbuilt

/-- The loop over the digits is a loop over pairs. -/
theorem foldl_pairs {α : Type} (l : List ℕ) (k : List ℕ) (f : α → ℕ × ℕ → α) (a : α) :
    l.foldl (fun a r => k.foldl (fun a d => f a (r, d)) a) a =
      (l.flatMap fun r => k.map (Prod.mk r)).foldl f a := by
  rw [List.foldl_flatMap]
  simp only [List.foldl_map]

theorem built_add_remainder_digits (h : graph.Built (3 + divisor) edges accepting) :
    (add_remainder_digits divisor (List.range' 3 divisor) ((List.range 10).map Int.ofNat)
        graph).Built (3 + divisor)
      ({e | ∃ remainder digit : ℕ, remainder < divisor ∧ digit < 10 ∧
        e = (3 + remainder, (digit : ℤ), 3 + (10 * remainder + digit) % divisor)} ∪ edges)
      accepting ∧
      (add_remainder_digits divisor (List.range' 3 divisor) ((List.range 10).map Int.ofNat)
        graph).symbols = graph.symbols := by
  have hloop := foldl_pairs (List.range divisor) (List.range 10) (fun graph (i : ℕ × ℕ) =>
    ExprNfaBuilder.add_labeled_transition graph ((List.range' 3 divisor).getD i.1 0)
      (((List.range 10).map Int.ofNat).getD i.2 0)
      ((List.range' 3 divisor).getD ((10 * i.1 + i.2) % divisor) 0)) graph
  have hmem : ∀ i : ℕ × ℕ, i ∈ ((List.range divisor).flatMap fun r =>
      (List.range 10).map (Prod.mk r)) ↔ i.1 < divisor ∧ i.2 < 10 := by
    intro i
    simp only [List.mem_flatMap, List.mem_range, List.mem_map]
    constructor
    · intro hi
      obtain ⟨r, hr, d, hd, rfl⟩ := hi
      exact ⟨hr, hd⟩
    · intro hi
      exact ⟨i.1, hi.1, i.2, hi.2, rfl⟩
  obtain ⟨hbuilt, hsymbols⟩ := h.foldl_transitions ((List.range divisor).flatMap fun r =>
      (List.range 10).map (Prod.mk r)) (fun i => ((List.range' 3 divisor).getD i.1 0,
        ((List.range 10).map Int.ofNat).getD i.2 0,
        (List.range' 3 divisor).getD ((10 * i.1 + i.2) % divisor) 0)) (by
    intro i hi
    rw [getD_remainder ((hmem i).mp hi).1]
    have := ((hmem i).mp hi).1
    omega)
  rw [add_remainder_digits, hloop]
  refine ⟨?_, hsymbols⟩
  have hset : ({e | ∃ remainder digit : ℕ, remainder < divisor ∧ digit < 10 ∧
      e = (3 + remainder, (digit : ℤ), 3 + (10 * remainder + digit) % divisor)} :
        Set (ℕ × Label × ℕ)) =
      {e | ∃ i ∈ (List.range divisor).flatMap fun r => (List.range 10).map (Prod.mk r),
        e = ((List.range' 3 divisor).getD i.1 0, ((List.range 10).map Int.ofNat).getD i.2 0,
          (List.range' 3 divisor).getD ((10 * i.1 + i.2) % divisor) 0)} := by
    ext e
    constructor
    · intro he
      obtain ⟨r, d, hr, hd, rfl⟩ := he
      refine ⟨(r, d), (hmem _).mpr ⟨hr, hd⟩, ?_⟩
      rw [getD_remainder hr, getD_digit hd, getD_remainder (Nat.mod_lt _ (by omega))]
    · intro he
      obtain ⟨⟨r, d⟩, hi, rfl⟩ := he
      obtain ⟨hr, hd⟩ := (hmem _).mp hi
      refine ⟨r, d, hr, hd, ?_⟩
      rw [getD_remainder hr, getD_digit hd, getD_remainder (Nat.mod_lt _ (by omega))]
  rw [hset]
  exact hbuilt

end edges

theorem integer_modulo_graph_built {divisor : ℕ} (h : 0 < divisor) :
    (integer_modulo_graph divisor).Built (3 + divisor) (modulo_edges divisor) {2, 3} ∧
      (integer_modulo_graph divisor).symbols = digit_symbols ++ [[45]] := by
  obtain ⟨hone, h₁⟩ := ExprNfaBuilder.built_new.add_state
  obtain ⟨htwo, h₂⟩ := h₁.add_state
  obtain ⟨hids, h₃, hsymbols⟩ := h₂.add_states divisor
  generalize hstates : ExprNfaBuilder.new.add_state.2.add_state.2.add_states divisor = states at *
  obtain ⟨ids, ⟨nfa, symbols⟩⟩ := states
  obtain rfl : symbols = [] := hsymbols
  obtain rfl : ids = List.range' 3 divisor := hids
  obtain ⟨signed, hsigned⟩ : ∃ signed, signed = (((⟨nfa, digit_symbols ++ [[45]]⟩ :
    ExprNfaBuilder).add_labeled_transition 0 10 1).set_accepting 2).set_accepting 3 := ⟨_, rfl⟩
  have hgraph : integer_modulo_graph divisor =
      add_remainder_digits divisor (List.range' 3 divisor) ((List.range 10).map Int.ofNat)
        (add_leading_digits divisor 2 (List.range' 3 divisor) ((List.range 10).map Int.ofNat)
          (add_leading_digits divisor 2 (List.range' 3 divisor) ((List.range 10).map Int.ofNat)
            signed 0) 1) := by
    have hstart : ExprNfaBuilder.new.start_state = 0 := rfl
    have hzero : ExprNfaBuilder.new.add_state.2.add_state.1 = 2 := htwo
    have hthree : (List.range' 3 divisor).getD 0 0 = 3 := getD_remainder h
    unfold integer_modulo_graph
    dsimp only
    rw [hstates]
    dsimp only
    rw [add_digit_symbols, hone, hzero, hthree, hstart, add_minus_symbol, hsigned, List.foldl_cons,
      List.foldl_cons, List.foldl_nil]
  have hbuilt : (⟨nfa, digit_symbols ++ [[45]]⟩ : ExprNfaBuilder).Built (3 + divisor) ∅ ∅ :=
    ⟨h₃.length, h₃.start, h₃.epsilons, h₃.edge, h₃.accept⟩
  have hsign := ((hbuilt.add_labeled_transition (by omega : 0 < 3 + divisor) 10 1).set_accepting
    (by omega : 2 < 3 + divisor)).set_accepting (by omega : 3 < 3 + divisor)
  rw [← hsigned] at hsign
  have hsignSymbols : signed.symbols = digit_symbols ++ [[45]] := hsigned ▸ rfl
  obtain ⟨hstart, hstartSymbols⟩ := built_add_leading_digits hsign h (by omega : 0 < 3 + divisor)
  obtain ⟨hminus, hminusSymbols⟩ := built_add_leading_digits hstart h (by omega : 1 < 3 + divisor)
  obtain ⟨hall, hallSymbols⟩ := built_add_remainder_digits hminus
  rw [hgraph]
  refine ⟨?_, by rw [hallSymbols, hminusSymbols, hstartSymbols, hsignSymbols]⟩
  have haccept : (insert 3 (insert 2 ∅) : Set ℕ) = {2, 3} := by
    rw [Set.insert_comm, insert_empty_eq]
  rw [haccept] at hall
  apply hall.of_edges
  ext e
  simp only [modulo_edges, Set.mem_union, Set.mem_ofPred_eq, List.mem_cons, List.not_mem_nil,
    or_false, exists_eq_or_imp, exists_eq_left, Set.mem_insert_iff, Set.mem_empty_iff_false]
  rw [or_comm, or_comm (b := e = (0, 10, 1)), or_left_comm, or_assoc, or_assoc]
  exact or_congr_right (or_left_comm.trans or_assoc.symm)

/-! ## What the automaton reads -/

/-- A word from a state to an accepting state, by its bytes. -/
def ReadsFrom (divisor state : ℕ) (bytes : Bytes) : Prop :=
  ∃ word target, (integer_modulo_graph divisor).nfa.Path state word target ∧
    (integer_modulo_graph divisor).nfa.accepting target = true ∧
    ∃ parts : List Bytes, List.Forall₂ (fun label part =>
      0 ≤ label ∧ (integer_modulo_graph divisor).symbols[label.toNat]? = some part) word parts ∧
      bytes = parts.flatten

theorem acceptsBytes_iff {divisor : ℕ} (h : 0 < divisor) {bytes : Bytes} :
    (integer_modulo_graph divisor).AcceptsBytes bytes ↔ ReadsFrom divisor 0 bytes := by
  obtain ⟨hbuilt, -⟩ := integer_modulo_graph_built h
  constructor
  · intro haccepts
    obtain ⟨word, ⟨start, hstart, target, hpath, hacc⟩, hparts⟩ := haccepts
    rw [hbuilt.start, List.mem_singleton] at hstart
    exact ⟨word, target, hstart ▸ hpath, hacc, hparts⟩
  · intro hreads
    obtain ⟨word, target, hpath, hacc, hparts⟩ := hreads
    exact ⟨word, ⟨0, by rw [hbuilt.start]; exact List.mem_singleton_self 0, target, hpath, hacc⟩,
      hparts⟩

/-- The byte of a label. -/
def label_byte (label : Label) (byte : UInt8) : Prop :=
  (∃ digit : ℕ, digit < 10 ∧ label = digit ∧ byte = digit_byte digit) ∨ label = 10 ∧ byte = 45

theorem symbol_iff {label : Label} {part : Bytes} :
    (0 ≤ label ∧ (digit_symbols ++ [[45]])[label.toNat]? = some part) ↔
      ∃ byte, label_byte label byte ∧ part = [byte] := by
  have hlength : digit_symbols.length = 10 := rfl
  constructor
  · intro h
    obtain ⟨hpos, hget⟩ := h
    have hnat : (label.toNat : ℤ) = label := Int.toNat_of_nonneg hpos
    by_cases hlt : label.toNat < 10
    · rw [List.getElem?_append_left (hlength ▸ hlt), digit_symbols, List.getElem?_map,
        List.getElem?_range hlt] at hget
      exact ⟨_, Or.inl ⟨label.toNat, hlt, hnat.symm, rfl⟩, (Option.some.inj hget).symm⟩
    · rw [List.getElem?_append_right (hlength ▸ not_lt.mp hlt), hlength] at hget
      have hten : label.toNat = 10 := by
        have := (List.getElem?_eq_some_iff.mp hget).1
        rw [List.length_singleton] at this
        omega
      rw [hten] at hget
      exact ⟨45, Or.inr ⟨by rw [← hnat, hten]; rfl, rfl⟩, (Option.some.inj hget).symm⟩
  · intro h
    obtain ⟨byte, ⟨digit, hlt, rfl, rfl⟩ | ⟨rfl, rfl⟩, rfl⟩ := h
    · refine ⟨Int.natCast_nonneg digit, ?_⟩
      rw [Int.toNat_natCast, List.getElem?_append_left (hlength ▸ hlt), digit_symbols,
        List.getElem?_map, List.getElem?_range hlt]
      rfl
    · exact ⟨by decide, rfl⟩

theorem readsFrom_nil {divisor : ℕ} (h : 0 < divisor) {state : ℕ} :
    ReadsFrom divisor state [] ↔ state = 2 ∨ state = 3 := by
  obtain ⟨hbuilt, hsymbols⟩ := integer_modulo_graph_built h
  constructor
  · intro hreads
    obtain ⟨word, target, hpath, hacc, parts, hparts, hflat⟩ := hreads
    rw [hsymbols] at hparts
    cases hpath with
    | refl => exact (hbuilt.accept state).mp hacc
    | epsilon heps => simp [hbuilt.epsilons] at heps
    | edge hedge hrest =>
      cases hparts with
      | cons hpart hparts =>
        obtain ⟨byte, -, rfl⟩ := symbol_iff.mp hpart
        cases hflat
  · intro hstate
    exact ⟨[], state, .refl state, (hbuilt.accept state).mpr hstate, [], .nil, rfl⟩

theorem readsFrom_cons {divisor : ℕ} (h : 0 < divisor) {state : ℕ} {byte : UInt8} {bytes : Bytes} :
    ReadsFrom divisor state (byte :: bytes) ↔ ∃ label target, label_byte label byte ∧
      (state, label, target) ∈ modulo_edges divisor ∧ ReadsFrom divisor target bytes := by
  obtain ⟨hbuilt, hsymbols⟩ := integer_modulo_graph_built h
  constructor
  · intro hreads
    obtain ⟨word, target, hpath, hacc, parts, hparts, hflat⟩ := hreads
    have hparts' := hparts
    rw [hsymbols] at hparts
    cases hpath with
    | refl =>
      cases hparts
      cases hflat
    | epsilon heps => simp [hbuilt.epsilons] at heps
    | edge hedge hrest =>
      cases hparts with
      | cons hpart hparts =>
        obtain ⟨first, hfirst, rfl⟩ := symbol_iff.mp hpart
        rw [List.flatten_cons, List.singleton_append, List.cons.injEq] at hflat
        obtain ⟨rfl, rfl⟩ := hflat
        refine ⟨_, _, hfirst, (hbuilt.edge _ _ _).mp (NFA.edgeTo_iff.mp hedge), ?_⟩
        exact ⟨_, _, hrest, hacc, _, hsymbols ▸ hparts, rfl⟩
  · intro hreads
    obtain ⟨label, next, hbyte, hedge, word, target, hpath, hacc, parts, hparts, rfl⟩ := hreads
    refine ⟨label :: word, target, .edge (NFA.edgeTo_iff.mpr ((hbuilt.edge _ _ _).mpr hedge)) hpath,
      hacc, [byte] :: parts, .cons ?_ hparts, rfl⟩
    rw [hsymbols]
    exact symbol_iff.mpr ⟨byte, hbyte, rfl⟩

def IsDigit (byte : UInt8) : Prop := 48 ≤ byte.toNat ∧ byte.toNat ≤ 57

def byte_digit (byte : UInt8) : ℕ := byte.toNat - 48

/-- The number with the digits of `n` and those of the bytes. -/
def append_digits (n : ℕ) (bytes : Bytes) : ℕ := bytes.foldl (fun n byte => 10 * n + byte_digit byte) n

theorem append_digits_cons (n : ℕ) (byte : UInt8) (bytes : Bytes) :
    append_digits n (byte :: bytes) = append_digits (10 * n + byte_digit byte) bytes := by
  rw [append_digits, List.foldl_cons, append_digits]

theorem isDigit_iff {byte : UInt8} : IsDigit byte ↔ ∃ digit < 10, byte = digit_byte digit := by
  constructor
  · intro h
    refine ⟨byte_digit byte, by unfold byte_digit; unfold IsDigit at h; omega, ?_⟩
    apply UInt8.toNat_inj.mp
    unfold IsDigit at h
    rw [digit_byte_toNat (by unfold byte_digit; omega), byte_digit]
    omega
  · intro h
    obtain ⟨digit, hlt, rfl⟩ := h
    rw [IsDigit, digit_byte_toNat hlt]
    omega

theorem byte_digit_digit_byte {digit : ℕ} (h : digit < 10) : byte_digit (digit_byte digit) = digit := by
  rw [byte_digit, digit_byte_toNat h]
  omega

theorem label_byte_digit {digit : ℕ} (h : digit < 10) {byte : UInt8} :
    label_byte (digit : ℤ) byte ↔ byte = digit_byte digit := by
  constructor
  · intro hbyte
    obtain ⟨d, -, heq, rfl⟩ | ⟨heq, -⟩ := hbyte
    · rw [Int.natCast_inj.mp heq]
    · have hten : (digit : ℤ) = 10 := heq
      omega
  · intro hbyte
    exact Or.inl ⟨digit, h, rfl, hbyte⟩

theorem label_byte_ten {byte : UInt8} : label_byte 10 byte ↔ byte = 45 := by
  constructor
  · intro hbyte
    obtain ⟨d, hd, heq, -⟩ | ⟨-, rfl⟩ := hbyte
    · have hten : (10 : ℤ) = d := heq
      omega
    · rfl
  · intro hbyte
    exact Or.inr ⟨rfl, hbyte⟩

theorem edge_from_remainder {divisor r target : ℕ} {label : Label} :
    (3 + r, label, target) ∈ modulo_edges divisor ↔ r < divisor ∧
      ∃ digit : ℕ, digit < 10 ∧ label = digit ∧ target = 3 + (10 * r + digit) % divisor := by
  constructor
  · intro h
    obtain h | ⟨source, hsource, h | ⟨digit, -, h⟩⟩ | ⟨remainder, digit, hr, hdigit, h⟩ := h
    · have := congrArg Prod.fst h
      dsimp only at this
      omega
    · have := congrArg Prod.fst h
      rw [List.mem_cons, List.mem_singleton] at hsource
      dsimp only at this
      omega
    · have := congrArg Prod.fst h
      rw [List.mem_cons, List.mem_singleton] at hsource
      dsimp only at this
      omega
    · rw [Prod.mk.injEq, Prod.mk.injEq, Nat.add_left_cancel_iff] at h
      obtain ⟨rfl, hlabel, htarget⟩ := h
      exact ⟨hr, digit, hdigit, hlabel, htarget⟩
  · intro h
    obtain ⟨hr, digit, hdigit, rfl, rfl⟩ := h
    exact Or.inr (Or.inr ⟨r, digit, hr, hdigit, rfl⟩)

theorem not_edge_from_zero {divisor target : ℕ} {label : Label} :
    (2, label, target) ∉ modulo_edges divisor := by
  intro h
  obtain h | ⟨source, hsource, h | ⟨digit, -, h⟩⟩ | ⟨remainder, digit, -, -, h⟩ := h
  · cases h
  · have := congrArg Prod.fst h
    rw [List.mem_cons, List.mem_singleton] at hsource
    dsimp only at this
    omega
  · have := congrArg Prod.fst h
    rw [List.mem_cons, List.mem_singleton] at hsource
    dsimp only at this
    omega
  · have := congrArg Prod.fst h
    dsimp only at this
    omega

/-- The edges of the start and of the state after the sign. -/
theorem edge_from_source {divisor source target : ℕ} (hs : source < 2) {label : Label} :
    (source, label, target) ∈ modulo_edges divisor ↔
      (source = 0 ∧ label = 10 ∧ target = 1) ∨ (label = 0 ∧ target = 2) ∨
        ∃ digit : ℕ, 1 ≤ digit ∧ digit < 10 ∧ label = digit ∧ target = 3 + digit % divisor := by
  constructor
  · intro h
    obtain h | ⟨source, hsource, h | ⟨digit, hdigit, h⟩⟩ | ⟨remainder, digit, -, -, h⟩ := h
    · rw [Prod.mk.injEq, Prod.mk.injEq] at h
      exact Or.inl h
    · rw [Prod.mk.injEq, Prod.mk.injEq] at h
      exact Or.inr (Or.inl h.2)
    · rw [Prod.mk.injEq, Prod.mk.injEq] at h
      have hmem := List.mem_range'_1.mp hdigit
      exact Or.inr (Or.inr ⟨digit, hmem.1, by omega, h.2.1, h.2.2⟩)
    · have := congrArg Prod.fst h
      dsimp only at this
      omega
  · intro h
    have hsource : source ∈ [0, 1] := by
      rw [List.mem_cons, List.mem_singleton]
      omega
    obtain ⟨rfl, rfl, rfl⟩ | ⟨rfl, rfl⟩ | ⟨digit, hone, hlt, rfl, rfl⟩ := h
    · exact Or.inl rfl
    · exact Or.inr (Or.inl ⟨source, hsource, Or.inl rfl⟩)
    · refine Or.inr (Or.inl ⟨source, hsource, Or.inr ⟨digit, ?_, rfl⟩⟩)
      exact List.mem_range'_1.mpr ⟨hone, by omega⟩

theorem mod_step (divisor n digit : ℕ) :
    (10 * (n % divisor) + digit) % divisor = (10 * n + digit) % divisor := by
  rw [Nat.add_mod, Nat.mul_mod, Nat.mod_mod, ← Nat.mul_mod, ← Nat.add_mod]

/-- After some digits the automaton is in the state of the remainder. -/
theorem readsFrom_remainder {divisor : ℕ} (h : 0 < divisor) (n : ℕ) (bytes : Bytes) :
    ReadsFrom divisor (3 + n % divisor) bytes ↔
      (∀ byte ∈ bytes, IsDigit byte) ∧ divisor ∣ append_digits n bytes := by
  induction bytes generalizing n with
  | nil =>
    rw [readsFrom_nil h, append_digits, List.foldl_nil, Nat.dvd_iff_mod_eq_zero]
    simp only [List.not_mem_nil, false_imp_iff, implies_true, true_and]
    omega
  | cons byte bytes ih =>
    rw [readsFrom_cons h, List.forall_mem_cons, append_digits_cons]
    constructor
    · intro hreads
      obtain ⟨label, target, hbyte, hedge, hrest⟩ := hreads
      obtain ⟨-, digit, hlt, rfl, rfl⟩ := edge_from_remainder.mp hedge
      obtain rfl := (label_byte_digit hlt).mp hbyte
      rw [mod_step, ih] at hrest
      rw [byte_digit_digit_byte hlt]
      exact ⟨⟨isDigit_iff.mpr ⟨digit, hlt, rfl⟩, hrest.1⟩, hrest.2⟩
    · intro hdigits
      obtain ⟨⟨hbyte, hbytes⟩, hdvd⟩ := hdigits
      obtain ⟨digit, hlt, rfl⟩ := isDigit_iff.mp hbyte
      rw [byte_digit_digit_byte hlt] at hdvd
      refine ⟨(digit : ℤ), 3 + (10 * (n % divisor) + digit) % divisor,
        (label_byte_digit hlt).mpr rfl, ?_, ?_⟩
      · exact edge_from_remainder.mpr ⟨Nat.mod_lt _ h, digit, hlt, rfl, rfl⟩
      · rw [mod_step, ih]
        exact ⟨hbytes, hdvd⟩

theorem readsFrom_zero {divisor : ℕ} (h : 0 < divisor) (bytes : Bytes) :
    ReadsFrom divisor 2 bytes ↔ bytes = [] := by
  cases bytes with
  | nil => exact iff_of_true ((readsFrom_nil h).mpr (Or.inl rfl)) rfl
  | cons byte bytes =>
    rw [readsFrom_cons h]
    apply iff_of_false
    · intro hreads
      obtain ⟨label, target, -, hedge, -⟩ := hreads
      exact not_edge_from_zero hedge
    · exact List.cons_ne_nil _ _

/-- `0`, or digits without a leading zero. -/
def IsNatural (bytes : Bytes) : Prop :=
  ∃ byte rest, bytes = byte :: rest ∧ IsDigit byte ∧ (∀ b ∈ rest, IsDigit b) ∧
    (byte = digit_byte 0 → rest = [])

/-- What is read from the start, or from the state after a sign. -/
theorem readsFrom_source {divisor source : ℕ} (h : 0 < divisor) (hs : source < 2) (bytes : Bytes) :
    ReadsFrom divisor source bytes ↔
      (source = 0 ∧ ∃ rest, bytes = 45 :: rest ∧ ReadsFrom divisor 1 rest) ∨
        IsNatural bytes ∧ divisor ∣ append_digits 0 bytes := by
  cases bytes with
  | nil =>
    rw [readsFrom_nil h]
    apply iff_of_false
    · omega
    · intro hreads
      obtain ⟨-, rest, hrest, -⟩ | ⟨⟨byte, rest, hrest, -⟩, -⟩ := hreads
      · cases hrest
      · cases hrest
  | cons byte bytes =>
    rw [readsFrom_cons h]
    constructor
    · intro hreads
      obtain ⟨label, target, hbyte, hedge, hrest⟩ := hreads
      obtain ⟨rfl, rfl, rfl⟩ | ⟨rfl, rfl⟩ | ⟨digit, hone, hlt, rfl, rfl⟩ :=
        (edge_from_source hs).mp hedge
      · obtain rfl := label_byte_ten.mp hbyte
        exact Or.inl ⟨rfl, bytes, rfl, hrest⟩
      · have hzero : (0 : ℕ) < 10 := by decide
        obtain rfl := (label_byte_digit hzero).mp hbyte
        obtain rfl := (readsFrom_zero h bytes).mp hrest
        right
        refine ⟨⟨_, [], rfl, isDigit_iff.mpr ⟨0, hzero, rfl⟩, fun _ hb => ?_, fun _ => rfl⟩, ?_⟩
        · exact absurd hb List.not_mem_nil
        · exact dvd_zero divisor
      · obtain rfl := (label_byte_digit hlt).mp hbyte
        obtain ⟨hdigits, hdvd⟩ := (readsFrom_remainder h digit bytes).mp hrest
        right
        refine ⟨⟨_, bytes, rfl, isDigit_iff.mpr ⟨digit, hlt, rfl⟩, hdigits, fun heq => ?_⟩, ?_⟩
        · have := digit_byte_injective hlt (by decide : 0 < 10) heq
          omega
        · rw [append_digits_cons, byte_digit_digit_byte hlt, Nat.mul_zero, Nat.zero_add]
          exact hdvd
    · intro hreads
      obtain ⟨rfl, rest, hbytes, hrest⟩ | ⟨⟨_, rest, hbytes, hdigit, hdigits, hlead⟩, hdvd⟩ := hreads
      · rw [List.cons.injEq] at hbytes
        obtain ⟨rfl, rfl⟩ := hbytes
        exact ⟨10, 1, label_byte_ten.mpr rfl, (edge_from_source hs).mpr (Or.inl ⟨rfl, rfl, rfl⟩),
          hrest⟩
      · rw [List.cons.injEq] at hbytes
        obtain ⟨rfl, rfl⟩ := hbytes
        obtain ⟨digit, hlt, rfl⟩ := isDigit_iff.mp hdigit
        by_cases hzero : digit = 0
        · subst hzero
          refine ⟨0, 2, (label_byte_digit hlt).mpr rfl,
            (edge_from_source hs).mpr (Or.inr (Or.inl ⟨rfl, rfl⟩)), ?_⟩
          exact (readsFrom_zero h bytes).mpr (hlead rfl)
        · refine ⟨(digit : ℤ), 3 + digit % divisor, (label_byte_digit hlt).mpr rfl,
            (edge_from_source hs).mpr (Or.inr (Or.inr ⟨digit, by omega, hlt, rfl, rfl⟩)), ?_⟩
          rw [append_digits_cons, byte_digit_digit_byte hlt, Nat.mul_zero, Nat.zero_add] at hdvd
          exact (readsFrom_remainder h digit bytes).mpr ⟨hdigits, hdvd⟩

/-- The characters of some bytes, one for each. -/
def byte_text (bytes : Bytes) : List Char := bytes.map fun byte => Char.ofNat byte.toNat

/-- The integer that a spelling stands for. -/
def integer_value : Bytes → ℤ
  | [] => 0
  | byte :: rest =>
      if byte = 45 then -append_digits 0 rest else append_digits 0 (byte :: rest)

theorem char_toNat (byte : UInt8) : (Char.ofNat byte.toNat).toNat = byte.toNat := by
  have hvalid : byte.toNat.isValidChar := Or.inl (by have := byte.toNat_lt; omega)
  rw [Char.ofNat, dif_pos hvalid]
  rfl

theorem isDigit_char {byte : UInt8} : (Char.ofNat byte.toNat).isDigit ↔ IsDigit byte := by
  rw [Char.isDigit_iff_toNat, char_toNat]
  rfl

theorem char_eq_digit {byte : UInt8} {digit : ℕ} (h : digit < 10) :
    Char.ofNat byte.toNat = Nat.digitChar digit ↔ byte = digit_byte digit := by
  rw [← Char.toNat_inj, char_toNat, Nat.toNat_digitChar_of_lt_ten h, ← UInt8.toNat_inj,
    digit_byte_toNat h]

theorem mem_naturals {w : List Char} : w ∈ Decimal.spellings Set.univ ↔
    w = ['0'] ∨ w ∈ Decimal.digits 1 9 * KStar.kstar (Decimal.digits 0 9) := by
  have hmore := Decimal.digits_mul_pow_mul_star 0
  rw [pow_zero, one_mul] at hmore
  have hzero : Decimal.spelling 0 = ['0'] := Decimal.spelling_of_lt (by decide)
  rw [hmore, ← hzero]
  have hset : (Set.univ : Set ℕ) = {0} ∪ {n | 10 ^ 0 ≤ n} := by
    ext n
    simp only [Set.mem_univ, Set.mem_union, Set.mem_singleton_iff, Set.mem_ofPred_eq, pow_zero,
      true_iff]
    omega
  rw [hset, ← Decimal.spellings_add, Language.mem_add, Decimal.spellings_singleton]
  rfl

theorem byte_text_natural {bytes : Bytes} :
    byte_text bytes ∈ Decimal.spellings Set.univ ↔ IsNatural bytes := by
  rw [mem_naturals]
  constructor
  · intro h
    obtain h | h := h
    · cases bytes with
      | nil => cases h
      | cons byte rest =>
        rw [byte_text, List.map_cons, List.cons.injEq, List.map_eq_nil_iff] at h
        obtain ⟨hbyte, rfl⟩ := h
        have hzero : byte = digit_byte 0 := (char_eq_digit (by decide)).mp hbyte
        exact ⟨byte, [], rfl, isDigit_iff.mpr ⟨0, by decide, hzero⟩,
          fun b hb => absurd hb List.not_mem_nil, fun _ => rfl⟩
    · obtain ⟨first, ⟨d, hone, hnine, rfl⟩, rest, hrest, heq⟩ := Language.mem_mul.mp h
      cases bytes with
      | nil => cases heq
      | cons byte bytes =>
        rw [byte_text, List.map_cons, List.singleton_append, List.cons.injEq] at heq
        obtain ⟨hbyte, rfl⟩ := heq
        have hd : d < 10 := by omega
        obtain rfl := (char_eq_digit hd).mp hbyte.symm
        refine ⟨_, bytes, rfl, isDigit_iff.mpr ⟨d, hd, rfl⟩, ?_, ?_⟩
        · intro b hb
          exact isDigit_char.mp (Decimal.mem_digits_star.mp hrest _ (List.mem_map_of_mem hb))
        · intro hzero
          have := digit_byte_injective hd (by decide) hzero
          omega
  · intro h
    obtain ⟨byte, rest, rfl, hbyte, hrest, hlead⟩ := h
    obtain ⟨d, hd, rfl⟩ := isDigit_iff.mp hbyte
    have hchar : Char.ofNat (digit_byte d).toNat = Nat.digitChar d := (char_eq_digit hd).mpr rfl
    by_cases hzero : d = 0
    · subst hzero
      obtain rfl := hlead rfl
      left
      rw [byte_text, List.map_singleton, hchar]
      rfl
    · right
      apply Language.mem_mul.mpr
      refine ⟨[Nat.digitChar d], ⟨d, by omega, by omega, rfl⟩, byte_text rest, ?_, ?_⟩
      · apply Decimal.mem_digits_star.mpr
        intro c hc
        obtain ⟨b, hb, rfl⟩ := List.mem_map.mp hc
        exact isDigit_char.mpr (hrest b hb)
      · rw [← hchar]
        rfl

theorem minus_char {byte : UInt8} : Char.ofNat byte.toNat = '-' ↔ byte = 45 := by
  rw [← Char.toNat_inj, char_toNat, ← UInt8.toNat_inj]
  rfl

/-- The spellings of integers are the natural ones with at most one sign before them. -/
theorem byte_text_integer {bytes : Bytes} : byte_text bytes ∈ integer_regex.language ↔
    IsNatural bytes ∨ ∃ rest, bytes = 45 :: rest ∧ IsNatural rest := by
  rw [integer_regex_denotes.language_eq, signed, Language.mem_add, byte_text_natural, or_comm]
  apply or_congr_right
  constructor
  · intro h
    obtain ⟨_, rfl, rest, hrest, heq⟩ := Language.mem_mul.mp h
    cases bytes with
    | nil => cases heq
    | cons byte bytes =>
      rw [byte_text, List.map_cons, List.singleton_append, List.cons.injEq] at heq
      obtain ⟨hbyte, rfl⟩ := heq
      exact ⟨bytes, by rw [minus_char.mp hbyte.symm], byte_text_natural.mp hrest⟩
  · intro h
    obtain ⟨rest, rfl, hrest⟩ := h
    exact Language.mem_mul.mpr ⟨['-'], rfl, byte_text rest, byte_text_natural.mpr hrest, rfl⟩

theorem integer_value_natural {bytes : Bytes} (h : IsNatural bytes) :
    integer_value bytes = append_digits 0 bytes := by
  obtain ⟨byte, rest, rfl, hbyte, -, -⟩ := h
  have hne : byte ≠ 45 := by
    intro heq
    subst heq
    exact absurd hbyte.1 (by decide)
  rw [integer_value, if_neg hne]

/-- The graph reads exactly the spellings of the multiples of the divisor. -/
theorem integer_modulo_graph_accepts {divisor : ℕ} (h : 0 < divisor) (bytes : Bytes) :
    (integer_modulo_graph divisor).AcceptsBytes bytes ↔
      byte_text bytes ∈ integer_regex.language ∧ (divisor : ℤ) ∣ integer_value bytes := by
  rw [acceptsBytes_iff h, readsFrom_source h (by decide : 0 < 2), byte_text_integer]
  constructor
  · intro hreads
    obtain ⟨-, rest, rfl, hrest⟩ | ⟨hnatural, hdvd⟩ := hreads
    · obtain ⟨hone, -⟩ | ⟨hnatural, hdvd⟩ :=
        (readsFrom_source h (by decide : 1 < 2) rest).mp hrest
      · exact absurd hone (by decide)
      · refine ⟨Or.inr ⟨rest, rfl, hnatural⟩, ?_⟩
        rw [integer_value, if_pos rfl]
        exact (dvd_neg).mpr (Int.natCast_dvd_natCast.mpr hdvd)
    · refine ⟨Or.inl hnatural, ?_⟩
      rw [integer_value_natural hnatural]
      exact Int.natCast_dvd_natCast.mpr hdvd
  · intro hmatches
    obtain ⟨hnatural | ⟨rest, rfl, hnatural⟩, hdvd⟩ := hmatches
    · rw [integer_value_natural hnatural] at hdvd
      exact Or.inr ⟨hnatural, Int.natCast_dvd_natCast.mp hdvd⟩
    · rw [integer_value, if_pos rfl] at hdvd
      have hnat : divisor ∣ append_digits 0 rest :=
        Int.natCast_dvd_natCast.mp ((dvd_neg).mp hdvd)
      exact Or.inl ⟨rfl, rest, rfl,
        (readsFrom_source h (by decide : 1 < 2) rest).mpr (Or.inr ⟨hnatural, hnat⟩)⟩

/-- A graph that has a start state and no edge or label out of range. -/
structure Compilable (graph : ExprNfaBuilder) : Prop where
  start : graph.nfa.start_states ≠ []
  start_range : ∀ state ∈ graph.nfa.start_states, state < graph.nfa.states.length
  range : graph.nfa.InRange
  labels : ∀ label source target, graph.nfa.EdgeTo label source target →
    0 ≤ label ∧ label.toNat < graph.symbols.length

theorem integer_modulo_graph_compilable {divisor : ℕ} (h : 0 < divisor) :
    Compilable (integer_modulo_graph divisor) := by
  obtain ⟨hbuilt, hsymbols⟩ := integer_modulo_graph_built h
  have hedge : ∀ label source target, (integer_modulo_graph divisor).nfa.EdgeTo label source target →
      (source, label, target) ∈ modulo_edges divisor := by
    intro label source target hto
    exact (hbuilt.edge _ _ _).mp (NFA.edgeTo_iff.mp hto)
  constructor
  · rw [hbuilt.start]
    exact List.cons_ne_nil _ _
  · intro state hstate
    rw [hbuilt.start, List.mem_singleton] at hstate
    rw [hbuilt.length]
    omega
  · constructor
    · intro label source target hto
      rw [hbuilt.length]
      have hmod : ∀ n, n % divisor < divisor := fun n => Nat.mod_lt n h
      obtain heq | ⟨_, -, heq | ⟨digit, -, heq⟩⟩ | ⟨r, digit, -, -, heq⟩ := hedge _ _ _ hto
      · cases heq
        omega
      · cases heq
        omega
      · cases heq
        have := hmod digit
        omega
      · cases heq
        have := hmod (10 * r + digit)
        omega
    · intro source target htarget
      rw [hbuilt.epsilons] at htarget
      exact absurd htarget List.not_mem_nil
  · intro label source target hto
    have hlength : (digit_symbols ++ [[45]]).length = 11 := rfl
    rw [hsymbols, hlength]
    obtain heq | ⟨_, -, heq | ⟨digit, hdigit, heq⟩⟩ | ⟨r, digit, -, hdigit, heq⟩ := hedge _ _ _ hto
    · cases heq
      decide
    · cases heq
      decide
    · cases heq
      have := List.mem_range'_1.mp hdigit
      refine ⟨Int.natCast_nonneg digit, ?_⟩
      rw [Int.toNat_natCast]
      omega
    · cases heq
      refine ⟨Int.natCast_nonneg digit, ?_⟩
      rw [Int.toNat_natCast]
      omega

end NumericRange

end GlrMask
