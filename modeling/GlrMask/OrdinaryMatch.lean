import GlrMask.Fuel
import GlrMask.TokenizerScan

/-!
# Impossible matches of a terminal

A breadth-first search through the ordinary states of a tokenizer decides whether a terminal
is matched within a number of bytes. It drops the states whose futures do not have the
terminal, and it declines when it meets a state with epsilon transitions or a state of a
virtual runtime.
-/

namespace GlrMask

/-- Every target is a physical state or belongs to a virtual runtime. -/
structure RuntimeTokenizer extends Tokenizer where
  state_is_virtual_runtime : ℕ → Bool
  targets : ∀ {state byte target}, step state byte = some target →
    target < num_states ∨ state_is_virtual_runtime target = true

namespace OrdinaryMatch

variable (T : RuntimeTokenizer) (terminal : ℕ)

/-- A state that the search cannot go through. -/
def odd (state : ℕ) : Bool :=
  T.state_has_epsilon_transitions state || T.state_is_virtual_runtime state

/-- The smallest distances so far; no distance stands for `usize::MAX`. -/
structure Search where
  distance : ℕ → Option ℕ
  queue : List ℕ
  ambiguous : Bool

/-- A distance is smaller than the one that is recorded. -/
def closer (depth : ℕ) : Option ℕ → Bool
  | none => true
  | some d => depth < d

/-- The edges of a state; there is no search to go on with when a target matches. -/
def scanEdges (depth : ℕ) : List (Byte × ℕ) → Search → Option Search
  | [], s => some s
  | edge :: rest, s =>
      if terminal ∈ T.matched_terminals edge.2 then none
      else if terminal ∉ T.possible_future_terminals edge.2 then scanEdges depth rest s
      else if odd T edge.2 then scanEdges depth rest { s with ambiguous := true }
      else if closer (depth + 1) (s.distance edge.2) then
        scanEdges depth rest { s with
          distance := Function.update s.distance edge.2 (some (depth + 1))
          queue := s.queue ++ [edge.2] }
      else scanEdges depth rest s

def searchLoop (horizon : ℕ) : ℕ → Search → Option (Option Bool)
  | 0, _ => none
  | fuel + 1, s =>
      match s.queue with
      | [] => some (if s.ambiguous then none else some true)
      | state :: rest =>
          match s.distance state with
          | none => searchLoop horizon fuel { s with queue := rest }
          | some depth =>
              if horizon ≤ depth then searchLoop horizon fuel { s with queue := rest }
              else
                match scanEdges T terminal depth (T.transitions_from state) { s with queue := rest } with
                | none => some (some false)
                | some s => searchLoop horizon fuel s

def ordinary_terminal_match_impossible_within (start horizon fuel : ℕ) : Option (Option Bool) :=
  if horizon = 0 ∨ T.num_states ≤ start then some (some true)
  else if odd T start then some none
  else if terminal ∉ T.possible_future_terminals start then some (some true)
  else
    searchLoop T terminal horizon fuel
      ⟨Function.update (fun _ => none) start (some 0), [start], false⟩

/-! ## What the answer is about -/

/-- Some string of one byte up to the horizon leads to a match. -/
def MatchWithin (start horizon : ℕ) : Prop :=
  ∃ w : List Byte, w ≠ [] ∧ w.length ≤ horizon ∧ T.Matches [start] w terminal

/-- Reached by a number of bytes through ordinary states alone. -/
inductive Ordinary (start : ℕ) : ℕ → ℕ → Prop
  | start (h : odd T start = false) : Ordinary start 0 start
  | step {d state target : ℕ} {byte : Byte} (hstate : Ordinary start d state)
      (hstep : T.step state byte = some target) (h : odd T target = false) :
      Ordinary start (d + 1) target

/-- A match that ends a path through ordinary states. -/
def OrdinaryMatchWithin (start horizon : ℕ) : Prop :=
  ∃ d state byte target, Ordinary T start d state ∧ d < horizon ∧
    T.step state byte = some target ∧ terminal ∈ T.matched_terminals target

/-- Reached through ordinary states whose futures have the terminal. -/
inductive Explored (start : ℕ) : ℕ → ℕ → Prop
  | start (h : odd T start = false) (hlive : terminal ∈ T.possible_future_terminals start) :
      Explored start 0 start
  | step {d state target : ℕ} {byte : Byte} (hstate : Explored start d state)
      (hstep : T.step state byte = some target) (h : odd T target = false)
      (hlive : terminal ∈ T.possible_future_terminals target) : Explored start (d + 1) target

/-- The target of a byte after fewer bytes than the horizon. -/
def Met (start horizon target : ℕ) : Prop :=
  ∃ d state byte, Explored T terminal start d state ∧ d < horizon ∧
    T.step state byte = some target

def Hit (start horizon : ℕ) : Prop :=
  ∃ target, Met T terminal start horizon target ∧ terminal ∈ T.matched_terminals target

/-- The search meets a state it cannot go through and from which the terminal may be matched. -/
def Blocked (start horizon : ℕ) : Prop :=
  ∃ target, Met T terminal start horizon target ∧
    terminal ∈ T.possible_future_terminals target ∧ odd T target = true

/-- The search meets a state that matches through its epsilon transitions, and after no more
bytes. -/
def Silent (start horizon : ℕ) : Prop :=
  ∃ target, Met T terminal start horizon target ∧
    terminal ∉ T.possible_future_terminals target ∧ T.Matches [target] [] terminal

/-- The answer means what it says. -/
structure Right (start horizon : ℕ) (answer : Option Bool) : Prop where
  impossible : answer = some true → ¬ MatchWithin T terminal start horizon
  possible : answer = some false → MatchWithin T terminal start horizon
  declined : answer = none → ((∃ state, (state = start ∨ Met T terminal start horizon state) ∧
    odd T state = true) ∧ ¬ OrdinaryMatchWithin T terminal start horizon)

variable {T terminal} {start horizon : ℕ}

/-! ## The search -/

theorem mem_transitions_from {state : ℕ} {edge : Byte × ℕ} :
    edge ∈ T.transitions_from state ↔ T.step state edge.1 = some edge.2 := by
  unfold Tokenizer.transitions_from
  rw [List.mem_filterMap]
  constructor
  · intro h
    obtain ⟨byte, -, h⟩ := h
    obtain ⟨target, htarget, rfl⟩ := Option.map_eq_some_iff.mp h
    exact htarget
  · intro h
    exact ⟨edge.1, List.mem_finRange _, by rw [h]; rfl⟩

/-- The target of an edge is dealt with. -/
def Handled (T : RuntimeTokenizer) (terminal depth : ℕ) (s : Search) (target : ℕ) : Prop :=
  terminal ∉ T.matched_terminals target ∧ (terminal ∈ T.possible_future_terminals target →
    (odd T target = true → s.ambiguous = true) ∧
      (odd T target = false → ∃ d, s.distance target = some d ∧ d ≤ depth + 1))

/-- A later search: distances only get smaller, and states with a new distance are queued. -/
structure Later (s s' : Search) : Prop where
  distance : ∀ t d, s.distance t = some d → ∃ d', s'.distance t = some d' ∧ d' ≤ d
  queue : ∀ t ∈ s.queue, t ∈ s'.queue
  changed : ∀ t, s'.distance t ≠ s.distance t → t ∈ s'.queue
  ambiguous : s.ambiguous = true → s'.ambiguous = true

theorem Later.refl (s : Search) : Later s s where
  distance _ d h := ⟨d, h, le_rfl⟩
  queue _ h := h
  changed _ h := absurd rfl h
  ambiguous h := h

theorem Later.trans {s s' s'' : Search} (h : Later s s') (h' : Later s' s'') : Later s s'' where
  distance t d hd := by
    obtain ⟨d', hd', hle⟩ := h.distance t d hd
    obtain ⟨d'', hd'', hle'⟩ := h'.distance t d' hd'
    exact ⟨d'', hd'', hle'.trans hle⟩
  queue t ht := h'.queue t (h.queue t ht)
  changed t ht := by
    by_cases he : s'.distance t = s.distance t
    · exact h'.changed t (he.symm ▸ ht)
    · exact h'.queue t (h.changed t he)
  ambiguous ha := h'.ambiguous (h.ambiguous ha)

theorem Handled.later {depth target : ℕ} {s s' : Search} (h : Handled T terminal depth s target)
    (hdistance : ∀ t d, s.distance t = some d → ∃ d', s'.distance t = some d' ∧ d' ≤ d)
    (hambiguous : s.ambiguous = true → s'.ambiguous = true) :
    Handled T terminal depth s' target := by
  refine ⟨h.1, fun hlive => ⟨fun hodd => hambiguous ((h.2 hlive).1 hodd), ?_⟩⟩
  intro hodd
  obtain ⟨d, hd, hle⟩ := (h.2 hlive).2 hodd
  obtain ⟨d', hd', hle'⟩ := hdistance target d hd
  exact ⟨d', hd', hle'.trans hle⟩

/-- What the distances can still lose. -/
def slack (T : RuntimeTokenizer) (horizon : ℕ) (s : Search) : ℕ :=
  ∑ t ∈ Finset.range T.num_states, (s.distance t).getD (horizon + 1)

def effort (T : RuntimeTokenizer) (horizon : ℕ) (s : Search) : ℕ :=
  2 * slack T horizon s + s.queue.length

theorem slack_update_lt {s : Search} {target depth : ℕ} (htarget : target < T.num_states)
    (hdepth : depth < horizon) (hcloser : closer (depth + 1) (s.distance target) = true) :
    slack T horizon { s with
      distance := Function.update s.distance target (some (depth + 1))
      queue := s.queue ++ [target] } < slack T horizon s := by
  unfold slack
  refine Finset.sum_lt_sum ?_ ⟨target, Finset.mem_range.mpr htarget, ?_⟩
  · intro t _
    by_cases he : t = target
    · subst he
      dsimp only
      rw [Function.update_self, Option.getD_some]
      cases hd : s.distance t with
      | none => simp only [Option.getD_none]; omega
      | some d =>
          rw [hd] at hcloser
          exact (of_decide_eq_true hcloser).le
    · dsimp only
      rw [Function.update_of_ne he]
  · dsimp only
    rw [Function.update_self, Option.getD_some]
    cases hd : s.distance target with
    | none => simp only [Option.getD_none]; omega
    | some d =>
        rw [hd] at hcloser
        exact of_decide_eq_true hcloser

/-- What is recorded is true. -/
structure Sound (T : RuntimeTokenizer) (terminal start horizon : ℕ) (s : Search) : Prop where
  distance : ∀ t d, s.distance t = some d → Explored T terminal start d t
  ambiguous : s.ambiguous = true → Blocked T terminal start horizon

/-- One scan of the edges of an explored state. -/
structure Scanned (T : RuntimeTokenizer) (terminal start horizon depth : ℕ)
    (edges : List (Byte × ℕ)) (s s' : Search) : Prop where
  later : Later s s'
  sound : Sound T terminal start horizon s'
  handled : ∀ edge ∈ edges, Handled T terminal depth s' edge.2
  descends : effort T horizon s' ≤ effort T horizon s

theorem Scanned.cons {depth : ℕ} {edge : Byte × ℕ} {edges : List (Byte × ℕ)} {s s' s'' : Search}
    (h : Scanned T terminal start horizon depth edges s' s'') (hlater : Later s s')
    (hhandled : Handled T terminal depth s' edge.2) (heffort : effort T horizon s' ≤ effort T horizon s) :
    Scanned T terminal start horizon depth (edge :: edges) s s'' where
  later := hlater.trans h.later
  sound := h.sound
  handled e he := by
    obtain rfl | he := List.mem_cons.mp he
    · exact hhandled.later h.later.distance h.later.ambiguous
    · exact h.handled e he
  descends := h.descends.trans heffort

theorem scanEdges_spec {depth state : ℕ} (hdepth : depth < horizon)
    (hstate : Explored T terminal start depth state) {edges : List (Byte × ℕ)}
    (hedges : ∀ edge ∈ edges, T.step state edge.1 = some edge.2) {s : Search}
    (hs : Sound T terminal start horizon s) :
    match scanEdges T terminal depth edges s with
    | none => Hit T terminal start horizon
    | some s' => Scanned T terminal start horizon depth edges s s' := by
  induction edges generalizing s with
  | nil => exact ⟨Later.refl s, hs, fun edge h => (by cases h), le_rfl⟩
  | cons edge edges ih =>
      have hstep := hedges edge List.mem_cons_self
      have hmet : Met T terminal start horizon edge.2 := ⟨depth, state, edge.1, hstate, hdepth, hstep⟩
      have hrest : ∀ edge ∈ edges, T.step state edge.1 = some edge.2 := fun e he =>
        hedges e (List.mem_cons_of_mem _ he)
      -- The rest of the edges, from the search after this one.
      have hgo : ∀ s', Sound T terminal start horizon s' → Later s s' →
          Handled T terminal depth s' edge.2 → effort T horizon s' ≤ effort T horizon s →
          match scanEdges T terminal depth edges s' with
          | none => Hit T terminal start horizon
          | some s'' => Scanned T terminal start horizon depth (edge :: edges) s s'' := by
        intro s' hs' hlater hhandled heffort
        have h := ih hrest hs'
        cases hscan : scanEdges T terminal depth edges s' with
        | none => rwa [hscan] at h
        | some s'' =>
            rw [hscan] at h
            exact h.cons hlater hhandled heffort
      rw [scanEdges]
      by_cases hmatch : terminal ∈ T.matched_terminals edge.2
      · rw [if_pos hmatch]
        exact ⟨edge.2, hmet, hmatch⟩
      rw [if_neg hmatch]
      by_cases hlive : terminal ∉ T.possible_future_terminals edge.2
      · rw [if_pos hlive]
        exact hgo s hs (Later.refl s) ⟨hmatch, fun h => absurd h hlive⟩ le_rfl
      rw [if_neg hlive]
      rw [not_not] at hlive
      by_cases hodd : odd T edge.2 = true
      · rw [if_pos hodd]
        refine hgo _ ⟨hs.distance, fun _ => ⟨edge.2, hmet, hlive, hodd⟩⟩ ?_ ?_ le_rfl
        · exact ⟨fun _ d h => ⟨d, h, le_rfl⟩, fun _ h => h, fun _ h => absurd rfl h, fun _ => rfl⟩
        · exact ⟨hmatch, fun _ => ⟨fun _ => rfl, fun h => by rw [h] at hodd; cases hodd⟩⟩
      rw [if_neg hodd]
      rw [Bool.not_eq_true] at hodd
      by_cases hcloser : closer (depth + 1) (s.distance edge.2) = true
      · rw [if_pos hcloser]
        have htarget : edge.2 < T.num_states := by
          obtain hlt | hvirtual := T.targets hstep
          · exact hlt
          · rw [odd, hvirtual, Bool.or_true] at hodd
            cases hodd
        have hlt := slack_update_lt htarget hdepth hcloser
        refine hgo _ ⟨?_, hs.ambiguous⟩ ⟨?_, ?_, ?_, fun h => h⟩ ?_ ?_
        · intro t d hd
          by_cases he : t = edge.2
          · subst he
            have hnew : Function.update s.distance edge.2 (some (depth + 1)) edge.2 = some d := hd
            rw [Function.update_self] at hnew
            obtain rfl := Option.some.inj hnew
            exact Explored.step hstate hstep hodd hlive
          · have hold : Function.update s.distance edge.2 (some (depth + 1)) t = some d := hd
            rw [Function.update_of_ne he] at hold
            exact hs.distance t d hold
        · intro t d hd
          by_cases he : t = edge.2
          · subst he
            rw [hd] at hcloser
            exact ⟨depth + 1, Function.update_self .., (of_decide_eq_true hcloser).le⟩
          · exact ⟨d, (Function.update_of_ne he _ _).trans hd, le_rfl⟩
        · intro t ht
          exact List.mem_append_left _ ht
        · intro t ht
          by_cases he : t = edge.2
          · rw [he]
            exact List.mem_append_right _ (List.mem_singleton_self _)
          · exact absurd (Function.update_of_ne he _ _) ht
        · refine ⟨hmatch, fun _ => ⟨fun h => ?_, fun _ => ?_⟩⟩
          · rw [h] at hodd
            cases hodd
          exact ⟨depth + 1, Function.update_self .., le_rfl⟩
        · unfold effort
          rw [List.length_append, List.length_singleton]
          omega
      · rw [if_neg hcloser]
        refine hgo s hs (Later.refl s) ⟨hmatch, fun _ => ⟨fun h => ?_, fun _ => ?_⟩⟩ le_rfl
        · rw [h] at hodd
          cases hodd
        · cases hd : s.distance edge.2 with
          | none =>
              rw [hd] at hcloser
              exact absurd rfl hcloser
          | some d =>
              rw [hd] at hcloser
              refine ⟨d, rfl, ?_⟩
              by_contra hlt
              exact hcloser (decide_eq_true (by omega))

/-- The edges of every state that is not queued are dealt with. -/
structure Searching (T : RuntimeTokenizer) (terminal start horizon : ℕ) (s : Search) : Prop where
  sound : Sound T terminal start horizon s
  start : ∃ d, s.distance start = some d ∧ d ≤ 0
  settled : ∀ state d, s.distance state = some d → d < horizon → state ∉ s.queue →
    ∀ byte target, T.step state byte = some target → Handled T terminal d s target

theorem Searching.skip {s : Search} {state : ℕ} {rest : List ℕ}
    (h : Searching T terminal start horizon s) (hqueue : s.queue = state :: rest)
    (hstate : ∀ d, s.distance state = some d → horizon ≤ d) :
    Searching T terminal start horizon { s with queue := rest } where
  sound := ⟨h.sound.distance, h.sound.ambiguous⟩
  start := h.start
  settled := by
    intro t d hd hlt hnot byte target hstep
    refine h.settled t d hd hlt ?_ byte target hstep
    rw [hqueue, List.mem_cons]
    intro hmem
    obtain rfl | hmem := hmem
    · have hle := hstate d hd
      omega
    · exact hnot hmem

theorem Searching.scan {s s' : Search} {state depth : ℕ} {rest : List ℕ}
    (h : Searching T terminal start horizon s) (hqueue : s.queue = state :: rest)
    (hdepth : s.distance state = some depth)
    (hscan : Scanned T terminal start horizon depth (T.transitions_from state)
      { s with queue := rest } s') : Searching T terminal start horizon s' where
  sound := hscan.sound
  start := by
    obtain ⟨d, hd, hle⟩ := h.start
    obtain ⟨d', hd', hle'⟩ := hscan.later.distance start d hd
    exact ⟨d', hd', hle'.trans hle⟩
  settled := by
    intro t d hd hlt hnot byte target hstep
    -- A state that is not queued has its old distance.
    have hold : s.distance t = some d := by
      by_contra hne
      refine hnot (hscan.later.changed t ?_)
      rw [hd]
      exact fun h => hne h.symm
    by_cases he : t = state
    · subst he
      obtain rfl := Option.some.inj (hdepth.symm.trans hold)
      exact hscan.handled (byte, target) (mem_transitions_from.mpr hstep)
    · refine (h.settled t d hold hlt ?_ byte target hstep).later hscan.later.distance
        hscan.later.ambiguous
      rw [hqueue, List.mem_cons]
      intro hmem
      obtain hmem | hmem := hmem
      · exact he hmem
      · exact hnot (hscan.later.queue t hmem)

/-- What a search finds. -/
def Finds (T : RuntimeTokenizer) (terminal start horizon : ℕ) (answer : Option Bool) : Prop :=
  match answer with
  | some false => Hit T terminal start horizon
  | none => Blocked T terminal start horizon ∧ ¬ Hit T terminal start horizon
  | some true => ¬ Blocked T terminal start horizon ∧ ¬ Hit T terminal start horizon

/-- In the end every explored state has a distance, and its edges are dealt with. -/
theorem Searching.finish {s : Search} (h : Searching T terminal start horizon s)
    (hqueue : s.queue = []) {d target : ℕ} (hexplored : Explored T terminal start d target)
    (hd : d ≤ horizon) : ∃ d', s.distance target = some d' ∧ d' ≤ d := by
  induction hexplored with
  | start => exact h.start
  | @step d state target byte hstate hstep hodd hlive ih =>
      obtain ⟨d', hd', hle⟩ := ih (by omega)
      have hhandled := h.settled state d' hd' (by omega) (by rw [hqueue]; exact List.not_mem_nil)
        byte target hstep
      obtain ⟨d'', hd'', hle'⟩ := (hhandled.2 hlive).2 hodd
      exact ⟨d'', hd'', by omega⟩

theorem Searching.handled {s : Search} (h : Searching T terminal start horizon s)
    (hqueue : s.queue = []) {target : ℕ} (hmet : Met T terminal start horizon target) :
    ∃ depth, Handled T terminal depth s target := by
  obtain ⟨d, state, byte, hstate, hlt, hstep⟩ := hmet
  obtain ⟨d', hd', hle⟩ := h.finish hqueue hstate hlt.le
  exact ⟨d', h.settled state d' hd' (by omega) (by rw [hqueue]; exact List.not_mem_nil) byte target
    hstep⟩

theorem Searching.answer {s : Search} (h : Searching T terminal start horizon s)
    (hqueue : s.queue = []) :
    Finds T terminal start horizon (if s.ambiguous then none else some true) := by
  have hhit : ¬ Hit T terminal start horizon := by
    intro hhit
    obtain ⟨target, hmet, hmatch⟩ := hhit
    obtain ⟨depth, hhandled⟩ := h.handled hqueue hmet
    exact hhandled.1 hmatch
  split
  case isTrue ha => exact ⟨h.sound.ambiguous ha, hhit⟩
  case isFalse ha =>
    refine ⟨?_, hhit⟩
    intro hblocked
    obtain ⟨target, hmet, hlive, hodd⟩ := hblocked
    obtain ⟨depth, hhandled⟩ := h.handled hqueue hmet
    exact ha ((hhandled.2 hlive).1 hodd)

/-- The search ends with an answer that tells what it met. -/
theorem searchLoop_yields (s : Search) (hs : Searching T terminal start horizon s) :
    ∃ answer, Yields (fun fuel => searchLoop T terminal horizon fuel s) answer ∧
      Finds T terminal start horizon answer := by
  induction hn : effort T horizon s using Nat.strong_induction_on generalizing s with
  | _ n ih =>
  cases hqueue : s.queue with
  | nil =>
      refine ⟨_, (Yields.const _).succ fun fuel => ?_, hs.answer hqueue⟩
      rw [searchLoop, hqueue]
  | cons state rest =>
      have hpop : effort T horizon { s with queue := rest } < n := by
        rw [← hn, effort, effort, hqueue, List.length_cons]
        exact Nat.lt_succ_self _
      cases hd : s.distance state with
      | none =>
          have hskip := hs.skip hqueue fun d h => by rw [hd] at h; cases h
          obtain ⟨answer, hy, hanswer⟩ := ih _ hpop _ hskip rfl
          refine ⟨answer, hy.succ fun fuel => ?_, hanswer⟩
          simp only [searchLoop, hqueue, hd]
      | some depth =>
          by_cases hdepth : horizon ≤ depth
          · have hskip := hs.skip hqueue fun d h => by
              rw [hd] at h
              cases h
              exact hdepth
            obtain ⟨answer, hy, hanswer⟩ := ih _ hpop _ hskip rfl
            refine ⟨answer, hy.succ fun fuel => ?_, hanswer⟩
            simp only [searchLoop, hqueue, hd, if_pos hdepth]
          · have hedges : ∀ edge ∈ T.transitions_from state, T.step state edge.1 = some edge.2 :=
              fun edge => mem_transitions_from.mp
            have hsound : Sound T terminal start horizon { s with queue := rest } :=
              ⟨hs.sound.distance, hs.sound.ambiguous⟩
            have hscan := scanEdges_spec (not_le.mp hdepth) (hs.sound.distance state depth hd)
              hedges hsound
            cases hnext : scanEdges T terminal depth (T.transitions_from state)
                { s with queue := rest } with
            | none =>
                rw [hnext] at hscan
                refine ⟨some false, (Yields.const _).succ fun fuel => ?_, hscan⟩
                simp only [searchLoop, hqueue, hd, if_neg hdepth, hnext]
            | some s' =>
                rw [hnext] at hscan
                obtain ⟨answer, hy, hanswer⟩ :=
                  ih _ (hscan.descends.trans_lt hpop) _ (hs.scan hqueue hd hscan) rfl
                refine ⟨answer, hy.succ fun fuel => ?_, hanswer⟩
                simp only [searchLoop, hqueue, hd, if_neg hdepth, hnext]

theorem searching_start (hodd : odd T start = false)
    (hlive : terminal ∈ T.possible_future_terminals start) : Searching T terminal start horizon
      ⟨Function.update (fun _ => none) start (some 0), [start], false⟩ where
  sound := by
    refine ⟨?_, fun h => by cases h⟩
    intro t d hd
    by_cases he : t = start
    · subst he
      have hzero : Function.update (fun _ : ℕ => (none : Option ℕ)) t (some 0) t = some d := hd
      rw [Function.update_self] at hzero
      obtain rfl := Option.some.inj hzero
      exact Explored.start hodd hlive
    · have hnone : Function.update (fun _ : ℕ => (none : Option ℕ)) start (some 0) t = some d := hd
      rw [Function.update_of_ne he] at hnone
      cases hnone
  start := by
    refine ⟨0, ?_, le_rfl⟩
    exact Function.update_self start (some 0) fun _ => none
  settled := by
    intro t d hd _ hnot
    by_cases he : t = start
    · exact absurd (List.mem_singleton.mpr he) hnot
    · have hnone : Function.update (fun _ : ℕ => (none : Option ℕ)) start (some 0) t = some d := hd
      rw [Function.update_of_ne he] at hnone
      cases hnone

/-! ## Matches and what the search meets -/

theorem reads_of_ordinary {state : ℕ} (hodd : odd T state = false) {w : List Byte} {last : ℕ}
    (h : T.Reads state w last) : (w = [] ∧ last = state) ∨
      ∃ byte rest target, w = byte :: rest ∧ T.step state byte = some target ∧
        T.Reads target rest last := by
  cases h with
  | done => exact Or.inl ⟨rfl, rfl⟩
  | byte hstep hrest => exact Or.inr ⟨_, _, _, rfl, hstep, hrest⟩
  | epsilon hstep _ =>
      rw [odd, Bool.or_eq_false_iff] at hodd
      have hempty : (T.epsilon_targets state).isEmpty = true := by
        simpa [Tokenizer.state_has_epsilon_transitions] using hodd.1
      rw [List.isEmpty_iff.mp hempty] at hstep
      cases hstep

theorem Explored.odd_eq_false {d state : ℕ} (h : Explored T terminal start d state) :
    odd T state = false := by
  cases h with
  | start h _ => exact h
  | step _ _ h _ => exact h

/-- A match from an explored state is met, or it is hidden behind a state that is not gone
through. -/
theorem Explored.met_of_matches {d state : ℕ} (hstate : Explored T terminal start d state)
    {w : List Byte} (hw : w ≠ []) (hlength : d + w.length ≤ horizon)
    (hmatch : T.Matches [state] w terminal) :
    Hit T terminal start horizon ∨ Blocked T terminal start horizon ∨
      Silent T terminal start horizon := by
  induction w generalizing d state with
  | nil => exact absurd rfl hw
  | cons byte w ih =>
      obtain ⟨_, hmem, last, hreads, hlast⟩ := hmatch
      obtain rfl := List.mem_singleton.mp hmem
      obtain ⟨hnil, -⟩ | ⟨_, _, target, he, hstep, hreads⟩ := reads_of_ordinary hstate.odd_eq_false hreads
      · cases hnil
      obtain ⟨rfl, rfl⟩ := List.cons.inj he
      rw [List.length_cons] at hlength
      have hmet : Met T terminal start horizon target := ⟨d, _, byte, hstate, by omega, hstep⟩
      have hrest : T.Matches [target] w terminal :=
        ⟨target, List.mem_singleton_self target, last, hreads, hlast⟩
      by_cases hlive : terminal ∈ T.possible_future_terminals target
      · cases hodd : odd T target with
        | true => exact Or.inr (Or.inl ⟨target, hmet, hlive, hodd⟩)
        | false =>
            by_cases hw' : w = []
            · subst hw'
              obtain ⟨-, rfl⟩ | ⟨_, _, _, he, -⟩ := reads_of_ordinary hodd hreads
              · exact Or.inl ⟨_, hmet, hlast⟩
              · cases he
            · exact ih (Explored.step hstate hstep hodd hlive) hw' (by omega) hrest
      · -- No more bytes can follow when the terminal is not in the futures.
        have hw' : w = [] := by
          by_contra hne
          exact hlive (T.futures hne hrest)
        subst hw'
        exact Or.inr (Or.inr ⟨target, hmet, hlive, hrest⟩)

theorem Explored.reads {d state : ℕ} (h : Explored T terminal start d state) :
    ∃ w : List Byte, w.length = d ∧ ∀ v last, T.Reads state v last → T.Reads start (w ++ v) last := by
  induction h with
  | start => exact ⟨[], rfl, fun _ _ h => h⟩
  | @step d state target byte _ hstep _ _ ih =>
      obtain ⟨w, hlength, hw⟩ := ih
      refine ⟨w ++ [byte], by rw [List.length_append, hlength]; rfl, ?_⟩
      intro v last hreads
      rw [List.append_assoc]
      exact hw _ last (.byte hstep hreads)

/-- What matches at a state that is met matches within the horizon. -/
theorem matchWithin_of_met {target : ℕ} (hmet : Met T terminal start horizon target)
    (hmatch : T.Matches [target] [] terminal) : MatchWithin T terminal start horizon := by
  obtain ⟨d, state, byte, hstate, hlt, hstep⟩ := hmet
  obtain ⟨_, hmem, last, hreads, hlast⟩ := hmatch
  obtain rfl := List.mem_singleton.mp hmem
  obtain ⟨w, hlength, hw⟩ := hstate.reads
  refine ⟨w ++ [byte], by simp, ?_, start, List.mem_singleton_self start, last,
    hw _ last (.byte hstep hreads), hlast⟩
  rw [List.length_append, List.length_singleton]
  omega

theorem matchWithin_of_hit (h : Hit T terminal start horizon) :
    MatchWithin T terminal start horizon := by
  obtain ⟨target, hmet, hmatch⟩ := h
  exact matchWithin_of_met hmet ⟨target, List.mem_singleton_self target, target, .done target, hmatch⟩

/-- A path through ordinary states that ends in a match is explored. -/
theorem explored_of_ordinary {d state : ℕ} (h : Ordinary T start d state) {w : List Byte}
    (hw : w ≠ []) (hmatch : T.Matches [state] w terminal) : Explored T terminal start d state := by
  induction h generalizing w with
  | start hodd => exact .start hodd (T.futures hw hmatch)
  | @step d state target byte _ hstep hodd ih =>
      refine .step (ih (List.cons_ne_nil byte w) ?_) hstep hodd (T.futures hw hmatch)
      obtain ⟨_, hmem, last, hreads, hlast⟩ := hmatch
      obtain rfl := List.mem_singleton.mp hmem
      exact ⟨state, List.mem_singleton_self state, last, .byte hstep hreads, hlast⟩

theorem hit_of_ordinaryMatchWithin (h : OrdinaryMatchWithin T terminal start horizon) :
    Hit T terminal start horizon := by
  obtain ⟨d, state, byte, target, hstate, hlt, hstep, hmatch⟩ := h
  refine ⟨target, ⟨d, state, byte, ?_, hlt, hstep⟩, hmatch⟩
  exact explored_of_ordinary hstate (List.cons_ne_nil byte [])
    ⟨state, List.mem_singleton_self state, target, .byte hstep (.done target), hmatch⟩

/-! ## When the answer is right -/

/-- No match is hidden: neither from a start behind the physical states, nor at a state that
matches through its epsilon transitions alone when nothing else settles the answer. -/
def NoneHidden (T : RuntimeTokenizer) (terminal start horizon : ℕ) : Prop :=
  (T.num_states ≤ start → ¬ MatchWithin T terminal start horizon) ∧
    (start < T.num_states → Silent T terminal start horizon →
      Hit T terminal start horizon ∨ Blocked T terminal start horizon)

theorem not_matchWithin_zero : ¬ MatchWithin T terminal start 0 := by
  intro h
  obtain ⟨w, hw, hlength, -⟩ := h
  exact hw (List.eq_nil_of_length_eq_zero (Nat.le_zero.mp hlength))

theorem not_met_of_not_explored (h : ∀ d state, ¬ Explored T terminal start d state) {target : ℕ} :
    ¬ Met T terminal start horizon target := by
  intro hmet
  obtain ⟨d, state, _, hstate, -⟩ := hmet
  exact h d state hstate

theorem explored_start {d state : ℕ} (h : Explored T terminal start d state) :
    odd T start = false ∧ terminal ∈ T.possible_future_terminals start := by
  induction h with
  | start hodd hlive => exact ⟨hodd, hlive⟩
  | step _ _ _ _ ih => exact ih

theorem ordinary_start {d state : ℕ} (h : Ordinary T start d state) : odd T start = false := by
  induction h with
  | start hodd => exact hodd
  | step _ _ _ ih => exact ih

theorem right_some_true_iff :
    Right T terminal start horizon (some true) ↔ ¬ MatchWithin T terminal start horizon := by
  constructor
  · intro h
    exact h.impossible rfl
  · intro h
    refine ⟨fun _ => h, ?_, ?_⟩
    · intro he
      cases he
    · intro he
      cases he

theorem right_some_false (h : MatchWithin T terminal start horizon) :
    Right T terminal start horizon (some false) := by
  refine ⟨?_, fun _ => h, ?_⟩
  · intro he
    cases he
  · intro he
    cases he

theorem right_none {state : ℕ} (hstate : state = start ∨ Met T terminal start horizon state)
    (hodd : odd T state = true) (h : ¬ OrdinaryMatchWithin T terminal start horizon) :
    Right T terminal start horizon none := by
  refine ⟨?_, ?_, fun _ => ⟨⟨state, hstate, hodd⟩, h⟩⟩
  · intro he
    cases he
  · intro he
    cases he

/-- The answer of the search is right unless a match is hidden. -/
theorem right_iff_of_finds {answer : Option Bool} (hodd : odd T start = false)
    (hlive : terminal ∈ T.possible_future_terminals start)
    (h : Finds T terminal start horizon answer) : Right T terminal start horizon answer ↔
      (Silent T terminal start horizon →
        Hit T terminal start horizon ∨ Blocked T terminal start horizon) := by
  match answer with
  | some false =>
      exact ⟨fun _ _ => Or.inl h, fun _ => right_some_false (matchWithin_of_hit h)⟩
  | none =>
      refine ⟨fun _ _ => Or.inr h.1, fun _ => ?_⟩
      obtain ⟨target, hmet, -, htarget⟩ := h.1
      exact right_none (Or.inr hmet) htarget fun hm => h.2 (hit_of_ordinaryMatchWithin hm)
  | some true =>
      rw [right_some_true_iff]
      constructor
      · intro hmatch hsilent
        obtain ⟨target, hmet, -, htarget⟩ := hsilent
        exact absurd (matchWithin_of_met hmet htarget) hmatch
      · intro hsilent hmatch
        obtain ⟨w, hw, hlength, hmatch⟩ := hmatch
        obtain hhit | hblocked | hs := (Explored.start hodd hlive).met_of_matches hw
          ((Nat.zero_add _).trans_le hlength) hmatch
        · exact h.2 hhit
        · exact h.1 hblocked
        · obtain hhit | hblocked := hsilent hs
          · exact h.2 hhit
          · exact h.1 hblocked

/-- The function answers, and its answer is right if and only if no match is hidden. -/
theorem ordinary_terminal_match_impossible_within_right_iff (T : RuntimeTokenizer)
    (terminal start horizon : ℕ) :
    ∃ answer, Yields (ordinary_terminal_match_impossible_within T terminal start horizon) answer ∧
      (Right T terminal start horizon answer ↔ NoneHidden T terminal start horizon) := by
  unfold ordinary_terminal_match_impossible_within NoneHidden
  have hunexplored : (∀ d state, ¬ Explored T terminal start d state) →
      ¬ Silent T terminal start horizon := by
    intro h hsilent
    obtain ⟨target, hmet, -⟩ := hsilent
    exact not_met_of_not_explored h hmet
  by_cases hstart : horizon = 0 ∨ T.num_states ≤ start
  · refine ⟨some true, by simpa only [if_pos hstart] using Yields.const (some true), ?_⟩
    rw [right_some_true_iff]
    obtain rfl | hge := hstart
    · refine ⟨fun h => ⟨fun _ => h, ?_⟩, fun _ => not_matchWithin_zero⟩
      intro _ hsilent
      obtain ⟨target, ⟨_, _, _, _, hlt, _⟩, -⟩ := hsilent
      exact absurd hlt (Nat.not_lt_zero _)
    · exact ⟨fun h => ⟨fun _ => h, fun hlt => absurd hlt (not_lt.mpr hge)⟩, fun h => h.1 hge⟩
  · rw [not_or, not_le] at hstart
    have hge : ¬ T.num_states ≤ start := not_le.mpr hstart.2
    have hbranch : ¬ (horizon = 0 ∨ T.num_states ≤ start) := by
      rw [not_or]
      exact ⟨hstart.1, hge⟩
    simp only [if_neg hbranch]
    by_cases hodd : odd T start = true
    · refine ⟨none, by simpa only [if_pos hodd] using Yields.const none, ?_⟩
      refine ⟨fun _ => ⟨fun h => absurd h hge, ?_⟩, fun _ => right_none (Or.inl rfl) hodd ?_⟩
      · intro _ hsilent
        refine absurd hsilent (hunexplored fun d state h => ?_)
        rw [(explored_start h).1] at hodd
        cases hodd
      · intro h
        obtain ⟨_, _, _, _, hstate, -⟩ := h
        rw [ordinary_start hstate] at hodd
        cases hodd
    simp only [if_neg hodd]
    rw [Bool.not_eq_true] at hodd
    by_cases hlive : terminal ∉ T.possible_future_terminals start
    · refine ⟨some true, by simpa only [if_pos hlive] using Yields.const (some true), ?_⟩
      rw [right_some_true_iff]
      refine ⟨fun _ => ⟨fun h => absurd h hge, ?_⟩, fun _ => ?_⟩
      · intro _ hsilent
        exact absurd hsilent (hunexplored fun d state h => hlive (explored_start h).2)
      · intro hmatch
        obtain ⟨w, hw, -, hmatch⟩ := hmatch
        exact hlive (T.futures hw hmatch)
    · simp only [if_neg hlive]
      rw [not_not] at hlive
      obtain ⟨answer, hy, hfinds⟩ := searchLoop_yields _ (searching_start hodd hlive)
      refine ⟨answer, hy, (right_iff_of_finds hodd hlive hfinds).trans ?_⟩
      exact ⟨fun h => ⟨fun hle => absurd hle hge, fun _ => h⟩, fun h => h.2 hstart.2⟩

/-- A byte leads from state 0 to state 1, and an epsilon transition from there to a match; the
states from 3 on belong to a virtual runtime, and a byte leads to a match there as well. -/
def hiddenTokenizer : RuntimeTokenizer where
  num_states := 3
  start_state := 0
  step state byte :=
    if state = 0 ∧ byte = 97 then some 1 else if state = 3 ∧ byte = 97 then some 4 else none
  epsilon_targets state := if state = 1 then [2] else []
  matched_terminals state := if state = 2 ∨ state = 4 then {0} else ∅
  possible_future_terminals state := if state = 0 ∨ state = 3 then {0} else ∅
  epsilon_lt := by
    intro state target h
    split_ifs at h with hstate
    · rw [List.mem_singleton.mp h]
      omega
    · exact absurd h List.not_mem_nil
  futures := by
    intro state w terminal hw h
    obtain ⟨_, hmem, last, hreads, hlast⟩ := h
    obtain rfl := List.mem_singleton.mp hmem
    have hzero : terminal = 0 := by
      simp only at hlast
      split_ifs at hlast
      · exact Finset.mem_singleton.mp hlast
      · exact absurd hlast (Finset.notMem_empty _)
    subst hzero
    clear hlast
    induction hreads with
    | done => exact absurd rfl hw
    | byte hstep _ _ =>
        simp only at hstep
        split_ifs at hstep with h0 h3
        · simp [h0.1]
        · simp [h3.1]
    | epsilon hstep hrest ih =>
        simp only at hstep
        split_ifs at hstep with h1
        · have htwo := List.mem_singleton.mp hstep
          have hnever := ih hw (List.mem_singleton_self _)
          simp [htwo] at hnever
        · cases hstep
  state_is_virtual_runtime state := decide (3 ≤ state)
  targets := by
    intro state byte target h
    split_ifs at h
    · rw [← Option.some.inj h]
      exact Or.inl (by omega)
    · rw [← Option.some.inj h]
      exact Or.inr (by decide)

theorem hiddenTokenizer_matches : MatchWithin hiddenTokenizer 0 0 1 ∧
    MatchWithin hiddenTokenizer 0 3 1 := by
  refine ⟨⟨[97], by simp, by simp, 0, by simp, 2, ?_, by decide⟩,
    ⟨[97], by simp, by simp, 3, by simp, 4, ?_, by decide⟩⟩
  · exact .byte rfl (.epsilon List.mem_cons_self (.done 2))
  · exact .byte rfl (.done 4)

/-- The answer is that no match is possible, but the byte leads to one, from the physical state
and from the virtual one. -/
theorem hiddenTokenizer_wrong :
    (ordinary_terminal_match_impossible_within hiddenTokenizer 0 0 1 3 = some (some true) ∧
      ¬ Right hiddenTokenizer 0 0 1 (some true)) ∧
    (ordinary_terminal_match_impossible_within hiddenTokenizer 0 3 1 3 = some (some true) ∧
      ¬ Right hiddenTokenizer 0 3 1 (some true)) := by
  rw [right_some_true_iff, right_some_true_iff, not_not, not_not]
  exact ⟨⟨by decide +kernel, hiddenTokenizer_matches.1⟩, by decide +kernel,
    hiddenTokenizer_matches.2⟩

end OrdinaryMatch

end GlrMask
