import GlrMask.RangeMap

/-!
# Overlaying two range lists

Two ordered lists of runs are swept from left to right. Where both are defined
their values are compared, or joined by an operation that may change a state;
elsewhere the value of the one side is kept. Runs are appended with coalescing.
-/

namespace GlrMask

namespace RunOverlay

variable {V W σ : Type*}

/-! ## Appending a run -/

/-- Append a run, or extend the last one if the two touch below the last key and agree. -/
def push (same : V → V → Bool) (last_key : ℕ) (ranges : List (Run V)) (run : Run V) :
    List (Run V) :=
  if run.hi < run.lo then ranges
  else
    match ranges.getLast? with
    | some previous =>
        if same previous.val run.val && previous.hi ≠ last_key && previous.hi + 1 = run.lo then
          ranges.dropLast ++ [⟨previous.lo, run.hi, previous.val⟩]
        else ranges ++ [run]
    | none => ranges ++ [run]

/-- Every run of the list ends before a key. -/
def EndsBefore (ranges : List (Run V)) (key : ℕ) : Prop := ∀ run ∈ ranges, run.hi < key

theorem ordered_concat {ranges : List (Run V)} {run : Run V} :
    Ordered (ranges ++ [run]) ↔ Ordered ranges ∧ run.lo ≤ run.hi ∧ EndsBefore ranges run.lo := by
  simp only [Ordered, EndsBefore, List.mem_append, List.mem_singleton, List.pairwise_append,
    List.pairwise_singleton, forall_eq, true_and]
  constructor
  · rintro ⟨hle, hpair, hbefore⟩
    exact ⟨⟨fun r hr => hle r (Or.inl hr), hpair⟩, hle run (Or.inr rfl), hbefore⟩
  · rintro ⟨⟨hle, hpair⟩, hrun, hbefore⟩
    refine ⟨?_, hpair, hbefore⟩
    intro r hr
    obtain hr | rfl := hr
    · exact hle r hr
    · exact hrun

theorem EndsBefore.lookup {ranges : List (Run V)} {key k : ℕ} (h : EndsBefore ranges key)
    (hk : key ≤ k) : lookupRuns ranges k = none := by
  apply lookupRuns_eq_none_iff.mpr
  intro r hr hc
  have := h r hr
  have := hc.2
  omega

theorem lookup_concat (ranges : List (Run V)) (run : Run V) (k : ℕ) :
    lookupRuns (ranges ++ [run]) k =
      (lookupRuns ranges k).or (if run.Covers k then some run.val else none) := by
  rw [lookupRuns_append, lookupRuns_cons, lookupRuns_nil]

/-- What appending a run behind an ordered list gives. -/
theorem push_spec (same : V → V → Bool) (last_key : ℕ) {ranges : List (Run V)} (run : Run V)
    (hsame : ∀ previous ∈ ranges, same previous.val run.val = true → previous.val = run.val)
    (h : Ordered ranges) (hle : run.lo ≤ run.hi) (hbefore : EndsBefore ranges run.lo) :
    Ordered (push same last_key ranges run) ∧
      EndsBefore (push same last_key ranges run) (run.hi + 1) ∧
      ∀ k, lookupRuns (push same last_key ranges run) k =
        if run.Covers k then some run.val else lookupRuns ranges k := by
  have happend : Ordered (ranges ++ [run]) ∧ EndsBefore (ranges ++ [run]) (run.hi + 1) ∧
      ∀ k, lookupRuns (ranges ++ [run]) k =
        if run.Covers k then some run.val else lookupRuns ranges k := by
    refine ⟨ordered_concat.mpr ⟨h, hle, hbefore⟩, ?_, ?_⟩
    · intro r hr
      obtain hr | hr := List.mem_append.mp hr
      · have := hbefore r hr
        omega
      · obtain rfl := List.mem_singleton.mp hr
        omega
    · intro k
      rw [lookup_concat]
      split_ifs with hc
      · rw [hbefore.lookup hc.1, Option.none_or]
      · rw [Option.or_none]
  unfold push
  rw [if_neg (by omega)]
  obtain rfl | ⟨front, previous, rfl⟩ := List.eq_nil_or_concat' ranges
  · exact happend
  · rw [List.getLast?_concat]
    simp only
    split_ifs with hjoin
    · simp only [Bool.and_eq_true, decide_eq_true_eq] at hjoin
      obtain ⟨⟨hval, -⟩, htouch⟩ := hjoin
      obtain ⟨hfront, hprevious, hend⟩ := ordered_concat.mp h
      rw [List.dropLast_concat]
      refine ⟨ordered_concat.mpr ⟨hfront, ?_, hend⟩, ?_, ?_⟩
      · change previous.lo ≤ run.hi
        omega
      · intro r hr
        obtain hr | hr := List.mem_append.mp hr
        · have := hend r hr
          omega
        · obtain rfl := List.mem_singleton.mp hr
          exact Nat.lt_succ_self run.hi
      · intro k
        rw [lookup_concat, lookup_concat, ← hsame previous (by simp) hval]
        by_cases hk : previous.lo ≤ k
        · rw [hend.lookup hk, Option.none_or, Option.none_or]
          simp only [Run.Covers, hk, true_and]
          grind
        · have hrun : ¬run.Covers k := by
            intro hc
            have := hc.1
            omega
          rw [if_neg fun hc => hk hc.1, if_neg hrun, if_neg fun hc => hk hc.1]
    · exact happend

/-- Every value of the list has a property. -/
def Values (P : V → Prop) (ranges : List (Run V)) : Prop := ∀ run ∈ ranges, P run.val

theorem values_push {P : V → Prop} {same : V → V → Bool} {last_key : ℕ} {ranges : List (Run V)}
    {run : Run V} (h : Values P ranges) (hrun : P run.val) :
    Values P (push same last_key ranges run) := by
  have hconcat : ∀ {front : List (Run V)} {last : Run V}, Values P front → P last.val →
      Values P (front ++ [last]) := by
    intro front last hfront hlast r hr
    obtain hr | hr := List.mem_append.mp hr
    · exact hfront r hr
    · obtain rfl := List.mem_singleton.mp hr
      exact hlast
  unfold push
  split
  · exact h
  · split
    · rename_i previous hprevious
      split
      · apply hconcat
        · intro r hr
          exact h r (List.dropLast_subset _ hr)
        · exact h previous (List.mem_of_getLast? hprevious)
      · exact hconcat h hrun
    · exact hconcat h hrun

/-! ## Comparing -/

/-- Whether the values agree wherever both lists are defined. -/
def agree (ok : V → W → Bool) : List (Run V) → List (Run W) → Bool
  | [], _ => true
  | _ :: _, [] => true
  | left :: ls, right :: rs =>
      if left.hi < right.lo then agree ok ls (right :: rs)
      else if right.hi < left.lo then agree ok (left :: ls) rs
      else if !ok left.val right.val then false
      else if left.hi ≤ right.hi then
        if right.hi ≤ left.hi then agree ok ls rs else agree ok ls (right :: rs)
      else agree ok (left :: ls) rs
termination_by ls rs => ls.length + rs.length

theorem lookup_tail {run : Run V} {ranges : List (Run V)} {k : ℕ} (h : ¬run.Covers k) :
    lookupRuns (run :: ranges) k = lookupRuns ranges k := by
  rw [lookupRuns_cons, if_neg h]

theorem le_of_lookup {run : Run V} {ranges : List (Run V)} (h : Ordered (run :: ranges)) {k : ℕ}
    {v : V} (hv : lookupRuns (run :: ranges) k = some v) : run.lo ≤ k := by
  by_contra hlt
  have hle := h.1 run List.mem_cons_self
  rw [lookup_tail fun hc => hlt hc.1, h.lookup_tail_of_le (by omega)] at hv
  cases hv

/-- A key that both lists know lies behind a head that ends first, unless it lies in both heads. -/
theorem not_covers_of_common {left : Run V} {right : Run W} {rs : List (Run W)}
    (hr : Ordered (right :: rs)) {k : ℕ} {b : W} (hb : lookupRuns (right :: rs) k = some b)
    (hboth : ¬(left.Covers k ∧ right.Covers k)) (hle : left.hi ≤ right.hi) : ¬left.Covers k := by
  intro hc
  have hk : k ≤ right.hi := hc.2.trans hle
  rw [lookup_tail fun hc' => hboth ⟨hc, hc'⟩, hr.lookup_tail_of_le hk] at hb
  cases hb

theorem agree_heads {ok : V → W → Bool} {left : Run V} {ls : List (Run V)} {right : Run W}
    {rs : List (Run W)} (hok : ¬(!ok left.val right.val) = true) {k : ℕ} {a : V} {b : W}
    (ha : lookupRuns (left :: ls) k = some a) (hb : lookupRuns (right :: rs) k = some b)
    (hboth : left.Covers k ∧ right.Covers k) : ok a b = true := by
  rw [lookupRuns_cons, if_pos hboth.1] at ha
  rw [lookupRuns_cons, if_pos hboth.2] at hb
  cases ha
  cases hb
  simpa using hok

theorem agree_sound {ok : V → W → Bool} {ls : List (Run V)} {rs : List (Run W)}
    (hl : Ordered ls) (hr : Ordered rs) (h : agree ok ls rs = true) {k : ℕ} {a : V} {b : W}
    (ha : lookupRuns ls k = some a) (hb : lookupRuns rs k = some b) : ok a b = true := by
  fun_induction agree ok ls rs with
  | case1 rs => cases ha
  | case2 left ls => cases hb
  | case3 left ls right rs hlt ih =>
      have hk := le_of_lookup hr hb
      rw [lookup_tail (by intro hc; have := hc.2; omega)] at ha
      exact ih hl.tail hr h ha hb
  | case4 left ls right rs hlt hlt' ih =>
      have hk := le_of_lookup hl ha
      rw [lookup_tail (by intro hc; have := hc.2; omega)] at hb
      exact ih hl hr.tail h ha hb
  | case5 left ls right rs hlt hlt' hok => cases h
  | case6 left ls right rs hlt hlt' hok hle hle' ih =>
      by_cases hboth : left.Covers k ∧ right.Covers k
      · exact agree_heads hok ha hb hboth
      have hleft := not_covers_of_common hr hb hboth hle
      have hright := not_covers_of_common hl ha (fun h => hboth h.symm) hle'
      rw [lookup_tail hleft] at ha
      rw [lookup_tail hright] at hb
      exact ih hl.tail hr.tail h ha hb
  | case7 left ls right rs hlt hlt' hok hle hle' ih =>
      by_cases hboth : left.Covers k ∧ right.Covers k
      · exact agree_heads hok ha hb hboth
      rw [lookup_tail (not_covers_of_common hr hb hboth hle)] at ha
      exact ih hl.tail hr h ha hb
  | case8 left ls right rs hlt hlt' hok hle ih =>
      by_cases hboth : left.Covers k ∧ right.Covers k
      · exact agree_heads hok ha hb hboth
      have hle' : right.hi ≤ left.hi := by omega
      rw [lookup_tail (not_covers_of_common hl ha (fun h => hboth h.symm) hle')] at hb
      exact ih hl hr.tail h ha hb

/-! ## Joining -/

/-- What is left of a list whose head covers `stop`, behind `stop`. -/
def behind (stop : ℕ) (run : Run V) (ranges : List (Run V)) : List (Run V) :=
  if run.hi = stop then ranges else ⟨stop + 1, run.hi, run.val⟩ :: ranges

theorem behind_spec {stop : ℕ} {run : Run V} {ranges : List (Run V)} (h : Ordered (run :: ranges))
    (hlo : run.lo ≤ stop) (hhi : stop ≤ run.hi) :
    Ordered (behind stop run ranges) ∧ (∀ r ∈ behind stop run ranges, stop < r.lo) ∧
      ∀ k, lookupRuns (behind stop run ranges) k =
        if k ≤ stop then none else lookupRuns (run :: ranges) k := by
  have hlater : ∀ r ∈ ranges, run.hi < r.lo := fun r hr => List.rel_of_pairwise_cons h.2 hr
  unfold behind
  split_ifs with he
  · refine ⟨h.tail, ?_, ?_⟩
    · intro r hr
      exact he ▸ hlater r hr
    · intro k
      split_ifs with hk
      · exact h.lookup_tail_of_le (by omega)
      · rw [lookup_tail]
        intro hc
        have := hc.2
        omega
  · refine ⟨⟨?_, ?_⟩, ?_, ?_⟩
    · intro r hr
      obtain rfl | hr := List.mem_cons.mp hr
      · change stop + 1 ≤ run.hi
        omega
      · exact h.1 r (List.mem_cons_of_mem _ hr)
    · exact List.pairwise_cons.mpr ⟨hlater, h.2.tail⟩
    · intro r hr
      obtain rfl | hr := List.mem_cons.mp hr
      · exact Nat.lt_succ_self stop
      · exact lt_of_le_of_lt hhi (hlater r hr)
    · intro k
      rw [lookupRuns_cons]
      split_ifs with hc hk hk
      · have := hc.1
        change stop + 1 ≤ k at this
        omega
      · rw [lookupRuns_cons, if_pos ⟨by omega, hc.2⟩]
      · exact h.lookup_tail_of_le (by omega)
      · rw [lookup_tail]
        intro hc'
        exact hc ⟨by change stop + 1 ≤ k; omega, hc'.2⟩

theorem length_behind_le (stop : ℕ) (run : Run V) (ranges : List (Run V)) :
    (behind stop run ranges).length ≤ ranges.length + 1 := by
  unfold behind
  split_ifs <;> simp

theorem length_behind_hi (run : Run V) (ranges : List (Run V)) :
    (behind run.hi run ranges).length = ranges.length := by
  rw [behind, if_pos rfl]

/-- Append the piece of the head that starts first, up to the start of the other one. -/
def appendLead (append : List (Run V) → Run V → List (Run V)) (result : List (Run V))
    (left right : Run V) : List (Run V) :=
  if left.lo < right.lo then append result ⟨left.lo, right.lo - 1, left.val⟩
  else if right.lo < left.lo then append result ⟨right.lo, left.lo - 1, right.val⟩
  else result

/-- Sweep both lists and append every piece, joining the values where both are defined. -/
def overlay (append : List (Run V) → Run V → List (Run V)) (join : σ → V → V → V × σ) :
    List (Run V) → List (Run V) → List (Run V) → σ → List (Run V) × σ
  | result, [], [], state => (result, state)
  | result, left :: ls, [], state => overlay append join (append result left) ls [] state
  | result, [], right :: rs, state => overlay append join (append result right) [] rs state
  | result, left :: ls, right :: rs, state =>
      if left.hi < right.lo then overlay append join (append result left) ls (right :: rs) state
      else if right.hi < left.lo then
        overlay append join (append result right) (left :: ls) rs state
      else
        let stop := min left.hi right.hi
        let joined := join state left.val right.val
        overlay append join
          (append (appendLead append result left right) ⟨max left.lo right.lo, stop, joined.1⟩)
          (behind stop left ls) (behind stop right rs) joined.2
termination_by _ ls rs _ => ls.length + rs.length
decreasing_by
  all_goals simp only [List.length_cons]
  all_goals try omega
  have hl := length_behind_le (min left.hi right.hi) left ls
  have hr := length_behind_le (min left.hi right.hi) right rs
  obtain he | he := min_choice left.hi right.hi
  · have := length_behind_hi left ls
    rw [he] at hl hr ⊢
    omega
  · have := length_behind_hi right rs
    rw [he] at hl hr ⊢
    omega

/-- What an overlay takes at one key from the values of both sides. -/
inductive Overlaid (joined : V → V → V → Prop) : Option V → Option V → Option V → Prop
  | neither : Overlaid joined none none none
  | left (a : V) : Overlaid joined (some a) none (some a)
  | right (b : V) : Overlaid joined none (some b) (some b)
  | both {a b v : V} (h : joined a b v) : Overlaid joined (some a) (some b) (some v)

/-- What a joining operation with a state does for known values that may meet. -/
structure Joins (same : V → V → Bool) (join : σ → V → V → V × σ) (inv : σ → Prop)
    (known : σ → V → Prop) (meets : V → V → Prop) (joined : V → V → V → Prop) : Prop where
  same_eq : ∀ {state a b}, inv state → known state a → known state b → same a b = true → a = b
  keeps : ∀ {state a b}, inv state → known state a → known state b → meets a b →
    inv (join state a b).2 ∧ known (join state a b).2 (join state a b).1 ∧
      joined a b (join state a b).1 ∧ ∀ v, known state v → known (join state a b).2 v

/-- The outcome of a sweep over two partial functions behind the runs that are finished. -/
structure Overlays (inv : σ → Prop) (known : σ → V → Prop) (joined : V → V → V → Prop)
    (state : σ) (finished : List (Run V)) (left right : ℕ → Option V) (out : List (Run V) × σ) :
    Prop where
  inv : inv out.2
  values : Values (known out.2) out.1
  mono : ∀ {v}, known state v → known out.2 v
  ordered : Ordered out.1
  kept : ∀ {k v}, lookupRuns finished k = some v → lookupRuns out.1 k = some v
  added : ∀ {k}, lookupRuns finished k = none →
    Overlaid joined (left k) (right k) (lookupRuns out.1 k)

section Overlay

variable {inv : σ → Prop} {known : σ → V → Prop} {joined : V → V → V → Prop} {state : σ}
  {same : V → V → Bool} {last_key : ℕ} {finished : List (Run V)} {left right left' right' : ℕ → Option V}
  {out : List (Run V) × σ}

/-- A sweep whose next piece is `run`. -/
theorem Overlays.of_append {run : Run V}
    (hlookup : ∀ k, lookupRuns (push same last_key finished run) k =
      if run.Covers k then some run.val else lookupRuns finished k)
    (hfresh : EndsBefore finished run.lo)
    (h : Overlays inv known joined state (push same last_key finished run) left' right' out)
    (hpiece : ∀ k, run.Covers k → Overlaid joined (left k) (right k) (some run.val))
    (hrest : ∀ k, ¬run.Covers k → lookupRuns finished k = none →
      left k = left' k ∧ right k = right' k) :
    Overlays inv known joined state finished left right out := by
  refine ⟨h.inv, h.values, h.mono, h.ordered, ?_, ?_⟩
  · intro k v hv
    apply h.kept
    rw [hlookup, if_neg, hv]
    intro hc
    rw [hfresh.lookup hc.1] at hv
    cases hv
  · intro k hk
    by_cases hc : run.Covers k
    · rw [h.kept (by rw [hlookup, if_pos hc])]
      exact hpiece k hc
    · obtain ⟨hleft, hright⟩ := hrest k hc hk
      rw [hleft, hright]
      exact h.added (by rw [hlookup, if_neg hc, hk])

theorem overlaid_none_left {P : V → V → V → Prop} {a : Option V} : Overlaid P none a a := by
  cases a with
  | none => exact .neither
  | some a => exact .right a

theorem overlaid_none_right {P : V → V → V → Prop} {a : Option V} : Overlaid P a none a := by
  cases a with
  | none => exact .neither
  | some a => exact .left a

theorem eq_of_overlaid_none_right {P : V → V → V → Prop} {a v : Option V}
    (h : Overlaid P a none v) : v = a := by
  cases h with
  | neither => rfl
  | left a => rfl

theorem Overlays.of_state {state' : σ}
    (hmono : ∀ v, known state v → known state' v)
    (h : Overlays inv known joined state' finished left right out) :
    Overlays inv known joined state finished left right out :=
  ⟨h.inv, h.values, fun hv => h.mono (hmono _ hv), h.ordered, h.kept, h.added⟩

theorem lookup_before {run : Run V} {ranges : List (Run V)} (h : Ordered (run :: ranges)) {k : ℕ}
    (hk : k < run.lo) : lookupRuns (run :: ranges) k = none := by
  cases hv : lookupRuns (run :: ranges) k with
  | none => rfl
  | some v =>
      have := le_of_lookup h hv
      omega

section Lead

variable {l r : Run V} {ls rs : List (Run V)}

theorem appendLead_ordered (last_key : ℕ)
    (hsame : ∀ p ∈ finished, ∀ v, v = l.val ∨ v = r.val → same p.val v = true → p.val = v)
    (hfinished : Ordered finished)
    (hfl : EndsBefore finished l.lo) (hfr : EndsBefore finished r.lo) :
    Ordered (appendLead (push same last_key) finished l r) ∧
      EndsBefore (appendLead (push same last_key) finished l r) (max l.lo r.lo) := by
  unfold appendLead
  split_ifs with hlt hlt'
  · obtain ⟨hordered, hends, -⟩ := push_spec same last_key ⟨l.lo, r.lo - 1, l.val⟩
      (fun p hp => hsame p hp _ (Or.inl rfl)) hfinished (by change l.lo ≤ r.lo - 1; omega) hfl
    refine ⟨hordered, ?_⟩
    intro run hrun
    have : run.hi < r.lo - 1 + 1 := hends run hrun
    omega
  · obtain ⟨hordered, hends, -⟩ := push_spec same last_key ⟨r.lo, l.lo - 1, r.val⟩
      (fun p hp => hsame p hp _ (Or.inr rfl)) hfinished (by change r.lo ≤ l.lo - 1; omega) hfr
    refine ⟨hordered, ?_⟩
    intro run hrun
    have : run.hi < l.lo - 1 + 1 := hends run hrun
    omega
  · refine ⟨hfinished, ?_⟩
    intro run hrun
    have := hfl run hrun
    omega

/-- A sweep whose heads overlap starts with the part of the head that starts first. -/
theorem Overlays.of_lead
    (hsame : ∀ p ∈ finished, ∀ v, v = l.val ∨ v = r.val → same p.val v = true → p.val = v)
    (hfinished : Ordered finished)
    (hl : Ordered (l :: ls)) (hr : Ordered (r :: rs)) (hfl : EndsBefore finished l.lo)
    (hfr : EndsBefore finished r.lo) (hlr : r.lo ≤ l.hi) (hrl : l.lo ≤ r.hi)
    (h : Overlays inv known joined state (appendLead (push same last_key) finished l r)
      (fun k => if k < max l.lo r.lo then none else lookupRuns (l :: ls) k)
      (fun k => if k < max l.lo r.lo then none else lookupRuns (r :: rs) k) out) :
    Overlays inv known joined state finished (lookupRuns (l :: ls)) (lookupRuns (r :: rs)) out := by
  unfold appendLead at h
  split_ifs at h with hlt hlt'
  · obtain ⟨-, -, hlookup⟩ := push_spec same last_key ⟨l.lo, r.lo - 1, l.val⟩
      (fun p hp => hsame p hp _ (Or.inl rfl)) hfinished (by change l.lo ≤ r.lo - 1; omega) hfl
    apply h.of_append hlookup hfl
    · intro k hc
      have hlo : l.lo ≤ k := hc.1
      have hhi : k ≤ r.lo - 1 := hc.2
      rw [lookupRuns_cons, if_pos ⟨hlo, by omega⟩, lookup_before hr (by omega)]
      exact .left l.val
    · intro k hc hk
      by_cases hlo : k < l.lo
      · rw [if_pos (by omega), if_pos (by omega), lookup_before hl hlo,
          lookup_before hr (by omega)]
        exact ⟨rfl, rfl⟩
      · have hstart : ¬k < max l.lo r.lo := by
          intro hlt
          exact hc ⟨by change l.lo ≤ k; omega, by change k ≤ r.lo - 1; omega⟩
        rw [if_neg hstart, if_neg hstart]
        exact ⟨rfl, rfl⟩
  · obtain ⟨-, -, hlookup⟩ := push_spec same last_key ⟨r.lo, l.lo - 1, r.val⟩
      (fun p hp => hsame p hp _ (Or.inr rfl)) hfinished (by change r.lo ≤ l.lo - 1; omega) hfr
    apply h.of_append hlookup hfr
    · intro k hc
      have hlo : r.lo ≤ k := hc.1
      have hhi : k ≤ l.lo - 1 := hc.2
      rw [lookup_before hl (by omega), lookupRuns_cons, if_pos ⟨hlo, by omega⟩]
      exact .right r.val
    · intro k hc hk
      by_cases hlo : k < r.lo
      · rw [if_pos (by omega), if_pos (by omega), lookup_before hl (by omega),
          lookup_before hr hlo]
        exact ⟨rfl, rfl⟩
      · have hstart : ¬k < max l.lo r.lo := by
          intro hlt
          exact hc ⟨by change r.lo ≤ k; omega, by change k ≤ l.lo - 1; omega⟩
        rw [if_neg hstart, if_neg hstart]
        exact ⟨rfl, rfl⟩
  · refine ⟨h.inv, h.values, h.mono, h.ordered, h.kept, ?_⟩
    intro k hk
    have hadded := h.added hk
    by_cases hlo : k < max l.lo r.lo
    · rw [lookup_before hl (by omega), lookup_before hr (by omega)]
      simpa only [if_pos hlo] using hadded
    · simpa only [if_neg hlo] using hadded

end Lead

theorem values_appendLead {P : V → Prop} (h : Values P finished) {l r : Run V} (hl : P l.val)
    (hr : P r.val) : Values P (appendLead (push same last_key) finished l r) := by
  unfold appendLead
  split_ifs
  · exact values_push h hl
  · exact values_push h hr
  · exact h

theorem values_behind {P : V → Prop} {stop : ℕ} {run : Run V} {ranges : List (Run V)}
    (h : Values P (run :: ranges)) : Values P (behind stop run ranges) := by
  unfold behind
  split_ifs
  · exact fun r hr => h r (List.mem_cons_of_mem _ hr)
  · intro r hr
    obtain rfl | hr := List.mem_cons.mp hr
    · exact h run List.mem_cons_self
    · exact h r (List.mem_cons_of_mem _ hr)

/-- Sweeping two ordered lists behind finished runs. -/
theorem overlay_overlays {join : σ → V → V → V × σ} {meets : V → V → Prop}
    (hjoin : Joins same join inv known meets joined) {ls rs : List (Run V)} (hinv : inv state)
    (hkf : Values (known state) finished) (hkl : Values (known state) ls)
    (hkr : Values (known state) rs) (hfinished : Ordered finished) (hl : Ordered ls)
    (hr : Ordered rs) (hfl : ∀ run ∈ ls, EndsBefore finished run.lo)
    (hfr : ∀ run ∈ rs, EndsBefore finished run.lo)
    (hmeets : ∀ k a b, lookupRuns ls k = some a → lookupRuns rs k = some b → meets a b) :
    Overlays inv known joined state finished (lookupRuns ls) (lookupRuns rs)
      (overlay (push same last_key) join finished ls rs state) := by
  -- pushing a head keeps the finished runs before everything that starts behind the head
  have hlater : ∀ {finished : List (Run V)} {run next : Run V},
      EndsBefore (push same last_key finished run) (run.hi + 1) → run.hi < next.lo →
        EndsBefore (push same last_key finished run) next.lo := by
    intro finished run next hends hlt r hmem
    have := hends r hmem
    omega
  fun_induction overlay (push same last_key) join finished ls rs state with
  | case1 finished state =>
      exact ⟨hinv, hkf, id, hfinished, id, fun hk => hk ▸ .neither⟩
  | case2 finished left ls state ih =>
      have hfresh := hfl left List.mem_cons_self
      have hknown := hkl left List.mem_cons_self
      obtain ⟨hordered, hends, hlookup⟩ := push_spec same last_key left
        (fun p hp => hjoin.same_eq hinv (hkf p hp) hknown) hfinished
        (hl.1 left List.mem_cons_self) hfresh
      apply (ih hinv (values_push hkf hknown) (fun r hr => hkl r (List.mem_cons_of_mem _ hr)) hkr
        hordered hl.tail hr
        (fun run hrun => hlater hends (List.rel_of_pairwise_cons hl.2 hrun))
        (by simp) (by simp)).of_append hlookup hfresh
      · intro k hc
        rw [lookupRuns_cons, if_pos hc]
        exact overlaid_none_right
      · intro k hc hk
        exact ⟨lookup_tail hc, rfl⟩
  | case3 finished right rs state ih =>
      have hfresh := hfr right List.mem_cons_self
      have hknown := hkr right List.mem_cons_self
      obtain ⟨hordered, hends, hlookup⟩ := push_spec same last_key right
        (fun p hp => hjoin.same_eq hinv (hkf p hp) hknown) hfinished
        (hr.1 right List.mem_cons_self) hfresh
      apply (ih hinv (values_push hkf hknown) hkl (fun r hr => hkr r (List.mem_cons_of_mem _ hr))
        hordered hl hr.tail (by simp)
        (fun run hrun => hlater hends (List.rel_of_pairwise_cons hr.2 hrun))
        (by simp)).of_append hlookup hfresh
      · intro k hc
        rw [lookupRuns_cons, if_pos hc]
        exact overlaid_none_left
      · intro k hc hk
        exact ⟨rfl, lookup_tail hc⟩
  | case4 finished left ls right rs state hlt ih =>
      have hfresh := hfl left List.mem_cons_self
      have hknown := hkl left List.mem_cons_self
      obtain ⟨hordered, hends, hlookup⟩ := push_spec same last_key left
        (fun p hp => hjoin.same_eq hinv (hkf p hp) hknown) hfinished
        (hl.1 left List.mem_cons_self) hfresh
      have hright : ∀ run ∈ right :: rs, left.hi < run.lo := by
        intro run hrun
        obtain rfl | hrun := List.mem_cons.mp hrun
        · exact hlt
        · have := hr.1 right List.mem_cons_self
          have : right.hi < run.lo := List.rel_of_pairwise_cons hr.2 hrun
          omega
      apply (ih hinv (values_push hkf hknown) (fun r hr => hkl r (List.mem_cons_of_mem _ hr)) hkr
        hordered hl.tail hr
        (fun run hrun => hlater hends (List.rel_of_pairwise_cons hl.2 hrun))
        (fun run hrun => hlater hends (hright run hrun)) ?_).of_append hlookup hfresh
      · intro k hc
        rw [lookupRuns_cons, if_pos hc, lookup_before hr (by have := hc.2; omega)]
        exact overlaid_none_right
      · intro k hc hk
        exact ⟨lookup_tail hc, rfl⟩
      · intro k a b ha hb
        apply hmeets k a b _ hb
        rw [lookup_tail, ha]
        intro hc
        rw [hl.lookup_tail_of_le hc.2] at ha
        cases ha
  | case5 finished left ls right rs state hlt hlt' ih =>
      have hfresh := hfr right List.mem_cons_self
      have hknown := hkr right List.mem_cons_self
      obtain ⟨hordered, hends, hlookup⟩ := push_spec same last_key right
        (fun p hp => hjoin.same_eq hinv (hkf p hp) hknown) hfinished
        (hr.1 right List.mem_cons_self) hfresh
      have hleft : ∀ run ∈ left :: ls, right.hi < run.lo := by
        intro run hrun
        obtain rfl | hrun := List.mem_cons.mp hrun
        · exact hlt'
        · have := hl.1 left List.mem_cons_self
          have : left.hi < run.lo := List.rel_of_pairwise_cons hl.2 hrun
          omega
      apply (ih hinv (values_push hkf hknown) hkl (fun r hr => hkr r (List.mem_cons_of_mem _ hr))
        hordered hl hr.tail (fun run hrun => hlater hends (hleft run hrun))
        (fun run hrun => hlater hends (List.rel_of_pairwise_cons hr.2 hrun)) ?_).of_append
        hlookup hfresh
      · intro k hc
        rw [lookup_before hl (by have := hc.2; omega), lookupRuns_cons, if_pos hc]
        exact overlaid_none_left
      · intro k hc hk
        exact ⟨rfl, lookup_tail hc⟩
      · intro k a b ha hb
        apply hmeets k a b ha
        rw [lookup_tail, hb]
        intro hc
        rw [hr.lookup_tail_of_le hc.2] at hb
        cases hb
  | case6 finished left ls right rs state hlt hlt' stop next ih =>
      have hleft := hl.1 left List.mem_cons_self
      have hright := hr.1 right List.mem_cons_self
      have hfl' := hfl left List.mem_cons_self
      have hfr' := hfr right List.mem_cons_self
      have hkl' := hkl left List.mem_cons_self
      have hkr' := hkr right List.mem_cons_self
      have hstop : max left.lo right.lo ≤ stop := by omega
      have hmeet : meets left.val right.val := by
        apply hmeets stop
        · rw [lookupRuns_cons, if_pos ⟨by omega, min_le_left left.hi right.hi⟩]
        · rw [lookupRuns_cons, if_pos ⟨by omega, min_le_right left.hi right.hi⟩]
      obtain ⟨hinv', hnext, hjoined, hmono⟩ := hjoin.keeps hinv hkl' hkr' hmeet
      have hsame : ∀ p ∈ finished, ∀ v, v = left.val ∨ v = right.val → same p.val v = true →
          p.val = v := by
        intro p hp v hv
        apply hjoin.same_eq hinv (hkf p hp)
        obtain rfl | rfl := hv
        · exact hkl'
        · exact hkr'
      obtain ⟨hlead, hleadends⟩ :=
        appendLead_ordered last_key hsame hfinished hfl' hfr'
      have hklead : Values (known next.2) (appendLead (push same last_key) finished left right) :=
        fun r hr => hmono _ (values_appendLead hkf hkl' hkr' r hr)
      obtain ⟨hordered, hends, hlookup⟩ := push_spec same last_key
        ⟨max left.lo right.lo, stop, next.1⟩
        (fun p hp => hjoin.same_eq hinv' (hklead p hp) hnext) hlead hstop hleadends
      obtain ⟨hbl, hblo, hblookup⟩ := behind_spec hl (by omega) (min_le_left left.hi right.hi)
      obtain ⟨hbr, hbro, hbrlookup⟩ := behind_spec hr (by omega) (min_le_right left.hi right.hi)
      have hrest := ih hinv' (values_push hklead hnext)
        (fun r hr => hmono _ (values_behind hkl r hr))
        (fun r hr => hmono _ (values_behind hkr r hr)) hordered hbl hbr
        (fun run hrun => hlater hends (hblo run hrun))
        (fun run hrun => hlater hends (hbro run hrun)) (by
          intro k a b ha hb
          rw [hblookup] at ha
          rw [hbrlookup] at hb
          split_ifs at ha hb with hk
          exact hmeets k a b ha hb)
      apply Overlays.of_lead hsame hfinished hl hr hfl' hfr' (by omega) (by omega)
      apply (hrest.of_state hmono).of_append hlookup hleadends
      · intro k hc
        have hlo : max left.lo right.lo ≤ k := hc.1
        have hhi : k ≤ stop := hc.2
        rw [if_neg (by omega), if_neg (by omega), lookupRuns_cons, if_pos ⟨by omega, by omega⟩,
          lookupRuns_cons, if_pos ⟨by omega, by omega⟩]
        exact .both hjoined
      · intro k hc hk
        rw [hblookup, hbrlookup]
        by_cases hlo : k < max left.lo right.lo
        · rw [if_pos hlo, if_pos hlo, if_pos (by omega), if_pos (by omega)]
          exact ⟨rfl, rfl⟩
        · have hhi : ¬k ≤ stop := fun hhi => hc ⟨by change max left.lo right.lo ≤ k; omega, hhi⟩
          rw [if_neg hlo, if_neg hlo, if_neg hhi, if_neg hhi]
          exact ⟨rfl, rfl⟩

/-- Sweeping two ordered lists. -/
theorem overlay_spec {join : σ → V → V → V × σ} {meets : V → V → Prop} (last_key : ℕ)
    (state : σ) (hjoin : Joins same join inv known meets joined) {ls rs : List (Run V)} (hinv : inv state)
    (hkl : Values (known state) ls) (hkr : Values (known state) rs) (hl : Ordered ls)
    (hr : Ordered rs)
    (hmeets : ∀ k a b, lookupRuns ls k = some a → lookupRuns rs k = some b → meets a b) :
    Overlays inv known joined state [] (lookupRuns ls) (lookupRuns rs)
      (overlay (push same last_key) join [] ls rs state) :=
  overlay_overlays hjoin hinv (fun r hr => by cases hr) hkl hkr
    ⟨fun r hr => (List.not_mem_nil hr).elim, List.Pairwise.nil⟩ hl hr
    (fun _ _ r hr => by cases hr)
    (fun _ _ r hr => by cases hr) hmeets

end Overlay

end RunOverlay

end GlrMask
