import GlrMask.WeightPoolListings

/-!
# Unpacking bytes of any origin

For bytes that were not packed by the writer, unpacking is compared with the weights
that the runtime pool reads in place. The condition under which both agree on valid
weights is stated on what the bytes list.
-/

namespace GlrMask

namespace WeightPool

/-! ## Decoding a list of bodies -/

section Decoding

variable {α β γ : Type}

/-- A decoder that first lists, refuses what cannot be listed, and panics on what is not good. -/
structure Builds (list : α → Except Failure β) (decode : α → Except Failure γ)
    (good : β → Prop) (made : β → γ → Prop) : Prop where
  refused : ∀ a failure, list a = .error failure →
    decode a = .error failure ∧ ∃ message, failure = .error message
  made : ∀ a b, list a = .ok b → good b → ∃ c, decode a = .ok c ∧ made b c
  panics : ∀ a b, list a = .ok b → ¬ good b → ∃ message, decode a = .error (.panic message)

/-- Reading in order, everything before the first refusal is good. -/
def ReadsGood (list : α → Except Failure β) (good : β → Prop) : List α → Prop
  | [] => True
  | a :: as => ∀ b, list a = .ok b → good b ∧ ReadsGood list good as

variable {list : α → Except Failure β} {decode : α → Except Failure γ} {good : β → Prop}
  {made : β → γ → Prop}

theorem Builds.of_ok (h : Builds list decode good made) {a : α} {c : γ} (hc : decode a = .ok c) :
    ∃ b, list a = .ok b ∧ good b ∧ made b c := by
  cases hb : list a with
  | error failure =>
      rw [(h.refused a failure hb).1] at hc
      cases hc
  | ok b =>
      by_cases hgood : good b
      · obtain ⟨c', hc', hmade⟩ := h.made a b hb hgood
        obtain rfl := Except.ok.inj (hc'.symm.trans hc)
        exact ⟨b, rfl, hgood, hmade⟩
      · obtain ⟨message, hpanic⟩ := h.panics a b hb hgood
        rw [hpanic] at hc
        cases hc

theorem mapM_eq_ok {f : α → Except Failure γ} {as : List α} {cs : List γ}
    (h : as.mapM f = .ok cs) : List.Forall₂ (fun a c => f a = .ok c) as cs := by
  induction as generalizing cs with
  | nil =>
      obtain rfl := Except.ok.inj h
      exact List.Forall₂.nil
  | cons a as ih =>
      rw [List.mapM_cons] at h
      cases ha : f a with
      | error failure =>
          rw [ha] at h
          cases h
      | ok c =>
          rw [ha] at h
          cases has : as.mapM f with
          | error failure =>
              rw [has] at h
              cases h
          | ok cs' =>
              rw [has] at h
              obtain rfl := Except.ok.inj h
              exact List.Forall₂.cons ha (ih has)

/-- Decoding panics exactly if something that is read is not good. -/
theorem Builds.mapM_panics_iff (h : Builds list decode good made) (as : List α) :
    (∃ message, as.mapM decode = .error (.panic message)) ↔ ¬ ReadsGood list good as := by
  induction as with
  | nil =>
      constructor
      · intro hpanic
        obtain ⟨message, hpanic⟩ := hpanic
        cases hpanic
      · intro hnot
        exact absurd trivial hnot
  | cons a as ih =>
      rw [List.mapM_cons]
      cases hb : list a with
      | error failure =>
          obtain ⟨hdecode, message, rfl⟩ := h.refused a failure hb
          rw [hdecode]
          apply iff_of_false
          · intro hpanic
            obtain ⟨message', hpanic⟩ := hpanic
            cases hpanic
          · intro hnot
            apply hnot
            intro b hb'
            rw [hb] at hb'
            cases hb'
      | ok b =>
          by_cases hgood : good b
          · obtain ⟨c, hc, -⟩ := h.made a b hb hgood
            have hreads : ReadsGood list good (a :: as) ↔ ReadsGood list good as := by
              constructor
              · intro hall
                exact (hall b hb).2
              · intro hall b' hb'
                obtain rfl := Except.ok.inj (hb.symm.trans hb')
                exact ⟨hgood, hall⟩
            rw [hc, hreads, ← ih]
            apply exists_congr
            intro message
            cases has : as.mapM decode with
            | error failure =>
                constructor
                · intro herror
                  obtain rfl : failure = .panic message := Except.error.inj herror
                  rfl
                · intro herror
                  obtain rfl : failure = .panic message := Except.error.inj herror
                  rfl
            | ok cs =>
                apply iff_of_false
                · intro herror
                  cases herror
                · intro herror
                  cases herror
          · obtain ⟨message, hpanic⟩ := h.panics a b hb hgood
            rw [hpanic]
            apply iff_of_true
            · exact ⟨message, rfl⟩
            · intro hall
              exact hgood (hall b hb).1

end Decoding

/-- Runs in order are built into a map or are a panic. -/
theorem builds_of_runs {α V : Type} [DecidableEq V] {list : α → Except Failure (List (Run V))}
    {decode : α → Except Failure (RangeMap u32Max V)}
    (hdecode : ∀ a, decode a = list a >>= from_sorted_disjoint)
    (hrefused : ∀ a failure, list a = .error failure → ∃ message, failure = .error message)
    (hruns : ∀ a runs, list a = .ok runs → ∀ r ∈ runs, r.hi ≤ u32Max) :
    Builds list decode Canonical (fun runs map => map.runs = runs) where
  refused a failure h := by
    rw [hdecode, h]
    exact ⟨rfl, hrefused a failure h⟩
  made a runs h hcanonical := by
    rw [hdecode, h]
    exact ⟨⟨runs, hcanonical, hruns a runs h⟩, dif_pos ⟨hcanonical, hruns a runs h⟩, rfl⟩
  panics a runs h hnot := by
    rw [hdecode, h]
    exact ⟨_, from_sorted_disjoint_panic hnot⟩

theorem listed_token_set_bounded {body : List UInt8} {runs : List (Run Unit)}
    (h : listed_token_set body = .ok runs) : RunsFrom 0 runs := by
  obtain ⟨pos, hread⟩ := eq_ok_of_fst h
  obtain ⟨runs', pos₁, hranges, hrest⟩ := bind_eq_ok hread
  obtain ⟨-, pos₂, -, hpure⟩ := bind_eq_ok hrest
  obtain ⟨rfl, -⟩ := Prod.mk.inj (Except.ok.inj hpure)
  obtain ⟨count, pos₃, -, hruns⟩ := bind_eq_ok hranges
  exact (take_runs_ok hruns).2

/-- A listed weight is the full one, or has as many entries as it says. -/
theorem listed_weight_cases {token_sets : List TokenSet} {body : List UInt8}
    {runs : List (Run TokenSet)} (h : listed_weight token_sets body = .ok runs) :
    (body = [1] ∧ runs = allMap.runs) ∨
      ∃ rest count pos, body = 0 :: rest ∧ take_var_u32 body 1 = .ok (count, pos) ∧
        ∃ pos', take_runs body weight_errors (take_token_set body token_sets) count 0 pos =
          .ok (runs, pos') := by
  obtain ⟨pos, hread⟩ := eq_ok_of_fst h
  obtain ⟨tag, pos₁, htag, hrest⟩ := bind_eq_ok hread
  cases body with
  | nil => cases htag
  | cons byte rest =>
      obtain ⟨rfl, rfl⟩ := Prod.mk.inj (Except.ok.inj htag)
      split_ifs at hrest with hone hzero
      · left
        obtain ⟨nothing, pos₂, hend, hpure⟩ := bind_eq_ok hrest
        obtain ⟨rfl, -⟩ := Prod.mk.inj (Except.ok.inj hpure)
        unfold expect_end at hend
        split_ifs at hend with hlength
        have hnil : rest = [] := List.length_eq_zero_iff.mp (Nat.succ.inj hlength).symm
        rw [hone, hnil]
        exact ⟨rfl, rfl⟩
      · right
        obtain ⟨count, pos₂, hcount, hentries⟩ := bind_eq_ok hrest
        refine ⟨rest, count, pos₂, by rw [hzero], hcount, ?_⟩
        split_ifs at hentries with hnone
        · obtain ⟨-, pos₃, -, hpure⟩ := bind_eq_ok hentries
          obtain ⟨rfl, -⟩ := Prod.mk.inj (Except.ok.inj hpure)
          rw [hnone]
          exact ⟨pos₂, rfl⟩
        · obtain ⟨runs', pos₃, hruns, hrest'⟩ := bind_eq_ok hentries
          obtain ⟨-, pos₄, -, hpure⟩ := bind_eq_ok hrest'
          obtain ⟨rfl, -⟩ := Prod.mk.inj (Except.ok.inj hpure)
          exact ⟨pos₃, hruns⟩
      · cases hrest

theorem listed_weight_bounded {token_sets : List TokenSet} {body : List UInt8}
    {runs : List (Run TokenSet)} (h : listed_weight token_sets body = .ok runs) :
    ∀ r ∈ runs, r.hi ≤ u32Max := by
  rcases listed_weight_cases h with hfull | hentries
  · rw [hfull.2]
    exact allMap.bounded
  · obtain ⟨rest, count, pos, -, -, pos', hruns⟩ := hentries
    exact (take_runs_ok hruns).2.bounded

theorem builds_token_set : Builds listed_token_set decode_pooled_token_set_v2 Canonical
    (fun runs tokens => tokens.runs = runs) := by
  apply builds_of_runs
  · intro body
    unfold decode_pooled_token_set_v2 listed_token_set
    generalize (do
      let runs ← take_token_ranges body
      expect_end body "trailing bytes in packed token set"
      pure runs : Cursor Failure (List (Run Unit))) 0 = decoded
    cases decoded with
    | error failure => rfl
    | ok p => rfl
  · intro body failure h
    exact listed_token_set_graceful h
  · intro body runs h
    exact (listed_token_set_bounded h).bounded

theorem builds_weight (token_sets : List TokenSet) :
    Builds (listed_weight token_sets) (decode_pooled_weight_v3 token_sets) Canonical
      (fun runs map => map.runs = runs) := by
  apply builds_of_runs
  · intro body
    unfold decode_pooled_weight_v3 listed_weight
    generalize take_tagged body (take_full body) (take_entries_v3 body token_sets) 0 = decoded
    cases decoded with
    | error failure => rfl
    | ok p => rfl
  · intro body failure h
    exact listed_weight_graceful h
  · intro body runs h
    exact listed_weight_bounded h

/-! ## Framing -/

/-- The bodies of the token sets with their places. -/
def token_spans (input : List UInt8) : Except Failure (List (ℕ × List UInt8) × ℕ) :=
  (do
    let token_set_count ← take_var_u32 input
    take_each (take_span input "Weight-pool token set") token_set_count :
      Cursor Failure (List (ℕ × List UInt8))) 4

/-- The bodies of the weights with their places; nothing may follow them. -/
def weight_spans (input : List UInt8) (pos : ℕ) : Except Failure (List (ℕ × List UInt8) × ℕ) :=
  (do
    let weight_count ← take_var_u32 input
    let spans ← take_each (take_span input "Weight-pool weight") weight_count
    expect_end input "trailing bytes in packed Weight pool"
    pure spans : Cursor Failure (List (ℕ × List UInt8))) pos

theorem take_length_prefixed_slices_eq (input : List UInt8) (label : String) (count pos : ℕ) :
    take_length_prefixed_slices input label count pos =
      (take_each (take_span input label) count pos).map fun p => (p.1.map Prod.snd, p.2) := by
  induction count generalizing pos with
  | zero => rfl
  | succ count ih =>
      rw [take_length_prefixed_slices, take_each]
      cases hspan : take_span input label pos with
      | error failure =>
          rw [bind_error hspan, bind_error hspan]
          rfl
      | ok p =>
          have hrest := ih p.2
          rw [bind_ok hspan, bind_ok hspan]
          cases heach : take_each (take_span input label) count p.2 with
          | error failure =>
              rw [heach] at hrest
              rw [bind_error hrest, bind_error heach]
              rfl
          | ok spans =>
              rw [heach] at hrest
              rw [bind_ok hrest, bind_ok heach]
              rfl

theorem take_weight_bodies_eq (input : List UInt8) (token_sets : List TokenSet) (pos : ℕ) :
    (do
      let weight_count ← take_var_u32 input
      let weight_bodies ← take_length_prefixed_slices input "Weight-pool weight" weight_count
      expect_end input "trailing bytes in packed Weight pool"
      pure (token_sets, weight_bodies) :
        Cursor Failure (List TokenSet × List (List UInt8))) pos =
      (weight_spans input pos).map fun p => ((token_sets, p.1.map Prod.snd), p.2) := by
  unfold weight_spans
  cases hcount : take_var_u32 input pos with
  | error failure =>
      rw [bind_error hcount, bind_error hcount]
      rfl
  | ok p =>
      rw [bind_ok hcount, bind_ok hcount]
      have hslices := take_length_prefixed_slices_eq input "Weight-pool weight" p.1 p.2
      cases hspans : take_each (take_span input "Weight-pool weight") p.1 p.2 with
      | error failure =>
          rw [hspans] at hslices
          rw [bind_error hslices, bind_error hspans]
          rfl
      | ok spans =>
          rw [hspans] at hslices
          rw [bind_ok hslices, bind_ok hspans]
          cases hend : expect_end input "trailing bytes in packed Weight pool" spans.2 with
          | error failure =>
              rw [bind_error hend, bind_error hend]
              rfl
          | ok q =>
              rw [bind_ok hend, bind_ok hend]
              rfl

theorem unpack_pooled_weights_v3_eq (input : List UInt8) :
    unpack_pooled_weights_v3 input = (do
      let tokens ← token_spans input
      let token_sets ← (tokens.1.map Prod.snd).mapM decode_pooled_token_set_v2
      let weights ← weight_spans input tokens.2
      (weights.1.map Prod.snd).mapM (decode_pooled_weight_v3 token_sets)) := by
  unfold unpack_pooled_weights_v3 take_pool_v3 token_spans
  cases hcount : take_var_u32 input 4 with
  | error failure =>
      rw [bind_error hcount, bind_error hcount]
      rfl
  | ok p =>
      rw [bind_ok hcount, bind_ok hcount]
      have hslices := take_length_prefixed_slices_eq input "Weight-pool token set" p.1 p.2
      cases hspans : take_each (take_span input "Weight-pool token set") p.1 p.2 with
      | error failure =>
          rw [hspans] at hslices
          rw [bind_error hslices]
          rfl
      | ok spans =>
          rw [hspans] at hslices
          rw [bind_ok hslices]
          change (((liftM ((spans.1.map Prod.snd).mapM decode_pooled_token_set_v2) :
            Cursor Failure (List TokenSet)) >>= fun token_sets => _) spans.2 >>= _) =
              ((spans.1.map Prod.snd).mapM decode_pooled_token_set_v2 >>= _)
          cases htokens : (spans.1.map Prod.snd).mapM decode_pooled_token_set_v2 with
          | error failure => rfl
          | ok token_sets =>
              rw [bind_ok (lift_ok token_sets spans.2), take_weight_bodies_eq]
              change _ = (weight_spans input spans.2 >>= _)
              cases weight_spans input spans.2 with
              | error failure => rfl
              | ok weights => rfl

/-! ## The runtime pool of the same bytes -/

section Each

variable {V W : Type} {item : Cursor Failure V} {item' : Cursor Failure W}

theorem take_each_succ_ok {count pos pos' : ℕ} {vals : List V}
    (h : take_each item (count + 1) pos = .ok (vals, pos')) :
    ∃ v p rest, item pos = .ok (v, p) ∧ take_each item count p = .ok (rest, pos') ∧
      vals = v :: rest := by
  obtain ⟨v, p, hv, h⟩ := bind_eq_ok h
  obtain ⟨rest, p', hrest, hpure⟩ := bind_eq_ok h
  obtain ⟨rfl, rfl⟩ := Prod.mk.inj (Except.ok.inj hpure)
  exact ⟨v, p, rest, hv, hrest, rfl⟩

/-- What one reader reads again and again the other one reads too. -/
theorem take_each_related {R : V → W → Prop} {count pos pos' : ℕ} {vals : List V}
    (h : take_each item count pos = .ok (vals, pos'))
    (hitem : ∀ v ∈ vals, ∀ p p', item p = .ok (v, p') → ∃ w, item' p = .ok (w, p') ∧ R v w) :
    ∃ ws, take_each item' count pos = .ok (ws, pos') ∧ List.Forall₂ R vals ws := by
  induction count generalizing pos vals with
  | zero =>
      obtain ⟨rfl, rfl⟩ := Prod.mk.inj (Except.ok.inj h)
      exact ⟨[], rfl, List.Forall₂.nil⟩
  | succ count ih =>
      obtain ⟨v, p, rest, hv, hrest, rfl⟩ := take_each_succ_ok h
      obtain ⟨w, hw, hR⟩ := hitem v List.mem_cons_self pos p hv
      obtain ⟨ws, hws, hall⟩ := ih hrest fun v' hv' => hitem v' (List.mem_cons_of_mem _ hv')
      refine ⟨w :: ws, ?_, List.Forall₂.cons hR hall⟩
      rw [take_each, bind_ok hw, bind_ok hws]
      rfl

/-- Everything that was read was read somewhere. -/
theorem take_each_mem {count pos pos' : ℕ} {vals : List V}
    (h : take_each item count pos = .ok (vals, pos')) {v : V} (hv : v ∈ vals) :
    ∃ p p', item p = .ok (v, p') := by
  induction count generalizing pos vals with
  | zero =>
      obtain ⟨rfl, rfl⟩ := Prod.mk.inj (Except.ok.inj h)
      cases hv
  | succ count ih =>
      obtain ⟨v', p, rest, hv', hrest, rfl⟩ := take_each_succ_ok h
      rcases List.mem_cons.mp hv with rfl | hv
      · exact ⟨pos, p, hv'⟩
      · exact ih hrest hv

/-- Where a reader with a check also succeeds, the check holds of everything. -/
theorem take_each_checked {Good : V → Prop} {count pos pos' pos'' : ℕ} {vals : List V}
    {ws : List W} (h : take_each item count pos = .ok (vals, pos'))
    (h' : take_each item' count pos = .ok (ws, pos''))
    (hitem : ∀ p v p' w p'', item p = .ok (v, p') → item' p = .ok (w, p'') → p'' = p' ∧ Good v) :
    pos'' = pos' ∧ ∀ v ∈ vals, Good v := by
  induction count generalizing pos vals ws with
  | zero =>
      obtain ⟨rfl, rfl⟩ := Prod.mk.inj (Except.ok.inj h)
      obtain ⟨-, rfl⟩ := Prod.mk.inj (Except.ok.inj h')
      exact ⟨rfl, by simp⟩
  | succ count ih =>
      obtain ⟨v, p, rest, hv, hrest, rfl⟩ := take_each_succ_ok h
      obtain ⟨w, p', rest', hw, hrest', rfl⟩ := take_each_succ_ok h'
      obtain ⟨rfl, hgood⟩ := hitem pos v p w p' hv hw
      obtain ⟨hpos, hall⟩ := ih hrest hrest'
      refine ⟨hpos, ?_⟩
      intro u hu
      rcases List.mem_cons.mp hu with rfl | hu
      · exact hgood
      · exact hall u hu

end Each

section Runtime

variable {input : List UInt8} {tokens weights : List (ℕ × List UInt8)} {pos stop : ℕ}

theorem take_token_span_of_span {span : ℕ × List UInt8} {p p' : ℕ}
    (h : take_span input "Weight-pool token set" p = .ok (span, p')) (hstart : span.1 ≤ u32Max) :
    take_token_span input p = .ok ((span.1, span.2.length), p') := by
  rw [take_token_span, bind_ok h, bind_ok (checkU32_ok hstart p'),
    bind_ok (checkU32_ok (take_span_eq_ok h).1 p')]
  rfl

theorem take_weight_span_of_span {span : ℕ × List UInt8} {p p' : ℕ}
    (h : take_span input "Weight-pool weight" p = .ok (span, p')) (hstart : span.1 ≤ u32Max)
    {header : Bool × ℕ} (hheader : span_header span.2 = .ok header) :
    take_weight_span input p = .ok (⟨span.1, span.2.length, header.2, header.1⟩, p') := by
  rw [take_weight_span, bind_ok h, hheader, bind_ok (lift_ok header p'),
    bind_ok (checkU32_ok hstart p'), bind_ok (checkU32_ok (take_span_eq_ok h).1 p')]
  rfl

theorem start_le_of_token_span {span : ℕ × List UInt8} {entry : ℕ × ℕ} {p p' p'' : ℕ}
    (h : take_span input "Weight-pool token set" p = .ok (span, p'))
    (h' : take_token_span input p = .ok (entry, p'')) : p'' = p' ∧ span.1 ≤ u32Max := by
  by_cases hstart : span.1 ≤ u32Max
  · rw [take_token_span_of_span h hstart] at h'
    exact ⟨(Prod.mk.inj (Except.ok.inj h')).2.symm, hstart⟩
  · rw [take_token_span, bind_ok h, bind_error (checkU32_error hstart p')] at h'
    cases h'

theorem start_le_of_weight_span {span : ℕ × List UInt8} {entry : PackedRuntimeWeightSpan}
    {p p' p'' : ℕ} (h : take_span input "Weight-pool weight" p = .ok (span, p'))
    (h' : take_weight_span input p = .ok (entry, p'')) : p'' = p' ∧ span.1 ≤ u32Max := by
  rw [take_weight_span, bind_ok h] at h'
  cases hheader : span_header span.2 with
  | error failure =>
      rw [hheader] at h'
      cases h'
  | ok header =>
      by_cases hstart : span.1 ≤ u32Max
      · rw [hheader, bind_ok (lift_ok header p'), bind_ok (checkU32_ok hstart p'),
          bind_ok (checkU32_ok (take_span_eq_ok h).1 p')] at h'
        exact ⟨(Prod.mk.inj (Except.ok.inj h')).2.symm, hstart⟩
      · rw [hheader, bind_ok (lift_ok header p'), bind_error (checkU32_error hstart p')] at h'
        cases h'

/-- The place of a token set in the pool. -/
def TokenEntry (span : ℕ × List UInt8) (entry : ℕ × ℕ) : Prop := entry = (span.1, span.2.length)

/-- The place and the header of a weight in the pool. -/
def WeightEntry (span : ℕ × List UInt8) (entry : PackedRuntimeWeightSpan) : Prop :=
  ∃ header, span_header span.2 = .ok header ∧
    entry = ⟨span.1, span.2.length, header.2, header.1⟩

/-- A pool over the framed bodies of the bytes. -/
structure PoolOf (input : List UInt8) (tokens weights : List (ℕ × List UInt8))
    (pool : PackedRuntimeWeightPool) : Prop where
  wire : pool.wire = input
  token_spans : List.Forall₂ TokenEntry tokens pool.token_spans
  weight_spans : List.Forall₂ WeightEntry weights pool.weight_spans

theorem token_spans_ok (h : token_spans input = .ok (tokens, pos)) :
    ∃ count p, take_var_u32 input 4 = .ok (count, p) ∧
      take_each (take_span input "Weight-pool token set") count p = .ok (tokens, pos) := by
  obtain ⟨count, p, hcount, hspans⟩ := bind_eq_ok h
  exact ⟨count, p, hcount, hspans⟩

theorem weight_spans_ok (h : weight_spans input pos = .ok (weights, stop)) :
    ∃ count p q, take_var_u32 input pos = .ok (count, p) ∧
      take_each (take_span input "Weight-pool weight") count p = .ok (weights, q) ∧
      expect_end input "trailing bytes in packed Weight pool" q = .ok ((), stop) := by
  obtain ⟨count, p, hcount, h⟩ := bind_eq_ok h
  obtain ⟨spans, q, hspans, h⟩ := bind_eq_ok h
  obtain ⟨nothing, r, hend, hpure⟩ := bind_eq_ok h
  obtain ⟨rfl, rfl⟩ := Prod.mk.inj (Except.ok.inj hpure)
  exact ⟨count, p, q, hcount, hspans, hend⟩

theorem from_packed_bytes_ok (hheader : wpl3 <+: input)
    (htokens : token_spans input = .ok (tokens, pos))
    (hweights : weight_spans input pos = .ok (weights, stop))
    (hstarts : ∀ span ∈ tokens ++ weights, span.1 ≤ u32Max)
    (hheaders : ∀ span ∈ weights, ∃ header, span_header span.2 = .ok header) :
    ∃ pool, PackedRuntimeWeightPool.from_packed_bytes input = .ok pool ∧
      PoolOf input tokens weights pool := by
  obtain ⟨count, p, hcount, hspans⟩ := token_spans_ok htokens
  obtain ⟨count', p', q, hcount', hspans', hend⟩ := weight_spans_ok hweights
  obtain ⟨entries, hentries, hall⟩ := @take_each_related _ _ _ (take_token_span input) TokenEntry
    _ _ _ _ hspans fun span hspan p p' h =>
      ⟨_, take_token_span_of_span h (hstarts span (List.mem_append_left _ hspan)), rfl⟩
  obtain ⟨entries', hentries', hall'⟩ := @take_each_related _ _ _ (take_weight_span input)
    WeightEntry _ _ _ _ hspans' fun span hspan p p' h => by
      obtain ⟨header, hheader⟩ := hheaders span hspan
      have hstart := hstarts span (List.mem_append_right _ hspan)
      exact ⟨_, take_weight_span_of_span h hstart hheader, header, hheader, rfl⟩
  have hpool : take_runtime_pool input 4 = .ok (⟨input, entries, entries'⟩, stop) := by
    rw [take_runtime_pool, bind_ok hcount, bind_ok hentries, bind_ok hcount', bind_ok hentries',
      bind_ok hend]
    rfl
  refine ⟨⟨input, entries, entries'⟩, ?_, rfl, hall, hall'⟩
  rw [PackedRuntimeWeightPool.from_packed_bytes, if_neg (not_not.mpr hheader), hpool]
  rfl

/-- Where the runtime pool is built, every body starts within `u32`. -/
theorem starts_le_of_from_packed_bytes (hheader : wpl3 <+: input)
    (htokens : token_spans input = .ok (tokens, pos))
    (hweights : weight_spans input pos = .ok (weights, stop)) {pool : PackedRuntimeWeightPool}
    (h : PackedRuntimeWeightPool.from_packed_bytes input = .ok pool) :
    ∀ span ∈ tokens ++ weights, span.1 ≤ u32Max := by
  obtain ⟨count, p, hcount, hspans⟩ := token_spans_ok htokens
  obtain ⟨count', p', q, hcount', hspans', hend⟩ := weight_spans_ok hweights
  rw [PackedRuntimeWeightPool.from_packed_bytes, if_neg (not_not.mpr hheader)] at h
  obtain ⟨r, hpool⟩ := eq_ok_of_fst h
  rw [take_runtime_pool, bind_ok hcount] at hpool
  obtain ⟨entries, r₁, hentries, hpool⟩ := bind_eq_ok hpool
  obtain ⟨rfl, hstarts⟩ := take_each_checked hspans hentries
    fun _ _ _ _ _ => start_le_of_token_span
  rw [bind_ok hcount'] at hpool
  obtain ⟨entries', r₂, hentries', -⟩ := bind_eq_ok hpool
  obtain ⟨-, hstarts'⟩ := take_each_checked hspans' hentries'
    fun _ _ _ _ _ => start_le_of_weight_span
  intro span hspan
  rcases List.mem_append.mp hspan with hspan | hspan
  · exact hstarts span hspan
  · exact hstarts' span hspan

/-! ## What the pool describes -/

theorem take_run_related {V W : Type} {errors : RangeErrors} {item : Cursor Failure V}
    {item' : Cursor Failure W} {R : V → W → Prop} {prev p p' : ℕ} {run : Run V}
    (h : take_run input errors item prev p = .ok (run, p'))
    (hitem : ∀ p v p', item p = .ok (v, p') → ∃ w, item' p = .ok (w, p') ∧ R v w) :
    ∃ run', take_run input errors item' prev p = .ok (run', p') ∧
      run'.lo = run.lo ∧ run'.hi = run.hi ∧ R run.val run'.val := by
  obtain ⟨gap, p₁, hgap, h⟩ := bind_eq_ok h
  dsimp only at h
  split_ifs at h with hrange hstart
  · cases h
  · cases h
  · obtain ⟨len, p₂, hlen, h⟩ := bind_eq_ok h
    split_ifs at h with hstop
    · cases h
    · obtain ⟨val, p₃, hval, hpure⟩ := bind_eq_ok h
      obtain ⟨rfl, rfl⟩ := Prod.mk.inj (Except.ok.inj hpure)
      obtain ⟨w, hw, hR⟩ := hitem p₂ val p₃ hval
      refine ⟨⟨prev + gap, prev + gap + len, w⟩, ?_, rfl, rfl, hR⟩
      rw [take_run, bind_ok hgap]
      dsimp only
      rw [if_neg hrange, if_neg hstart, bind_ok hlen, if_neg hstop, bind_ok hw]
      rfl

theorem take_runs_related {V W : Type} {errors : RangeErrors} {item : Cursor Failure V}
    {item' : Cursor Failure W} {R : V → W → Prop} {count prev p p' : ℕ} {runs : List (Run V)}
    (h : take_runs input errors item count prev p = .ok (runs, p'))
    (hitem : ∀ p v p', item p = .ok (v, p') → ∃ w, item' p = .ok (w, p') ∧ R v w) :
    ∃ runs', take_runs input errors item' count prev p = .ok (runs', p') ∧
      List.Forall₂ (fun run run' => run'.lo = run.lo ∧ run'.hi = run.hi ∧ R run.val run'.val)
        runs runs' := by
  induction count generalizing prev p runs with
  | zero =>
      obtain ⟨rfl, rfl⟩ := Prod.mk.inj (Except.ok.inj h)
      exact ⟨[], rfl, List.Forall₂.nil⟩
  | succ count ih =>
      obtain ⟨run, p₁, hrun, h⟩ := bind_eq_ok h
      obtain ⟨rest, p₂, hrest, hpure⟩ := bind_eq_ok h
      obtain ⟨rfl, rfl⟩ := Prod.mk.inj (Except.ok.inj hpure)
      obtain ⟨run', hrun', hlo, hhi, hR⟩ := take_run_related hrun hitem
      obtain ⟨rest', hrest', hall⟩ := ih hrest
      refine ⟨run' :: rest', ?_, List.Forall₂.cons ⟨hlo, hhi, hR⟩ hall⟩
      rw [take_runs, bind_ok hrun', hhi, bind_ok hrest']
      rfl

theorem describes_listed_token_set (id : ℕ) {body : List UInt8} {tokens : TokenSet}
    (h : listed_token_set body = .ok tokens.runs) :
    (⟨id, body⟩ : PackedRuntimePoolTokenSetRef).Describes tokens := by
  obtain ⟨pos, hread⟩ := eq_ok_of_fst h
  obtain ⟨runs', pos₁, hranges, hrest⟩ := bind_eq_ok hread
  obtain ⟨-, pos₂, -, hpure⟩ := bind_eq_ok hrest
  obtain ⟨rfl, -⟩ := Prod.mk.inj (Except.ok.inj hpure)
  obtain ⟨count, pos₃, hcount, hruns⟩ := bind_eq_ok hranges
  have hrange_count : (⟨id, body⟩ : PackedRuntimePoolTokenSetRef).range_count =
      tokens.runs.length := by
    rw [PackedRuntimePoolTokenSetRef.range_count, hcount]
    exact (take_runs_ok hruns).1.symm
  refine ⟨hrange_count, ?_, ?_⟩
  · rw [PackedRuntimePoolTokenSetRef.is_empty, hrange_count, RangeMap.isEmpty]
    cases tokens.runs with
    | nil => rfl
    | cons run runs => rfl
  · rw [PackedRuntimePoolTokenSetRef.for_each_range, hcount]
    exact congrArg _ (visit_runs_eq hruns)

/-- The bodies stand in the bytes, and those of the token sets list token sets. -/
structure Backed (input : List UInt8) (tokens weights : List (ℕ × List UInt8))
    (token_sets : List TokenSet) : Prop where
  sliced : ∀ span ∈ tokens ++ weights, slice input span.1 span.2.length = some span.2
  listed : List.Forall₂ (fun span set => listed_token_set span.2 = .ok (RangeMap.runs set))
    tokens token_sets

variable {token_sets : List TokenSet} {pool : PackedRuntimeWeightPool}

theorem PoolOf.token_set (h : PoolOf input tokens weights pool)
    (hbacked : Backed input tokens weights token_sets) {id : ℕ} {set : TokenSet}
    (hset : token_sets[id]? = some set) :
    ∃ ref, pool.token_set id = some ref ∧ ref.Describes set := by
  obtain ⟨span, hspan, hlisted⟩ := forall₂_getElem? hbacked.listed.flip hset
  obtain ⟨entry, hentry, hplace⟩ := forall₂_getElem? h.token_spans hspan
  obtain rfl := hplace
  have hslice := hbacked.sliced span (List.mem_append_left _ (List.mem_of_getElem? hspan))
  refine ⟨⟨id, span.2⟩, ?_, describes_listed_token_set id hlisted⟩
  simp only [PackedRuntimeWeightPool.token_set, hentry, h.wire, hslice, bind, Option.bind, pure]

theorem take_token_set_related (body : List UInt8) (h : PoolOf input tokens weights pool)
    (hbacked : Backed input tokens weights token_sets) (p : ℕ) (set : TokenSet) (p' : ℕ)
    (hset : take_token_set body token_sets p = .ok (set, p')) :
    (∃ id, take_var_u32 body p = .ok (id, p') ∧ token_sets[id]? = some set) ∧
      ∃ ref, take_pool_token_set pool body p = .ok (ref, p') ∧
        PackedRuntimePoolTokenSetRef.Describes ref set := by
  obtain ⟨id, p₁, hid, hrest⟩ := bind_eq_ok hset
  cases hget : token_sets[id]? with
  | none =>
      rw [hget] at hrest
      cases hrest
  | some set' =>
      rw [hget] at hrest
      obtain ⟨rfl, rfl⟩ := Prod.mk.inj (Except.ok.inj hrest)
      obtain ⟨ref, href, hdescribes⟩ := h.token_set hbacked hget
      refine ⟨⟨id, hid, hget⟩, ref, ?_, hdescribes⟩
      rw [take_pool_token_set, bind_ok hid, href]
      rfl

/-- A tsid has an index where it has a token set. -/
theorem lookupRuns_related {ids : List (Run ℕ)} {runs : List (Run TokenSet)}
    (h : List.Forall₂ (fun run id => id.lo = run.lo ∧ id.hi = run.hi ∧
      token_sets[id.val]? = some run.val) runs ids) (tsid : ℕ) :
    Option.Rel (fun id set => token_sets[id]? = some set) (lookupRuns ids tsid)
      (lookupRuns runs tsid) := by
  induction h with
  | nil => exact Option.Rel.none
  | @cons run id runs ids hrun _ ih =>
      obtain ⟨hlo, hhi, hget⟩ := hrun
      have hcovers : id.Covers tsid ↔ run.Covers tsid := by rw [Run.Covers, Run.Covers, hlo, hhi]
      rw [lookupRuns_cons, lookupRuns_cons]
      by_cases hc : id.Covers tsid
      · rw [if_pos hc, if_pos (hcovers.mp hc)]
        exact Option.Rel.some hget
      · rw [if_neg hc, if_neg fun hc' => hc (hcovers.mpr hc')]
        exact ih

theorem describes_listed_weight (h : PoolOf input tokens weights pool)
    (hbacked : Backed input tokens weights token_sets) {id : ℕ} (hid : id < pool.weight_spans.length)
    {span : ℕ × List UInt8} (hspan : weights[id]? = some span) {map : WeightMap}
    (hlisted : listed_weight token_sets span.2 = .ok map.runs)
    (hfinite : span.2 = [1] ∨ FiniteMap map) :
    (⟨pool, id, hid⟩ : PackedRuntimePoolWeightRef).Describes map := by
  generalize href : (⟨pool, id, hid⟩ : PackedRuntimePoolWeightRef) = ref
  have hpool : ref.pool = pool := by rw [← href]
  obtain ⟨entry, hentry, header, hheader, hplace⟩ := forall₂_getElem? h.weight_spans hspan
  have hself : ref.span = entry := by
    rw [← href, PackedRuntimePoolWeightRef.span, List.get_eq_getElem]
    exact Option.some.inj ((List.getElem?_eq_getElem hid).symm.trans hentry)
  have hslice : slice ref.pool.wire ref.span.body_start ref.span.body_len = some span.2 := by
    rw [hpool, h.wire, hself, hplace]
    exact hbacked.sliced span (List.mem_append_right _ (List.mem_of_getElem? hspan))
  rcases listed_weight_cases hlisted with hall | hentries
  · obtain ⟨hbody, hruns⟩ := hall
    obtain rfl : map = allMap := RangeMap.ext_iff.mpr hruns
    rw [hbody] at hheader
    obtain rfl : (true, 0) = header := Except.ok.inj hheader
    have hfull : ref.span.full = true := by rw [hself, hplace]
    have hcount : ref.span.entry_count = 0 := by rw [hself, hplace]
    have hmap : Weight.isFullMap allMap = true := Weight.isFullMap_iff.mpr rfl
    have hnone : explicitEntries allMap = [] := if_pos hmap
    have hnonempty : allMap.isEmpty = false := by
      rw [RangeMap.isEmpty, Weight.allMap_runs]
      rfl
    constructor
    · rw [hmap]
      exact hfull
    · rw [hnonempty, PackedRuntimePoolWeightRef.is_empty, hfull]
      rfl
    · rw [hnone]
      exact hcount
    · rw [hnone, PackedRuntimePoolWeightRef.entries, if_pos hfull]
      exact List.Forall₂.nil
    · intro tsid
      rw [hnone, PackedRuntimePoolWeightRef.token_set_for_tsid, if_pos hfull]
      exact Option.Rel.none
  · obtain ⟨rest, count, p, hbody, hcount, p', hruns⟩ := hentries
    have hfinite' : FiniteMap map := by
      rcases hfinite with hone | hfinite
      · rw [hone] at hbody
        cases hbody
      · exact hfinite
    have hmap : Weight.isFullMap map = false := by
      rw [Bool.eq_false_iff, ne_eq, Weight.isFullMap_iff]
      intro hall
      exact Weight.not_finite_allMap (hall ▸ hfinite')
    have hsome : explicitEntries map = map.runs := if_neg (by rw [hmap]; decide)
    have hread : span_header span.2 = .ok (false, count) := by
      rw [hbody] at hcount ⊢
      rw [span_header, if_neg (by decide), if_pos rfl]
      rw [hcount]
      rfl
    obtain rfl : (false, count) = header := Except.ok.inj (hread.symm.trans hheader)
    have hfull : ref.span.full = false := by rw [hself, hplace]
    have hnot : ¬ ref.span.full = true := by rw [hfull]; decide
    have hlength : ref.span.entry_count = map.runs.length := by
      rw [hself, hplace]
      exact (take_runs_ok hruns).1.symm
    have hrelated := take_token_set_related span.2 h hbacked
    obtain ⟨refs, hrefs, hdescribes⟩ := take_runs_related hruns fun p set p' hset =>
      (hrelated p set p' hset).2
    obtain ⟨ids, hids, hindexes⟩ := take_runs_related hruns fun p set p' hset =>
      (hrelated p set p' hset).1
    constructor
    · rw [hmap]
      exact hfull
    · rw [PackedRuntimePoolWeightRef.is_empty, hfull, hlength, RangeMap.isEmpty]
      cases map.runs with
      | nil => rfl
      | cons run runs => rfl
    · rw [hsome]
      exact hlength
    · have hentries : ref.entries = refs.map fun run => ((run.lo, run.hi), run.val) := by
        rw [PackedRuntimePoolWeightRef.entries, if_neg hnot, hslice]
        simp only [hcount, hpool, visit_runs_eq hrefs]
      rw [hsome, hentries]
      apply List.forall₂_map_left_iff.mpr
      apply hdescribes.flip.imp
      intro entry run hrun
      obtain ⟨hlo, hhi, hval⟩ := hrun
      exact ⟨by rw [hlo, hhi], hval⟩
    · intro tsid
      have hordered := (take_runs_ok hids).2.ordered
      have hfind : ref.token_set_for_tsid tsid = (lookupRuns ids tsid).bind pool.token_set := by
        rw [PackedRuntimePoolWeightRef.token_set_for_tsid, if_neg hnot, hslice]
        simp only [hcount, hpool, find_token_set_eq hordered hids]
      have hrel := lookupRuns_related hindexes tsid
      rw [hfind, hsome]
      generalize lookupRuns ids tsid = found at hrel ⊢
      generalize lookupRuns map.runs tsid = expected at hrel ⊢
      cases hrel with
      | none => exact Option.Rel.none
      | some hget =>
          obtain ⟨found, hfound, hdescribed⟩ := h.token_set hbacked hget
          rw [Option.bind_some, hfound]
          exact Option.Rel.some hdescribed

end Runtime

/-! ## The condition on the bytes -/

/-- The bytes are framed, and every body of a token set lists a token set. -/
structure Framed (input : List UInt8) (tokens : List (ℕ × List UInt8)) (token_sets : List TokenSet)
    (weights : List (ℕ × List UInt8)) : Prop where
  spans : ∃ pos stop, token_spans input = .ok (tokens, pos) ∧
    weight_spans input pos = .ok (weights, stop)
  listed : List.Forall₂ (fun span set => listed_token_set span.2 = .ok (RangeMap.runs set))
    tokens token_sets

/-- An entry that a weight may hold: not at the reserved tsid, and with a token. -/
def FiniteEntry (run : Run TokenSet) : Prop := run.hi < u32Max ∧ run.val ≠ RangeMap.empty

/-- As far as the bodies can be read in order, no two neighbours of a listing touch with the
same value. Where all can be read, no weight that is given by entries has one at the reserved
tsid or without tokens, and every body starts within `u32`. -/
structure WellListed (input : List UInt8) : Prop where
  token_sets : ∀ tokens pos, token_spans input = .ok (tokens, pos) →
    ReadsGood listed_token_set Canonical (tokens.map Prod.snd)
  weights : ∀ tokens token_sets weights, Framed input tokens token_sets weights →
    ReadsGood (listed_weight token_sets) Canonical (weights.map Prod.snd)
  finite : ∀ tokens token_sets weights listings, Framed input tokens token_sets weights →
    List.Forall₂ (fun span runs => listed_weight token_sets span.2 = .ok runs) weights listings →
    (∀ span ∈ tokens ++ weights, span.1 ≤ u32Max) ∧
      List.Forall₂ (fun span runs => span.2 = [1] ∨ ∀ run ∈ runs, FiniteEntry run) weights listings

/-- What unpacking is to do: no panic, only valid weights, and those that the runtime pool of
the same bytes describes. -/
structure Handled (input : List UInt8) : Prop where
  no_panic : ∀ message, unpack_pooled_weights input ≠ .error (.panic message)
  valid : ∀ maps, unpack_pooled_weights input = .ok maps →
    ∃ weights : List Weight, maps = weights.map Weight.map
  described : ∀ maps, unpack_pooled_weights input = .ok maps →
    ∃ pool, PackedRuntimeWeightPool.from_packed_bytes input = .ok pool ∧
      pool.weight_count = maps.length ∧
      ∀ id map, maps[id]? = some map → ∃ ref, pool.weight id = some ref ∧ ref.Describes map

section Unpacking

variable {input : List UInt8} {tokens weights : List (ℕ × List UInt8)} {token_sets : List TokenSet}

theorem finiteMap_iff {map : WeightMap} :
    FiniteMap map ↔ ∀ run ∈ map.runs, FiniteEntry run := by
  constructor
  · intro h run hrun
    refine ⟨?_, h.tokens run hrun⟩
    apply lt_of_le_of_ne (map.bounded run hrun)
    intro heq
    have hnone := lookupRuns_eq_none_iff.mp h.below run hrun
    exact hnone ⟨heq ▸ map.canonical.1 run hrun, heq.ge⟩
  · intro h
    constructor
    · apply lookupRuns_eq_none_iff.mpr
      intro run hrun hcovers
      have hlt := (h run hrun).1
      exact absurd hcovers.2 (by omega)
    · intro run hrun
      exact (h run hrun).2

theorem except_bind_eq_ok {α β : Type} {x : Except Failure α} {f : α → Except Failure β} {b : β}
    (h : (x >>= f) = .ok b) : ∃ a, x = .ok a ∧ f a = .ok b := by
  cases x with
  | error failure => cases h
  | ok a => exact ⟨a, rfl, h⟩

theorem except_bind_eq_error {α β : Type} {x : Except Failure α} {f : α → Except Failure β}
    {failure : Failure} (h : (x >>= f) = .error failure) :
    x = .error failure ∨ ∃ a, x = .ok a ∧ f a = .error failure := by
  cases x with
  | error failure' =>
      obtain rfl : failure' = failure := Except.error.inj h
      exact Or.inl rfl
  | ok a => exact Or.inr ⟨a, rfl, h⟩

theorem unpack_pooled_weights_of_header (h : wpl3 <+: input) :
    unpack_pooled_weights input = unpack_pooled_weights_v3 input := if_pos h

theorem listed_of_mapM (h : (tokens.map Prod.snd).mapM decode_pooled_token_set_v2 = .ok token_sets) :
    List.Forall₂ (fun span set => listed_token_set span.2 = .ok (RangeMap.runs set))
      tokens token_sets := by
  apply (List.forall₂_map_left_iff.mp (mapM_eq_ok h)).imp
  intro span set hdecode
  obtain ⟨runs, hlisted, -, hmade⟩ := builds_token_set.of_ok hdecode
  rw [hmade]
  exact hlisted

theorem mapM_of_listed (h : List.Forall₂ (fun span set => listed_token_set span.2 =
    .ok (RangeMap.runs set)) tokens token_sets) :
    (tokens.map Prod.snd).mapM decode_pooled_token_set_v2 = .ok token_sets := by
  apply mapM_ok
  apply List.forall₂_map_left_iff.mpr
  apply h.imp
  intro span set hlisted
  obtain ⟨made, hmade, hruns⟩ := builds_token_set.made _ _ hlisted set.canonical
  rw [hmade, RangeMap.ext_iff.mpr hruns]

/-- Unpacking framed bytes is decoding the weights. -/
theorem Framed.unpack (h : Framed input tokens token_sets weights) :
    unpack_pooled_weights_v3 input =
      (weights.map Prod.snd).mapM (decode_pooled_weight_v3 token_sets) := by
  obtain ⟨pos, stop, htokens, hweights⟩ := h.spans
  have hsets := mapM_of_listed h.listed
  rw [unpack_pooled_weights_v3_eq, htokens]
  change ((tokens.map Prod.snd).mapM decode_pooled_token_set_v2 >>= _) = _
  rw [hsets]
  change (weight_spans input pos >>= _) = _
  rw [hweights]
  rfl

theorem framed_of_ok {maps : List WeightMap} (h : unpack_pooled_weights_v3 input = .ok maps) :
    ∃ tokens token_sets weights, Framed input tokens token_sets weights ∧
      (weights.map Prod.snd).mapM (decode_pooled_weight_v3 token_sets) = .ok maps := by
  rw [unpack_pooled_weights_v3_eq] at h
  obtain ⟨⟨tokens, pos⟩, htokens, h⟩ := except_bind_eq_ok h
  obtain ⟨token_sets, hsets, h⟩ := except_bind_eq_ok h
  obtain ⟨⟨weights, stop⟩, hweights, hmaps⟩ := except_bind_eq_ok h
  exact ⟨tokens, token_sets, weights, ⟨⟨pos, stop, htokens, hweights⟩, listed_of_mapM hsets⟩, hmaps⟩

theorem graceful_token_spans {failure : Failure} (h : token_spans input = .error failure) :
    ∃ message, failure = .error message := by
  have hread := (graceful_take_var_u32 input).bind fun count =>
    graceful_take_each (graceful_take_span input "Weight-pool token set") count
  exact hread 4 failure h

theorem graceful_weight_spans {pos : ℕ} {failure : Failure}
    (h : weight_spans input pos = .error failure) : ∃ message, failure = .error message := by
  have hread := (graceful_take_var_u32 input).bind fun count =>
    (graceful_take_each (graceful_take_span input "Weight-pool weight") count).bind fun spans =>
      (graceful_expect_end input "trailing bytes in packed Weight pool").bind fun _ =>
        Graceful.pure spans
  exact hread pos failure h

/-- A panic comes from the token sets, or from the weights of framed bytes. -/
theorem panic_cases {message : String}
    (h : unpack_pooled_weights_v3 input = .error (.panic message)) :
    (∃ tokens pos, token_spans input = .ok (tokens, pos) ∧
      ¬ ReadsGood listed_token_set Canonical (tokens.map Prod.snd)) ∨
    ∃ tokens token_sets weights, Framed input tokens token_sets weights ∧
      ¬ ReadsGood (listed_weight token_sets) Canonical (weights.map Prod.snd) := by
  rw [unpack_pooled_weights_v3_eq] at h
  rcases except_bind_eq_error h with h | ⟨⟨tokens, pos⟩, htokens, h⟩
  · obtain ⟨message', herror⟩ := graceful_token_spans h
    cases herror
  rcases except_bind_eq_error h with h | ⟨token_sets, hsets, h⟩
  · exact Or.inl ⟨tokens, pos, htokens, (builds_token_set.mapM_panics_iff _).mp ⟨message, h⟩⟩
  rcases except_bind_eq_error h with h | ⟨⟨weights, stop⟩, hweights, h⟩
  · obtain ⟨message', herror⟩ := graceful_weight_spans h
    cases herror
  · right
    refine ⟨tokens, token_sets, weights, ⟨⟨pos, stop, htokens, hweights⟩, listed_of_mapM hsets⟩, ?_⟩
    exact ((builds_weight token_sets).mapM_panics_iff _).mp ⟨message, h⟩

/-- Listings that are all good are all decoded. -/
theorem decoded_of_listed {listings : List (List (Run TokenSet))}
    (h : List.Forall₂ (fun span runs => listed_weight token_sets (Prod.snd span) = .ok runs)
      weights listings)
    (hgood : ReadsGood (listed_weight token_sets) Canonical (weights.map Prod.snd)) :
    ∃ maps, (weights.map Prod.snd).mapM (decode_pooled_weight_v3 token_sets) = .ok maps ∧
      List.Forall₂ (fun runs map => RangeMap.runs map = runs) listings maps := by
  induction h with
  | nil => exact ⟨[], rfl, List.Forall₂.nil⟩
  | @cons span runs weights listings hspan _ ih =>
      obtain ⟨hcanonical, hrest⟩ := hgood runs hspan
      obtain ⟨map, hmap, hruns⟩ := (builds_weight token_sets).made _ _ hspan hcanonical
      obtain ⟨maps, hmaps, hall⟩ := ih hrest
      refine ⟨map :: maps, ?_, List.Forall₂.cons hruns hall⟩
      rw [List.map_cons, List.mapM_cons, hmap, hmaps]
      rfl

/-- Weights that are decoded were listed. -/
theorem listed_of_decoded {maps : List WeightMap}
    (h : (weights.map Prod.snd).mapM (decode_pooled_weight_v3 token_sets) = .ok maps) :
    List.Forall₂ (fun span map => listed_weight token_sets (Prod.snd span) =
      .ok (RangeMap.runs map)) weights maps := by
  apply (List.forall₂_map_left_iff.mp (mapM_eq_ok h)).imp
  intro span map hdecode
  obtain ⟨runs, hlisted, -, hmade⟩ := (builds_weight token_sets).of_ok hdecode
  rw [hmade]
  exact hlisted

theorem Framed.backed (h : Framed input tokens token_sets weights) :
    Backed input tokens weights token_sets where
  sliced := by
    obtain ⟨pos, stop, htokens, hweights⟩ := h.spans
    obtain ⟨count, p, -, hspans⟩ := token_spans_ok htokens
    obtain ⟨count', p', q, -, hspans', -⟩ := weight_spans_ok hweights
    intro span hspan
    rcases List.mem_append.mp hspan with hspan | hspan
    · obtain ⟨r, r', hread⟩ := take_each_mem hspans hspan
      exact (take_span_eq_ok hread).2
    · obtain ⟨r, r', hread⟩ := take_each_mem hspans' hspan
      exact (take_span_eq_ok hread).2
  listed := h.listed

theorem exists_header {body : List UInt8} {runs : List (Run TokenSet)}
    (h : listed_weight token_sets body = .ok runs) :
    ∃ header, span_header body = .ok header ∧ (header.1 = true → body = [1]) := by
  rcases listed_weight_cases h with hfull | hentries
  · rw [hfull.1]
    exact ⟨(true, 0), rfl, fun _ => rfl⟩
  · obtain ⟨rest, count, pos, hbody, hcount, -⟩ := hentries
    refine ⟨(false, count), ?_, by simp⟩
    rw [hbody] at hcount ⊢
    rw [span_header, if_neg (by decide), if_pos rfl]
    rw [hcount]
    rfl

end Unpacking

/-! ## The theorem -/

section Main

variable {input : List UInt8}

theorem Handled.wellListed (hheader : wpl3 <+: input) (h : Handled input) : WellListed input := by
  have hunpack := unpack_pooled_weights_of_header hheader
  have hweights : ∀ tokens token_sets weights, Framed input tokens token_sets weights →
      ReadsGood (listed_weight token_sets) Canonical (weights.map Prod.snd) := by
    intro tokens token_sets weights hframed
    by_contra hnot
    obtain ⟨message, hpanic⟩ := ((builds_weight token_sets).mapM_panics_iff _).mpr hnot
    apply h.no_panic message
    rw [hunpack, hframed.unpack, hpanic]
  constructor
  · intro tokens pos htokens
    by_contra hnot
    obtain ⟨message, hpanic⟩ := (builds_token_set.mapM_panics_iff _).mpr hnot
    apply h.no_panic message
    rw [hunpack, unpack_pooled_weights_v3_eq, htokens]
    change ((tokens.map Prod.snd).mapM decode_pooled_token_set_v2 >>= _) = _
    rw [hpanic]
    rfl
  · exact hweights
  · intro tokens token_sets weights listings hframed hlistings
    have hgood := hweights tokens token_sets weights hframed
    obtain ⟨maps, hmaps, hruns⟩ := decoded_of_listed hlistings hgood
    rw [← hframed.unpack, ← hunpack] at hmaps
    obtain ⟨values, rfl⟩ := h.valid maps hmaps
    obtain ⟨pool, hpool, hcount, hdescribed⟩ := h.described _ hmaps
    obtain ⟨pos, stop, htokens, hspans⟩ := hframed.spans
    have hstarts := starts_le_of_from_packed_bytes hheader htokens hspans hpool
    refine ⟨hstarts, ?_⟩
    have hheaders : ∀ span ∈ weights, ∃ header, span_header span.2 = .ok header := by
      intro span hspan
      obtain ⟨runs, -, hlisted⟩ := exists_of_mem_forall₂ hlistings hspan
      obtain ⟨header, hread, -⟩ := exists_header hlisted
      exact ⟨header, hread⟩
    obtain ⟨pool', hpool', hbuilt⟩ := from_packed_bytes_ok hheader htokens hspans hstarts hheaders
    obtain rfl := Except.ok.inj (hpool'.symm.trans hpool)
    apply List.forall₂_iff_zip.mpr
    refine ⟨hlistings.length_eq, ?_⟩
    intro span runs hmem
    obtain ⟨id, hid⟩ := List.mem_iff_getElem?.mp hmem
    obtain ⟨hspan, hlisting⟩ := List.getElem?_zip_eq_some.mp hid
    obtain ⟨map, hmap, rfl⟩ := forall₂_getElem? hruns hlisting
    obtain ⟨ref, href, hdescribes⟩ := hdescribed id map hmap
    obtain ⟨entry, hentry, header, hread, hplace⟩ := forall₂_getElem? hbuilt.weight_spans hspan
    have hfull : ref.is_full = header.1 := by
      unfold PackedRuntimeWeightPool.weight at href
      split_ifs at href with hlt
      obtain rfl := Option.some.inj href
      have hget := Option.some.inj ((List.getElem?_eq_getElem hlt).symm.trans hentry)
      rw [PackedRuntimePoolWeightRef.is_full, PackedRuntimePoolWeightRef.span, List.get_eq_getElem,
        hget, hplace]
    obtain ⟨header', hread', hone⟩ := exists_header (List.forall₂_iff_zip.mp hlistings |>.2 hmem)
    obtain rfl := Except.ok.inj (hread'.symm.trans hread)
    cases hflag : header'.1 with
    | true => exact Or.inl (hone hflag)
    | false =>
        right
        apply finiteMap_iff.mp
        rw [List.getElem?_map] at hmap
        obtain ⟨value, -, rfl⟩ := Option.map_eq_some_iff.mp hmap
        apply value.valid.resolve_left
        intro hall
        obtain ⟨hmapfull, -, -, -, -⟩ := hdescribes
        rw [hfull, hflag, Weight.isFullMap_iff.mpr hall] at hmapfull
        cases hmapfull

theorem exists_weights {maps : List WeightMap} (h : ∀ map ∈ maps, map = allMap ∨ FiniteMap map) :
    ∃ weights : List Weight, maps = weights.map Weight.map := by
  induction maps with
  | nil => exact ⟨[], rfl⟩
  | cons map maps ih =>
      obtain ⟨weights, rfl⟩ := ih fun m hm => h m (List.mem_cons_of_mem _ hm)
      exact ⟨⟨map, h map List.mem_cons_self⟩ :: weights, rfl⟩

theorem WellListed.handled (hheader : wpl3 <+: input) (h : WellListed input) : Handled input := by
  have hunpack := unpack_pooled_weights_of_header hheader
  have hok : ∀ maps, unpack_pooled_weights input = .ok maps → ∃ tokens token_sets weights,
      Framed input tokens token_sets weights ∧
      List.Forall₂ (fun span map => listed_weight token_sets (Prod.snd span) =
        .ok (RangeMap.runs map)) weights maps ∧
      (∀ span ∈ tokens ++ weights, span.1 ≤ u32Max) ∧
      List.Forall₂ (fun span map => Prod.snd span = [1] ∨ FiniteMap map) weights maps := by
    intro maps hmaps
    rw [hunpack] at hmaps
    obtain ⟨tokens, token_sets, weights, hframed, hdecoded⟩ := framed_of_ok hmaps
    have hlisted := listed_of_decoded hdecoded
    obtain ⟨hstarts, hfinite⟩ := h.finite tokens token_sets weights (maps.map RangeMap.runs) hframed
      (List.forall₂_map_right_iff.mpr hlisted)
    refine ⟨tokens, token_sets, weights, hframed, hlisted, hstarts, ?_⟩
    apply (List.forall₂_map_right_iff.mp hfinite).imp
    intro span map hspan
    exact hspan.imp_right finiteMap_iff.mpr
  constructor
  · intro message hpanic
    rw [hunpack] at hpanic
    rcases panic_cases hpanic with hcase | hcase
    · obtain ⟨tokens, pos, htokens, hnot⟩ := hcase
      exact hnot (h.token_sets tokens pos htokens)
    · obtain ⟨tokens, token_sets, weights, hframed, hnot⟩ := hcase
      exact hnot (h.weights tokens token_sets weights hframed)
  · intro maps hmaps
    obtain ⟨tokens, token_sets, weights, -, hlisted, -, hfinite⟩ := hok maps hmaps
    apply exists_weights
    intro map hmap
    obtain ⟨id, hid⟩ := List.mem_iff_getElem?.mp hmap
    obtain ⟨span, hspan, hlisting⟩ := forall₂_getElem? hlisted.flip hid
    obtain ⟨span', hspan', hentry⟩ := forall₂_getElem? hfinite.flip hid
    obtain rfl := Option.some.inj (hspan.symm.trans hspan')
    rcases hentry with hone | hfinite
    · rcases listed_weight_cases hlisting with hfull | hentries
      · exact Or.inl (RangeMap.ext_iff.mpr hfull.2)
      · obtain ⟨rest, count, pos, hbody, -⟩ := hentries
        rw [hone] at hbody
        cases hbody
    · exact Or.inr hfinite
  · intro maps hmaps
    obtain ⟨tokens, token_sets, weights, hframed, hlisted, hstarts, hfinite⟩ := hok maps hmaps
    obtain ⟨pos, stop, htokens, hspans⟩ := hframed.spans
    have hheaders : ∀ span ∈ weights, ∃ header, span_header span.2 = .ok header := by
      intro span hspan
      obtain ⟨map, -, hlisting⟩ := exists_of_mem_forall₂ hlisted hspan
      obtain ⟨header, hread, -⟩ := exists_header hlisting
      exact ⟨header, hread⟩
    obtain ⟨pool, hpool, hbuilt⟩ := from_packed_bytes_ok hheader htokens hspans hstarts hheaders
    have hcount : pool.weight_spans.length = maps.length :=
      hbuilt.weight_spans.length_eq.symm.trans hlisted.length_eq
    refine ⟨pool, hpool, hcount, ?_⟩
    intro id map hmap
    obtain ⟨span, hspan, hlisting⟩ := forall₂_getElem? hlisted.flip hmap
    obtain ⟨span', hspan', hentry⟩ := forall₂_getElem? hfinite.flip hmap
    obtain rfl := Option.some.inj (hspan.symm.trans hspan')
    have hid : id < pool.weight_spans.length := by
      rw [hcount]
      exact (List.getElem?_eq_some_iff.mp hmap).1
    exact ⟨⟨pool, id, hid⟩, dif_pos hid,
      describes_listed_weight hbuilt hframed.backed hid hspan hlisting hentry⟩

end Main

/-! A token set without tokens, and one whose ranges touch. -/

def emptySetBytes : List UInt8 := wpl3 ++ [1, 1, 0] ++ [1, 5, 0, 1, 0, 0, 0]

def touchingBytes : List UInt8 := wpl3 ++ [1, 5, 2, 0, 0, 0, 0] ++ [0]

def emptySetMap : WeightMap := ⟨[⟨0, 0, RangeMap.empty⟩], by simp [Canonical], by simp⟩

theorem unpack_emptySetBytes : unpack_pooled_weights emptySetBytes = .ok [emptySetMap] := by
  rfl

theorem unpack_touchingBytes : unpack_pooled_weights touchingBytes =
    .error (.panic "ranges must be sorted and disjoint") := by
  rfl

end WeightPool

end GlrMask
