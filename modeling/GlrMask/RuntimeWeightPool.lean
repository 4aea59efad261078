import GlrMask.WeightPoolRoundTrip

/-!
# Reading a packed pool in place

The runtime pool keeps the bytes and the places of the bodies. It is built from
every packed pool whose places fit `u32`, and every reference into it describes
the weight or the token set that was packed.
-/

namespace GlrMask

namespace WeightPool

/-! ## Building the pool -/

section Build

variable {input : List UInt8} {V : Type}

/-- A reader returns a good value, or fails on an input that is longer than `u32` counts. -/
def ReadsOrOverflows (input : List UInt8) (m : Cursor Failure V) (bytes : List UInt8)
    (Good : V → Prop) : Prop :=
  ∀ pos, At input bytes pos → (∃ v, m pos = .ok (v, pos + bytes.length) ∧ Good v) ∨
    u32Max < input.length ∧ ∃ failure, m pos = .error failure

theorem bind_error {α β : Type} {m : Cursor Failure α} {f : α → Cursor Failure β} {pos : ℕ}
    {failure : Failure} (h : m pos = .error failure) : (m >>= f) pos = .error failure := by
  change (m pos >>= fun p => f p.1 p.2) = _
  rw [h]
  rfl

theorem checkU32_ok {n : ℕ} {message : String} (h : n ≤ u32Max) (pos : ℕ) :
    checkU32 n message pos = .ok ((), pos) := by
  rw [checkU32, if_neg (by have : u32Max < 2 ^ 32 := by decide
                           omega)]
  rfl

theorem checkU32_error {n : ℕ} {message : String} (h : ¬ n ≤ u32Max) (pos : ℕ) :
    checkU32 n message pos = .error (.error message) := by
  have hmax : u32Max + 1 = 2 ^ 32 := by decide
  rw [checkU32, if_pos (by omega)]
  rfl

/-- Where the body of a span stands. -/
theorem slice_of_span {body : List UInt8} {pos : ℕ}
    (hat : At input (putVar body.length ++ body) pos) :
    slice input (pos + (putVar body.length).length) body.length = some body ∧
      pos + (putVar body.length).length ≤ input.length := by
  have hle := hat.length_le (by simp [putVar_ne_nil])
  rw [List.length_append] at hle
  have hbody := (at_append.mp hat).2
  refine ⟨?_, by omega⟩
  rw [slice, if_pos (by omega), hbody.slice]

theorem take_token_span_spec {body : List UInt8} (hlen : body.length ≤ u32Max) :
    ReadsOrOverflows input (take_token_span input) (putVar body.length ++ body)
      fun span => slice input span.1 span.2 = some body := by
  intro pos hat
  obtain ⟨hslice, hle⟩ := slice_of_span hat
  rw [take_token_span, bind_ok (take_span_ok hlen hat)]
  by_cases hoffset : pos + (putVar body.length).length ≤ u32Max
  · left
    rw [bind_ok (checkU32_ok hoffset _), bind_ok (checkU32_ok hlen _)]
    exact ⟨_, rfl, hslice⟩
  · right
    exact ⟨by omega, _, bind_error (checkU32_error hoffset _)⟩

/-- A span stands for a body and what its header says. -/
def SpanOf (bytes body : List UInt8) (span : PackedRuntimeWeightSpan) : Prop :=
  slice bytes span.body_start span.body_len = some body ∧
    span_header body = .ok (span.full, span.entry_count)

theorem take_weight_span_spec {body : List UInt8} {full : Bool} {entry_count : ℕ}
    (hlen : body.length ≤ u32Max) (hheader : span_header body = .ok (full, entry_count)) :
    ReadsOrOverflows input (take_weight_span input) (putVar body.length ++ body)
      (SpanOf input body) := by
  intro pos hat
  obtain ⟨hslice, hle⟩ := slice_of_span hat
  rw [take_weight_span, bind_ok (take_span_ok hlen hat), hheader, bind_ok (lift_ok _ _)]
  by_cases hoffset : pos + (putVar body.length).length ≤ u32Max
  · left
    rw [bind_ok (checkU32_ok hoffset _), bind_ok (checkU32_ok hlen _)]
    exact ⟨_, rfl, hslice, hheader⟩
  · right
    exact ⟨by omega, _, bind_error (checkU32_error hoffset _)⟩

/-- Framed bodies are read one after the other. -/
theorem take_each_spec {item : Cursor Failure V} {bodies : List (List UInt8)}
    {Good : List UInt8 → V → Prop} (hlen : ∀ body ∈ bodies, body.length ≤ u32Max)
    (h : ∀ body ∈ bodies, ReadsOrOverflows input item (putVar body.length ++ body) (Good body)) :
    ReadsOrOverflows input (take_each item bodies.length) (put_bodies bodies)
      (List.Forall₂ Good bodies) := by
  induction bodies with
  | nil => exact fun pos _ => Or.inl ⟨[], rfl, List.Forall₂.nil⟩
  | cons body bodies ih =>
      have htail := ih (fun b hb => hlen b (List.mem_cons_of_mem _ hb))
        fun b hb => h b (List.mem_cons_of_mem _ hb)
      rw [put_bodies_cons (hlen body List.mem_cons_self)]
      intro pos hat
      obtain ⟨hhead, hrest⟩ := at_append.mp hat
      rw [List.length_cons, take_each]
      rcases h body List.mem_cons_self pos hhead with ⟨v, hv, hgood⟩ | ⟨hover, failure, hv⟩
      · rw [bind_ok hv]
        rcases htail _ hrest with ⟨vs, hvs, hall⟩ | ⟨hover, failure, hvs⟩
        · left
          rw [bind_ok hvs, Nat.add_assoc, ← List.length_append]
          exact ⟨_, rfl, List.Forall₂.cons hgood hall⟩
        · exact Or.inr ⟨hover, failure, bind_error hvs⟩
      · exact Or.inr ⟨hover, failure, bind_error hv⟩

end Build

theorem exists_of_mem_forall₂ {α β : Type} {R : α → β → Prop} {l : List α} {l' : List β}
    (h : List.Forall₂ R l l') {a : α} (ha : a ∈ l) : ∃ b ∈ l', R a b := by
  induction h with
  | nil => exact absurd ha List.not_mem_nil
  | cons hhead _ ih =>
      rcases List.mem_cons.mp ha with rfl | ha
      · exact ⟨_, List.mem_cons_self, hhead⟩
      · obtain ⟨b, hb, hR⟩ := ih ha
        exact ⟨b, List.mem_cons_of_mem _ hb, hR⟩

/-- The number of entries that a body announces. -/
theorem span_header_of_encodes {token_sets : List TokenSet} {body : List UInt8} {map : WeightMap}
    (h : Encodes token_sets body map) : span_header body =
      .ok (Weight.isFullMap map, if Weight.isFullMap map then 0 else map.runs.length) := by
  cases h with
  | full => rw [Weight.isFullMap_iff.mpr rfl]; rfl
  | @entries _ ids hfull hlen hids =>
      have hat : At (0 :: (putVar map.runs.length ++ put_runs putVar 0 ids))
          ([0] ++ (putVar map.runs.length ++ put_runs putVar 0 ids)) 0 := at_self _
      have hcount := (at_append.mp (at_append.mp hat).2).1
      have hread := reads_u32 _ (Nat.lt_succ_of_le hlen) _ hcount
      rw [hfull, span_header, if_neg (by decide), if_pos rfl]
      change (take_var_u32 _ 1 >>= _) = _
      rw [show 1 = 0 + ([0] : List UInt8).length from rfl, hread]
      rfl

section Pool

variable {bytes : List UInt8} {token_sets : List TokenSet} {bodies : List (List UInt8)}
  {maps : List WeightMap}

/-- A pool built from bytes that store weights. -/
structure BuiltFrom (bytes : List UInt8) (token_sets : List TokenSet)
    (bodies : List (List UInt8)) (pool : PackedRuntimeWeightPool) : Prop where
  wire : pool.wire = bytes
  token_spans : List.Forall₂ (fun tokens span => slice bytes span.1 span.2 =
    some (put_token_set tokens)) token_sets pool.token_spans
  weight_spans : List.Forall₂ (SpanOf bytes) bodies pool.weight_spans

/-- The pool is built, unless the bytes are too many for `u32` places. -/
theorem Stores.from_packed_bytes (h : Stores bytes token_sets bodies maps) :
    (∃ pool, PackedRuntimeWeightPool.from_packed_bytes bytes = .ok pool ∧
      BuiltFrom bytes token_sets bodies pool) ∨
    u32Max < bytes.length ∧
      ∃ failure, PackedRuntimeWeightPool.from_packed_bytes bytes = .error failure := by
  obtain ⟨token_pos, weight_pos, hs⟩ := h.sections
  have htokens := @take_each_spec bytes _ (take_token_span bytes) _ _ h.token_body_le
    fun body hbody => take_token_span_spec (h.token_body_le body hbody)
  have hweights := @take_each_spec bytes _ (take_weight_span bytes) bodies (SpanOf bytes)
    h.weight_bodies fun body hbody => by
      obtain ⟨map, -, hencodes⟩ := exists_of_mem_forall₂ h.encodes hbody
      exact take_weight_span_spec (h.weight_bodies body hbody) (span_header_of_encodes hencodes)
  rw [List.length_map] at htokens
  rw [PackedRuntimeWeightPool.from_packed_bytes, if_neg (not_not.mpr h.header)]
  rcases htokens _ hs.token_bodies with ⟨spans, hspans, htoken_spans⟩ | ⟨hover, failure, herror⟩
  · rcases hweights _ hs.weight_bodies with ⟨spans', hspans', hweight_spans⟩ |
      ⟨hover, failure, herror⟩
    · left
      have hpool : take_runtime_pool bytes 4 = .ok (⟨bytes, spans, spans'⟩, bytes.length) := by
        rw [take_runtime_pool, bind_ok hs.token_count, bind_ok hspans, bind_ok hs.weight_count,
          bind_ok hspans', hs.stop, bind_ok expect_end_ok]
        rfl
      rw [hpool]
      exact ⟨_, rfl, rfl, (List.forall₂_map_left_iff.mp htoken_spans), hweight_spans⟩
    · right
      have hpool : take_runtime_pool bytes 4 = .error failure := by
        rw [take_runtime_pool, bind_ok hs.token_count, bind_ok hspans, bind_ok hs.weight_count]
        exact bind_error herror
      rw [hpool]
      exact ⟨hover, failure, rfl⟩
  · right
    have hpool : take_runtime_pool bytes 4 = .error failure := by
      rw [take_runtime_pool, bind_ok hs.token_count]
      exact bind_error herror
    rw [hpool]
    exact ⟨hover, failure, rfl⟩

/-! ## References -/

/-- A reference to a token set reads what the token set holds. -/
structure PackedRuntimePoolTokenSetRef.Describes (self : PackedRuntimePoolTokenSetRef)
    (tokens : TokenSet) : Prop where
  range_count : self.range_count = tokens.runs.length
  is_empty : self.is_empty = tokens.isEmpty
  for_each_range : self.for_each_range = tokens.runs.map fun run => (run.lo, run.hi)

/-- The entries that a pool lists for a weight: a full weight has none. -/
def explicitEntries (map : WeightMap) : List (Run TokenSet) :=
  if Weight.isFullMap map then [] else map.runs

/-- A reference to a weight reads what the weight holds. -/
structure PackedRuntimePoolWeightRef.Describes (self : PackedRuntimePoolWeightRef)
    (map : WeightMap) : Prop where
  is_full : self.is_full = Weight.isFullMap map
  is_empty : self.is_empty = map.isEmpty
  entry_count : self.entry_count = (explicitEntries map).length
  entries : List.Forall₂ (fun entry run => entry.1 = (run.lo, run.hi) ∧ entry.2.Describes run.val)
    self.entries (explicitEntries map)
  token_set_for_tsid : ∀ tsid, Option.Rel PackedRuntimePoolTokenSetRef.Describes
    (self.token_set_for_tsid tsid) (lookupRuns (explicitEntries map) tsid)

theorem describes_token_set (id : ℕ) {tokens : TokenSet}
    (h : (put_token_set tokens).length ≤ u32Max) :
    (⟨id, put_token_set tokens⟩ : PackedRuntimePoolTokenSetRef).Describes tokens := by
  have hlen := (ranges_le_body tokens).trans h
  have hat : At (put_token_set tokens) (put_token_set tokens) 0 := at_self _
  nth_rewrite 2 [put_token_set] at hat
  rw [asU32_of_le hlen] at hat
  obtain ⟨hnumber, hruns⟩ := at_append.mp hat
  have hcount := reads_u32 (put_token_set tokens) (Nat.lt_succ_of_le hlen) 0 hnumber
  have hread := @reads_take_runs _ _ (put_token_set tokens) token_set_errors (fun _ => []) _ 0 _ _
    (runsFrom_zero tokens) (forall₂_decodes_unit tokens.runs) _ hruns
  have hrange_count : (⟨id, put_token_set tokens⟩ : PackedRuntimePoolTokenSetRef).range_count =
      tokens.runs.length := by
    rw [PackedRuntimePoolTokenSetRef.range_count, hcount]
  refine ⟨hrange_count, ?_, ?_⟩
  · rw [PackedRuntimePoolTokenSetRef.is_empty, hrange_count, RangeMap.isEmpty]
    cases tokens.runs with
    | nil => rfl
    | cons run runs => rfl
  · rw [PackedRuntimePoolTokenSetRef.for_each_range, hcount]
    exact congrArg _ (visit_runs_eq hread)

variable {pool : PackedRuntimeWeightPool}

theorem forall₂_getElem? {α β : Type} {R : α → β → Prop} {l : List α} {l' : List β}
    (h : List.Forall₂ R l l') {i : ℕ} {a : α} (ha : l[i]? = some a) : ∃ b, l'[i]? = some b ∧ R a b := by
  induction h generalizing i with
  | nil => cases ha
  | cons hhead _ ih =>
      cases i with
      | zero =>
          obtain rfl := Option.some.inj ha
          exact ⟨_, rfl, hhead⟩
      | succ i => exact ih ha

theorem BuiltFrom.token_set (h : BuiltFrom bytes token_sets bodies pool) {id : ℕ}
    {tokens : TokenSet} (hget : token_sets[id]? = some tokens) :
    pool.token_set id = some ⟨id, put_token_set tokens⟩ := by
  obtain ⟨span, hspan, hslice⟩ := forall₂_getElem? h.token_spans hget
  simp only [PackedRuntimeWeightPool.token_set, hspan, h.wire, hslice, Option.bind_eq_bind,
    Option.bind_some, Option.pure_def]

/-- A token set of the pool is found under its index, and described. -/
theorem BuiltFrom.describes (hbuilt : BuiltFrom bytes token_sets bodies pool)
    (h : Stores bytes token_sets bodies maps) {id : ℕ} {tokens : TokenSet}
    (hget : token_sets[id]? = some tokens) :
    ∃ ref, pool.token_set id = some ref ∧ ref.Describes tokens :=
  ⟨_, hbuilt.token_set hget,
    describes_token_set id (h.token_bodies tokens (List.mem_of_getElem? hget))⟩

/-- The entries that the pool reads for runs of indices. -/
theorem exists_refs (h : Stores bytes token_sets bodies maps)
    (hbuilt : BuiltFrom bytes token_sets bodies pool) (body : List UInt8) {ids : List (Run ℕ)}
    {runs : List (Run TokenSet)} (hids : List.Forall₂ (Indexes token_sets) ids runs) :
    ∃ refs : List (Run PackedRuntimePoolTokenSetRef),
      List.Forall₂ (Decodes body putVar (take_pool_token_set pool body)) ids refs ∧
      List.Forall₂ (fun ref run => (ref.lo, ref.hi) = (run.lo, run.hi) ∧
        ref.val.Describes run.val) refs runs := by
  induction hids with
  | nil => exact ⟨[], List.Forall₂.nil, List.Forall₂.nil⟩
  | @cons id run ids runs hrun _ ih =>
      obtain ⟨refs, hdecodes, hdescribes⟩ := ih
      obtain ⟨hlo, hhi, hmax, hget⟩ := hrun
      obtain ⟨ref, hfound, href⟩ := hbuilt.describes h hget
      have hpure : Reads body (pure ref : Cursor Failure PackedRuntimePoolTokenSetRef) [] ref :=
        Reads.pure ref
      have hread : Reads body (take_pool_token_set pool body) (putVar id.val ++ []) ref := by
        apply (reads_u32 body (Nat.lt_succ_of_le hmax)).bind
        rw [hfound]
        exact hpure
      rw [List.append_nil] at hread
      refine ⟨⟨id.lo, id.hi, ref⟩ :: refs, List.Forall₂.cons ⟨rfl, rfl, hread⟩ hdecodes,
        List.Forall₂.cons ⟨?_, href⟩ hdescribes⟩
      rw [hlo, hhi]

theorem lookupRuns_indexes {ids : List (Run ℕ)} {runs : List (Run TokenSet)}
    (hids : List.Forall₂ (Indexes token_sets) ids runs) (tsid : ℕ) :
    Option.Rel (fun id tokens => token_sets[id]? = some tokens) (lookupRuns ids tsid)
      (lookupRuns runs tsid) := by
  induction hids with
  | nil => exact Option.Rel.none
  | @cons id run ids runs hrun _ ih =>
      obtain ⟨hlo, hhi, -, hget⟩ := hrun
      have hcovers : id.Covers tsid ↔ run.Covers tsid := by rw [Run.Covers, Run.Covers, hlo, hhi]
      rw [lookupRuns_cons, lookupRuns_cons]
      by_cases hc : id.Covers tsid
      · rw [if_pos hc, if_pos (hcovers.mp hc)]
        exact Option.Rel.some hget
      · rw [if_neg hc, if_neg fun hc' => hc (hcovers.mpr hc')]
        exact ih

theorem describes_weight (h : Stores bytes token_sets bodies maps)
    (hbuilt : BuiltFrom bytes token_sets bodies pool) {id : ℕ} (hid : id < pool.weight_spans.length)
    {body : List UInt8} {map : WeightMap} (hencodes : Encodes token_sets body map)
    (hspan : SpanOf bytes body (pool.weight_spans.get ⟨id, hid⟩)) :
    (⟨pool, id, hid⟩ : PackedRuntimePoolWeightRef).Describes map := by
  generalize href : (⟨pool, id, hid⟩ : PackedRuntimePoolWeightRef) = ref
  have hpool : ref.pool = pool := by rw [← href]
  have hslice : slice ref.pool.wire ref.span.body_start ref.span.body_len = some body := by
    rw [hpool, hbuilt.wire, ← href]
    exact hspan.1
  have hheader : span_header body = .ok (ref.span.full, ref.span.entry_count) := by
    rw [← href]
    exact hspan.2
  rw [span_header_of_encodes hencodes] at hheader
  obtain ⟨hfull, hcount⟩ := Prod.mk.inj (Except.ok.inj hheader)
  cases hencodes with
  | full =>
      have hall : Weight.isFullMap allMap = true := Weight.isFullMap_iff.mpr rfl
      have hnone : explicitEntries allMap = [] := if_pos hall
      rw [hall] at hfull hcount
      have hnonempty : allMap.isEmpty = false := by
        rw [RangeMap.isEmpty, Weight.allMap_runs]
        rfl
      constructor
      · rw [hall]
        exact hfull.symm
      · rw [hnonempty, PackedRuntimePoolWeightRef.is_empty, ← hfull]
        rfl
      · rw [hnone]
        exact hcount.symm
      · rw [hnone, PackedRuntimePoolWeightRef.entries, if_pos hfull.symm]
        exact List.Forall₂.nil
      · intro tsid
        rw [hnone, PackedRuntimePoolWeightRef.token_set_for_tsid, if_pos hfull.symm]
        exact Option.Rel.none
  | @entries _ ids hmap hlen hids =>
      have hsome : explicitEntries map = map.runs := if_neg (by rw [hmap]; decide)
      rw [hmap] at hfull hcount
      have hnot : ¬ ref.span.full = true := by rw [← hfull]; decide
      generalize hbody : 0 :: (putVar map.runs.length ++ put_runs putVar 0 ids) = body at hslice
      have hat : At body ([0] ++ (putVar map.runs.length ++ put_runs putVar 0 ids)) 0 := by
        rw [← hbody]
        exact at_self _
      obtain ⟨hnumber, hruns⟩ := at_append.mp (at_append.mp hat).2
      have hvar : take_var_u32 body 1 = .ok (map.runs.length,
          0 + ([0] : List UInt8).length + (putVar map.runs.length).length) :=
        reads_u32 body (Nat.lt_succ_of_le hlen) _ hnumber
      have hfrom := runsFrom_of_indexes hids (runsFrom_zero map)
      obtain ⟨refs, hdecodes, hdescribes⟩ := exists_refs h hbuilt body hids
      have hrefs := @reads_take_runs _ _ body weight_errors putVar _ 0 _ _ hfrom hdecodes _ hruns
      have hsmall : ∀ id ∈ ids, id.val ≤ u32Max := fun id hmem => by
        obtain ⟨run, -, -, -, hmax, -⟩ := exists_of_mem_forall₂ hids hmem
        exact hmax
      have hids_read := @reads_take_runs _ _ body weight_errors putVar (take_var_u32 body) 0 ids ids
        hfrom (List.forall₂_same.mpr fun id hmem =>
          ⟨rfl, rfl, reads_u32 body (Nat.lt_succ_of_le (hsmall id hmem))⟩) _ hruns
      rw [hids.length_eq] at hrefs hids_read
      constructor
      · rw [hmap]
        exact hfull.symm
      · rw [PackedRuntimePoolWeightRef.is_empty, ← hfull, ← hcount, RangeMap.isEmpty]
        cases map.runs with
        | nil => rfl
        | cons run runs => rfl
      · rw [hsome]
        exact hcount.symm
      · have hentries : ref.entries = refs.map fun run => ((run.lo, run.hi), run.val) := by
          rw [PackedRuntimePoolWeightRef.entries, if_neg hnot, hslice]
          simp only [hvar, hpool, visit_runs_eq hrefs]
        rw [hsome, hentries]
        exact List.forall₂_map_left_iff.mpr hdescribes
      · intro tsid
        have hfind : ref.token_set_for_tsid tsid = (lookupRuns ids tsid).bind pool.token_set := by
          rw [PackedRuntimePoolWeightRef.token_set_for_tsid, if_neg hnot, hslice]
          simp only [hvar, hpool, find_token_set_eq hfrom.ordered hids_read]
        have hrel := lookupRuns_indexes hids tsid
        rw [hfind, hsome]
        generalize lookupRuns ids tsid = found at hrel ⊢
        generalize lookupRuns map.runs tsid = expected at hrel ⊢
        cases hrel with
        | none => exact Option.Rel.none
        | some hget =>
            obtain ⟨found, hfound, hdescribed⟩ := hbuilt.describes h hget
            rw [Option.bind_some, hfound]
            exact Option.Rel.some hdescribed

end Pool

/-- What was packed is unpacked in order. A runtime pool is built from the same bytes when their
places fit `u32`, and every runtime pool built from them describes the same weights. -/
theorem pooled_weights_round_trip {heap : ℕ → TokenSet} (weights : List (SharedWeight heap))
    (bytes : List UInt8) (h : pack_pooled_weights weights = .ok bytes) :
    unpack_pooled_weights bytes = .ok (weights.map SharedWeight.map) ∧
    (bytes.length ≤ u32Max →
      ∃ pool, PackedRuntimeWeightPool.from_packed_bytes bytes = .ok pool) ∧
    ∀ pool, PackedRuntimeWeightPool.from_packed_bytes bytes = .ok pool →
      pool.weight_count = weights.length ∧
      ∀ id weight, weights[id]? = some weight →
        ∃ ref, pool.weight id = some ref ∧ ref.Describes weight.map := by
  obtain ⟨token_sets, bodies, hstores⟩ := pack_stores h
  have hbuild := hstores.from_packed_bytes
  refine ⟨hstores.unpack, fun hlen => ?_, fun pool hpool => ?_⟩
  · rcases hbuild with ⟨pool, hpool, -⟩ | ⟨hover, -⟩
    · exact ⟨pool, hpool⟩
    · omega
  · have hbuilt : BuiltFrom bytes token_sets bodies pool := by
      rcases hbuild with ⟨pool', hpool', hbuilt⟩ | ⟨-, failure, herror⟩
      · obtain rfl := Except.ok.inj (hpool.symm.trans hpool')
        exact hbuilt
      · rw [herror] at hpool
        cases hpool
    have hcount : pool.weight_spans.length = weights.length := by
      rw [← hbuilt.weight_spans.length_eq, hstores.encodes.length_eq, List.length_map]
    refine ⟨hcount, fun id weight hweight => ?_⟩
    have hid : id < pool.weight_spans.length := by
      rw [hcount]
      exact (List.getElem?_eq_some_iff.mp hweight).1
    refine ⟨⟨pool, id, hid⟩, dif_pos hid, ?_⟩
    have hmap : (weights.map SharedWeight.map)[id]? = some weight.map := by
      rw [List.getElem?_map, hweight]
      rfl
    obtain ⟨body, hbody, hencodes⟩ := forall₂_getElem? hstores.encodes.flip hmap
    obtain ⟨span, hspan, hspanOf⟩ := forall₂_getElem? hbuilt.weight_spans hbody
    have hget : pool.weight_spans.get ⟨id, hid⟩ = span := by
      rw [List.get_eq_getElem]
      exact Option.some.inj ((List.getElem?_eq_getElem hid).symm.trans hspan)
    exact describes_weight hstores hbuilt hid hencodes (hget ▸ hspanOf)

/-! The full weight, and one entry stored twice with the same token set. -/

def sampleTokens : TokenSet := RangeSet.ofRanges u32Max [⟨5, 7, ()⟩]

def sampleHeap : ℕ → TokenSet := fun ptr => if ptr = 0 then sentinel_token_set else sampleTokens

def sampleMap : WeightMap := RangeMap.empty.insert ⟨3, 4, sampleTokens⟩

def sampleWeights : List (SharedWeight sampleHeap) :=
  [⟨allMap, [0], by rw [Weight.allMap_runs]; rfl⟩, ⟨sampleMap, [1], by decide +kernel⟩,
    ⟨sampleMap, [1], by decide +kernel⟩]

def sampleBytes : List UInt8 :=
  wpl3 ++ [1, 3, 1, 5, 2, 3, 1, 1, 5, 0, 1, 3, 1, 0, 5, 0, 1, 3, 1, 0]

theorem pack_sampleWeights : pack_pooled_weights sampleWeights = .ok sampleBytes := by
  have hruns : sampleMap.runs = [⟨3, 4, sampleTokens⟩] := by decide +kernel
  have htokens : sampleTokens.runs = [⟨5, 7, ()⟩] := by decide +kernel
  have hsample : Weight.isFullMap sampleMap = false := by decide +kernel
  have hall : Weight.isFullMap allMap = true := Weight.isFullMap_iff.mpr rfl
  simp [pack_pooled_weights, sampleWeights, put_weights, put_weight, hruns, htokens, hsample, hall,
    intern_entries, TokenPool.intern, TokenPool.or_insert, TokenPool.new, bodyBytes, put_runs,
    putVar_small, asU32, put_token_set, u32Max, put_pool, put_bodies, sampleBytes]

theorem round_trip_sampleWeights :
    unpack_pooled_weights sampleBytes = .ok [allMap, sampleMap, sampleMap] ∧
      ∃ pool, PackedRuntimeWeightPool.from_packed_bytes sampleBytes = .ok pool := by
  have h := pooled_weights_round_trip sampleWeights sampleBytes pack_sampleWeights
  exact ⟨h.1, h.2.1 (by decide)⟩

end WeightPool

end GlrMask
