import GlrMask.WeightPool

/-!
# Reading back packed weights

Every reader returns what its writer put, wherever the bytes stand. The readers
that stop early agree with the ones that read all.
-/

namespace GlrMask

namespace WeightPool

/-! ## Numbers -/

theorem reads_u32 (input : List UInt8) {n : ℕ} (h : n < 2 ^ 32) :
    Reads input (take_var_u32 input) (putVar n) n := by
  have hread := reads_takeVar input (Failure.error "truncated packed Weight-pool varint")
    (Failure.error "overflowing packed Weight-pool u32 varint") (show 0x0f < 0x80 by decide)
    (show 0 < 2 ^ 0 by decide) (show n < (0x0f + 1) * 0x80 ^ 4 by omega)
  rwa [pow_zero, mul_one, Nat.zero_add] at hread

theorem reads_u64 (input : List UInt8) {n : ℕ} (h : n < 2 ^ 64) :
    Reads input (take_var_u64 input) (putVar n) n := by
  have hread := reads_takeVar input (Failure.error "truncated packed Weight-pool varint")
    (Failure.error "overflowing packed Weight-pool u64 varint") (show 0x01 < 0x80 by decide)
    (show 0 < 2 ^ 0 by decide) (show n < (0x01 + 1) * 0x80 ^ 9 by omega)
  rwa [pow_zero, mul_one, Nat.zero_add] at hread

theorem asU32_of_le {n : ℕ} (h : n ≤ u32Max) : asU32 n = n :=
  Nat.mod_eq_of_lt (Nat.lt_succ_of_le h)

/-! ## Runs -/

section Runs

variable {V W : Type} {input : List UInt8} {errors : RangeErrors}

/-- Ordered runs of `u32` keys from a key on. -/
structure RunsFrom (previous_end_plus_one : ℕ) (runs : List (Run V)) : Prop where
  ordered : Ordered runs
  from_lo : ∀ r ∈ runs, previous_end_plus_one ≤ r.lo
  bounded : ∀ r ∈ runs, r.hi ≤ u32Max

theorem RunsFrom.tail {prev : ℕ} {run : Run V} {runs : List (Run V)}
    (h : RunsFrom prev (run :: runs)) : RunsFrom (run.hi + 1) runs where
  ordered := h.ordered.tail
  from_lo r hr := List.rel_of_pairwise_cons h.ordered.2 hr
  bounded r hr := h.bounded r (List.mem_cons_of_mem _ hr)

theorem runsFrom_zero (m : RangeMap u32Max V) : RunsFrom 0 m.runs :=
  ⟨m.canonical.ordered, fun _ _ => Nat.zero_le _, m.bounded⟩

theorem reads_take_run {item : Cursor Failure V} {bytes : List UInt8} {prev : ℕ} {run : Run V}
    (hprev : prev ≤ run.lo) (hle : run.lo ≤ run.hi) (hmax : run.hi ≤ u32Max)
    (hitem : Reads input item bytes run.val) :
    Reads input (take_run input errors item prev)
      (putVar (run.lo - prev) ++ (putVar (run.hi - run.lo) ++ bytes)) run := by
  have hbound : run.hi < 2 ^ 32 := Nat.lt_succ_of_le hmax
  have hstart : prev + (run.lo - prev) = run.lo := by omega
  have hstop : run.lo + (run.hi - run.lo) = run.hi := by omega
  apply (reads_u64 input (show run.lo - prev < 2 ^ 64 by omega)).bind
  dsimp only
  rw [hstart, if_neg (by omega), if_neg (by omega)]
  apply (reads_u32 input (show run.hi - run.lo < 2 ^ 32 by omega)).bind
  rw [hstop, if_neg (by omega)]
  exact hitem.map fun val => (⟨run.lo, run.hi, val⟩ : Run V)

/-- The item of each run is read back. -/
def Decodes (input : List UInt8) (put : V → List UInt8) (item : Cursor Failure W) (run : Run V)
    (decoded : Run W) : Prop :=
  decoded.lo = run.lo ∧ decoded.hi = run.hi ∧ Reads input item (put run.val) decoded.val

theorem reads_take_runs {put : V → List UInt8} {item : Cursor Failure W} {prev : ℕ}
    {runs : List (Run V)} {decoded : List (Run W)} (hfrom : RunsFrom prev runs)
    (h : List.Forall₂ (Decodes input put item) runs decoded) :
    Reads input (take_runs input errors item runs.length prev) (put_runs put prev runs)
      decoded := by
  induction h generalizing prev with
  | nil => exact Reads.pure []
  | @cons run dec runs decoded hrun _ ih =>
      obtain ⟨hlo, hhi, hitem⟩ := hrun
      have hle := hfrom.ordered.1 run List.mem_cons_self
      have hread := @reads_take_run _ input errors item (put run.val) prev dec
        (hlo ▸ hfrom.from_lo run List.mem_cons_self) (by rw [hlo, hhi]; exact hle)
        (hhi ▸ hfrom.bounded run List.mem_cons_self) hitem
      have htail : Reads input (take_runs input errors item runs.length (dec.hi + 1))
          (put_runs put (run.hi + 1) runs) decoded := by
        rw [hhi]
        exact ih hfrom.tail
      rw [hlo, hhi] at hread
      have hbytes : put_runs put prev (run :: runs) =
          (putVar (run.lo - prev) ++ (putVar (run.hi - run.lo) ++ put run.val)) ++
            put_runs put (run.hi + 1) runs := by simp [put_runs]
      rw [hbytes]
      exact hread.bind (htail.map fun rest => dec :: rest)

theorem bind_ok {α β : Type} {m : Cursor Failure α} {f : α → Cursor Failure β} {pos pos' : ℕ}
    {a : α} (h : m pos = .ok (a, pos')) : (m >>= f) pos = f a pos' := by
  change (m pos >>= fun p => f p.1 p.2) = _
  rw [h]
  rfl

theorem lift_ok {α : Type} (a : α) (pos : ℕ) :
    (liftM (Except.ok a : Except Failure α) : Cursor Failure α) pos = .ok (a, pos) := rfl

theorem bind_eq_ok {α β : Type} {m : Cursor Failure α} {f : α → Cursor Failure β} {pos : ℕ}
    {r : β × ℕ} (h : (m >>= f) pos = .ok r) :
    ∃ a pos', m pos = .ok (a, pos') ∧ f a pos' = .ok r := by
  change (m pos >>= fun p => f p.1 p.2) = .ok r at h
  cases hm : m pos with
  | error failure =>
      rw [hm] at h
      cases h
  | ok p =>
      rw [hm] at h
      exact ⟨p.1, p.2, rfl, h⟩

/-- The reader that stops at the first failure reads what the other one reads. -/
theorem visit_runs_eq {item : Cursor Failure V} {count prev pos : ℕ} {runs : List (Run V)}
    {pos' : ℕ} (h : take_runs input errors item count prev pos = .ok (runs, pos')) :
    visit_runs input errors item count prev pos = runs := by
  induction count generalizing prev pos pos' runs with
  | zero =>
      obtain ⟨rfl, -⟩ := Prod.mk.inj (Except.ok.inj h)
      rfl
  | succ count ih =>
      obtain ⟨run, pos₁, hrun, hrest⟩ := bind_eq_ok h
      obtain ⟨rest, pos₂, hruns, hpure⟩ := bind_eq_ok hrest
      obtain ⟨rfl, -⟩ := Prod.mk.inj (Except.ok.inj hpure)
      simp only [visit_runs, hrun, ih hruns]

theorem find_token_set_eq {pool : PackedRuntimeWeightPool} {tsid count prev pos pos' : ℕ}
    {ids : List (Run ℕ)} (hids : Ordered ids)
    (h : take_runs input weight_errors (take_var_u32 input) count prev pos = .ok (ids, pos')) :
    find_token_set pool input tsid count prev pos = (lookupRuns ids tsid).bind pool.token_set := by
  induction count generalizing prev pos pos' ids with
  | zero =>
      obtain ⟨rfl, -⟩ := Prod.mk.inj (Except.ok.inj h)
      rfl
  | succ count ih =>
      obtain ⟨run, pos₁, hrun, hrest⟩ := bind_eq_ok h
      obtain ⟨rest, pos₂, hruns, hpure⟩ := bind_eq_ok hrest
      obtain ⟨rfl, -⟩ := Prod.mk.inj (Except.ok.inj hpure)
      have hle := hids.1 run List.mem_cons_self
      simp only [find_token_set, hrun, lookupRuns_cons]
      by_cases hbefore : tsid < run.lo
      · have hcover : ¬ run.Covers tsid := fun hc => by
          have := hc.1
          omega
        rw [if_pos hbefore, if_neg hcover, hids.lookup_tail_of_le (by omega)]
        rfl
      · by_cases hwithin : tsid ≤ run.hi
        · rw [if_neg hbefore, if_pos hwithin, if_pos ⟨by omega, hwithin⟩]
          rfl
        · have hcover : ¬ run.Covers tsid := fun hc => hwithin hc.2
          rw [if_neg hbefore, if_neg hwithin, if_neg hcover]
          exact ih hids.tail hruns

end Runs

/-! ## Bodies -/

theorem from_sorted_disjoint_runs {V : Type} [DecidableEq V] (m : RangeMap u32Max V) :
    from_sorted_disjoint m.runs = .ok m := dif_pos ⟨m.canonical, m.bounded⟩

theorem at_self (input : List UInt8) : At input input 0 := List.prefix_rfl

theorem expect_end_ok {input : List UInt8} {message : String} :
    expect_end input message input.length = .ok ((), input.length) := if_pos rfl

/-- A reader of a whole input that ends where the input does. -/
theorem then_expect_end {V : Type} {input : List UInt8} {m : Cursor Failure V} {message : String}
    {pos : ℕ} {v : V} (h : m pos = .ok (v, input.length)) :
    (m >>= fun v => expect_end input message >>= fun _ => pure v) pos =
      .ok (v, input.length) := by
  rw [bind_ok h, bind_ok expect_end_ok]
  rfl

theorem forall₂_decodes_unit {input : List UInt8} (runs : List (Run Unit)) :
    List.Forall₂ (Decodes input (fun _ => []) (pure ())) runs runs :=
  List.forall₂_same.mpr fun _ _ => ⟨rfl, rfl, Reads.pure ()⟩

theorem reads_take_token_ranges (input : List UInt8) {tokens : TokenSet}
    (h : tokens.runs.length ≤ u32Max) :
    Reads input (take_token_ranges input) (put_token_set tokens) tokens.runs := by
  rw [put_token_set, asU32_of_le h]
  apply (reads_u32 input (Nat.lt_succ_of_le h)).bind
  exact reads_take_runs (runsFrom_zero tokens) (forall₂_decodes_unit tokens.runs)

theorem decode_token_set (tokens : TokenSet) (h : tokens.runs.length ≤ u32Max) :
    decode_pooled_token_set_v2 (put_token_set tokens) = .ok tokens := by
  have hread := reads_take_token_ranges (put_token_set tokens) h 0 (at_self _)
  rw [Nat.zero_add] at hread
  rw [decode_pooled_token_set_v2, then_expect_end hread]
  exact from_sorted_disjoint_runs tokens

/-- The runs of indices stand for the runs of token sets. -/
def Indexes (token_sets : List TokenSet) (id : Run ℕ) (run : Run TokenSet) : Prop :=
  run.lo = id.lo ∧ run.hi = id.hi ∧ id.val ≤ u32Max ∧ token_sets[id.val]? = some run.val

/-- The body of a weight over the token sets of a pool. -/
inductive Encodes (token_sets : List TokenSet) : List UInt8 → WeightMap → Prop
  | full : Encodes token_sets [1] allMap
  | entries {map : WeightMap} {ids : List (Run ℕ)} : Weight.isFullMap map = false →
      map.runs.length ≤ u32Max → List.Forall₂ (Indexes token_sets) ids map.runs →
      Encodes token_sets (0 :: (putVar map.runs.length ++ put_runs putVar 0 ids)) map

theorem Indexes.decodes {token_sets : List TokenSet} {id : Run ℕ} {run : Run TokenSet}
    (h : Indexes token_sets id run) (input : List UInt8) :
    Decodes input putVar (take_token_set input token_sets) id run := by
  obtain ⟨hlo, hhi, hmax, hget⟩ := h
  refine ⟨hlo, hhi, ?_⟩
  have hpure : Reads input (pure run.val : Cursor Failure TokenSet) [] run.val := Reads.pure _
  have hread : Reads input (take_token_set input token_sets) (putVar id.val ++ []) run.val := by
    apply (reads_u32 input (Nat.lt_succ_of_le hmax)).bind
    rw [hget]
    exact hpure
  rwa [List.append_nil] at hread

/-- The indices are ordered as the runs are. -/
theorem runsFrom_of_indexes {token_sets : List TokenSet} {ids : List (Run ℕ)}
    {runs : List (Run TokenSet)} (h : List.Forall₂ (Indexes token_sets) ids runs) {prev : ℕ}
    (hruns : RunsFrom prev runs) : RunsFrom prev ids := by
  induction h generalizing prev with
  | nil => exact ⟨by simp [Ordered], by simp, by simp⟩
  | @cons id run ids runs hrun _ ih =>
      obtain ⟨hlo, hhi, -, -⟩ := hrun
      have htail := ih hruns.tail
      have hlast := hruns.bounded run List.mem_cons_self
      have hle := hruns.ordered.1 run List.mem_cons_self
      have hfirst := hruns.from_lo run List.mem_cons_self
      rw [hhi] at htail
      constructor
      · constructor
        · intro r hr
          rcases List.mem_cons.mp hr with rfl | hr
          · rw [← hlo, ← hhi]
            exact hle
          · exact htail.ordered.1 r hr
        · exact List.pairwise_cons.mpr ⟨fun r hr => htail.from_lo r hr, htail.ordered.2⟩
      · intro r hr
        rcases List.mem_cons.mp hr with rfl | hr
        · rw [← hlo]
          exact hfirst
        · have := htail.from_lo r hr
          omega
      · intro r hr
        rcases List.mem_cons.mp hr with rfl | hr
        · rw [← hhi]
          exact hlast
        · exact htail.bounded r hr

theorem decode_weight {token_sets : List TokenSet} {body : List UInt8} {map : WeightMap}
    (h : Encodes token_sets body map) : decode_pooled_weight_v3 token_sets body = .ok map := by
  cases h with
  | full => exact from_sorted_disjoint_runs allMap
  | @entries _ ids hfull hlen hids =>
      generalize hbody : 0 :: (putVar map.runs.length ++ put_runs putVar 0 ids) = body
      have hat : At body ([0] ++ (putVar map.runs.length ++ put_runs putVar 0 ids)) 0 := by
        rw [← hbody]
        exact at_self _
      obtain ⟨htag, hrest⟩ := at_append.mp hat
      obtain ⟨hcount, hruns⟩ := at_append.mp hrest
      have hend : 0 + ([0] : List UInt8).length + (putVar map.runs.length).length +
          (put_runs putVar 0 ids).length = body.length := by
        rw [← hbody]
        simp
        omega
      have hread := @reads_take_runs _ _ body weight_errors putVar _ 0 _ _ (runsFrom_of_indexes hids (runsFrom_zero map))
        (hids.imp fun _ _ h => h.decodes body) _ hruns
      rw [hend, hids.length_eq] at hread
      have hentries : take_entries_v3 body token_sets (0 + ([0] : List UInt8).length) =
          .ok (map.runs, body.length) := by
        rw [take_entries_v3, bind_ok (reads_u32 body (Nat.lt_succ_of_le hlen) _ hcount)]
        split_ifs with hzero
        · have hnil : map.runs = [] := List.length_eq_zero_iff.mp hzero
          have hids_nil : ids = [] := List.length_eq_zero_iff.mp (hids.length_eq.trans hzero)
          rw [hids_nil, put_runs, List.length_nil, Nat.add_zero] at hend
          rw [hend, bind_ok expect_end_ok, hnil]
          rfl
        · exact then_expect_end hread
      rw [decode_pooled_weight_v3, take_tagged, bind_ok (reads_takeByte body _ 0 0 htag)]
      change (take_entries_v3 body token_sets (0 + ([0] : List UInt8).length) >>= fun decoded =>
        from_sorted_disjoint decoded.1) = _
      rw [hentries]
      exact from_sorted_disjoint_runs map

/-! ## Framed bodies -/

theorem take_span_ok {input body : List UInt8} {label : String} {pos : ℕ}
    (hlen : body.length ≤ u32Max) (hat : At input (putVar body.length ++ body) pos) :
    take_span input label pos = .ok ((pos + (putVar body.length).length, body),
      pos + (putVar body.length ++ body).length) := by
  obtain ⟨hnumber, hbody⟩ := at_append.mp hat
  have hle := hat.length_le (by simp [putVar_ne_nil])
  rw [List.length_append] at hle
  have hslice : slice input (pos + (putVar body.length).length) body.length = some body := by
    rw [slice, if_pos (by omega), hbody.slice]
  rw [take_span, bind_ok (reads_u32 input (Nat.lt_succ_of_le hlen) pos hnumber)]
  simp only [hslice, List.length_append, Nat.add_assoc]

theorem put_bodies_cons {body : List UInt8} {bodies : List (List UInt8)}
    (hlen : body.length ≤ u32Max) :
    put_bodies (body :: bodies) = (putVar body.length ++ body) ++ put_bodies bodies := by
  simp only [put_bodies, List.flatMap_cons, asU32_of_le hlen]

theorem reads_slices (input : List UInt8) (label : String) {bodies : List (List UInt8)}
    (hlen : ∀ body ∈ bodies, body.length ≤ u32Max) :
    Reads input (take_length_prefixed_slices input label bodies.length) (put_bodies bodies)
      bodies := by
  induction bodies with
  | nil => exact Reads.pure []
  | cons body bodies ih =>
      have hbody := hlen body List.mem_cons_self
      have htail := ih fun b hb => hlen b (List.mem_cons_of_mem _ hb)
      rw [put_bodies_cons hbody]
      intro pos hat
      obtain ⟨hhead, hrest⟩ := at_append.mp hat
      rw [List.length_cons, take_length_prefixed_slices, bind_ok (take_span_ok hbody hhead),
        bind_ok (htail _ hrest), Nat.add_assoc, ← List.length_append]
      rfl

theorem mapM_ok {V W : Type} {f : V → Except Failure W} {l : List V} {l' : List W}
    (h : List.Forall₂ (fun v w => f v = .ok w) l l') : l.mapM f = .ok l' := by
  induction h with
  | nil => rfl
  | cons hhead _ ih =>
      rw [List.mapM_cons, hhead, ih]
      rfl

end WeightPool

end GlrMask
