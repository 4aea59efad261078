import GlrMask.MaskMappingSelections

/-!
# Writing a list of internal ids

Runs of consecutive ids are added by tokens up to aligned groups, by the groups,
and by tokens again.
-/

namespace GlrMask

namespace MaskMapping

open WordBitmap BitScan FinalMaskMapping

/-! ## Walks -/

/-- What a walk through the run from `first` has done so far. -/
structure Walked (internal_to_original : List (List ℕ)) (buf_words : ℕ) (out : Words)
    (first stop : ℕ) (state : RunWalk) : Prop where
  first_le : first ≤ state.start
  le_stop : state.start ≤ stop
  adds : Adds out state.out
    (originalBits internal_to_original buf_words {token | first ≤ token ∧ token < state.start})
  unwritten : state.wrote = false → state.out = out

section Walk

variable {internal_to_original : List (List ℕ)} {buf_words : ℕ} {out : Words} {first stop : ℕ}
  {cond : ℕ → Bool} {step : ℕ} {act : ℕ → Words → Words × Bool}

/-- A walk keeps what it has done, where each action adds the tokens it steps over. -/
theorem Walked.walk (hlen : out.length = buf_words) (aligned : ℕ → Prop)
    (hcond : ∀ start, cond start = true → start + step ≤ stop)
    (haligned : ∀ start, aligned start → aligned (start + step))
    (hact : ∀ start words, aligned start → cond start = true → words.length = buf_words →
      Adds words (act start words).1 (originalBits internal_to_original buf_words
        {token | start ≤ token ∧ token < start + step}) ∧
      ((act start words).2 = false → (act start words).1 = words))
    (fuel : ℕ) {state : RunWalk} (h : Walked internal_to_original buf_words out first stop state)
    (hstart : aligned state.start ∨ cond state.start = false) :
    Walked internal_to_original buf_words out first stop (FinalMaskMapping.walk cond step act fuel state) := by
  induction fuel generalizing state with
  | zero => exact h
  | succ fuel ih =>
    unfold FinalMaskMapping.walk
    split
    · rename_i hgo
      have halign : aligned state.start := by
        rcases hstart with halign | hfalse
        · exact halign
        · rw [hfalse] at hgo
          contradiction
      obtain ⟨hadds, hsame⟩ := hact state.start state.out halign hgo (h.adds.length_eq.trans hlen)
      have hset : {token | first ≤ token ∧ token < state.start + step} =
          {token | first ≤ token ∧ token < state.start} ∪
            {token | state.start ≤ token ∧ token < state.start + step} := by
        have := h.first_le
        ext token
        simp only [Set.mem_ofPred_eq, Set.mem_union]
        omega
      refine ih ⟨h.first_le.trans (Nat.le_add_right _ _), hcond _ hgo, ?_, ?_⟩
        (.inl (haligned _ halign))
      · dsimp only
        rw [hset, originalBits_union]
        exact h.adds.trans hadds
      · intro hwrote
        rw [Bool.or_eq_false_iff] at hwrote
        exact (hsame hwrote.2).trans (h.unwritten hwrote.1)
    · exact h

/-- A walk with enough fuel stops where its condition fails. -/
theorem cond_walk (act : ℕ → Words → Words × Bool) (hstep : 0 < step) (hcond : ∀ start, cond start = true → start + step ≤ stop)
    (fuel : ℕ) (state : RunWalk) (hfuel : stop ≤ state.start + fuel) :
    cond (walk cond step act fuel state).start = false := by
  induction fuel generalizing state with
  | zero =>
    unfold walk
    rw [← Bool.not_eq_true]
    intro hgo
    have := hcond _ hgo
    omega
  | succ fuel ih =>
    unfold walk
    split
    · apply ih
      dsimp only
      omega
    · rename_i hstop
      exact Bool.not_eq_true _ ▸ hstop

/-- A walk keeps to multiples, unless it is at the end from the start. -/
theorem dvd_walk (cond : ℕ → Bool) (act : ℕ → Words → Words × Bool) {size : ℕ}
    (hsize : size ∣ step) (fuel : ℕ) {state : RunWalk}
    (h : size ∣ state.start ∨ stop ≤ state.start) :
    size ∣ (walk cond step act fuel state).start ∨
      stop ≤ (walk cond step act fuel state).start := by
  induction fuel generalizing state with
  | zero => exact h
  | succ fuel ih =>
    unfold walk
    split
    · apply ih
      rcases h with hdvd | hend
      · exact .inl (dvd_add hdvd hsize)
      · exact .inr (hend.trans (Nat.le_add_right _ _))
    · exact h

end Walk

namespace Represents

variable {mapping : FinalMaskMapping} {internal_to_original : List (List ℕ)} {buf_words : ℕ}
  {out : Words} {first stop : ℕ}

theorem or_token_unwritten {token : ℕ} (h : (mapping.or_token token out).2 = false) :
    (mapping.or_token token out).1 = out := by
  unfold FinalMaskMapping.or_token at h ⊢
  split at h
  · exact or_sparse_of_isEmpty h
  · rfl

theorem walked_tokens (h : Represents mapping internal_to_original buf_words)
    (hlen : out.length = buf_words) {cond : ℕ → Bool}
    (hcond : ∀ start, cond start = true → start < stop) {state : RunWalk}
    (hstate : Walked internal_to_original buf_words out first stop state) :
    Walked internal_to_original buf_words out first stop
      (walk cond 1 mapping.or_token stop state) := by
  apply hstate.walk hlen (fun _ => True) hcond (fun _ _ => trivial) ?_ stop (.inl trivial)
  intro start words _ _ hwords
  have hset : {token | start ≤ token ∧ token < start + 1} = {start} := by
    ext token
    simp only [Set.mem_ofPred_eq, Set.mem_singleton_iff]
    omega
  rw [hset]
  exact ⟨h.adds_or_token hwords start, or_token_unwritten⟩

/-- A walk by aligned groups. -/
theorem walked_groups {dense : List (Option Words)} {entries : EntryTable} {size : ℕ}
    (h : GroupTable internal_to_original buf_words dense entries (groupTokens size))
    (hsize : 0 < size) (hlen : out.length = buf_words) {cond : ℕ → Bool}
    (hcond : ∀ start, cond start = true → start + size ≤ stop) {state : RunWalk}
    (hstate : Walked internal_to_original buf_words out first stop state)
    (hstart : size ∣ state.start ∨ cond state.start = false) :
    Walked internal_to_original buf_words out first stop
      (walk cond size (fun start => or_group dense entries (start / size)) stop state) := by
  apply hstate.walk hlen (fun start => size ∣ start) hcond
    (fun start hdvd => (Nat.dvd_add_self_right).mpr hdvd) ?_ stop hstart
  intro start words hdvd _ hwords
  have hset : {token | start ≤ token ∧ token < start + size} = groupTokens size (start / size) := by
    obtain ⟨k, hk⟩ := hdvd
    subst hk
    ext token
    simp only [groupTokens, Set.mem_ofPred_eq]
    rw [Nat.mul_div_cancel_left k hsize, Nat.div_eq_iff hsize, Nat.mul_comm k size]
    omega
  rw [hset]
  exact ⟨adds_or_group h hwords _, or_group_unwritten⟩

/-- After a walk that skips to multiples, the start is a multiple or the end. -/
theorem aligned_or_stop (act : ℕ → Words → Words × Bool) (size stop : ℕ) (state : RunWalk) :
    size ∣ (walk (fun start => start < stop && start % size != 0) 1 act stop state).start ∨
      stop ≤ (walk (fun start => start < stop && start % size != 0) 1 act stop state).start := by
  have hcond : ∀ start, (decide (start < stop) && start % size != 0) = true → start + 1 ≤ stop := by
    intro start hgo
    rw [Bool.and_eq_true, decide_eq_true_eq] at hgo
    exact hgo.1
  have hfalse := cond_walk act one_pos hcond stop state (Nat.le_add_left _ _)
  generalize (walk (fun start => start < stop && start % size != 0) 1 act stop state).start = start
    at hfalse
  rw [Bool.and_eq_false_iff, decide_eq_false_iff_not, bne_eq_false_iff_eq] at hfalse
  rcases hfalse with hge | hmod
  · exact .inr (not_lt.mp hge)
  · exact .inl (Nat.dvd_of_mod_eq_zero hmod)

/-- The mask gets the set, and is as before where nothing is reported written. -/
structure Writes (out : Words) (written : Words × Bool) (s : Set ℕ) : Prop where
  adds : Adds out written.1 s
  unwritten : written.2 = false → written.1 = out

theorem writes_or_internal_run (h : Represents mapping internal_to_original buf_words)
    (hdisjoint : internal_to_original.Pairwise List.Disjoint) (hlen : out.length = buf_words)
    (hle : first ≤ stop) {can_copy : Bool} (hcopy : can_copy = true → members out = ∅) :
    Writes out (mapping.or_internal_run first stop out can_copy)
      (originalBits internal_to_original buf_words {token | first ≤ token ∧ token < stop}) := by
  have hstart : Walked internal_to_original buf_words out first stop ⟨first, false, out⟩ := by
    refine ⟨le_refl _, hle, ?_, fun _ => rfl⟩
    have hnone : {token | first ≤ token ∧ token < first} = ∅ := by
      ext token
      simp only [Set.mem_ofPred_eq, Set.mem_empty_iff_false, iff_false]
      omega
    rw [hnone, originalBits_empty]
    exact Adds.refl out
  have hskip : ∀ {size start : ℕ}, (decide (start < stop) && start % size != 0) = true →
      start < stop := by
    intro size start hgo
    rw [Bool.and_eq_true, decide_eq_true_eq] at hgo
    exact hgo.1
  have hgroup : ∀ {size skip start : ℕ}, (decide (start + size ≤ stop) && start % skip != 0) = true →
      start + size ≤ stop := by
    intro size skip start hgo
    rw [Bool.and_eq_true, decide_eq_true_eq] at hgo
    exact hgo.1
  unfold FinalMaskMapping.or_internal_run
  extract_lets tokens_4 quads_8 tokens_8 bytes_64 tokens_64 group_start group_end written
    groups bytes quads tokens
  have h_tokens_4 : Walked internal_to_original buf_words out first stop tokens_4 :=
    h.walked_tokens hlen (fun _ => hskip) hstart
  have h_quads_8 : Walked internal_to_original buf_words out first stop quads_8 := by
    apply walked_groups h.quads (by omega) hlen (fun _ => hgroup) h_tokens_4
    rcases aligned_or_stop mapping.or_token 4 stop ⟨first, false, out⟩ with hdvd | hend
    · exact .inl hdvd
    · right
      rw [Bool.and_eq_false_iff, decide_eq_false_iff_not]
      exact .inl (by have : stop ≤ tokens_4.start := hend; omega)
  have h_tokens_8 : Walked internal_to_original buf_words out first stop tokens_8 :=
    h.walked_tokens hlen (fun _ => hskip) h_quads_8
  have h_bytes_64 : Walked internal_to_original buf_words out first stop bytes_64 := by
    apply walked_groups h.bytes (by omega) hlen (fun _ => hgroup) h_tokens_8
    rcases aligned_or_stop mapping.or_token 8 stop quads_8 with hdvd | hend
    · exact .inl hdvd
    · right
      rw [Bool.and_eq_false_iff, decide_eq_false_iff_not]
      exact .inl (by have : stop ≤ tokens_8.start := hend; omega)
  have h_tokens_64 : Walked internal_to_original buf_words out first stop tokens_64 :=
    h.walked_tokens hlen (fun _ => hskip) h_bytes_64
  have h_aligned : 64 ∣ tokens_64.start ∨ stop ≤ tokens_64.start :=
    aligned_or_stop mapping.or_token 64 stop bytes_64
  have h_groups : Walked internal_to_original buf_words out first stop groups ∧
      (64 ∣ groups.start ∨ stop ≤ groups.start) := by
    by_cases hlt : group_start < group_end
    · have hgroups : groups = ⟨group_end * 64, tokens_64.wrote ||
          (mapping.or_full_group_run group_start group_end tokens_64.out
            (can_copy && !tokens_64.wrote)).2,
          (mapping.or_full_group_run group_start group_end tokens_64.out
            (can_copy && !tokens_64.wrote)).1⟩ := if_pos hlt
      have hdiv : group_start = tokens_64.start / 64 := rfl
      have hend : group_end = stop / 64 := rfl
      obtain ⟨hadds, hsame⟩ := h.adds_or_full_group_run hdisjoint
        (h_tokens_64.adds.length_eq.trans hlen) group_start group_end
        (can_copy && !tokens_64.wrote) (by
          intro hboth
          rw [Bool.and_eq_true, Bool.not_eq_true'] at hboth
          rw [h_tokens_64.unwritten hboth.2]
          exact hcopy hboth.1)
      have hle_stop := h_tokens_64.le_stop
      have hfirst := h_tokens_64.first_le
      have hset : {token | first ≤ token ∧ token < group_end * 64} =
          {token | first ≤ token ∧ token < tokens_64.start} ∪
            {token | group_start * 64 ≤ token ∧ token < group_end * 64} := by
        ext token
        simp only [Set.mem_ofPred_eq, Set.mem_union]
        omega
      rw [hgroups]
      refine ⟨⟨by dsimp only; omega, by dsimp only; omega, ?_, ?_⟩, .inl (Nat.dvd_mul_left 64 _)⟩
      · dsimp only
        rw [hset, originalBits_union]
        exact h_tokens_64.adds.trans hadds
      · intro hwrote
        rw [Bool.or_eq_false_iff] at hwrote
        exact (hsame hwrote.2).trans (h_tokens_64.unwritten hwrote.1)
    · have hgroups : groups = tokens_64 := if_neg hlt
      rw [hgroups]
      exact ⟨h_tokens_64, h_aligned⟩
  have h_bytes : Walked internal_to_original buf_words out first stop bytes := by
    apply walked_groups h.bytes (by omega) hlen (fun _ => of_decide_eq_true) h_groups.1
    rcases h_groups.2 with hdvd | hend
    · exact .inl ((show 8 ∣ 64 by decide).trans hdvd)
    · exact .inr (decide_eq_false (by omega))
  have h_quads : Walked internal_to_original buf_words out first stop quads := by
    apply walked_groups h.quads (by omega) hlen (fun _ => of_decide_eq_true) h_bytes
    have hmultiple : 4 ∣ groups.start ∨ stop ≤ groups.start :=
      h_groups.2.imp_left ((show 4 ∣ 64 by decide).trans)
    rcases dvd_walk (fun start => start + 8 ≤ stop) (fun start => mapping.or_byte_group (start / 8))
      (show 4 ∣ 8 by decide) stop hmultiple with hdvd | hend
    · exact .inl hdvd
    · exact .inr (decide_eq_false (by have : stop ≤ bytes.start := hend; omega))
  have h_tokens : Walked internal_to_original buf_words out first stop tokens :=
    h.walked_tokens hlen (fun _ => of_decide_eq_true) h_quads
  have hend : tokens.start = stop := by
    have hcond : ∀ start, decide (start < stop) = true → start + 1 ≤ stop :=
      fun _ => of_decide_eq_true
    have hfalse := cond_walk mapping.or_token one_pos hcond stop quads (Nat.le_add_left _ _)
    have hge : ¬tokens.start < stop := of_decide_eq_false hfalse
    have hle := h_tokens.le_stop
    omega
  have hadds := h_tokens.adds
  rw [hend] at hadds
  exact ⟨hadds, h_tokens.unwritten⟩

/-! ## Lists of ids -/

theorem id_run_spec (run_end : ℕ) (ids : List ℕ) :
    run_end ≤ (id_run run_end ids).1 ∧
      ids = List.range' run_end ((id_run run_end ids).1 - run_end) ++ (id_run run_end ids).2 := by
  induction ids generalizing run_end with
  | nil => simp [id_run]
  | cons id rest ih =>
    unfold id_run
    split
    · rename_i heq
      obtain ⟨hle, hsplit⟩ := ih (run_end + 1)
      refine ⟨by omega, ?_⟩
      have hcount : (id_run (run_end + 1) rest).1 - run_end =
          (id_run (run_end + 1) rest).1 - (run_end + 1) + 1 := by omega
      rw [hcount, List.range'_succ, List.cons_append, ← hsplit, heq]
    · simp

theorem writes_or_tokens (h : Represents mapping internal_to_original buf_words)
    (hlen : out.length = buf_words) (ids : List ℕ) :
    Writes out (mapping.or_tokens ids out)
      (originalBits internal_to_original buf_words {token | token ∈ ids}) := by
  induction ids using List.reverseRecOn with
  | nil => exact ⟨by simp [FinalMaskMapping.or_tokens], fun _ => rfl⟩
  | append_singleton ids id ih =>
    have hset : {token | token ∈ ids ++ [id]} = {token | token ∈ ids} ∪ {id} := by
      ext token
      simp [or_comm]
    have hstep : mapping.or_tokens (ids ++ [id]) out =
        ((mapping.or_token id (mapping.or_tokens ids out).1).1,
          (mapping.or_tokens ids out).2 ||
            (mapping.or_token id (mapping.or_tokens ids out).1).2) := List.foldl_concat ..
    rw [hset, originalBits_union, hstep]
    constructor
    · exact ih.adds.trans (h.adds_or_token (ih.adds.length_eq.trans hlen) id)
    · intro hwrote
      rw [Bool.or_eq_false_iff] at hwrote
      exact (or_token_unwritten hwrote.2).trans (ih.unwritten hwrote.1)

theorem adds_fill_runs_loop (h : Represents mapping internal_to_original buf_words)
    (hdisjoint : internal_to_original.Pairwise List.Disjoint) (fuel : ℕ) (ids : List ℕ)
    (wrote : Bool) (out : Words) (hlen : out.length = buf_words)
    (hempty : wrote = false → members out = ∅) (hfuel : ids.length ≤ fuel) :
    Adds out (mapping.fill_runs_loop fuel ids wrote out)
      (originalBits internal_to_original buf_words {token | token ∈ ids}) := by
  induction fuel generalizing ids wrote out with
  | zero =>
    rw [List.length_eq_zero_iff.mp (Nat.le_zero.mp hfuel)]
    simp [FinalMaskMapping.fill_runs_loop]
  | succ fuel ih =>
    cases ids with
    | nil => simp [FinalMaskMapping.fill_runs_loop]
    | cons run_start rest =>
      unfold FinalMaskMapping.fill_runs_loop
      dsimp only
      obtain ⟨hle, hsplit⟩ := id_run_spec (run_start + 1) rest
      generalize id_run (run_start + 1) rest = run at hle hsplit
      have hids : run_start :: rest = List.range' run_start (run.1 - run_start) ++ run.2 := by
        have hcount : run.1 - run_start = run.1 - (run_start + 1) + 1 := by omega
        rw [hcount, List.range'_succ, List.cons_append, ← hsplit]
      have htake : (run_start :: rest).take (run.1 - run_start) =
          List.range' run_start (run.1 - run_start) := by
        rw [hids, List.take_left' List.length_range']
      have hrun : {token | token ∈ List.range' run_start (run.1 - run_start)} =
          {token | run_start ≤ token ∧ token < run.1} := by
        ext token
        simp only [Set.mem_ofPred_eq, List.mem_range'_1]
        omega
      have hset : {token | token ∈ run_start :: rest} =
          {token | run_start ≤ token ∧ token < run.1} ∪ {token | token ∈ run.2} := by
        rw [← hrun, hids]
        ext token
        simp
      have hwritten : Writes out (if mapping.token_entries.len < run.1 then
          mapping.or_tokens ((run_start :: rest).take (run.1 - run_start)) out
        else mapping.or_internal_run run_start run.1 out !wrote)
          (originalBits internal_to_original buf_words
            {token | run_start ≤ token ∧ token < run.1}) := by
        split
        · rw [htake, ← hrun]
          exact h.writes_or_tokens hlen _
        · apply h.writes_or_internal_run hdisjoint hlen (by omega)
          intro hcopy
          rw [Bool.not_eq_true'] at hcopy
          exact hempty hcopy
      have hrest : run.2.length ≤ fuel := by
        have hcount := congrArg List.length hids
        rw [List.length_append, List.length_range', List.length_cons] at hcount
        rw [List.length_cons] at hfuel
        omega
      rw [hset, originalBits_union]
      apply hwritten.adds.trans
      apply ih _ _ _ (hwritten.adds.length_eq.trans hlen) ?_ hrest
      intro hboth
      rw [Bool.or_eq_false_iff] at hboth
      rw [hwritten.unwritten hboth.2]
      exact hempty hboth.1

theorem clears_andnot_tokens (h : Represents mapping internal_to_original buf_words)
    (hlen : out.length = buf_words) (expected stop : ℕ) :
    Clears out (mapping.andnot_tokens expected stop out)
      (originalBits internal_to_original buf_words
        {token | expected ≤ token ∧ token < stop}) := by
  have hcount : ∀ k, Clears out ((List.range' expected k).foldl
      (fun out id => mapping.andnot_token id out) out)
      (originalBits internal_to_original buf_words
        {token | expected ≤ token ∧ token < expected + k}) := by
    intro k
    induction k with
    | zero =>
      have hnone : {token | expected ≤ token ∧ token < expected + 0} = ∅ := by
        ext token
        simp only [Set.mem_ofPred_eq, Set.mem_empty_iff_false, iff_false]
        omega
      rw [hnone, originalBits_empty]
      exact Clears.refl out
    | succ k ih =>
      have hset : {token | expected ≤ token ∧ token < expected + (k + 1)} =
          {token | expected ≤ token ∧ token < expected + k} ∪ {expected + k} := by
        ext token
        simp only [Set.mem_ofPred_eq, Set.mem_union, Set.mem_singleton_iff]
        omega
      rw [List.range'_1_concat, List.foldl_concat, hset, originalBits_union]
      exact ih.trans (h.clears_andnot_token (ih.length_eq.trans hlen) _)
  have hset : {token | expected ≤ token ∧ token < stop} =
      {token | expected ≤ token ∧ token < expected + (stop - expected)} := by
    ext token
    simp only [Set.mem_ofPred_eq]
    omega
  rw [hset]
  exact hcount (stop - expected)

/-- Behind the last token there is nothing to clear. -/
theorem originalBits_rest (h : Represents mapping internal_to_original buf_words) {ids : List ℕ}
    (expected : ℕ) (hids : ∀ id ∈ ids, internal_to_original.length ≤ id) :
    originalBits internal_to_original buf_words {token | expected ≤ token ∧
      token < mapping.token_entries.len} =
    originalBits internal_to_original buf_words {token | expected ≤ token ∧ token ∉ ids} := by
  apply originalBits_congr
  intro token hlt
  rw [h.internal_len_eq]
  constructor
  · intro htoken
    refine ⟨htoken.1, fun hmem => ?_⟩
    have := hids token hmem
    omega
  · intro htoken
    exact ⟨htoken.1, hlt⟩

/-- Between two ascending ids all tokens are cleared. -/
theorem clears_andnot_missing_ids_loop (h : Represents mapping internal_to_original buf_words)
    (ids : List ℕ) (expected : ℕ) (out : Words) (hlen : out.length = buf_words)
    (hascending : ids.Pairwise (· < ·)) (hge : ∀ id ∈ ids, expected ≤ id) :
    Clears out (mapping.andnot_missing_ids_loop expected ids out)
      (originalBits internal_to_original buf_words
        {token | expected ≤ token ∧ token ∉ ids}) := by
  induction ids generalizing expected out with
  | nil =>
    unfold FinalMaskMapping.andnot_missing_ids_loop
    rw [← h.originalBits_rest expected (fun id hid => absurd hid List.not_mem_nil)]
    exact h.clears_andnot_tokens hlen expected _
  | cons selected rest ih =>
    rw [List.pairwise_cons] at hascending
    unfold FinalMaskMapping.andnot_missing_ids_loop
    split
    · rename_i hout
      rw [h.internal_len_eq] at hout
      have hbeyond : ∀ id ∈ selected :: rest, internal_to_original.length ≤ id := by
        intro id hid
        rcases List.mem_cons.mp hid with heq | hmem
        · omega
        · have := hascending.1 id hmem
          omega
      rw [← h.originalBits_rest expected hbeyond]
      exact h.clears_andnot_tokens hlen expected _
    · have hfirst := h.clears_andnot_tokens hlen expected selected
      have hrest := ih (selected + 1) _ (hfirst.length_eq.trans hlen) hascending.2 hascending.1
      have hle := hge selected List.mem_cons_self
      have hset : {token | expected ≤ token ∧ token ∉ selected :: rest} =
          {token | expected ≤ token ∧ token < selected} ∪
            {token | selected + 1 ≤ token ∧ token ∉ rest} := by
        ext token
        simp only [Set.mem_ofPred_eq, Set.mem_union, List.mem_cons, not_or]
        constructor
        · intro htoken
          by_cases hlt : token < selected
          · exact .inl ⟨htoken.1, hlt⟩
          · exact .inr ⟨by omega, htoken.2.2⟩
        · intro htoken
          rcases htoken with htoken | htoken
          · refine ⟨htoken.1, by omega, fun hmem => ?_⟩
            have := hascending.1 token hmem
            omega
          · exact ⟨by omega, by omega, htoken.2⟩
      rw [hset, originalBits_union]
      exact hfirst.trans hrest

theorem adds_fill_internal_ids (h : Represents mapping internal_to_original buf_words)
    (hdisjoint : internal_to_original.Pairwise List.Disjoint) (hlen : out.length = buf_words)
    (hempty : members out = ∅) {ids : List ℕ} (hascending : ids.Pairwise (· < ·)) :
    Adds out (mapping.fill_internal_ids ids out)
      (originalBits internal_to_original buf_words {token | token ∈ ids}) := by
  unfold FinalMaskMapping.fill_internal_ids
  dsimp only
  split
  · have hcopy := adds_copy_dense (h.all_tokens_length.trans hlen.symm) hempty
    rw [h.all_tokens_members] at hcopy
    have hclears := h.clears_andnot_missing_ids_loop ids 0 _ (hcopy.length_eq.trans hlen)
      hascending (fun id _ => Nat.zero_le id)
    have hboth := hcopy.clear hclears (by rw [hempty]; exact Set.empty_disjoint _)
    rw [originalBits_sdiff hdisjoint] at hboth
    have hset : Set.univ \ {token | 0 ≤ token ∧ token ∉ ids} = {token | token ∈ ids} := by
      ext token
      simp
    rwa [hset] at hboth
  · exact h.adds_fill_runs_loop hdisjoint ids.length ids false out hlen (fun _ => hempty) (le_refl _)

end Represents

end MaskMapping

end GlrMask
