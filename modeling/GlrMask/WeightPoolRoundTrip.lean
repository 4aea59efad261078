import GlrMask.WeightPoolCodec

/-!
# Packing, unpacking and reading in place

The writer interns token sets by address, so that an index stands for the token
set at the address it was given for. Both readers describe the weights that were
packed.
-/

namespace GlrMask

namespace WeightPool

/-! ## Interning -/

section Interning

variable {heap : ℕ → TokenSet} {pool : TokenPool}

/-- Every index that is remembered for an address is that of the token set there. -/
structure Pooled (heap : ℕ → TokenSet) (pool : TokenPool) : Prop where
  by_ptr : ∀ ptr id, pool.token_set_by_ptr.lookup ptr = some id →
    id ≤ u32Max ∧ pool.token_sets[id]? = some (heap ptr)
  last : ∀ ptr id, pool.last_token_set = some (ptr, id) →
    id ≤ u32Max ∧ pool.token_sets[id]? = some (heap ptr)

theorem pooled_new : Pooled heap TokenPool.new := by
  constructor
  · intro ptr id h
    cases h
  · intro ptr id h
    cases h

theorem getElem?_of_grows {V : Type} {l l' : List V} (h : l <+: l') {i : ℕ} {v : V}
    (hv : l[i]? = some v) : l'[i]? = some v := by
  obtain ⟨rest, rfl⟩ := h
  have hlt := (List.getElem?_eq_some_iff.mp hv).1
  rwa [List.getElem?_append_left hlt]

theorem intern_grows (pool : TokenPool) (ptr : ℕ) (tokens : TokenSet) :
    pool.token_sets <+: (pool.intern ptr tokens).2.token_sets := by
  have hinsert : pool.token_sets <+: (pool.or_insert ptr tokens).2.token_sets := by
    unfold TokenPool.or_insert
    split
    · exact List.prefix_rfl
    · exact List.prefix_append _ _
  unfold TokenPool.intern
  split
  · split_ifs
    · exact List.prefix_rfl
    · exact hinsert
  · exact hinsert

/-- What interning an address gives. -/
structure Interned (heap : ℕ → TokenSet) (ptr : ℕ) (out : ℕ × TokenPool) : Prop where
  pooled : Pooled heap out.2
  bounded : out.1 ≤ u32Max
  get : out.2.token_sets[out.1]? = some (heap ptr)

theorem or_insert_spec (h : Pooled heap pool) (ptr : ℕ)
    (hlen : (pool.or_insert ptr (heap ptr)).2.token_sets.length ≤ u32Max) :
    Interned heap ptr (pool.or_insert ptr (heap ptr)) := by
  unfold TokenPool.or_insert at hlen ⊢
  cases hlook : pool.token_set_by_ptr.lookup ptr with
  | some id =>
      obtain ⟨hmax, hget⟩ := h.by_ptr ptr id hlook
      refine ⟨⟨h.by_ptr, ?_⟩, hmax, hget⟩
      intro ptr' id' heq
      obtain ⟨rfl, rfl⟩ := Prod.mk.inj (Option.some.inj heq)
      exact ⟨hmax, hget⟩
  | none =>
      simp only [hlook, List.length_append, List.length_singleton] at hlen
      have hnext : asU32 pool.token_sets.length = pool.token_sets.length :=
        asU32_of_le (by omega)
      have hold : ∀ id tokens, pool.token_sets[id]? = some tokens →
          (pool.token_sets ++ [heap ptr])[id]? = some tokens := fun id tokens hget =>
        getElem?_of_grows (List.prefix_append _ _) hget
      have hnew : pool.token_sets.length ≤ u32Max ∧
          (pool.token_sets ++ [heap ptr])[pool.token_sets.length]? = some (heap ptr) :=
        ⟨by omega, by simp⟩
      simp only [hnext]
      refine ⟨⟨?_, ?_⟩, hnew.1, hnew.2⟩
      · intro ptr' id' heq
        rw [List.lookup_cons] at heq
        by_cases hptr : ptr' = ptr
        · subst hptr
          rw [beq_self_eq_true] at heq
          obtain rfl := Option.some.inj heq
          exact hnew
        · rw [beq_false_of_ne hptr] at heq
          obtain ⟨hmax, hget⟩ := h.by_ptr ptr' id' heq
          exact ⟨hmax, hold _ _ hget⟩
      · intro ptr' id' heq
        obtain ⟨rfl, rfl⟩ := Prod.mk.inj (Option.some.inj heq)
        exact hnew

/-- The shortcut for the last address gives what the table gives. -/
theorem intern_spec (h : Pooled heap pool) (ptr : ℕ)
    (hlen : (pool.intern ptr (heap ptr)).2.token_sets.length ≤ u32Max) :
    Interned heap ptr (pool.intern ptr (heap ptr)) := by
  unfold TokenPool.intern at hlen ⊢
  cases hlast : pool.last_token_set with
  | none =>
      rw [hlast] at hlen
      exact or_insert_spec h ptr hlen
  | some last =>
      obtain ⟨last_ptr, last_id⟩ := last
      simp only [hlast] at hlen ⊢
      split_ifs at hlen ⊢ with heq
      · subst heq
        obtain ⟨hmax, hget⟩ := h.last _ _ hlast
        exact ⟨h, hmax, hget⟩
      · exact or_insert_spec h ptr hlen

theorem intern_entries_grows (entries : List (Run TokenSet × ℕ)) (pool : TokenPool) :
    pool.token_sets <+: (intern_entries entries pool).2.token_sets := by
  induction entries generalizing pool with
  | nil => exact List.prefix_rfl
  | cons e entries ih => exact (intern_grows pool e.2 e.1.val).trans (ih _)

theorem intern_entries_spec {entries : List (Run TokenSet × ℕ)} (h : Pooled heap pool)
    (hheap : ∀ e ∈ entries, heap e.2 = e.1.val)
    (hlen : (intern_entries entries pool).2.token_sets.length ≤ u32Max) :
    Pooled heap (intern_entries entries pool).2 ∧
      List.Forall₂ (Indexes (intern_entries entries pool).2.token_sets)
        (intern_entries entries pool).1 (entries.map Prod.fst) := by
  induction entries generalizing pool with
  | nil => exact ⟨h, List.Forall₂.nil⟩
  | cons e entries ih =>
      have hhead := hheap e List.mem_cons_self
      have hgrows := intern_entries_grows entries (pool.intern e.2 e.1.val).2
      have hspec := intern_spec h e.2 (by
        rw [hhead]
        exact hgrows.length_le.trans hlen)
      rw [hhead] at hspec
      obtain ⟨hpooled, hids⟩ := ih hspec.pooled
        (fun e' he' => hheap e' (List.mem_cons_of_mem _ he')) hlen
      refine ⟨hpooled, List.Forall₂.cons ⟨rfl, rfl, hspec.bounded, ?_⟩ hids⟩
      rw [← hhead]
      exact getElem?_of_grows hgrows (hhead ▸ hspec.get)

end Interning

/-! ## Packed weights -/

section Packing

variable {heap : ℕ → TokenSet}

theorem length_le_put_runs {V : Type} (item : V → List UInt8) (prev : ℕ) (runs : List (Run V)) :
    runs.length ≤ (put_runs item prev runs).length := by
  induction runs generalizing prev with
  | nil => exact le_rfl
  | cons run runs ih =>
      have hpos := List.length_pos_iff.mpr (putVar_ne_nil (run.lo - prev))
      have htail := ih (run.hi + 1)
      simp only [put_runs, List.length_append, List.length_cons]
      omega

theorem Encodes.mono {token_sets token_sets' : List TokenSet} {body : List UInt8}
    {map : WeightMap} (h : Encodes token_sets body map) (hgrows : token_sets <+: token_sets') :
    Encodes token_sets' body map := by
  cases h with
  | full => exact Encodes.full
  | entries hfull hlen hids =>
      refine Encodes.entries hfull hlen (hids.imp fun id run h => ?_)
      exact ⟨h.1, h.2.1, h.2.2.1, getElem?_of_grows hgrows h.2.2.2⟩

theorem put_weight_grows (weight : SharedWeight heap) (pool : TokenPool) :
    pool.token_sets <+: (put_weight weight pool).2.token_sets := by
  unfold put_weight
  split_ifs
  · exact List.prefix_rfl
  · exact intern_entries_grows _ pool

theorem put_weight_spec {weight : SharedWeight heap} {pool : TokenPool} (h : Pooled heap pool)
    (hlen : (put_weight weight pool).2.token_sets.length ≤ u32Max)
    (hbody : (put_weight weight pool).1.length ≤ u32Max) :
    Pooled heap (put_weight weight pool).2 ∧
      Encodes (put_weight weight pool).2.token_sets (put_weight weight pool).1 weight.map := by
  unfold put_weight at hlen hbody ⊢
  split_ifs at hlen hbody ⊢ with hfull
  · refine ⟨h, ?_⟩
    rw [Weight.isFullMap_iff.mp hfull]
    exact Encodes.full
  · have hzip : weight.map.runs.length = weight.addresses.length ∧
        ∀ {run ptr}, (run, ptr) ∈ weight.map.runs.zip weight.addresses → heap ptr = run.val := by
      apply List.forall₂_iff_zip.mp
      have hsame := weight.stored
      rw [← List.forall₂_eq_eq_eq, List.forall₂_map_left_iff, List.forall₂_map_right_iff] at hsame
      exact hsame.flip
    obtain ⟨hpooled, hids⟩ := intern_entries_spec h (fun e he => hzip.2 he) hlen
    rw [List.map_fst_zip hzip.1.le] at hids
    have hcount : weight.map.runs.length ≤ u32Max := by
      have hruns := length_le_put_runs putVar 0
        (intern_entries (weight.map.runs.zip weight.addresses) pool).1
      simp only [List.length_cons, List.length_append] at hbody
      rw [hids.length_eq] at hruns
      omega
    refine ⟨hpooled, ?_⟩
    rw [asU32_of_le hcount]
    exact Encodes.entries (by simpa using hfull) hcount hids

theorem put_weights_grows (weights : List (SharedWeight heap)) (pool : TokenPool) :
    pool.token_sets <+: (put_weights weights pool).2.token_sets := by
  induction weights generalizing pool with
  | nil => exact List.prefix_rfl
  | cons weight weights ih => exact (put_weight_grows weight pool).trans (ih _)

theorem put_weights_spec {weights : List (SharedWeight heap)} {pool : TokenPool}
    (h : Pooled heap pool) (hlen : (put_weights weights pool).2.token_sets.length ≤ u32Max)
    (hbodies : ∀ body ∈ (put_weights weights pool).1, body.length ≤ u32Max) :
    List.Forall₂ (Encodes (put_weights weights pool).2.token_sets) (put_weights weights pool).1
      (weights.map SharedWeight.map) := by
  induction weights generalizing pool with
  | nil => exact List.Forall₂.nil
  | cons weight weights ih =>
      have hgrows := put_weights_grows weights (put_weight weight pool).2
      obtain ⟨hpooled, hencodes⟩ := put_weight_spec h (hgrows.length_le.trans hlen)
        (hbodies _ List.mem_cons_self)
      exact List.Forall₂.cons (hencodes.mono hgrows)
        (ih hpooled hlen fun body hbody => hbodies body (List.mem_cons_of_mem _ hbody))

/-- Bytes that store weights, with everything counted in a `u32`. -/
structure Stores (bytes : List UInt8) (token_sets : List TokenSet) (bodies : List (List UInt8))
    (maps : List WeightMap) : Prop where
  bytes_eq : bytes = put_pool (token_sets.map put_token_set) bodies
  encodes : List.Forall₂ (Encodes token_sets) bodies maps
  token_count : token_sets.length ≤ u32Max
  weight_count : bodies.length ≤ u32Max
  token_bodies : ∀ tokens ∈ token_sets, (put_token_set tokens).length ≤ u32Max
  weight_bodies : ∀ body ∈ bodies, body.length ≤ u32Max

theorem length_le_bodyBytes {bodies : List (List UInt8)} {body : List UInt8}
    (h : body ∈ bodies) : body.length ≤ bodyBytes bodies :=
  List.single_le_sum (fun _ _ => Nat.zero_le _) _ (List.mem_map_of_mem h)

theorem count_le_bodyBytes {bodies : List (List UInt8)} (h : ∀ body ∈ bodies, body ≠ []) :
    bodies.length ≤ bodyBytes bodies := by
  induction bodies with
  | nil => exact le_rfl
  | cons body bodies ih =>
      have hpos := List.length_pos_iff.mpr (h body List.mem_cons_self)
      have htail := ih fun b hb => h b (List.mem_cons_of_mem _ hb)
      simp only [bodyBytes, List.map_cons, List.sum_cons, List.length_cons] at htail ⊢
      omega

theorem put_weights_ne_nil (weights : List (SharedWeight heap)) (pool : TokenPool) :
    ∀ body ∈ (put_weights weights pool).1, body ≠ [] := by
  induction weights generalizing pool with
  | nil => simp [put_weights]
  | cons weight weights ih =>
      intro body hbody
      rcases List.mem_cons.mp hbody with rfl | hbody
      · unfold put_weight
        split_ifs <;> simp
      · exact ih _ body hbody

/-- Packing that does not panic stores the weights. -/
theorem pack_stores {weights : List (SharedWeight heap)} {bytes : List UInt8}
    (h : pack_pooled_weights weights = .ok bytes) :
    ∃ token_sets bodies, Stores bytes token_sets bodies (weights.map SharedWeight.map) := by
  simp only [pack_pooled_weights] at h
  split_ifs at h with hweights htokens
  have htoken_ne : ∀ body ∈ (put_weights weights TokenPool.new).2.token_sets.map put_token_set,
      body ≠ [] := by
    intro body hbody
    obtain ⟨tokens, -, rfl⟩ := List.mem_map.mp hbody
    simp [put_token_set, putVar_ne_nil]
  have htoken_count := count_le_bodyBytes htoken_ne
  rw [List.length_map] at htoken_count
  have hbodies : ∀ body ∈ (put_weights weights TokenPool.new).1, body.length ≤ u32Max :=
    fun body hbody => (length_le_bodyBytes hbody).trans (by omega)
  have hcount := count_le_bodyBytes (put_weights_ne_nil weights TokenPool.new)
  refine ⟨_, _, (Except.ok.inj h).symm, put_weights_spec pooled_new (by omega) hbodies, by omega,
    by omega, fun tokens htokens => ?_, hbodies⟩
  exact (length_le_bodyBytes (List.mem_map_of_mem htokens)).trans (by omega)

end Packing

/-! ## Unpacking -/

section Unpacking

variable {bytes : List UInt8} {token_sets : List TokenSet} {bodies : List (List UInt8)}
  {maps : List WeightMap}

/-- The sections of a pool, each where it stands. -/
structure Sections (bytes : List UInt8) (token_sets : List TokenSet)
    (bodies : List (List UInt8)) (token_pos weight_pos : ℕ) : Prop where
  token_count : take_var_u32 bytes 4 = .ok (token_sets.length, token_pos)
  token_bodies : At bytes (put_bodies (token_sets.map put_token_set)) token_pos
  weight_count : take_var_u32 bytes (token_pos + (put_bodies (token_sets.map put_token_set)).length)
    = .ok (bodies.length, weight_pos)
  weight_bodies : At bytes (put_bodies bodies) weight_pos
  stop : weight_pos + (put_bodies bodies).length = bytes.length

theorem Stores.header (h : Stores bytes token_sets bodies maps) : wpl3 <+: bytes := by
  rw [h.bytes_eq]
  exact List.prefix_append _ _

theorem Stores.sections (h : Stores bytes token_sets bodies maps) :
    ∃ token_pos weight_pos, Sections bytes token_sets bodies token_pos weight_pos := by
  have hat : At bytes bytes 0 := at_self bytes
  nth_rewrite 2 [h.bytes_eq] at hat
  have hlen := congrArg List.length h.bytes_eq
  rw [put_pool, List.length_map, asU32_of_le h.token_count, asU32_of_le h.weight_count] at hat hlen
  obtain ⟨-, hrest⟩ := at_append.mp hat
  obtain ⟨htoken_count, hrest⟩ := at_append.mp hrest
  obtain ⟨htokens, hrest⟩ := at_append.mp hrest
  obtain ⟨hweight_count, hweights⟩ := at_append.mp hrest
  refine ⟨_, _, reads_u32 bytes (Nat.lt_succ_of_le h.token_count) _ htoken_count, htokens,
    reads_u32 bytes (Nat.lt_succ_of_le h.weight_count) _ hweight_count, hweights, ?_⟩
  have hheader : wpl3.length = 4 := rfl
  simp only [List.length_append] at hlen
  omega

theorem Stores.token_body_le (h : Stores bytes token_sets bodies maps) :
    ∀ body ∈ token_sets.map put_token_set, body.length ≤ u32Max := by
  intro body hbody
  obtain ⟨tokens, htokens, rfl⟩ := List.mem_map.mp hbody
  exact h.token_bodies tokens htokens

theorem ranges_le_body (tokens : TokenSet) :
    tokens.runs.length ≤ (put_token_set tokens).length := by
  have hruns := length_le_put_runs (fun _ : Unit => []) 0 tokens.runs
  rw [put_token_set, List.length_append]
  omega

theorem Stores.unpack (h : Stores bytes token_sets bodies maps) :
    unpack_pooled_weights bytes = .ok maps := by
  obtain ⟨token_pos, weight_pos, hs⟩ := h.sections
  have htoken_sets : (token_sets.map put_token_set).mapM decode_pooled_token_set_v2 =
      .ok token_sets := by
    apply mapM_ok
    rw [List.forall₂_map_left_iff, List.forall₂_same]
    intro tokens htokens
    exact decode_token_set tokens ((ranges_le_body tokens).trans (h.token_bodies tokens htokens))
  have hpool : take_pool_v3 bytes 4 = .ok ((token_sets, bodies), bytes.length) := by
    have htokens := reads_slices bytes "Weight-pool token set" h.token_body_le _ hs.token_bodies
    have hweights := reads_slices bytes "Weight-pool weight" h.weight_bodies _ hs.weight_bodies
    rw [List.length_map] at htokens
    rw [take_pool_v3, bind_ok hs.token_count, bind_ok htokens, htoken_sets,
      bind_ok (lift_ok token_sets _), bind_ok hs.weight_count, bind_ok hweights, hs.stop, bind_ok expect_end_ok]
    rfl
  rw [unpack_pooled_weights, if_pos h.header, unpack_pooled_weights_v3, hpool]
  exact mapM_ok (h.encodes.imp fun _ _ hbody => decode_weight hbody)

end Unpacking

end WeightPool

end GlrMask
