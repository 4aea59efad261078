import GlrMask.ByteReader
import GlrMask.Weight

/-!
# Packed pools of weights

A pool stores each shared token set once, and each weight as a framed body of
tsid ranges with indices of token sets. It is unpacked eagerly, or read in place
by a runtime pool that keeps the bytes and the places of the bodies.

A weight is given by its stored range map. Token sets are shared by address; the
heap says which token set stands at an address.
-/

namespace GlrMask

namespace WeightPool

/-- What an operation ends with when it does not return: an error value or a panic. -/
inductive Failure
  | error (message : String)
  | panic (message : String)
deriving DecidableEq

def asU32 (n : ℕ) : ℕ := n % 2 ^ 32

/-! ## Packing -/

/-- A weight with the address of the token set of each entry. -/
structure SharedWeight (heap : ℕ → TokenSet) where
  map : WeightMap
  addresses : List ℕ
  stored : addresses.map heap = map.runs.map Run.val

structure TokenPool where
  token_set_by_ptr : List (ℕ × ℕ)
  token_sets : List TokenSet
  last_token_set : Option (ℕ × ℕ)

namespace TokenPool

def new : TokenPool := ⟨[], [], none⟩

/-- The index of an address, which is given the next one if it has none yet. -/
def or_insert (pool : TokenPool) (ptr : ℕ) (tokens : TokenSet) : ℕ × TokenPool :=
  match pool.token_set_by_ptr.lookup ptr with
  | some id => (id, { pool with last_token_set := some (ptr, id) })
  | none =>
      let next_index := asU32 pool.token_sets.length
      (next_index, ⟨(ptr, next_index) :: pool.token_set_by_ptr, pool.token_sets ++ [tokens],
        some (ptr, next_index)⟩)

def intern (pool : TokenPool) (ptr : ℕ) (tokens : TokenSet) : ℕ × TokenPool :=
  match pool.last_token_set with
  | some (last_ptr, last_id) =>
      if last_ptr = ptr then (last_id, pool) else pool.or_insert ptr tokens
  | none => pool.or_insert ptr tokens

end TokenPool

/-- The entries of a weight with the indices of their token sets. -/
def intern_entries : List (Run TokenSet × ℕ) → TokenPool → List (Run ℕ) × TokenPool
  | [], pool => ([], pool)
  | (run, ptr) :: entries, pool =>
      let interned := pool.intern ptr run.val
      let rest := intern_entries entries interned.2
      (⟨run.lo, run.hi, interned.1⟩ :: rest.1, rest.2)

/-- Runs as gaps and lengths, each followed by its item. -/
def put_runs {V : Type} (item : V → List UInt8) : ℕ → List (Run V) → List UInt8
  | _, [] => []
  | previous_end_plus_one, run :: runs =>
      putVar (run.lo - previous_end_plus_one) ++ (putVar (run.hi - run.lo) ++
        (item run.val ++ put_runs item (run.hi + 1) runs))

def put_weight {heap : ℕ → TokenSet} (weight : SharedWeight heap) (pool : TokenPool) :
    List UInt8 × TokenPool :=
  if Weight.isFullMap weight.map then ([1], pool)
  else
    let entries := intern_entries (weight.map.runs.zip weight.addresses) pool
    (0 :: (putVar (asU32 weight.map.runs.length) ++ put_runs putVar 0 entries.1), entries.2)

def put_weights {heap : ℕ → TokenSet} : List (SharedWeight heap) → TokenPool →
    List (List UInt8) × TokenPool
  | [], pool => ([], pool)
  | weight :: weights, pool =>
      let body := put_weight weight pool
      let rest := put_weights weights body.2
      (body.1 :: rest.1, rest.2)

def put_token_set (tokens : TokenSet) : List UInt8 :=
  putVar (asU32 tokens.runs.length) ++ put_runs (fun _ => []) 0 tokens.runs

/-- Bodies, each behind its length. -/
def put_bodies (bodies : List (List UInt8)) : List UInt8 :=
  bodies.flatMap fun body => putVar (asU32 body.length) ++ body

def bodyBytes (bodies : List (List UInt8)) : ℕ := (bodies.map List.length).sum

/-- `b"WPL3"`, and the headers of the two formats before it. -/
def wpl3 : List UInt8 := [0x57, 0x50, 0x4c, 0x33]

def wpl2 : List UInt8 := [0x57, 0x50, 0x4c, 0x32]

def wpl1 : List UInt8 := [0x57, 0x50, 0x4c, 0x31]

def put_pool (token_bodies weight_bodies : List (List UInt8)) : List UInt8 :=
  wpl3 ++ (putVar (asU32 token_bodies.length) ++ (put_bodies token_bodies ++
    (putVar (asU32 weight_bodies.length) ++ put_bodies weight_bodies)))

def pack_pooled_weights {heap : ℕ → TokenSet} (weights : List (SharedWeight heap)) :
    Except Failure (List UInt8) :=
  let packed := put_weights weights TokenPool.new
  let token_bodies := packed.2.token_sets.map put_token_set
  if u32Max < bodyBytes packed.1 then
    .error (.panic "packed Weight-pool bodies must fit the WPL3 u32 length domain")
  else if u32Max < bodyBytes token_bodies then
    .error (.panic "packed Weight-pool token-set bodies must fit u32")
  else .ok (put_pool token_bodies packed.1)

/-! ## Reading numbers, ranges and bodies -/

def take_var_u32 (input : List UInt8) : Cursor Failure ℕ :=
  takeVar input (.error "truncated packed Weight-pool varint")
    (.error "overflowing packed Weight-pool u32 varint") 0x0f 5 0 0

def take_var_u64 (input : List UInt8) : Cursor Failure ℕ :=
  takeVar input (.error "truncated packed Weight-pool varint")
    (.error "overflowing packed Weight-pool u64 varint") 0x01 10 0 0

/-- What is said of a range whose start, or whose end, is out of range. -/
structure RangeErrors where
  range : String
  start : String
  stop : String

def token_set_errors : RangeErrors :=
  ⟨"overflowing packed token-set range", "overflowing packed token-set start",
    "overflowing packed token-set end"⟩

def weight_errors : RangeErrors :=
  ⟨"overflowing packed weight range", "overflowing packed weight start",
    "overflowing packed weight end"⟩

def geometry_errors : RangeErrors :=
  ⟨"overflowing packed weight geometry", "overflowing packed weight geometry start",
    "overflowing packed weight geometry end"⟩

/-- A range behind another one, with the item that follows it. -/
def take_run {V : Type} (input : List UInt8) (errors : RangeErrors) (item : Cursor Failure V)
    (previous_end_plus_one : ℕ) : Cursor Failure (Run V) := do
  let gap ← take_var_u64 input
  let start := previous_end_plus_one + gap
  if 2 ^ 64 ≤ start then throw (.error errors.range)
  else if 2 ^ 32 ≤ start then throw (.error errors.start)
  else do
    let len ← take_var_u32 input
    let stop := start + len
    if 2 ^ 32 ≤ stop then throw (.error errors.stop)
    else do
      let val ← item
      pure ⟨start, stop, val⟩

def take_runs {V : Type} (input : List UInt8) (errors : RangeErrors) (item : Cursor Failure V) :
    ℕ → ℕ → Cursor Failure (List (Run V))
  | 0, _ => pure []
  | count + 1, previous_end_plus_one => do
      let run ← take_run input errors item previous_end_plus_one
      let runs ← take_runs input errors item count (run.hi + 1)
      pure (run :: runs)

def expect_end (input : List UInt8) (message : String) : Cursor Failure Unit := fun pos =>
  if pos = input.length then .ok ((), pos) else .error (.error message)

instance {V : Type} [DecidableEq V] (r s : Run V) : Decidable (r.Before s) :=
  inferInstanceAs (Decidable (_ ∧ (_ → _)))

instance {V : Type} [DecidableEq V] (runs : List (Run V)) : Decidable (Canonical runs) :=
  inferInstanceAs (Decidable (_ ∧ _))

/-- Sorted and disjoint runs as a map. Other runs are a panic. -/
def from_sorted_disjoint {V : Type} [DecidableEq V] (runs : List (Run V)) :
    Except Failure (RangeMap u32Max V) :=
  if h : Canonical runs ∧ ∀ r ∈ runs, r.hi ≤ u32Max then .ok ⟨runs, h.1, h.2⟩
  else .error (.panic "ranges must be sorted and disjoint")

/-- The bytes from a place on, as many as its length says. -/
def slice (wire : List UInt8) (start len : ℕ) : Option (List UInt8) :=
  if start + len ≤ wire.length then some ((wire.drop start).take len) else none

/-- A length and as many bytes, with the place where they start. -/
def take_span (input : List UInt8) (label : String) : Cursor Failure (ℕ × List UInt8) := do
  let len ← take_var_u32 input
  fun pos =>
    match slice input pos len with
    | some body => .ok ((pos, body), pos + len)
    | none => .error (.error s!"truncated packed {label}")

def take_length_prefixed_slices (input : List UInt8) (label : String) :
    ℕ → Cursor Failure (List (List UInt8))
  | 0 => pure []
  | count + 1 => do
      let span ← take_span input label
      let bodies ← take_length_prefixed_slices input label count
      pure (span.2 :: bodies)

/-! ## Unpacking -/

def take_token_ranges (input : List UInt8) : Cursor Failure (List (Run Unit)) := do
  let range_count ← take_var_u32 input
  take_runs input token_set_errors (pure ()) range_count 0

def decode_pooled_token_set_v2 (body : List UInt8) : Except Failure TokenSet := do
  let decoded ← (do
    let runs ← take_token_ranges body
    expect_end body "trailing bytes in packed token set"
    pure runs : Cursor Failure (List (Run Unit))) 0
  from_sorted_disjoint decoded.1

def take_token_set (input : List UInt8) (token_sets : List TokenSet) :
    Cursor Failure TokenSet := do
  let token_set_idx ← take_var_u32 input
  match token_sets[token_set_idx]? with
  | some tokens => pure tokens
  | none => throw (.error "invalid packed Weight-pool token-set index")

/-- The tag of a weight, and what follows it unless the weight is full. -/
def take_tagged (input : List UInt8) (full : Cursor Failure (List (Run TokenSet)))
    (entries : Cursor Failure (List (Run TokenSet))) : Cursor Failure (List (Run TokenSet)) := do
  let tag ← takeByte input (.error "truncated packed Weight-pool tag")
  if tag = 1 then full
  else if tag = 0 then entries
  else throw (.error "invalid packed Weight-pool tag")

/-- The rest of a body that is a full weight. -/
def take_full (body : List UInt8) : Cursor Failure (List (Run TokenSet)) := do
  expect_end body "trailing bytes in packed full weight"
  pure allMap.runs

def take_entries_v3 (body : List UInt8) (token_sets : List TokenSet) :
    Cursor Failure (List (Run TokenSet)) := do
  let entry_count ← take_var_u32 body
  if entry_count = 0 then do
    expect_end body "trailing bytes in packed empty weight"
    pure []
  else do
    let runs ← take_runs body weight_errors (take_token_set body token_sets) entry_count 0
    expect_end body "trailing bytes in packed weight"
    pure runs

def decode_pooled_weight_v3 (token_sets : List TokenSet) (body : List UInt8) :
    Except Failure WeightMap := do
  let decoded ← take_tagged body (take_full body) (take_entries_v3 body token_sets) 0
  from_sorted_disjoint decoded.1

/-- The bodies of the token sets and of the weights. -/
def take_pool_v3 (input : List UInt8) : Cursor Failure (List TokenSet × List (List UInt8)) := do
  let token_set_count ← take_var_u32 input
  let token_bodies ← take_length_prefixed_slices input "Weight-pool token set" token_set_count
  let token_sets ← (token_bodies.mapM decode_pooled_token_set_v2 : Except Failure (List TokenSet))
  let weight_count ← take_var_u32 input
  let weight_bodies ← take_length_prefixed_slices input "Weight-pool weight" weight_count
  expect_end input "trailing bytes in packed Weight pool"
  pure (token_sets, weight_bodies)

def unpack_pooled_weights_v3 (input : List UInt8) : Except Failure (List WeightMap) := do
  let pool ← take_pool_v3 input 4
  pool.1.2.mapM (decode_pooled_weight_v3 pool.1.1)

/-! ### The formats before -/

def decode_pooled_geometry_v2 (body : List UInt8) : Except Failure (List (Run Unit)) := do
  let decoded ← (do
    let count ← take_var_u32 body
    let ranges ← take_runs body geometry_errors (pure ()) count 0
    expect_end body "trailing bytes in packed weight geometry"
    pure ranges : Cursor Failure (List (Run Unit))) 0
  pure decoded.1

def take_entries_v2 (body : List UInt8) (token_sets : List TokenSet)
    (geometries : List (List (Run Unit))) : Cursor Failure (List (Run TokenSet)) := do
  let geometry_index ← take_var_u32 body
  match geometries[geometry_index]? with
  | none => throw (.error "invalid packed Weight-pool geometry index")
  | some [] => do
      expect_end body "trailing bytes in packed empty weight"
      pure []
  | some geometry => do
      let runs ← geometry.mapM fun range => do
        let tokens ← take_token_set body token_sets
        pure (⟨range.lo, range.hi, tokens⟩ : Run TokenSet)
      expect_end body "trailing bytes in packed weight"
      pure runs

def decode_pooled_weight_v2 (token_sets : List TokenSet) (geometries : List (List (Run Unit)))
    (body : List UInt8) : Except Failure WeightMap := do
  let decoded ← take_tagged body (take_full body) (take_entries_v2 body token_sets geometries) 0
  from_sorted_disjoint decoded.1

def unpack_pooled_weights_v2 (input : List UInt8) : Except Failure (List WeightMap) := do
  let pool ← (do
    let token_set_count ← take_var_u32 input
    let token_bodies ← take_length_prefixed_slices input "Weight-pool token set" token_set_count
    let token_sets ← (token_bodies.mapM decode_pooled_token_set_v2 : Except Failure (List TokenSet))
    let geometry_count ← take_var_u32 input
    let geometry_bodies ← take_length_prefixed_slices input "Weight-pool geometry" geometry_count
    let geometries ← (geometry_bodies.mapM decode_pooled_geometry_v2 : Except Failure _)
    let weight_count ← take_var_u32 input
    let weight_bodies ← take_length_prefixed_slices input "Weight-pool weight" weight_count
    expect_end input "trailing bytes in packed Weight pool"
    pure (weight_bodies.mapM (decode_pooled_weight_v2 token_sets geometries)) :
      Cursor Failure (Except Failure (List WeightMap))) 4
  pool.1

/-- As often as a count says. -/
def take_each {V : Type} (item : Cursor Failure V) : ℕ → Cursor Failure (List V)
  | 0 => pure []
  | count + 1 => do
      let val ← item
      let vals ← take_each item count
      pure (val :: vals)

def take_weight_v1 (input : List UInt8) (token_sets : List TokenSet) :
    Cursor Failure WeightMap := do
  let runs ← take_tagged input (pure allMap.runs) (do
    let entry_count ← take_var_u32 input
    take_runs input weight_errors (take_token_set input token_sets) entry_count 0)
  (from_sorted_disjoint runs : Except Failure WeightMap)

def unpack_pooled_weights_v1 (input : List UInt8) : Except Failure (List WeightMap) :=
  if ¬ wpl1 <+: input then .error (.error "invalid packed Weight-pool header")
  else do
    let pool ← (do
      let token_set_count ← take_var_u32 input
      let token_sets ← take_each (do
        let runs ← take_token_ranges input
        (from_sorted_disjoint runs : Except Failure TokenSet)) token_set_count
      let weight_count ← take_var_u32 input
      let weights ← take_each (take_weight_v1 input token_sets) weight_count
      expect_end input "trailing bytes in packed Weight pool"
      pure weights : Cursor Failure (List WeightMap)) 4
    pure pool.1

def unpack_pooled_weights (input : List UInt8) : Except Failure (List WeightMap) :=
  if wpl3 <+: input then unpack_pooled_weights_v3 input
  else if wpl2 <+: input then unpack_pooled_weights_v2 input
  else unpack_pooled_weights_v1 input

/-! ## The runtime pool -/

structure PackedRuntimeWeightSpan where
  body_start : ℕ
  body_len : ℕ
  entry_count : ℕ
  full : Bool

structure PackedRuntimeWeightPool where
  wire : List UInt8
  token_spans : List (ℕ × ℕ)
  weight_spans : List PackedRuntimeWeightSpan

def checkU32 (n : ℕ) (message : String) : Cursor Failure Unit :=
  if 2 ^ 32 ≤ n then throw (.error message) else pure ()

def take_token_span (input : List UInt8) : Cursor Failure (ℕ × ℕ) := do
  let span ← take_span input "Weight-pool token set"
  checkU32 span.1 "packed Weight-pool offset exceeds u32"
  checkU32 span.2.length "packed Weight-pool length exceeds u32"
  pure (span.1, span.2.length)

/-- Whether a body is a full weight, and its number of entries. -/
def span_header (body : List UInt8) : Except Failure (Bool × ℕ) :=
  match body with
  | [] => .error (.error "truncated packed Weight-pool tag")
  | tag :: rest =>
      if tag = 1 then
        if rest ≠ [] then .error (.error "trailing bytes in packed full weight")
        else .ok (true, 0)
      else if tag = 0 then do
        let count ← take_var_u32 body 1
        pure (false, count.1)
      else .error (.error "invalid packed Weight-pool tag")

def take_weight_span (input : List UInt8) : Cursor Failure PackedRuntimeWeightSpan := do
  let span ← take_span input "Weight-pool weight"
  let header ← (span_header span.2 : Except Failure (Bool × ℕ))
  checkU32 span.1 "packed Weight-pool offset exceeds u32"
  checkU32 span.2.length "packed Weight-pool length exceeds u32"
  pure ⟨span.1, span.2.length, header.2, header.1⟩

def take_runtime_pool (input : List UInt8) : Cursor Failure PackedRuntimeWeightPool := do
  let token_set_count ← take_var_u32 input
  let token_spans ← take_each (take_token_span input) token_set_count
  let weight_count ← take_var_u32 input
  let weight_spans ← take_each (take_weight_span input) weight_count
  expect_end input "trailing bytes in packed Weight pool"
  pure ⟨input, token_spans, weight_spans⟩

structure PackedRuntimePoolTokenSetRef where
  id : ℕ
  body : List UInt8

/-- The runs a count announces, up to the first that cannot be read. -/
def visit_runs {V : Type} (input : List UInt8) (errors : RangeErrors) (item : Cursor Failure V) :
    ℕ → ℕ → ℕ → List (Run V)
  | 0, _, _ => []
  | count + 1, previous_end_plus_one, pos =>
      match take_run input errors item previous_end_plus_one pos with
      | .ok (run, pos) => run :: visit_runs input errors item count (run.hi + 1) pos
      | .error _ => []

namespace PackedRuntimePoolTokenSetRef

def range_count (self : PackedRuntimePoolTokenSetRef) : ℕ :=
  match take_var_u32 self.body 0 with
  | .ok (count, _) => count
  | .error _ => 0

def is_empty (self : PackedRuntimePoolTokenSetRef) : Bool := self.range_count = 0

/-- The ranges that are visited, in order. -/
def for_each_range (self : PackedRuntimePoolTokenSetRef) : List (ℕ × ℕ) :=
  match take_var_u32 self.body 0 with
  | .ok (range_count, pos) =>
      (visit_runs self.body token_set_errors (pure ()) range_count 0 pos).map
        fun run => (run.lo, run.hi)
  | .error _ => []

end PackedRuntimePoolTokenSetRef

namespace PackedRuntimeWeightPool

def from_packed_bytes (input : List UInt8) : Except Failure PackedRuntimeWeightPool :=
  if ¬ wpl3 <+: input then .error (.error "packed runtime Weight pool requires WPL3")
  else do
    let pool ← take_runtime_pool input 4
    pure pool.1

def weight_count (self : PackedRuntimeWeightPool) : ℕ := self.weight_spans.length

def token_set (self : PackedRuntimeWeightPool) (id : ℕ) : Option PackedRuntimePoolTokenSetRef := do
  let span ← self.token_spans[id]?
  let body ← slice self.wire span.1 span.2
  pure ⟨id, body⟩

end PackedRuntimeWeightPool

/-- A weight of a pool. -/
structure PackedRuntimePoolWeightRef where
  pool : PackedRuntimeWeightPool
  id : ℕ
  inPool : id < pool.weight_spans.length

def PackedRuntimeWeightPool.weight (self : PackedRuntimeWeightPool) (id : ℕ) :
    Option PackedRuntimePoolWeightRef :=
  if h : id < self.weight_spans.length then some ⟨self, id, h⟩ else none

/-- An entry of a weight with the token set it refers to. -/
def take_pool_token_set (pool : PackedRuntimeWeightPool) (body : List UInt8) :
    Cursor Failure PackedRuntimePoolTokenSetRef := do
  let token_set ← take_var_u32 body
  match pool.token_set token_set with
  | some tokens => pure tokens
  | none => throw (.error "")

/-- The token set of the run that covers a tsid; the search ends behind the tsid. -/
def find_token_set (pool : PackedRuntimeWeightPool) (body : List UInt8) (tsid : ℕ) :
    ℕ → ℕ → ℕ → Option PackedRuntimePoolTokenSetRef
  | 0, _, _ => none
  | count + 1, previous_end_plus_one, pos =>
      match take_run body weight_errors (take_var_u32 body) previous_end_plus_one pos with
      | .error _ => none
      | .ok (run, pos) =>
          if tsid < run.lo then none
          else if tsid ≤ run.hi then pool.token_set run.val
          else find_token_set pool body tsid count (run.hi + 1) pos

namespace PackedRuntimePoolWeightRef

def span (self : PackedRuntimePoolWeightRef) : PackedRuntimeWeightSpan :=
  self.pool.weight_spans.get ⟨self.id, self.inPool⟩

def is_full (self : PackedRuntimePoolWeightRef) : Bool := self.span.full

def entry_count (self : PackedRuntimePoolWeightRef) : ℕ := self.span.entry_count

def is_empty (self : PackedRuntimePoolWeightRef) : Bool :=
  !self.span.full && self.span.entry_count = 0

def token_set_for_tsid (self : PackedRuntimePoolWeightRef) (tsid : ℕ) :
    Option PackedRuntimePoolTokenSetRef :=
  if self.span.full then none
  else
    match slice self.pool.wire self.span.body_start self.span.body_len with
    | none => none
    | some body =>
        match take_var_u32 body 1 with
        | .ok (entry_count, pos) => find_token_set self.pool body tsid entry_count 0 pos
        | .error _ => none

def entries (self : PackedRuntimePoolWeightRef) :
    List ((ℕ × ℕ) × PackedRuntimePoolTokenSetRef) :=
  if self.span.full then []
  else
    match slice self.pool.wire self.span.body_start self.span.body_len with
    | none => []
    | some body =>
        match take_var_u32 body 1 with
        | .ok (entry_count, pos) =>
            (visit_runs body weight_errors (take_pool_token_set self.pool body) entry_count 0
              pos).map fun run => ((run.lo, run.hi), run.val)
        | .error _ => []

end PackedRuntimePoolWeightRef

end WeightPool

end GlrMask
