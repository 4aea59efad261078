import Mathlib.Data.List.Nodup
import Mathlib.Data.Set.Basic
import Mathlib.Tactic

/-!
# Interned boundary weights

A boundary weight has one word of token bits for each tsid. The interner gives
every value one id, the empty value id 0 and the full value id 1. Under compile
limits it fails once for all; what it returns afterwards is discarded.
-/

namespace GlrMask

abbrev FastBoundaryWeightValue := List (BitVec 64)

def FAST_BOUNDARY_TSID_LIMIT : ℕ := 64

def usizeMax : ℕ := 2 ^ 64 - 1

structure FiniteCompileLimits where
  states : ℕ
  edges : ℕ
  weights : ℕ
  words : ℕ
  work : ℕ

/-- The memoised operations. -/
inductive WeightOp
  | intersection
  | union
  | difference
deriving DecidableEq

namespace WeightOp

def word : WeightOp → BitVec 64 → BitVec 64 → BitVec 64
  | intersection, a, b => a &&& b
  | union, a, b => a ||| b
  | difference, a, b => a &&& ~~~b

def apply (op : WeightOp) (left right : FastBoundaryWeightValue) : FastBoundaryWeightValue :=
  List.zipWith op.word left right

def points : WeightOp → Set (ℕ × ℕ) → Set (ℕ × ℕ) → Set (ℕ × ℕ)
  | intersection, s, t => s ∩ t
  | union, s, t => s ∪ t
  | difference, s, t => s \ t

end WeightOp

structure FastBoundaryWeightInterner where
  limits : Option FiniteCompileLimits
  failed : Bool
  work : ℕ
  values : List FastBoundaryWeightValue
  ids : List (FastBoundaryWeightValue × ℕ)
  memo : WeightOp → List ((ℕ × ℕ) × ℕ)
  tsid_count : ℕ
  token_count : ℕ
  all_token_mask : BitVec 64

/-- The word with one bit for every token. -/
def tokenMask (token_count : ℕ) : BitVec 64 :=
  if token_count = 64 then BitVec.allOnes 64 else (1#64 <<< token_count) - 1#64

namespace FastBoundaryWeightInterner

def new (tsid_count token_count : ℕ) : Option FastBoundaryWeightInterner :=
  if tsid_count = 0 ∨ FAST_BOUNDARY_TSID_LIMIT < tsid_count ∨ token_count = 0 ∨ 64 < token_count then
    none
  else
    let all_token_mask := tokenMask token_count
    let empty := List.replicate tsid_count 0#64
    let all := List.replicate tsid_count all_token_mask
    some ⟨none, false, 0, [empty, all], [(all, 1), (empty, 0)], fun _ => [], tsid_count, token_count,
      all_token_mask⟩

/-- Whether the limits leave no room for another value. -/
def exhausted (self : FastBoundaryWeightInterner) : Bool :=
  match self.limits with
  | none => false
  | some limits => self.failed || limits.weights ≤ self.values.length ||
      limits.words < min ((self.values.length + 1) * self.tsid_count) usizeMax

def intern (self : FastBoundaryWeightInterner) (value : FastBoundaryWeightValue) :
    ℕ × FastBoundaryWeightInterner :=
  match self.ids.lookup value with
  | some id => (id, self)
  | none =>
      if self.exhausted then (0, { self with failed := true })
      else (self.values.length, { self with
        values := self.values ++ [value], ids := (value, self.values.length) :: self.ids })

def allow_work (self : FastBoundaryWeightInterner) (amount states edges : ℕ) :
    Bool × FastBoundaryWeightInterner :=
  match self.limits with
  | none => (!self.failed, self)
  | some limits =>
      let work := min (self.work + amount) usizeMax
      let failed := self.failed || limits.work < work || limits.states < states || limits.edges < edges
      (!failed, { self with work := work, failed := failed })

def value (self : FastBoundaryWeightInterner) (id : ℕ) : FastBoundaryWeightValue :=
  (self.values[id]?).getD []

/-- Compute a value once for each key, as long as the table has room for it. -/
def memoise (self : FastBoundaryWeightInterner) (op : WeightOp) (left right : ℕ) :
    ℕ × FastBoundaryWeightInterner :=
  match (self.memo op).lookup (left, right) with
  | some id => (id, self)
  | none =>
      let result := self.intern (op.apply (self.value left) (self.value right))
      if result.2.limits.isNone || (result.2.memo op).length < 262144 then
        (result.1, { result.2 with
          memo := Function.update result.2.memo op (((left, right), result.1) :: result.2.memo op) })
      else result

def intersection (self : FastBoundaryWeightInterner) (left right : ℕ) :
    ℕ × FastBoundaryWeightInterner :=
  if left = 0 ∨ right = 0 then (0, self)
  else if left = 1 then (right, self)
  else if right = 1 ∨ left = right then (left, self)
  else self.memoise .intersection (min left right) (max left right)

def union (self : FastBoundaryWeightInterner) (left right : ℕ) :
    ℕ × FastBoundaryWeightInterner :=
  if left = 0 then (right, self)
  else if right = 0 ∨ left = right then (left, self)
  else if left = 1 ∨ right = 1 then (1, self)
  else self.memoise .union (min left right) (max left right)

def difference (self : FastBoundaryWeightInterner) (left right : ℕ) :
    ℕ × FastBoundaryWeightInterner :=
  if left = 0 ∨ right = 1 ∨ left = right then (0, self)
  else if right = 0 then (left, self)
  else self.memoise .difference left right

/-! ## What an id means -/

/-- The tsids and tokens of a value. -/
def valuePoints (value : FastBoundaryWeightValue) : Set (ℕ × ℕ) :=
  {p | ∃ word, value[p.1]? = some word ∧ word.getLsbD p.2 = true}

def den (self : FastBoundaryWeightInterner) (id : ℕ) : Set (ℕ × ℕ) :=
  valuePoints (self.value id)

/-- The id of a stored value. -/
def Valid (self : FastBoundaryWeightInterner) (id : ℕ) : Prop :=
  id < self.values.length

/-- What every operation keeps: the values are distinct words under the mask, and an interner
that has not failed remembers exact results only. -/
structure Sound (interner : FastBoundaryWeightInterner) : Prop where
  length : ∀ value ∈ interner.values, value.length = interner.tsid_count
  masked : ∀ value ∈ interner.values, ∀ word ∈ value, word &&& interner.all_token_mask = word
  nodup : interner.values.Nodup
  ids : ∀ value id, interner.ids.lookup value = some id ↔ interner.values[id]? = some value
  empty : interner.values[0]? = some (List.replicate interner.tsid_count 0#64)
  all : interner.values[1]? = some (List.replicate interner.tsid_count interner.all_token_mask)
  memo : ∀ op left right id, (interner.memo op).lookup (left, right) = some id →
    interner.Valid left ∧ interner.Valid right ∧ interner.Valid id ∧ (interner.failed = false →
      interner.values[id]? = some (op.apply (interner.value left) (interner.value right)))

/-- A later state of an interner keeps the ids and never recovers from a failure. -/
structure Extends (before after : FastBoundaryWeightInterner) : Prop where
  values : before.values <+: after.values
  failed : after.failed = false → before.failed = false
  tsid_count : after.tsid_count = before.tsid_count

theorem Extends.refl (interner : FastBoundaryWeightInterner) : interner.Extends interner :=
  ⟨List.prefix_rfl, id, rfl⟩

theorem Extends.trans {i j k : FastBoundaryWeightInterner} (hij : i.Extends j)
    (hjk : j.Extends k) : i.Extends k :=
  ⟨hij.values.trans hjk.values, fun h => hij.failed (hjk.failed h),
    hjk.tsid_count.trans hij.tsid_count⟩

variable {self : FastBoundaryWeightInterner} {id left right : ℕ}

theorem Extends.valid {after : FastBoundaryWeightInterner} (h : self.Extends after)
    (hid : self.Valid id) : after.Valid id := hid.trans_le h.values.length_le

theorem Extends.value {after : FastBoundaryWeightInterner} (h : self.Extends after)
    (hid : self.Valid id) : after.value id = self.value id := by
  unfold FastBoundaryWeightInterner.value
  obtain ⟨rest, hrest⟩ := h.values
  rw [← hrest, List.getElem?_append_left hid]

theorem Extends.den {after : FastBoundaryWeightInterner} (h : self.Extends after)
    (hid : self.Valid id) : after.den id = self.den id := by
  unfold FastBoundaryWeightInterner.den
  rw [h.value hid]

theorem getElem?_value (h : self.Valid id) : self.values[id]? = some (self.value id) := by
  rw [value, List.getElem?_eq_getElem h]
  rfl

theorem valid_of_getElem? {value : FastBoundaryWeightValue} (h : self.values[id]? = some value) :
    self.Valid id ∧ self.value id = value := by
  refine ⟨(List.getElem?_eq_some_iff.mp h).1, ?_⟩
  rw [FastBoundaryWeightInterner.value, h]
  rfl

theorem Sound.length_value (h : self.Sound) (hid : self.Valid id) :
    (self.value id).length = self.tsid_count :=
  h.length _ (List.mem_of_getElem? (getElem?_value hid))

theorem Sound.valid_zero (h : self.Sound) : self.Valid 0 := (valid_of_getElem? h.empty).1

theorem Sound.valid_one (h : self.Sound) : self.Valid 1 := (valid_of_getElem? h.all).1

theorem Sound.den_zero (h : self.Sound) : self.den 0 = ∅ := by
  apply Set.eq_empty_of_forall_notMem
  rintro p ⟨word, hword, hbit⟩
  rw [(valid_of_getElem? h.empty).2, List.getElem?_replicate] at hword
  split_ifs at hword
  obtain rfl := Option.some.inj hword
  simp at hbit

theorem valuePoints_apply (op : WeightOp) {left right : FastBoundaryWeightValue}
    (h : left.length = right.length) :
    valuePoints (op.apply left right) = op.points (valuePoints left) (valuePoints right) := by
  ext p
  simp only [valuePoints, WeightOp.apply, Set.mem_ofPred_eq, List.getElem?_zipWith]
  by_cases hp : p.1 < left.length
  · rw [List.getElem?_eq_getElem hp, List.getElem?_eq_getElem (h ▸ hp)]
    cases op with
    | intersection => simp [WeightOp.points, WeightOp.word, List.getElem?_eq_getElem hp,
        List.getElem?_eq_getElem (h ▸ hp : p.1 < right.length)]
    | union => simp [WeightOp.points, WeightOp.word, List.getElem?_eq_getElem hp,
        List.getElem?_eq_getElem (h ▸ hp : p.1 < right.length)]
    | difference =>
        simp only [WeightOp.points, WeightOp.word, Option.some.injEq, exists_eq_left',
          BitVec.getLsbD_and, BitVec.getLsbD_not, Bool.and_eq_true, Bool.not_eq_true',
          decide_eq_true_eq, Set.mem_sdiff, Set.mem_ofPred_eq, List.getElem?_eq_getElem hp,
          List.getElem?_eq_getElem (h ▸ hp : p.1 < right.length), Bool.not_eq_true]
        constructor
        · rintro ⟨hl, -, hr⟩
          exact ⟨hl, hr⟩
        · rintro ⟨hl, hr⟩
          exact ⟨hl, BitVec.lt_of_getLsbD hl, hr⟩
  · have hl : left[p.1]? = none := List.getElem?_eq_none (by omega)
    have hr : right[p.1]? = none := List.getElem?_eq_none (by omega)
    cases op <;> simp [WeightOp.points, hl, hr]

/-- An operation on an interner, and what its result means if it has not failed. -/
structure Result (before : FastBoundaryWeightInterner)
    (result : ℕ × FastBoundaryWeightInterner) (points : Set (ℕ × ℕ)) : Prop where
  sound : result.2.Sound
  keeps : before.Extends result.2
  valid : result.2.Valid result.1
  means : result.2.failed = false → result.2.den result.1 = points

theorem Result.same (h : self.Sound) (hid : self.Valid id) : Result self (id, self) (self.den id) :=
  ⟨h, Extends.refl self, hid, fun _ => rfl⟩

/-- The meaning of a result in a later state that has not failed. -/
theorem Result.later {result : ℕ × FastBoundaryWeightInterner}
    {points : Set (ℕ × ℕ)} (h : Result self result points) {after : FastBoundaryWeightInterner}
    (hafter : result.2.Extends after) (hf : after.failed = false) : after.den result.1 = points :=
  (hafter.den h.valid).trans (h.means (hafter.failed hf))

/-- What an id means if the interner has not failed. -/
structure Means (interner : FastBoundaryWeightInterner) (id : ℕ) (points : Set (ℕ × ℕ)) : Prop where
  valid : interner.Valid id
  den : interner.failed = false → interner.den id = points

theorem Result.means_self {result : ℕ × FastBoundaryWeightInterner} {points : Set (ℕ × ℕ)}
    (h : Result self result points) : result.2.Means result.1 points := ⟨h.valid, h.means⟩

theorem Means.later {points : Set (ℕ × ℕ)} (h : self.Means id points)
    {after : FastBoundaryWeightInterner} (hafter : self.Extends after) : after.Means id points :=
  ⟨hafter.valid h.valid, fun hf => (hafter.den h.valid).trans (h.den (hafter.failed hf))⟩

theorem Means.congr {points points' : Set (ℕ × ℕ)} (h : self.Means id points)
    (he : self.failed = false → points = points') : self.Means id points' :=
  ⟨h.valid, fun hf => (h.den hf).trans (he hf)⟩

theorem Result.congr {result : ℕ × FastBoundaryWeightInterner} {points points' : Set (ℕ × ℕ)}
    (h : Result self result points) (he : self.failed = false → points = points') :
    Result self result points' :=
  ⟨h.sound, h.keeps, h.valid, fun hf => (h.means hf).trans (he (h.keeps.failed hf))⟩

theorem apply_masked (op : WeightOp) {mask : BitVec 64} {left right : FastBoundaryWeightValue}
    (hl : ∀ word ∈ left, word &&& mask = word) (hr : ∀ word ∈ right, word &&& mask = word) :
    ∀ word ∈ op.apply left right, word &&& mask = word := by
  intro word hword
  obtain ⟨i, hi⟩ := List.mem_iff_getElem?.mp hword
  rw [WeightOp.apply, List.getElem?_zipWith] at hi
  cases ha : left[i]? with
  | none => simp [ha] at hi
  | some a =>
      cases hb : right[i]? with
      | none => simp [ha, hb] at hi
      | some b =>
          have ha' := hl a (List.mem_of_getElem? ha)
          have hb' := hr b (List.mem_of_getElem? hb)
          simp only [ha, hb, Option.some.injEq] at hi
          subst hi
          cases op with
          | intersection =>
              simp only [WeightOp.word]
              rw [BitVec.and_assoc, hb']
          | union =>
              simp only [WeightOp.word]
              rw [BitVec.and_comm, BitVec.and_or_distrib_left, BitVec.and_comm mask a,
                BitVec.and_comm mask b, ha', hb']
          | difference =>
              simp only [WeightOp.word]
              rw [BitVec.and_assoc, BitVec.and_comm _ mask, ← BitVec.and_assoc, ha']

/-- Interning gives a well-formed value its id. -/
theorem intern_spec (h : self.Sound) {value : FastBoundaryWeightValue}
    (hlength : value.length = self.tsid_count)
    (hmasked : ∀ word ∈ value, word &&& self.all_token_mask = word) :
    Result self (self.intern value) (valuePoints value) ∧
      ((self.intern value).2.failed = false →
        (self.intern value).2.values[(self.intern value).1]? = some value) := by
  unfold intern
  cases hlookup : self.ids.lookup value with
  | some id =>
      have hget := (h.ids value id).mp hlookup
      obtain ⟨hvalid, hvalue⟩ := valid_of_getElem? hget
      exact ⟨⟨h, Extends.refl self, hvalid, fun _ => by rw [den, hvalue]⟩, fun _ => hget⟩
  | none =>
      have hnew : value ∉ self.values := fun hmem => by
        obtain ⟨id, hid⟩ := List.mem_iff_getElem?.mp hmem
        rw [(h.ids value id).mpr hid] at hlookup
        cases hlookup
      dsimp only
      split_ifs with hfull
      · refine ⟨⟨?_, ⟨List.prefix_rfl, (fun hf => by cases hf), rfl⟩, h.valid_zero,
          fun hf => by cases hf⟩, fun hf => by cases hf⟩
        refine ⟨h.length, h.masked, h.nodup, h.ids, h.empty, h.all, fun op left right id hm => ?_⟩
        obtain ⟨hl, hr, hid, -⟩ := h.memo op left right id hm
        exact ⟨hl, hr, hid, fun hf => by cases hf⟩
      · have hext : self.Extends { self with
            values := self.values ++ [value], ids := (value, self.values.length) :: self.ids } :=
          ⟨List.prefix_append _ _, id, rfl⟩
        have hlast : (self.values ++ [value])[self.values.length]? = some value := by simp
        have hsound : Sound { self with
            values := self.values ++ [value], ids := (value, self.values.length) :: self.ids } := by
          constructor
          · intro v hv
            rcases List.mem_append.mp hv with hv | hv
            · exact h.length v hv
            · rw [List.mem_singleton.mp hv, hlength]
          · intro v hv
            rcases List.mem_append.mp hv with hv | hv
            · exact h.masked v hv
            · rw [List.mem_singleton.mp hv]
              exact hmasked
          · exact List.nodup_append.mpr ⟨h.nodup, List.nodup_singleton _,
              fun a ha b hb => by
                rw [List.mem_singleton.mp hb]
                exact fun he => hnew (he ▸ ha)⟩
          · intro v id
            rw [List.lookup_cons]
            by_cases hv : v = value
            · subst hv
              simp only [beq_self_eq_true, Option.some.injEq]
              constructor
              · rintro rfl
                exact hlast
              · intro hget
                by_contra hne
                have hlt : id < (self.values ++ [v]).length := (List.getElem?_eq_some_iff.mp hget).1
                rw [List.length_append, List.length_singleton] at hlt
                rw [List.getElem?_append_left (show id < self.values.length by omega)] at hget
                exact hnew (List.mem_of_getElem? hget)
            · have hbeq : (v == value) = false := by simpa using hv
              simp only [hbeq]
              rw [h.ids]
              constructor
              · intro hget
                rw [List.getElem?_append_left (List.getElem?_eq_some_iff.mp hget).1, hget]
              · intro hget
                by_cases hlt : id < self.values.length
                · rwa [List.getElem?_append_left hlt] at hget
                · rw [List.getElem?_append_right (show self.values.length ≤ id by omega)] at hget
                  obtain ⟨hid, he⟩ := List.getElem?_eq_some_iff.mp hget
                  simp only [List.length_singleton] at hid
                  simp only [List.getElem_singleton] at he
                  exact absurd he.symm hv
          · exact List.getElem?_append_left h.valid_zero ▸ h.empty
          · exact List.getElem?_append_left h.valid_one ▸ h.all
          · intro op left right id hm
            obtain ⟨hl, hr, hid, hget⟩ := h.memo op left right id hm
            refine ⟨hext.valid hl, hext.valid hr, hext.valid hid, fun hf => ?_⟩
            rw [hext.value hl, hext.value hr]
            exact (List.getElem?_append_left hid).trans (hget hf)
        obtain ⟨hvalid, hvalue⟩ := @valid_of_getElem? { self with
          values := self.values ++ [value], ids := (value, self.values.length) :: self.ids } _ _ hlast
        exact ⟨⟨hsound, hext, hvalid, fun _ => by rw [den, hvalue]⟩, fun _ => hlast⟩

theorem memoise_spec (h : self.Sound) (op : WeightOp) (hl : self.Valid left)
    (hr : self.Valid right) :
    Result self (self.memoise op left right) (op.points (self.den left) (self.den right)) := by
  have hlengths : (self.value left).length = (self.value right).length :=
    (h.length_value hl).trans (h.length_value hr).symm
  have hpoints := valuePoints_apply op hlengths
  unfold memoise
  cases hlookup : (self.memo op).lookup (left, right) with
  | some id =>
      obtain ⟨-, -, hid, hget⟩ := h.memo op left right id hlookup
      refine ⟨h, Extends.refl self, hid, fun hf => ?_⟩
      rw [den, (valid_of_getElem? (hget hf)).2, hpoints]
      rfl
  | none =>
      have hlength : (op.apply (self.value left) (self.value right)).length = self.tsid_count := by
        rw [WeightOp.apply, List.length_zipWith, hlengths, min_self, h.length_value hr]
      have hmasked := apply_masked op
        (h.masked _ (List.mem_of_getElem? (getElem?_value hl)))
        (h.masked _ (List.mem_of_getElem? (getElem?_value hr)))
      obtain ⟨hres, hget⟩ := intern_spec h hlength hmasked
      rw [hpoints] at hres
      generalize self.intern (op.apply (self.value left) (self.value right)) = result at hres hget
      dsimp only
      split_ifs with hroom
      swap
      · exact hres
      refine ⟨?_, ⟨hres.keeps.values, hres.keeps.failed, hres.keeps.tsid_count⟩, hres.valid,
        hres.means⟩
      constructor
      · exact hres.sound.length
      · exact hres.sound.masked
      · exact hres.sound.nodup
      · exact hres.sound.ids
      · exact hres.sound.empty
      · exact hres.sound.all
      · intro op' left' right' id hm
        by_cases hop : op' = op
        · subst hop
          simp only [Function.update_self, List.lookup_cons] at hm
          split at hm
          · rename_i hkey
            obtain ⟨rfl, rfl⟩ := Prod.mk.inj (eq_of_beq hkey)
            obtain rfl := Option.some.inj hm
            refine ⟨hres.keeps.valid hl, hres.keeps.valid hr, hres.valid, fun hf => ?_⟩
            exact (hget hf).trans (congrArg some (congrArg₂ op'.apply
              (hres.keeps.value hl).symm (hres.keeps.value hr).symm))
          · exact hres.sound.memo op' left' right' id hm
        · simp only [Function.update_of_ne hop] at hm
          exact hres.sound.memo op' left' right' id hm

theorem Sound.den_subset_one (h : self.Sound) (hid : self.Valid id) : self.den id ⊆ self.den 1 := by
  rintro p ⟨word, hword, hbit⟩
  have hlt : p.1 < self.tsid_count := by
    rw [← h.length_value hid]
    exact (List.getElem?_eq_some_iff.mp hword).1
  have hmask := h.masked _ (List.mem_of_getElem? (getElem?_value hid)) word
    (List.mem_of_getElem? hword)
  refine ⟨self.all_token_mask, ?_, ?_⟩
  · rw [(valid_of_getElem? h.all).2, List.getElem?_replicate, if_pos hlt]
  · rw [← hmask, BitVec.getLsbD_and, Bool.and_eq_true] at hbit
    exact hbit.2

/-- Ids with the same points are equal. -/
theorem Sound.eq_of_den_eq (h : self.Sound) (hl : self.Valid left) (hr : self.Valid right)
    (hden : self.den left = self.den right) : left = right := by
  have hlength : (self.value left).length = (self.value right).length :=
    (h.length_value hl).trans (h.length_value hr).symm
  have hvalue : self.value left = self.value right := by
    apply List.ext_getElem hlength
    intro i hi hi'
    apply BitVec.eq_of_getLsbD_eq
    intro bit _
    have hiff : ∀ v : FastBoundaryWeightValue, ∀ hi : i < v.length,
        (i, bit) ∈ valuePoints v ↔ v[i].getLsbD bit = true := fun v hi => by
      simp [valuePoints, List.getElem?_eq_getElem hi]
    have hbit : (i, bit) ∈ self.den left ↔ (i, bit) ∈ self.den right := by rw [hden]
    rw [den, den, hiff _ hi, hiff _ hi'] at hbit
    exact Bool.eq_iff_iff.mpr hbit
  have hget : self.values[left]? = self.values[right]? := by
    rw [getElem?_value hl, getElem?_value hr, hvalue]
  exact (List.getElem?_inj hl h.nodup).mp hget

theorem Sound.den_eq_empty_iff (h : self.Sound) (hid : self.Valid id) :
    self.den id = ∅ ↔ id = 0 := by
  constructor
  · intro hden
    exact h.eq_of_den_eq hid h.valid_zero (hden.trans h.den_zero.symm)
  · rintro rfl
    exact h.den_zero

theorem valid_minmax (hl : self.Valid left) (hr : self.Valid right) :
    self.Valid (min left right) ∧ self.Valid (max left right) :=
  ⟨(min_le_left _ _).trans_lt hl, max_lt hl hr⟩

theorem intersection_spec (h : self.Sound) (hl : self.Valid left) (hr : self.Valid right) :
    Result self (self.intersection left right) (self.den left ∩ self.den right) := by
  unfold intersection
  split_ifs with hzero hone hsame
  · have hempty : self.den left ∩ self.den right = self.den 0 := by
      rcases hzero with rfl | rfl <;> simp [h.den_zero]
    rw [hempty]
    exact Result.same h h.valid_zero
  · rw [hone, Set.inter_eq_right.mpr (h.den_subset_one hr)]
    exact Result.same h hr
  · have hleft : self.den left ∩ self.den right = self.den left := by
      rcases hsame with rfl | rfl
      · exact Set.inter_eq_left.mpr (h.den_subset_one hl)
      · exact Set.inter_self _
    rw [hleft]
    exact Result.same h hl
  · obtain ⟨hmin, hmax⟩ := valid_minmax hl hr
    have hres := memoise_spec h .intersection hmin hmax
    rcases le_total left right with hle | hle
    · rwa [min_eq_left hle, max_eq_right hle] at hres ⊢
    · rw [min_eq_right hle, max_eq_left hle] at hres ⊢
      rwa [Set.inter_comm]

theorem union_spec (h : self.Sound) (hl : self.Valid left) (hr : self.Valid right) :
    Result self (self.union left right) (self.den left ∪ self.den right) := by
  unfold union
  split_ifs with hzero hsame hone
  · rw [hzero, h.den_zero, Set.empty_union]
    exact Result.same h hr
  · have hleft : self.den left ∪ self.den right = self.den left := by
      rcases hsame with rfl | rfl
      · rw [h.den_zero, Set.union_empty]
      · exact Set.union_self _
    rw [hleft]
    exact Result.same h hl
  · have hall : self.den left ∪ self.den right = self.den 1 := by
      rcases hone with rfl | rfl
      · exact Set.union_eq_left.mpr (h.den_subset_one hr)
      · exact Set.union_eq_right.mpr (h.den_subset_one hl)
    rw [hall]
    exact Result.same h h.valid_one
  · obtain ⟨hmin, hmax⟩ := valid_minmax hl hr
    have hres := memoise_spec h .union hmin hmax
    rcases le_total left right with hle | hle
    · rwa [min_eq_left hle, max_eq_right hle] at hres ⊢
    · rw [min_eq_right hle, max_eq_left hle] at hres ⊢
      rwa [Set.union_comm]

theorem difference_spec (h : self.Sound) (hl : self.Valid left) (hr : self.Valid right) :
    Result self (self.difference left right) (self.den left \ self.den right) := by
  unfold difference
  split_ifs with hzero hempty
  · have hnone : self.den left \ self.den right = self.den 0 := by
      rw [h.den_zero, Set.sdiff_eq_empty]
      rcases hzero with rfl | rfl | rfl
      · rw [h.den_zero]
        exact Set.empty_subset _
      · exact h.den_subset_one hl
      · exact subset_rfl
    rw [hnone]
    exact Result.same h h.valid_zero
  · rw [hempty, h.den_zero, Set.sdiff_empty]
    exact Result.same h hl
  · exact memoise_spec h .difference hl hr

theorem intersection_means (h : self.Sound) {s t : Set (ℕ × ℕ)} (hl : self.Means left s)
    (hr : self.Means right t) : Result self (self.intersection left right) (s ∩ t) :=
  (intersection_spec h hl.valid hr.valid).congr fun hf => by rw [hl.den hf, hr.den hf]

theorem union_means (h : self.Sound) {s t : Set (ℕ × ℕ)} (hl : self.Means left s)
    (hr : self.Means right t) : Result self (self.union left right) (s ∪ t) :=
  (union_spec h hl.valid hr.valid).congr fun hf => by rw [hl.den hf, hr.den hf]

theorem allow_work_spec (h : self.Sound) (amount states edges : ℕ) :
    (self.allow_work amount states edges).2.Sound ∧
      self.Extends (self.allow_work amount states edges).2 ∧
      ((self.allow_work amount states edges).1 = true →
        (self.allow_work amount states edges).2.failed = false) := by
  unfold allow_work
  cases self.limits with
  | none => exact ⟨h, Extends.refl self, fun hok => by simpa using hok⟩
  | some limits =>
      dsimp only
      refine ⟨⟨h.length, h.masked, h.nodup, h.ids, h.empty, h.all, fun op left right id hm => ?_⟩,
        ⟨List.prefix_rfl, fun hf => ?_, rfl⟩, fun hok => Bool.not_eq_true' _ ▸ hok⟩
      · obtain ⟨hl, hr, hid, hget⟩ := h.memo op left right id hm
        refine ⟨hl, hr, hid, fun hf => hget ?_⟩
        simp only [Bool.or_eq_false_iff] at hf
        exact hf.1.1.1
      · simp only [Bool.or_eq_false_iff] at hf
        exact hf.1.1.1

theorem tokenMask_ne_zero {token_count : ℕ} (hpos : 0 < token_count) (hle : token_count ≤ 64) :
    tokenMask token_count ≠ 0#64 := by
  have h : ∀ n : Fin 65, 0 < n.val → tokenMask n.val ≠ 0#64 := by decide
  exact h ⟨token_count, Nat.lt_succ_of_le hle⟩ hpos

theorem lookup_pair {empty all value : FastBoundaryWeightValue} (hne : empty ≠ all) (id : ℕ) :
    [(all, 1), (empty, 0)].lookup value = some id ↔ [empty, all][id]? = some value := by
  rw [List.lookup_cons, List.lookup_cons, List.lookup_nil]
  by_cases hall : value = all
  · subst hall
    match id with
    | 0 => simpa using hne
    | 1 => simp
    | _ + 2 => simp
  · have hbeq : (value == all) = false := by simpa using hall
    rw [hbeq]
    by_cases hempty : value = empty
    · subst hempty
      match id with
      | 0 => simp
      | 1 => simpa using Ne.symm hne
      | _ + 2 => simp
    · have hbeq' : (value == empty) = false := by simpa using hempty
      rw [hbeq']
      match id with
      | 0 => simpa using Ne.symm hempty
      | 1 => simpa using Ne.symm hall
      | _ + 2 => simp

/-- A fresh interner is sound. -/
theorem new_sound {tsid_count token_count : ℕ} {interner : FastBoundaryWeightInterner}
    (h : new tsid_count token_count = some interner) : interner.Sound ∧ interner.failed = false := by
  unfold new at h
  split_ifs at h with hbad
  obtain rfl := Option.some.inj h
  simp only [not_or, not_lt] at hbad
  obtain ⟨htsid, -, htoken, htoken'⟩ := hbad
  have hne := tokenMask_ne_zero (Nat.pos_of_ne_zero htoken) htoken'
  have hvalues : List.replicate tsid_count 0#64 ≠ List.replicate tsid_count (tokenMask token_count) :=
    fun he => hne ((List.replicate_inj.mp he).2.resolve_left htsid).symm
  refine ⟨?_, rfl⟩
  constructor
  · intro value hvalue
    rcases List.mem_pair.mp hvalue with rfl | rfl <;> exact List.length_replicate
  · intro value hvalue word hword
    rcases List.mem_pair.mp hvalue with rfl | rfl
    · rw [List.eq_of_mem_replicate hword, BitVec.zero_and]
    · rw [List.eq_of_mem_replicate hword, BitVec.and_self]
  · exact List.nodup_cons.mpr ⟨fun h => hvalues (List.mem_singleton.mp h), List.nodup_singleton _⟩
  · intro value id
    exact lookup_pair hvalues id
  · rfl
  · rfl
  · intro op left right id hm
    cases hm

end FastBoundaryWeightInterner

end GlrMask
