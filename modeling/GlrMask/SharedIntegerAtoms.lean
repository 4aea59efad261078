import GlrMask.IntegerBounds

/-!
# Shared integer atoms

The plain integer ranges of a schema document are cut into atoms that every range is a
union of. A range between two bounds is then written as the choice of its atoms, unless
it would split one of them.
-/

namespace GlrMask

namespace NumericRange

inductive SchemaType where
  | null
  | boolean
  | object
  | array
  | string
  | number
  | integer
  deriving DecidableEq, Repr

mutual

/-- The parts of a schema that integer ranges are searched in. -/
inductive Schema where
  | any
  | never
  | ref (pointer : String)
  | assertions (types : Option (List SchemaType)) (number : Option NumberSchema)
      (object : Option ObjectSchema) (array : Option ArraySchema)
      (any_of one_of all_of : List Schema) (not : Option Schema)

inductive ObjectSchema where
  | mk (properties pattern_properties : List Schema) (additional_properties : AdditionalProperties)
      (property_names : Option Schema)

inductive AdditionalProperties where
  | allow_any
  | deny
  | schema (s : Schema)

inductive ArraySchema where
  | mk (items : Schema) (prefix_items : List Schema)

end

structure SchemaDocument where
  root : Schema
  definitions : List Schema
  ref_targets : List Schema

/-- The integer range of a schema with the type integer and without the type number. -/
def plain_integer_assertions (types : Option (List SchemaType)) : Bool :=
  match types with
  | some types => types.contains .integer && !types.contains .number
  | none => false

def F64.isOne : F64 → Bool
  | .finite x => x.value = 1
  | _ => false

def integer_multiple_is_vacuous (multiple : Option F64) : Bool :=
  multiple.all F64.isOne

structure Cuts where
  cuts : List ℤ
  representable : Bool

/-- `BTreeSet::insert`. -/
def insert_cut (n : ℤ) : List ℤ → List ℤ
  | [] => [n]
  | m :: l => if n < m then n :: m :: l else if n = m then m :: l else m :: insert_cut n l

def insert_bound : Option ℤ → List ℤ → List ℤ
  | some bound, cuts => insert_cut bound cuts
  | none, cuts => cuts

def insert_range (lower upper : Option ℤ) (s : Cuts) : Cuts :=
  if lower = some i64_min ∨ upper = some i64_max then { s with representable := false }
  else { s with cuts := insert_bound (upper.map (· + 1)) (insert_bound lower s.cuts) }

/-- The bounds of one scanned number schema. -/
def add_number (s : Cuts) (number : NumberSchema) : RangeResult Cuts := do
  let lower ← integer_lower_bound number
  let upper ← integer_upper_bound number
  return insert_range lower upper s

def plain_number (types : Option (List SchemaType)) (number : Option NumberSchema) :
    Option NumberSchema :=
  if plain_integer_assertions types then
    number.filter fun number => integer_multiple_is_vacuous number.multiple_of
  else none

def collect_number (s : Cuts) : Option NumberSchema → RangeResult Cuts
  | some number => add_number s number
  | none => .ok s

mutual

def collect_plain_integer_range_cuts (s : Cuts) : Schema → RangeResult Cuts
  | .any => .ok s
  | .never => .ok s
  | .ref _ => .ok s
  | .assertions types number object array any_of one_of all_of not => do
      let s ← collect_number s (plain_number types number)
      let s ← collect_object s object
      let s ← collect_array s array
      let s ← collect_list s any_of
      let s ← collect_list s one_of
      let s ← collect_list s all_of
      collect_option s not

def collect_object (s : Cuts) : Option ObjectSchema → RangeResult Cuts
  | none => .ok s
  | some (.mk properties pattern_properties additional_properties property_names) => do
      let s ← collect_list s properties
      let s ← collect_list s pattern_properties
      let s ← collect_additional s additional_properties
      collect_option s property_names

def collect_additional (s : Cuts) : AdditionalProperties → RangeResult Cuts
  | .allow_any => .ok s
  | .deny => .ok s
  | .schema additional => collect_plain_integer_range_cuts s additional

def collect_array (s : Cuts) : Option ArraySchema → RangeResult Cuts
  | none => .ok s
  | some (.mk items prefix_items) => do
      let s ← collect_plain_integer_range_cuts s items
      collect_list s prefix_items

def collect_list (s : Cuts) : List Schema → RangeResult Cuts
  | [] => .ok s
  | schema :: schemas => do
      let s ← collect_plain_integer_range_cuts s schema
      collect_list s schemas

def collect_option (s : Cuts) : Option Schema → RangeResult Cuts
  | none => .ok s
  | some schema => collect_plain_integer_range_cuts s schema

end

mutual

/-- The number schemas that the search comes by, in its order. -/
def Schema.numbers : Schema → List NumberSchema
  | .any => []
  | .never => []
  | .ref _ => []
  | .assertions types number object array any_of one_of all_of not =>
      (plain_number types number).toList ++ (object_numbers object ++ (array_numbers array ++
        (list_numbers any_of ++ (list_numbers one_of ++ (list_numbers all_of ++
          option_numbers not)))))

def object_numbers : Option ObjectSchema → List NumberSchema
  | none => []
  | some (.mk properties pattern_properties additional_properties property_names) =>
      list_numbers properties ++ (list_numbers pattern_properties ++
        (additional_numbers additional_properties ++ option_numbers property_names))

def additional_numbers : AdditionalProperties → List NumberSchema
  | .allow_any => []
  | .deny => []
  | .schema additional => additional.numbers

def array_numbers : Option ArraySchema → List NumberSchema
  | none => []
  | some (.mk items prefix_items) => items.numbers ++ list_numbers prefix_items

def list_numbers : List Schema → List NumberSchema
  | [] => []
  | schema :: schemas => schema.numbers ++ list_numbers schemas

def option_numbers : Option Schema → List NumberSchema
  | none => []
  | some schema => schema.numbers

end

theorem collect_number_eq (s : Cuts) (number : Option NumberSchema) :
    collect_number s number = number.toList.foldlM add_number s := by
  cases number with
  | none => rfl
  | some number => exact (bind_pure _).symm

mutual

theorem collect_schema_eq (s : Cuts) : ∀ schema : Schema,
    collect_plain_integer_range_cuts s schema = schema.numbers.foldlM add_number s
  | .any => rfl
  | .never => rfl
  | .ref _ => rfl
  | .assertions types number object array any_of one_of all_of not => by
    rw [collect_plain_integer_range_cuts, Schema.numbers, collect_number_eq, List.foldlM_append]
    congr 1
    funext s
    rw [collect_object_eq, List.foldlM_append]
    congr 1
    funext s
    rw [collect_array_eq, List.foldlM_append]
    congr 1
    funext s
    rw [collect_list_eq, List.foldlM_append]
    congr 1
    funext s
    rw [collect_list_eq, List.foldlM_append]
    congr 1
    funext s
    rw [collect_list_eq, List.foldlM_append]
    congr 1
    funext s
    exact collect_option_eq s not

theorem collect_object_eq (s : Cuts) : ∀ object : Option ObjectSchema,
    collect_object s object = (object_numbers object).foldlM add_number s
  | none => rfl
  | some (.mk properties pattern_properties additional_properties property_names) => by
    rw [collect_object, object_numbers, collect_list_eq, List.foldlM_append]
    congr 1
    funext s
    rw [collect_list_eq, List.foldlM_append]
    congr 1
    funext s
    rw [collect_additional_eq, List.foldlM_append]
    congr 1
    funext s
    exact collect_option_eq s property_names

theorem collect_additional_eq (s : Cuts) : ∀ additional : AdditionalProperties,
    collect_additional s additional = (additional_numbers additional).foldlM add_number s
  | .allow_any => rfl
  | .deny => rfl
  | .schema additional => collect_schema_eq s additional

theorem collect_array_eq (s : Cuts) : ∀ array : Option ArraySchema,
    collect_array s array = (array_numbers array).foldlM add_number s
  | none => rfl
  | some (.mk items prefix_items) => by
    rw [collect_array, array_numbers, collect_schema_eq, List.foldlM_append]
    congr 1
    funext s
    exact collect_list_eq s prefix_items

theorem collect_list_eq (s : Cuts) : ∀ schemas : List Schema,
    collect_list s schemas = (list_numbers schemas).foldlM add_number s
  | [] => rfl
  | schema :: schemas => by
    rw [collect_list, list_numbers, collect_schema_eq, List.foldlM_append]
    congr 1
    funext s
    exact collect_list_eq s schemas

theorem collect_option_eq (s : Cuts) : ∀ schema : Option Schema,
    collect_option s schema = (option_numbers schema).foldlM add_number s
  | none => rfl
  | some schema => collect_schema_eq s schema

end

structure SharedIntegerAtom where
  lower : Option ℤ
  upper : Option ℤ
  rule_name : String

def JSON_INTEGER_ATOM_RULE_PREFIX : String := "JSON_INTEGER_ATOM_"

/-- The ranges of two neighbouring cuts. -/
def window (lower next : ℤ) : Option (Option ℤ × Option ℤ) :=
  if lower ≤ next - 1 then some (some lower, some (next - 1)) else none

/-- The atoms of a sorted set of cuts that is not empty. -/
def atoms_of (cuts : List ℤ) : List (Option ℤ × Option ℤ) :=
  (if cuts.head? ≠ some i64_min then cuts.head?.toList.map fun cut => (none, some (cut - 1))
    else []) ++
    (cuts.zip cuts.tail).filterMap (fun w => window w.1 w.2) ++
    cuts.getLast?.toList.map fun cut => (some cut, none)

def collect_document (document : SchemaDocument) : RangeResult Cuts := do
  let s ← collect_plain_integer_range_cuts ⟨[], true⟩ document.root
  let s ← collect_list s document.definitions
  collect_list s document.ref_targets

def collect_shared_integer_atoms (document : SchemaDocument) :
    RangeResult (List SharedIntegerAtom) := do
  let s ← collect_document document
  if s.representable = false ∨ s.cuts = [] then return []
  return (atoms_of s.cuts).mapIdx fun index atom =>
    ⟨atom.1, atom.2, JSON_INTEGER_ATOM_RULE_PREFIX ++ toString index⟩

inductive GrammarExpr where
  | ref (name : String)
  | raw_regex (regex : Text)
  | choice (alternatives : List GrammarExpr)

def JSON_NUMBER_RULE : String := "JSON_NUMBER"

def JSON_INTEGER_RULE : String := "JSON_INTEGER"

def GrammarExpr.isNumberRule : GrammarExpr → Bool
  | .ref name => name = JSON_NUMBER_RULE
  | _ => false

def GrammarExpr.isIntegerRule : GrammarExpr → Bool
  | .ref name => name = JSON_INTEGER_RULE || name.startsWith JSON_INTEGER_ATOM_RULE_PREFIX
  | _ => false

def choice (alternatives : List GrammarExpr) : GrammarExpr :=
  let alternatives := if alternatives.any GrammarExpr.isNumberRule then
    alternatives.filter (fun expr => !expr.isIntegerRule) else alternatives
  match alternatives with
  | [expr] => expr
  | _ => .choice alternatives

/-- The part of a lowering run that integer ranges read and write. -/
structure Lowerer where
  shared_integer_atoms : List SharedIntegerAtom
  shared_integer_atom_rules_installed : Bool
  rules : List (String × GrammarExpr)

def Lowerer.add_terminal_rule (lowerer : Lowerer) (name : String) (expr : GrammarExpr) : Lowerer :=
  { lowerer with rules := lowerer.rules ++ [(name, expr)] }

def Lowerer.ensure_shared_integer_atom_rules (lowerer : Lowerer) : RangeResult Lowerer := do
  if lowerer.shared_integer_atom_rules_installed ∨ lowerer.shared_integer_atoms = [] then
    return lowerer
  let lowerer ← lowerer.shared_integer_atoms.foldlM (fun lowerer atom => do
    let regex ← rx_int_range atom.lower atom.upper
    return lowerer.add_terminal_rule atom.rule_name (.raw_regex regex)) lowerer
  return { lowerer with shared_integer_atom_rules_installed := true }

/-- `is_none_or` of a bound. -/
def noneOr (bound : Option ℤ) (p : ℤ → Bool) : Bool := bound.all p

def SharedIntegerAtom.intersects (atom : SharedIntegerAtom) (lower upper : Option ℤ) : Bool :=
  noneOr atom.upper (fun a => noneOr lower fun l => l ≤ a) &&
    noneOr atom.lower (fun a => noneOr upper fun u => a ≤ u)

def SharedIntegerAtom.contained (atom : SharedIntegerAtom) (lower upper : Option ℤ) : Bool :=
  noneOr lower (fun l => atom.lower.any fun a => l ≤ a) &&
    noneOr upper (fun u => atom.upper.any fun a => a ≤ u)

def Lowerer.shared_integer_range_expr (lowerer : Lowerer) (lower upper : Option ℤ) :
    RangeResult (Option GrammarExpr × Lowerer) := do
  if lowerer.shared_integer_atoms = [] then return (none, lowerer)
  if lowerer.shared_integer_atoms.any fun atom =>
      atom.intersects lower upper && !atom.contained lower upper then return (none, lowerer)
  let lowerer ← lowerer.ensure_shared_integer_atom_rules
  return (some (choice ((lowerer.shared_integer_atoms.filter fun atom =>
    atom.contained lower upper).map fun atom => .ref atom.rule_name)), lowerer)

theorem mem_insert_cut {n x : ℤ} {l : List ℤ} : x ∈ insert_cut n l ↔ x = n ∨ x ∈ l := by
  induction l with
  | nil => rw [insert_cut, List.mem_singleton, List.mem_nil_iff, or_false]
  | cons m l ih =>
    rw [insert_cut]
    split_ifs with hlt heq
    · rw [List.mem_cons]
    · rw [heq, List.mem_cons, ← or_assoc, or_self]
    · rw [List.mem_cons, List.mem_cons, ih, or_left_comm]

theorem sorted_insert_cut {n : ℤ} {l : List ℤ} (h : l.Pairwise (· < ·)) :
    (insert_cut n l).Pairwise (· < ·) := by
  induction l with
  | nil => exact List.pairwise_singleton _ n
  | cons m l ih =>
    obtain ⟨hm, hl⟩ := List.pairwise_cons.mp h
    rw [insert_cut]
    split_ifs with hlt heq
    · apply List.pairwise_cons.mpr
      refine ⟨?_, h⟩
      intro x hx
      obtain rfl | hx := List.mem_cons.mp hx
      · exact hlt
      · exact hlt.trans (hm x hx)
    · exact h
    · apply List.pairwise_cons.mpr
      refine ⟨?_, ih hl⟩
      intro x hx
      obtain rfl | hx := mem_insert_cut.mp hx
      · exact lt_of_le_of_ne (not_lt.mp hlt) (Ne.symm heq)
      · exact hm x hx

/-- The cuts are increasing, and every one has an `i64` below it. -/
structure Cuts.Valid (s : Cuts) : Prop where
  sorted : s.cuts.Pairwise (· < ·)
  range : ∀ c ∈ s.cuts, i64_min < c ∧ c ≤ i64_max

/-- The range begins and ends at a cut. -/
def Cuts.Has (s : Cuts) (lower upper : Option ℤ) : Prop :=
  s.representable = true →
    (∀ l, lower = some l → l ∈ s.cuts) ∧ ∀ u, upper = some u → u + 1 ∈ s.cuts

def IsI64 (bound : Option ℤ) : Prop := ∀ b, bound = some b → i64_min ≤ b ∧ b ≤ i64_max

theorem as_i64_mem (n : ℤ) : i64_min ≤ as_i64 n ∧ as_i64 n ≤ i64_max := by
  have : i64_min ≤ i64_max := by decide
  rw [as_i64]
  omega

theorem checked_mem {n m : ℤ} (h : checked n = .ok m) : i64_min ≤ m ∧ m ≤ i64_max := by
  rw [checked] at h
  split_ifs at h with hn
  cases h
  exact hn

theorem stepped_isI64 {n : ℤ} {p : Prop} [Decidable p] {m : ℤ} {bound : Option ℤ}
    (h : (if p then (checked m).map some else .ok (some (as_i64 n))) = .ok bound) :
    IsI64 bound := by
  intro b hb
  split_ifs at h
  · cases hm : checked m with
    | error e =>
      rw [hm] at h
      cases h
    | ok k =>
      rw [hm] at h
      cases h
      cases hb
      exact checked_mem hm
  · cases h
    cases hb
    exact as_i64_mem n

theorem isI64_none : IsI64 none := by
  intro b hb
  cases hb

theorem integer_lower_bound_isI64 {number : NumberSchema} {bound : Option ℤ}
    (h : integer_lower_bound number = .ok bound) : IsI64 bound := by
  unfold integer_lower_bound at h
  split at h
  · exact stepped_isI64 h
  · cases h
    exact isI64_none

theorem integer_upper_bound_isI64 {number : NumberSchema} {bound : Option ℤ}
    (h : integer_upper_bound number = .ok bound) : IsI64 bound := by
  unfold integer_upper_bound at h
  split at h
  · exact stepped_isI64 h
  · cases h
    exact isI64_none

theorem insert_bound_spec {bound : Option ℤ} {s : Cuts} (hs : s.Valid)
    (h : ∀ b, bound = some b → i64_min < b ∧ b ≤ i64_max) :
    Cuts.Valid { s with cuts := insert_bound bound s.cuts } ∧
      (∀ b, bound = some b → b ∈ insert_bound bound s.cuts) ∧
      ∀ c ∈ s.cuts, c ∈ insert_bound bound s.cuts := by
  cases bound with
  | none => exact ⟨hs, fun _ hb => (by cases hb), fun _ hc => hc⟩
  | some n =>
    obtain ⟨hmin, hmax⟩ := h n rfl
    refine ⟨⟨sorted_insert_cut hs.sorted, ?_⟩, ?_, ?_⟩
    · intro c hc
      obtain rfl | hc := mem_insert_cut.mp hc
      · exact ⟨hmin, hmax⟩
      · exact hs.range c hc
    · intro b hb
      cases hb
      exact mem_insert_cut.mpr (Or.inl rfl)
    · intro c hc
      exact mem_insert_cut.mpr (Or.inr hc)

/-- What one range does to the cuts. -/
theorem insert_range_spec {s : Cuts} (hs : s.Valid) {lower upper : Option ℤ} (hl : IsI64 lower)
    (hu : IsI64 upper) :
    (insert_range lower upper s).Valid ∧ (insert_range lower upper s).Has lower upper ∧
      (∀ c ∈ s.cuts, c ∈ (insert_range lower upper s).cuts) ∧
      ((insert_range lower upper s).representable = true → s.representable = true) := by
  unfold insert_range
  split_ifs with hrep
  · refine ⟨⟨hs.sorted, hs.range⟩, ?_, fun c hc => hc, ?_⟩
    · intro h
      cases h
    · intro h
      cases h
  · obtain ⟨hlmin, humax⟩ := not_or.mp hrep
    have hlower : ∀ b, lower = some b → i64_min < b ∧ b ≤ i64_max := by
      intro b hb
      obtain ⟨hmin, hmax⟩ := hl b hb
      exact ⟨lt_of_le_of_ne hmin (fun h => hlmin (h ▸ hb)), hmax⟩
    have hupper : ∀ b, upper.map (· + 1) = some b → i64_min < b ∧ b ≤ i64_max := by
      intro b hb
      obtain ⟨u, hsome, rfl⟩ := Option.map_eq_some_iff.mp hb
      obtain ⟨hmin, hmax⟩ := hu u hsome
      have hne : u ≠ i64_max := fun h => humax (h ▸ hsome)
      omega
    obtain ⟨hvalid₁, hmem₁, hsub₁⟩ := insert_bound_spec hs hlower
    obtain ⟨hvalid₂, hmem₂, hsub₂⟩ := insert_bound_spec hvalid₁ hupper
    refine ⟨hvalid₂, ?_, fun c hc => hsub₂ c (hsub₁ c hc), id⟩
    intro h
    constructor
    · intro l hsome
      exact hsub₂ l (hmem₁ l hsome)
    · intro u hsome
      exact hmem₂ (u + 1) (by rw [hsome]; rfl)

theorem Cuts.Has.mono {s t : Cuts} {lower upper : Option ℤ} (h : s.Has lower upper)
    (hcuts : ∀ c ∈ s.cuts, c ∈ t.cuts) (hrep : t.representable = true → s.representable = true) :
    t.Has lower upper := by
  intro ht
  obtain ⟨hl, hu⟩ := h (hrep ht)
  exact ⟨fun l hlower => hcuts _ (hl l hlower), fun u hupper => hcuts _ (hu u hupper)⟩

/-- The range of a number schema that was scanned without a panic. -/
def RangeOf (number : NumberSchema) (lower upper : Option ℤ) : Prop :=
  integer_lower_bound number = .ok lower ∧ integer_upper_bound number = .ok upper

theorem add_number_eq_ok {s t : Cuts} {number : NumberSchema} (h : add_number s number = .ok t) :
    ∃ lower upper, RangeOf number lower upper ∧ t = insert_range lower upper s := by
  unfold add_number at h
  cases hl : integer_lower_bound number with
  | error e =>
    rw [hl] at h
    cases h
  | ok lower =>
    cases hu : integer_upper_bound number with
    | error e =>
      rw [hl, hu] at h
      cases h
    | ok upper =>
      rw [hl, hu] at h
      cases h
      exact ⟨lower, upper, ⟨hl, hu⟩, rfl⟩

/-- What a whole scan does to the cuts. -/
theorem foldlM_add_number_spec {numbers : List NumberSchema} {s t : Cuts} (hs : s.Valid)
    (h : numbers.foldlM add_number s = .ok t) :
    t.Valid ∧ (∀ c ∈ s.cuts, c ∈ t.cuts) ∧ (t.representable = true → s.representable = true) ∧
      ∀ number ∈ numbers, ∀ lower upper, RangeOf number lower upper → t.Has lower upper := by
  induction numbers generalizing s with
  | nil =>
    cases h
    exact ⟨hs, fun c hc => hc, id, fun number hn => absurd hn List.not_mem_nil⟩
  | cons number numbers ih =>
    rw [List.foldlM_cons] at h
    cases hadd : add_number s number with
    | error e =>
      rw [hadd] at h
      cases h
    | ok u =>
      rw [hadd] at h
      obtain ⟨lower, upper, ⟨hlower, hupper⟩, rfl⟩ := add_number_eq_ok hadd
      obtain ⟨hvalid, hhas, hsub, hrep⟩ := insert_range_spec hs
        (integer_lower_bound_isI64 hlower) (integer_upper_bound_isI64 hupper)
      obtain ⟨htvalid, htsub, htrep, htnumbers⟩ := ih hvalid h
      refine ⟨htvalid, fun c hc => htsub c (hsub c hc), fun ht => hrep (htrep ht), ?_⟩
      intro n hn lower' upper' hrange
      obtain rfl | hn := List.mem_cons.mp hn
      · obtain ⟨hl, hu⟩ := hrange
        rw [hlower] at hl
        rw [hupper] at hu
        cases hl
        cases hu
        exact hhas.mono htsub htrep
      · exact htnumbers n hn lower' upper' hrange

def SchemaDocument.numbers (document : SchemaDocument) : List NumberSchema :=
  document.root.numbers ++ (list_numbers document.definitions ++
    list_numbers document.ref_targets)

theorem collect_document_eq (document : SchemaDocument) :
    collect_document document = document.numbers.foldlM add_number ⟨[], true⟩ := by
  rw [collect_document, SchemaDocument.numbers, collect_schema_eq, List.foldlM_append]
  congr 1
  funext s
  rw [collect_list_eq, List.foldlM_append]
  congr 1
  funext s
  exact collect_list_eq s document.ref_targets

theorem valid_empty : Cuts.Valid ⟨[], true⟩ :=
  ⟨List.Pairwise.nil, fun _ h => absurd h List.not_mem_nil⟩

end NumericRange

end GlrMask
