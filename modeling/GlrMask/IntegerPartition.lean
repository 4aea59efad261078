import GlrMask.SharedIntegerAtoms

/-!
# Integer ranges as unions of atoms

The atoms of a document follow one another without a gap, and no atom lies on both
sides of a cut. A scanned range begins and ends at a cut, so every atom that meets it is
contained in it.
-/

namespace GlrMask

namespace NumericRange

abbrev Bounds := Option ℤ × Option ℤ

/-- The atoms from a cut on. -/
def atoms_from (cut : ℤ) : List ℤ → List Bounds
  | [] => [(some cut, none)]
  | next :: cuts => (some cut, some (next - 1)) :: atoms_from next cuts

theorem windows_eq (cut : ℤ) (cuts : List ℤ) (h : (cut :: cuts).Pairwise (· < ·)) :
    ((cut :: cuts).zip cuts).filterMap (fun w => window w.1 w.2) ++
        [(some ((cut :: cuts).getLast (List.cons_ne_nil _ _)), none)] = atoms_from cut cuts := by
  induction cuts generalizing cut with
  | nil => rfl
  | cons next cuts ih =>
    obtain ⟨hcut, hcuts⟩ := List.pairwise_cons.mp h
    have hlt : cut < next := hcut next List.mem_cons_self
    have hwindow : window cut next = some (some cut, some (next - 1)) := if_pos (by omega)
    rw [List.zip_cons_cons, List.filterMap_cons_some (by exact hwindow), List.cons_append,
      List.getLast_cons (List.cons_ne_nil _ _), ih next hcuts]
    rfl

theorem atoms_of_cons {cut : ℤ} {cuts : List ℤ} (h : (cut :: cuts).Pairwise (· < ·))
    (hmin : i64_min < cut) :
    atoms_of (cut :: cuts) = (none, some (cut - 1)) :: atoms_from cut cuts := by
  have hhead : (cut :: cuts).head? ≠ some i64_min := by
    rw [List.head?_cons, ne_eq, Option.some.injEq]
    exact hmin.ne'
  rw [atoms_of, if_pos hhead, List.head?_cons, List.tail_cons, List.getLast?_eq_some_getLast
    (List.cons_ne_nil _ _), ← windows_eq cut cuts h]
  rfl

/-- The first atom ends before the second one begins. -/
def Before (a b : Bounds) : Prop := ∃ u l, a.2 = some u ∧ b.1 = some l ∧ u < l

def Meets (a : Bounds) : Prop := ∃ n, Within a.1 a.2 n

/-- An atom that is on one side of a cut. -/
def Beside (cut : ℤ) (a : Bounds) : Prop :=
  (∃ u, a.2 = some u ∧ u < cut) ∨ ∃ l, a.1 = some l ∧ cut ≤ l

theorem le_lower_of_mem_atoms_from {cut : ℤ} {cuts : List ℤ} (h : (cut :: cuts).Pairwise (· < ·))
    {a : Bounds} (ha : a ∈ atoms_from cut cuts) : ∃ l, a.1 = some l ∧ cut ≤ l := by
  induction cuts generalizing cut with
  | nil =>
    obtain rfl := List.mem_singleton.mp ha
    exact ⟨cut, rfl, le_rfl⟩
  | cons next cuts ih =>
    obtain ⟨hcut, hcuts⟩ := List.pairwise_cons.mp h
    obtain rfl | ha := List.mem_cons.mp ha
    · exact ⟨cut, rfl, le_rfl⟩
    · obtain ⟨l, hl, hle⟩ := ih hcuts ha
      exact ⟨l, hl, (hcut next List.mem_cons_self).le.trans hle⟩

theorem atoms_from_meet {cut : ℤ} {cuts : List ℤ} (h : (cut :: cuts).Pairwise (· < ·)) :
    ∀ a ∈ atoms_from cut cuts, Meets a := by
  induction cuts generalizing cut with
  | nil =>
    intro a ha
    obtain rfl := List.mem_singleton.mp ha
    exact ⟨cut, within_from.mpr le_rfl⟩
  | cons next cuts ih =>
    obtain ⟨hcut, hcuts⟩ := List.pairwise_cons.mp h
    have hlt := hcut next List.mem_cons_self
    intro a ha
    obtain rfl | ha := List.mem_cons.mp ha
    · exact ⟨cut, within_between.mpr ⟨le_rfl, by omega⟩⟩
    · exact ih hcuts a ha

theorem atoms_from_pairwise {cut : ℤ} {cuts : List ℤ} (h : (cut :: cuts).Pairwise (· < ·)) :
    (atoms_from cut cuts).Pairwise Before := by
  induction cuts generalizing cut with
  | nil => exact List.pairwise_singleton _ _
  | cons next cuts ih =>
    obtain ⟨-, hcuts⟩ := List.pairwise_cons.mp h
    apply List.pairwise_cons.mpr
    refine ⟨?_, ih hcuts⟩
    intro a ha
    obtain ⟨l, hl, hle⟩ := le_lower_of_mem_atoms_from hcuts ha
    exact ⟨next - 1, l, rfl, hl, by omega⟩

theorem atoms_from_cover {cut : ℤ} {cuts : List ℤ} {n : ℤ} (hn : cut ≤ n) :
    ∃ a ∈ atoms_from cut cuts, Within a.1 a.2 n := by
  induction cuts generalizing cut with
  | nil => exact ⟨_, List.mem_singleton_self _, within_from.mpr hn⟩
  | cons next cuts ih =>
    by_cases hnext : next ≤ n
    · obtain ⟨a, ha, hwithin⟩ := ih hnext
      exact ⟨a, List.mem_cons_of_mem _ ha, hwithin⟩
    · exact ⟨_, List.mem_cons_self, within_between.mpr ⟨hn, by omega⟩⟩

theorem atoms_from_beside {cut : ℤ} {cuts : List ℤ} (h : (cut :: cuts).Pairwise (· < ·)) :
    ∀ c ∈ cut :: cuts, ∀ a ∈ atoms_from cut cuts, Beside c a := by
  induction cuts generalizing cut with
  | nil =>
    intro c hc a ha
    obtain rfl := List.mem_singleton.mp hc
    obtain rfl := List.mem_singleton.mp ha
    exact Or.inr ⟨c, rfl, le_rfl⟩
  | cons next cuts ih =>
    obtain ⟨hcut, hcuts⟩ := List.pairwise_cons.mp h
    intro c hc a ha
    obtain rfl | hc := List.mem_cons.mp hc
    · exact Or.inr (le_lower_of_mem_atoms_from h ha)
    · obtain rfl | ha := List.mem_cons.mp ha
      · left
        refine ⟨next - 1, rfl, ?_⟩
        obtain rfl | hc := List.mem_cons.mp hc
        · omega
        · have := (List.pairwise_cons.mp hcuts).1 c hc
          omega
      · exact ih hcuts c hc a ha

theorem Before.lt {a b : Bounds} (h : Before a b) {m n : ℤ} (hm : Within a.1 a.2 m)
    (hn : Within b.1 b.2 n) : m < n := by
  obtain ⟨u, l, hu, hl, hlt⟩ := h
  exact (hm.2 u hu).trans_lt (hlt.trans_le (hn.1 l hl))

/-- The atoms are increasing, none is empty, and every integer is in one. -/
structure IsPartition (atoms : List Bounds) : Prop where
  nonempty : ∀ a ∈ atoms, ∃ n, Within a.1 a.2 n
  increasing : atoms.Pairwise fun a b =>
    ∀ m n, Within a.1 a.2 m → Within b.1 b.2 n → m < n
  covers : ∀ n : ℤ, ∃ a ∈ atoms, Within a.1 a.2 n

theorem Cuts.Valid.exists_cons {s : Cuts} (hs : s.Valid) (hne : s.cuts ≠ []) :
    ∃ cut cuts, s.cuts = cut :: cuts ∧ (cut :: cuts).Pairwise (· < ·) ∧ i64_min < cut := by
  obtain ⟨cut, cuts, heq⟩ := List.exists_cons_of_ne_nil hne
  refine ⟨cut, cuts, heq, heq ▸ hs.sorted, (hs.range cut ?_).1⟩
  rw [heq]
  exact List.mem_cons_self

theorem isPartition_atoms_of {s : Cuts} (hs : s.Valid) (hne : s.cuts ≠ []) :
    IsPartition (atoms_of s.cuts) := by
  obtain ⟨cut, cuts, heq, hsorted, hmin⟩ := hs.exists_cons hne
  rw [heq, atoms_of_cons hsorted hmin]
  constructor
  · intro a ha
    obtain rfl | ha := List.mem_cons.mp ha
    · exact ⟨cut - 1, within_to.mpr le_rfl⟩
    · exact atoms_from_meet hsorted a ha
  · have hpairwise : ((none, some (cut - 1)) :: atoms_from cut cuts).Pairwise Before := by
      apply List.pairwise_cons.mpr
      refine ⟨?_, atoms_from_pairwise hsorted⟩
      intro a ha
      obtain ⟨l, hl, hle⟩ := le_lower_of_mem_atoms_from hsorted ha
      exact ⟨cut - 1, l, rfl, hl, by omega⟩
    exact hpairwise.imp fun h m n => h.lt
  · intro n
    by_cases hn : cut ≤ n
    · have hcover : ∃ a ∈ atoms_from cut cuts, Within a.1 a.2 n := atoms_from_cover hn
      obtain ⟨a, ha, hwithin⟩ := hcover
      exact ⟨a, List.mem_cons_of_mem _ ha, hwithin⟩
    · exact ⟨_, List.mem_cons_self, within_to.mpr (by omega)⟩

theorem beside_atoms_of {s : Cuts} (hs : s.Valid) {c : ℤ} (hc : c ∈ s.cuts) :
    ∀ a ∈ atoms_of s.cuts, Beside c a := by
  obtain ⟨cut, cuts, heq, hsorted, hmin⟩ := hs.exists_cons (List.ne_nil_of_mem hc)
  rw [heq] at hc
  rw [heq, atoms_of_cons hsorted hmin]
  intro a ha
  obtain rfl | ha := List.mem_cons.mp ha
  · left
    refine ⟨cut - 1, rfl, ?_⟩
    obtain rfl | hc := List.mem_cons.mp hc
    · omega
    · have := (List.pairwise_cons.mp hsorted).1 c hc
      omega
  · exact atoms_from_beside hsorted c hc a ha

def SharedIntegerAtom.bounds (atom : SharedIntegerAtom) : Bounds := (atom.lower, atom.upper)

/-- The scan and the names of a list of atoms that is not empty. -/
theorem collect_shared_integer_atoms_spec {document : SchemaDocument}
    {atoms : List SharedIntegerAtom} (h : collect_shared_integer_atoms document = .ok atoms)
    (hne : atoms ≠ []) :
    ∃ s : Cuts, document.numbers.foldlM add_number ⟨[], true⟩ = .ok s ∧ s.Valid ∧
      s.representable = true ∧ s.cuts ≠ [] ∧
      atoms.map SharedIntegerAtom.bounds = atoms_of s.cuts ∧
      ∀ atom ∈ atoms, ∃ index : ℕ,
        atom.rule_name = JSON_INTEGER_ATOM_RULE_PREFIX ++ toString index := by
  unfold collect_shared_integer_atoms at h
  rw [collect_document_eq] at h
  cases hscan : document.numbers.foldlM add_number ⟨[], true⟩ with
  | error e =>
    rw [hscan] at h
    cases h
  | ok s =>
    rw [hscan] at h
    change (if s.representable = false ∨ s.cuts = [] then Except.ok [] else Except.ok _) = _ at h
    split_ifs at h with hempty
    · cases h
      exact absurd rfl hne
    · cases h
      obtain ⟨hrep, hcuts⟩ := not_or.mp hempty
      refine ⟨s, rfl, (foldlM_add_number_spec valid_empty hscan).1, by simpa using hrep, hcuts,
        ?_, ?_⟩
      · apply List.ext_getElem?
        intro i
        rw [List.getElem?_map, List.getElem?_mapIdx]
        cases (atoms_of s.cuts)[i]? <;> rfl
      · intro atom hatom
        obtain ⟨i, hi, rfl⟩ := List.mem_mapIdx.mp hatom
        exact ⟨i, rfl⟩

theorem noneOr_iff {bound : Option ℤ} {p : ℤ → Bool} :
    noneOr bound p = true ↔ ∀ b, bound = some b → p b = true := by
  cases bound <;> simp [noneOr]

/-- An integer of an atom that is in the range makes the atom meet the range. -/
theorem SharedIntegerAtom.intersects_of_within {atom : SharedIntegerAtom} {lower upper : Option ℤ}
    {n : ℤ} (hatom : Within atom.lower atom.upper n) (hrange : Within lower upper n) :
    atom.intersects lower upper = true := by
  rw [SharedIntegerAtom.intersects, Bool.and_eq_true, noneOr_iff, noneOr_iff]
  constructor
  · intro a ha
    rw [noneOr_iff]
    intro l hl
    exact decide_eq_true ((hrange.1 l hl).trans (hatom.2 a ha))
  · intro a ha
    rw [noneOr_iff]
    intro u hu
    exact decide_eq_true ((hatom.1 a ha).trans (hrange.2 u hu))

theorem SharedIntegerAtom.contained_iff {atom : SharedIntegerAtom} {lower upper : Option ℤ} :
    atom.contained lower upper = true ↔
      (∀ l, lower = some l → ∃ a, atom.lower = some a ∧ l ≤ a) ∧
        ∀ u, upper = some u → ∃ a, atom.upper = some a ∧ a ≤ u := by
  rw [SharedIntegerAtom.contained, Bool.and_eq_true, noneOr_iff, noneOr_iff]
  simp only [Option.any_eq_true, decide_eq_true_eq]

theorem SharedIntegerAtom.within_of_contained {atom : SharedIntegerAtom} {lower upper : Option ℤ}
    (h : atom.contained lower upper = true) {n : ℤ} (hn : Within atom.lower atom.upper n) :
    Within lower upper n := by
  obtain ⟨hl, hu⟩ := SharedIntegerAtom.contained_iff.mp h
  constructor
  · intro l hlower
    obtain ⟨a, ha, hle⟩ := hl l hlower
    exact hle.trans (hn.1 a ha)
  · intro u hupper
    obtain ⟨a, ha, hle⟩ := hu u hupper
    exact (hn.2 a ha).trans hle

/-- An atom that meets a range between cuts is contained in it. -/
theorem SharedIntegerAtom.contained_of_beside {atom : SharedIntegerAtom} {lower upper : Option ℤ}
    (hl : ∀ l, lower = some l → Beside l atom.bounds)
    (hu : ∀ u, upper = some u → Beside (u + 1) atom.bounds)
    (h : atom.intersects lower upper = true) : atom.contained lower upper = true := by
  rw [SharedIntegerAtom.intersects, Bool.and_eq_true, noneOr_iff, noneOr_iff] at h
  obtain ⟨hupper, hlower⟩ := h
  rw [SharedIntegerAtom.contained_iff]
  constructor
  · intro l hsome
    obtain ⟨a, ha, hlt⟩ | hfrom := hl l hsome
    · have := of_decide_eq_true (noneOr_iff.mp (hupper a ha) l hsome)
      omega
    · exact hfrom
  · intro u hsome
    obtain ⟨a, ha, hlt⟩ | ⟨a, ha, hle⟩ := hu u hsome
    · exact ⟨a, ha, by omega⟩
    · have := of_decide_eq_true (noneOr_iff.mp (hlower a ha) u hsome)
      omega

/-- The alternatives of a choice; anything else is its only alternative. -/
def GrammarExpr.alternatives : GrammarExpr → List GrammarExpr
  | .choice alternatives => alternatives
  | expr => [expr]

def SharedIntegerAtom.expr (atom : SharedIntegerAtom) : GrammarExpr := .ref atom.rule_name

theorem atom_rule_ne_number (index : ℕ) :
    JSON_INTEGER_ATOM_RULE_PREFIX ++ toString index ≠ JSON_NUMBER_RULE := by
  intro h
  have hlength := congrArg String.length h
  rw [String.length_append] at hlength
  have hrule : JSON_INTEGER_ATOM_RULE_PREFIX.length = 18 := by decide
  have hnumber : JSON_NUMBER_RULE.length = 11 := by decide
  omega

theorem choice_atoms {atoms : List SharedIntegerAtom}
    (h : ∀ atom ∈ atoms, ∃ index : ℕ,
      atom.rule_name = JSON_INTEGER_ATOM_RULE_PREFIX ++ toString index) :
    (choice (atoms.map SharedIntegerAtom.expr)).alternatives =
      atoms.map SharedIntegerAtom.expr := by
  have hnone : (atoms.map SharedIntegerAtom.expr).any GrammarExpr.isNumberRule = false := by
    rw [List.any_eq_false]
    intro expr hexpr
    obtain ⟨atom, hatom, rfl⟩ := List.mem_map.mp hexpr
    obtain ⟨index, hname⟩ := h atom hatom
    rw [SharedIntegerAtom.expr, GrammarExpr.isNumberRule, hname, decide_eq_true_eq]
    exact atom_rule_ne_number index
  unfold choice
  rw [hnone]
  match atoms with
  | [] => rfl
  | [atom] => rfl
  | atom :: next :: atoms => rfl

/-- The answer declines, or it is the choice of atoms that make up the range. -/
def Answers (atoms : List SharedIntegerAtom) (lower upper : Option ℤ) :
    Option GrammarExpr → Prop
  | none => True
  | some expr => ∃ chosen : List SharedIntegerAtom, chosen.Sublist atoms ∧
      expr.alternatives = chosen.map SharedIntegerAtom.expr ∧
      ∀ n : ℤ, Within lower upper n ↔ ∃ atom ∈ chosen, Within atom.lower atom.upper n

/-- A plain integer range of the document. -/
def SchemaDocument.Scanned (document : SchemaDocument) (lower upper : Option ℤ) : Prop :=
  ∃ number ∈ document.numbers, RangeOf number lower upper

theorem add_atom_rules_eq_ok {atoms : List SharedIntegerAtom} {lowerer result : Lowerer}
    (h : atoms.foldlM (fun lowerer atom => do
      let regex ← rx_int_range atom.lower atom.upper
      return Lowerer.add_terminal_rule lowerer atom.rule_name (.raw_regex regex)) lowerer =
        (.ok result : RangeResult Lowerer)) :
    result.shared_integer_atoms = lowerer.shared_integer_atoms := by
  induction atoms generalizing lowerer with
  | nil =>
    cases h
    rfl
  | cons atom atoms ih =>
    rw [List.foldlM_cons] at h
    obtain ⟨next, hnext, h⟩ := bind_eq_ok h
    obtain ⟨regex, -, hadd⟩ := bind_eq_ok hnext
    cases hadd
    have hrest := ih h
    exact hrest

theorem ensure_shared_integer_atom_rules_eq_ok {lowerer result : Lowerer}
    (h : lowerer.ensure_shared_integer_atom_rules = .ok result) :
    result.shared_integer_atoms = lowerer.shared_integer_atoms := by
  unfold Lowerer.ensure_shared_integer_atom_rules at h
  split_ifs at h with hdone
  · cases h
    rfl
  · obtain ⟨next, hnext, h⟩ := bind_eq_ok h
    cases h
    have hrest := add_atom_rules_eq_ok hnext
    exact hrest

theorem shared_integer_range_expr_cases {lowerer : Lowerer} {lower upper : Option ℤ}
    {result : Option GrammarExpr × Lowerer}
    (h : lowerer.shared_integer_range_expr lower upper = .ok result) :
    (result.1 = none ∧ (lowerer.shared_integer_atoms = [] ∨
      ∃ atom ∈ lowerer.shared_integer_atoms,
        atom.intersects lower upper = true ∧ atom.contained lower upper = false)) ∨
    (lowerer.shared_integer_atoms ≠ [] ∧
      result.1 = some (choice ((lowerer.shared_integer_atoms.filter fun atom =>
        atom.contained lower upper).map SharedIntegerAtom.expr)) ∧
      ∀ atom ∈ lowerer.shared_integer_atoms,
        atom.intersects lower upper = true → atom.contained lower upper = true) := by
  unfold Lowerer.shared_integer_range_expr at h
  split_ifs at h with hempty hsplit
  · cases h
    exact Or.inl ⟨rfl, Or.inl hempty⟩
  · cases h
    obtain ⟨atom, hatom, hcond⟩ := List.any_eq_true.mp hsplit
    rw [Bool.and_eq_true, Bool.not_eq_true'] at hcond
    exact Or.inl ⟨rfl, Or.inr ⟨atom, hatom, hcond⟩⟩
  · obtain ⟨next, hnext, h⟩ := bind_eq_ok h
    cases h
    rw [ensure_shared_integer_atom_rules_eq_ok hnext]
    refine Or.inr ⟨hempty, rfl, ?_⟩
    intro atom hatom hmeets
    by_contra hcontained
    apply hsplit
    rw [List.any_eq_true]
    exact ⟨atom, hatom, by simp [hmeets, hcontained]⟩

/-- A scanned range begins and ends between atoms. -/
theorem scanned_contained {document : SchemaDocument} {atoms : List SharedIntegerAtom}
    (h : collect_shared_integer_atoms document = .ok atoms) {atom : SharedIntegerAtom}
    (hatom : atom ∈ atoms) {lower upper : Option ℤ} (hscanned : document.Scanned lower upper)
    (hmeets : atom.intersects lower upper = true) : atom.contained lower upper = true := by
  obtain ⟨s, hscan, hvalid, hrep, hcuts, hbounds, -⟩ :=
    collect_shared_integer_atoms_spec h (List.ne_nil_of_mem hatom)
  obtain ⟨number, hnumber, hrange⟩ := hscanned
  obtain ⟨-, -, -, hhas⟩ := foldlM_add_number_spec valid_empty hscan
  obtain ⟨hlower, hupper⟩ := hhas number hnumber lower upper hrange hrep
  have hmem : atom.bounds ∈ atoms_of s.cuts := hbounds ▸ List.mem_map_of_mem hatom
  apply SharedIntegerAtom.contained_of_beside _ _ hmeets
  · intro l hl
    exact beside_atoms_of hvalid (hlower l hl) _ hmem
  · intro u hu
    exact beside_atoms_of hvalid (hupper u hu) _ hmem

/-- The atoms of a document cut the integers up, and a range is declined or written as the
union of its atoms; a scanned range is not declined when there are atoms. -/
theorem shared_integer_atoms_correct (document : SchemaDocument) (atoms : List SharedIntegerAtom)
    (h : collect_shared_integer_atoms document = .ok atoms) :
    (atoms ≠ [] → IsPartition (atoms.map SharedIntegerAtom.bounds)) ∧
      ∀ (lowerer : Lowerer) (lower upper : Option ℤ) (result : Option GrammarExpr × Lowerer),
        lowerer.shared_integer_atoms = atoms →
        lowerer.shared_integer_range_expr lower upper = .ok result →
        Answers atoms lower upper result.1 ∧
          (atoms ≠ [] → document.Scanned lower upper → result.1 ≠ none) := by
  constructor
  · intro hne
    obtain ⟨s, hscan, hvalid, hrep, hcuts, hbounds, hnames⟩ :=
      collect_shared_integer_atoms_spec h hne
    rw [hbounds]
    exact isPartition_atoms_of hvalid hcuts
  · intro lowerer lower upper result hatoms hresult
    obtain ⟨hnone, hwhy⟩ | ⟨hne, hsome, hall⟩ := shared_integer_range_expr_cases hresult
    · refine ⟨hnone ▸ trivial, ?_⟩
      intro hne hscanned
      obtain hempty | ⟨atom, hatom, hmeets, hsplit⟩ := hwhy
      · exact absurd (hatoms.symm.trans hempty) hne
      · rw [hatoms] at hatom
        rw [scanned_contained h hatom hscanned hmeets] at hsplit
        cases hsplit
    · rw [hatoms] at hne hsome hall
      refine ⟨?_, fun _ _ => hsome ▸ Option.some_ne_none _⟩
      rw [hsome]
      refine ⟨atoms.filter fun atom => atom.contained lower upper, List.filter_sublist, ?_, ?_⟩
      · apply choice_atoms
        intro atom hatom
        have hmem := (List.mem_filter.mp hatom).1
        obtain ⟨-, -, -, -, -, -, hnames⟩ :=
          collect_shared_integer_atoms_spec h (List.ne_nil_of_mem hmem)
        exact hnames atom hmem
      · intro n
        constructor
        · intro hn
          obtain ⟨s, -, hvalid, -, hcuts, hbounds, -⟩ := collect_shared_integer_atoms_spec h hne
          obtain ⟨bounds, hmem, hwithin⟩ := (isPartition_atoms_of hvalid hcuts).covers n
          rw [← hbounds] at hmem
          obtain ⟨atom, hatom, rfl⟩ := List.mem_map.mp hmem
          have hmeets := SharedIntegerAtom.intersects_of_within hwithin hn
          exact ⟨atom, List.mem_filter.mpr ⟨hatom, hall atom hatom hmeets⟩, hwithin⟩
        · intro hn
          obtain ⟨atom, hatom, hwithin⟩ := hn
          exact SharedIntegerAtom.within_of_contained (List.mem_filter.mp hatom).2 hwithin

/-- The double of a small integer. -/
def smallInteger (n : ℤ) (h : |n| < 2 ^ 53) : FiniteDouble := ⟨n, 0, h, by decide⟩

theorem smallInteger_value (n : ℤ) (h : |n| < 2 ^ 53) : (smallInteger n h).value = n := by
  rw [FiniteDouble.value, smallInteger, zpow_zero, mul_one]

def integerSchema (number : NumberSchema) : Schema :=
  .assertions (some [.integer]) (some number) none none [] [] [] none

/-- The schema of the integers from 0 to 10. -/
def zeroToTen : NumberSchema where
  minimum := some (.finite (smallInteger 0 (by decide)))
  maximum := some (.finite (smallInteger 10 (by decide)))
  exclusive_minimum := false
  exclusive_maximum := false
  multiple_of := none

def zeroToTenDocument : SchemaDocument := ⟨integerSchema zeroToTen, [], []⟩

def zeroToTenAtoms : List SharedIntegerAtom :=
  [⟨none, some (-1), "JSON_INTEGER_ATOM_0"⟩, ⟨some 0, some 10, "JSON_INTEGER_ATOM_1"⟩,
    ⟨some 11, none, "JSON_INTEGER_ATOM_2"⟩]

theorem rangeOf_zeroToTen : RangeOf zeroToTen (some 0) (some 10) := by
  constructor
  · have hmin : zeroToTen.minimum = some (.finite (smallInteger 0 (by decide))) := rfl
    rw [integer_lower_bound_eq hmin, smallInteger_value, Int.ceil_intCast]
    rfl
  · have hmax : zeroToTen.maximum = some (.finite (smallInteger 10 (by decide))) := rfl
    rw [integer_upper_bound_eq hmax, smallInteger_value, Int.floor_intCast]
    rfl

theorem collect_zeroToTen : collect_shared_integer_atoms zeroToTenDocument = .ok zeroToTenAtoms := by
  have hnumbers : zeroToTenDocument.numbers = [zeroToTen] := rfl
  have hscan : collect_document zeroToTenDocument = .ok ⟨[0, 11], true⟩ := by
    obtain ⟨hlower, hupper⟩ := rangeOf_zeroToTen
    rw [collect_document_eq, hnumbers, List.foldlM_cons, add_number, hlower, hupper]
    rfl
  rw [collect_shared_integer_atoms, hscan]
  rfl

theorem shared_integer_atoms_zeroToTen :
    IsPartition (zeroToTenAtoms.map SharedIntegerAtom.bounds) ∧
      Answers zeroToTenAtoms (some 0) (some 10) (some (.ref "JSON_INTEGER_ATOM_1")) := by
  obtain ⟨hpartition, hanswers⟩ :=
    shared_integer_atoms_correct zeroToTenDocument zeroToTenAtoms collect_zeroToTen
  refine ⟨hpartition (by simp [zeroToTenAtoms]), ?_⟩
  exact (hanswers ⟨zeroToTenAtoms, true, []⟩ (some 0) (some 10)
    (some (.ref "JSON_INTEGER_ATOM_1"), ⟨zeroToTenAtoms, true, []⟩) rfl rfl).1

/-- The schema of the integers from the smallest `i64` on. -/
def fromMin : NumberSchema where
  minimum := some (.finite ⟨-1, 63, by decide, by decide⟩)
  maximum := none
  exclusive_minimum := false
  exclusive_maximum := false
  multiple_of := none

/-- A scanned range from the smallest `i64` on leaves no atoms and is declined. -/
theorem shared_integer_atoms_decline :
    ∃ document : SchemaDocument, collect_shared_integer_atoms document = .ok [] ∧
      document.Scanned (some i64_min) none ∧
      (⟨[], false, []⟩ : Lowerer).shared_integer_range_expr (some i64_min) none =
        .ok (none, ⟨[], false, []⟩) := by
  have hmin : fromMin.minimum = some (.finite ⟨-1, 63, by decide, by decide⟩) := rfl
  have hvalue : (⟨-1, 63, by decide, by decide⟩ : FiniteDouble).value = ((-2 ^ 63 : ℤ) : ℚ) := by
    norm_num [FiniteDouble.value]
  have hlower : integer_lower_bound fromMin = .ok (some i64_min) := by
    rw [integer_lower_bound_eq hmin, hvalue, Int.ceil_intCast]
    rfl
  have hscan : collect_document ⟨integerSchema fromMin, [], []⟩ = .ok ⟨[], false⟩ := by
    have hnumbers : (⟨integerSchema fromMin, [], []⟩ : SchemaDocument).numbers = [fromMin] := rfl
    rw [collect_document_eq, hnumbers, List.foldlM_cons, add_number, hlower]
    rfl
  refine ⟨⟨integerSchema fromMin, [], []⟩, ?_, ?_, rfl⟩
  · rw [collect_shared_integer_atoms, hscan]
    rfl
  · exact ⟨fromMin, List.mem_singleton_self _, hlower, rfl⟩

end NumericRange

end GlrMask
