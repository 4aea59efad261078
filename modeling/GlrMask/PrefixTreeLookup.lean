import GlrMask.PrefixTree

/-!
# Lookups in a well-formed prefix tree

In a well-formed tree the edges of a node start with increasing bytes, and the
recorded ids and bytes are those of the entries below the node. Lookups then
find exactly the entries of the tree.
-/

namespace GlrMask

open VocabPrefixTreeNode

/-! ## Masks -/

@[simp] theorem contains_zero (byte : Byte) : ByteMask.contains (fun _ => 0#64) byte = false := by
  simp [ByteMask.contains]

theorem wordOf_eq_and_mod {a b : Byte} (hw : wordOf a = wordOf b) (hm : a.val % 64 = b.val % 64) :
    a = b := by
  have hdiv : a.val / 64 = b.val / 64 := congrArg Fin.val hw
  apply Fin.ext
  omega

theorem contains_insert_byte (mask : ByteMask) (a b : Byte) :
    (insert_byte mask a).contains b = true ↔ b = a ∨ mask.contains b = true := by
  simp only [ByteMask.contains, insert_byte]
  by_cases hw : wordOf b = wordOf a
  · have hlt : b.val % 64 < 64 := Nat.mod_lt _ (by omega)
    rw [hw, Function.update_self, BitVec.getLsbD_or, BitVec.getLsbD_shiftLeft]
    have hone : (1#64).getLsbD (b.val % 64 - a.val % 64) =
        decide (b.val % 64 - a.val % 64 = 0) := by
      rw [BitVec.getLsbD_one]
      simp
    rw [hone]
    have hiff : b = a ↔ b.val % 64 = a.val % 64 :=
      ⟨fun h => by rw [h], fun h => wordOf_eq_and_mod hw h⟩
    rw [hiff]
    by_cases hm : b.val % 64 = a.val % 64
    · have hlt' : a.val % 64 < 64 := Nat.mod_lt _ (by omega)
      simp [hm, hlt']
    · have hz : ¬ (a.val % 64 ≤ b.val % 64 ∧ b.val % 64 - a.val % 64 = 0) := by omega
      simp only [hm, hlt, decide_true, Bool.true_and, Bool.or_eq_true, Bool.and_eq_true,
        Bool.not_eq_true', decide_eq_false_iff_not, decide_eq_true_eq, not_lt, hz, or_false,
        false_or]
  · rw [Function.update_of_ne hw]
    have hne : b ≠ a := fun h => hw (h ▸ rfl)
    simp [hne]

theorem contains_insert_bytes (bytes : List Byte) (mask : ByteMask) (b : Byte) :
    (insert_bytes_into_mask mask bytes).contains b = true ↔ b ∈ bytes ∨ mask.contains b = true := by
  induction bytes generalizing mask with
  | nil => simp [insert_bytes_into_mask]
  | cons a bytes ih =>
      change (insert_bytes_into_mask (insert_byte mask a) bytes).contains b = true ↔ _
      rw [ih, contains_insert_byte, List.mem_cons]
      tauto

theorem contains_mergeMasks (m m' : ByteMask) (b : Byte) :
    (mergeMasks m m').contains b = true ↔ m.contains b = true ∨ m'.contains b = true := by
  simp [ByteMask.contains, mergeMasks]

/-- The metadata merged from a list of children. -/
theorem merged_metadata (children : List VocabPrefixTreeNode) (len : ℕ)
    (metadata : Finset ℕ × ByteMask) :
    (∀ id, id ∈ (children.foldl (merge_child_metadata len) metadata).1 ↔
        id ∈ metadata.1 ∨ ∃ c ∈ children, id ∈ c.reachable_token_ids) ∧
      ∀ byte, (children.foldl (merge_child_metadata len) metadata).2.contains byte = true ↔
        metadata.2.contains byte = true ∨
          ∃ c ∈ children, byte ∈ c.prefixBytes.drop len ∨ c.subtree_bytes.contains byte = true := by
  induction children generalizing metadata with
  | nil => simp
  | cons c children ih =>
      obtain ⟨hids, hbytes⟩ := ih (merge_child_metadata len metadata c)
      refine ⟨fun id => ?_, fun byte => ?_⟩
      · rw [List.foldl_cons, hids, List.exists_mem_cons_iff]
        simp only [merge_child_metadata, Finset.mem_union]
        tauto
      · rw [List.foldl_cons, hbytes, List.exists_mem_cons_iff]
        simp only [merge_child_metadata, contains_mergeMasks, contains_insert_bytes]
        rw [or_comm (a := byte ∈ _), or_assoc, or_assoc, or_assoc]

/-! ## Well-formed trees -/

theorem mem_forestTokens {children : List VocabPrefixTreeNode} {t : VocabEntry} :
    t ∈ forestTokens children ↔ ∃ c ∈ children, t ∈ c.tokens := by
  induction children with
  | nil => simp [forestTokens]
  | cons c children ih => rw [forestTokens, List.mem_append, ih, List.exists_mem_cons_iff]

theorem mem_tokens {n : VocabPrefixTreeNode} {t : VocabEntry} :
    t ∈ n.tokens ↔ n.has_token = true ∧ t = (n.token_id, n.prefixBytes) ∨
      ∃ c ∈ n.children, t ∈ c.tokens := by
  cases n with
  | mk id has bytes children ids mask =>
      rw [tokens, List.mem_append, mem_forestTokens]
      cases has <;> simp [has_token, token_id, VocabPrefixTreeNode.prefixBytes,
        VocabPrefixTreeNode.children]

theorem mem_forestNodes {children : List VocabPrefixTreeNode} {m : VocabPrefixTreeNode} :
    m ∈ forestNodes children ↔ ∃ c ∈ children, m ∈ c.nodes := by
  induction children with
  | nil => simp [forestNodes]
  | cons c children ih => rw [forestNodes, List.mem_append, ih, List.exists_mem_cons_iff]

theorem mem_nodes {n m : VocabPrefixTreeNode} :
    m ∈ n.nodes ↔ m = n ∨ ∃ c ∈ n.children, m ∈ c.nodes := by
  cases n with
  | mk id has bytes children ids mask =>
      rw [nodes, List.mem_cons, mem_forestNodes]
      rfl

/-- The byte with which the edge to a child starts. -/
def edgeByte (n c : VocabPrefixTreeNode) : Option Byte := c.prefixBytes[n.prefixBytes.length]?

inductive Wf : VocabPrefixTreeNode → Prop
  | mk {n : VocabPrefixTreeNode}
      (children : ∀ c ∈ n.children, Wf c)
      (nonempty : ∀ c ∈ n.children, c.tokens ≠ [])
      (extend : ∀ c ∈ n.children, n.prefixBytes <+: c.prefixBytes ∧
        n.prefixBytes.length < c.prefixBytes.length)
      (increasing : n.children.Pairwise fun c d =>
        ∀ x ∈ edgeByte n c, ∀ y ∈ edgeByte n d, x < y)
      (ids : ∀ id, id ∈ n.reachable_token_ids ↔ ∃ bytes, (id, bytes) ∈ n.tokens)
      (bytes : ∀ byte, n.subtree_bytes.contains byte = true ↔
        ∃ t ∈ n.tokens, byte ∈ t.2.drop n.prefixBytes.length) : Wf n

theorem Wf.token_extends {n : VocabPrefixTreeNode} (h : Wf n) {t : VocabEntry} (ht : t ∈ n.tokens) :
    n.prefixBytes <+: t.2 := by
  induction h with
  | mk _ _ extend _ _ _ ih =>
      rcases mem_tokens.mp ht with ⟨-, rfl⟩ | ⟨c, hc, htc⟩
      · exact List.prefix_rfl
      · exact (extend c hc).1.trans (ih c hc htc)

theorem edgeByte_of_extends {n c : VocabPrefixTreeNode} {bytes : List Byte}
    (hlt : n.prefixBytes.length < c.prefixBytes.length) (h : c.prefixBytes <+: bytes) :
    ∃ x, edgeByte n c = some x ∧ bytes[n.prefixBytes.length]? = some x := by
  refine ⟨c.prefixBytes[n.prefixBytes.length], List.getElem?_eq_getElem hlt, ?_⟩
  rw [h.getElem hlt]
  exact List.getElem?_eq_getElem _

theorem eq_of_pairwise {α : Type*} {R : α → α → Prop} {l : List α} (hl : l.Pairwise R) {a b : α}
    (ha : a ∈ l) (hb : b ∈ l) (hab : ¬ R a b) (hba : ¬ R b a) : a = b := by
  induction l with
  | nil => simp at ha
  | cons c l ih =>
      rcases List.mem_cons.mp ha with rfl | ha'
      · rcases List.mem_cons.mp hb with rfl | hb'
        · rfl
        · exact absurd (List.rel_of_pairwise_cons hl hb') hab
      · rcases List.mem_cons.mp hb with rfl | hb'
        · exact absurd (List.rel_of_pairwise_cons hl ha') hba
        · exact ih hl.tail ha' hb'

/-- Two children on the way to the same bytes are the same child. -/
theorem Wf.child_unique {n c d : VocabPrefixTreeNode} (h : Wf n) (hc : c ∈ n.children)
    (hd : d ∈ n.children) {bytes : List Byte} (hcb : c.prefixBytes <+: bytes)
    (hdb : d.prefixBytes <+: bytes) : c = d := by
  cases h with
  | mk _ _ extend increasing _ _ =>
      obtain ⟨x, hcx, hx⟩ := edgeByte_of_extends (extend c hc).2 hcb
      obtain ⟨y, hdy, hy⟩ := edgeByte_of_extends (extend d hd).2 hdb
      obtain rfl : x = y := Option.some.inj (hx.symm.trans hy)
      apply eq_of_pairwise increasing hc hd
      · exact fun hlt => lt_irrefl x (hlt x hcx x hdy)
      · exact fun hlt => lt_irrefl x (hlt x hdy x hcx)

theorem Wf.mem_tokens_of_extends {n m : VocabPrefixTreeNode} (h : Wf n) (hm : m ∈ n.nodes) :
    n.prefixBytes <+: m.prefixBytes ∧ Wf m ∧
      ∀ t, t ∈ m.tokens ↔ t ∈ n.tokens ∧ m.prefixBytes <+: t.2 := by
  induction h with
  | @mk n children nonempty extend increasing ids bytes ih =>
      have hn : Wf n := Wf.mk children nonempty extend increasing ids bytes
      rcases mem_nodes.mp hm with rfl | ⟨c, hc, hmc⟩
      · exact ⟨List.prefix_rfl, hn, fun t => ⟨fun ht => ⟨ht, hn.token_extends ht⟩, And.left⟩⟩
      · obtain ⟨hcm, hwf, htok⟩ := ih c hc hmc
        refine ⟨(extend c hc).1.trans hcm, hwf, fun t => ?_⟩
        rw [htok]
        constructor
        · rintro ⟨ht, hpre⟩
          exact ⟨mem_tokens.mpr (Or.inr ⟨c, hc, ht⟩), hpre⟩
        · rintro ⟨ht, hpre⟩
          refine ⟨?_, hpre⟩
          rcases mem_tokens.mp ht with ⟨-, rfl⟩ | ⟨d, hd, htd⟩
          · have := (hcm.trans hpre).length_le
            have := (extend c hc).2
            simp only at *
            omega
          · have hdt := (children d hd).token_extends htd
            rwa [hn.child_unique hc hd (hcm.trans hpre) hdt]

/-! ## Lookups -/

/-- The next child on the way to some bytes is the one whose prefix they extend. -/
theorem Wf.next_matching_child_of_extends {n c : VocabPrefixTreeNode} (h : Wf n)
    (hc : c ∈ n.children) {remaining : List Byte}
    (hpre : c.prefixBytes <+: n.prefixBytes ++ remaining) :
    ∃ rest, next_matching_child n remaining = some (c, rest) := by
  have hext : n.prefixBytes <+: c.prefixBytes ∧ n.prefixBytes.length < c.prefixBytes.length := by
    cases h with
    | mk _ _ extend _ _ _ => exact extend c hc
  obtain ⟨x, hcx, hx⟩ := edgeByte_of_extends hext.2 hpre
  rw [List.getElem?_append_right le_rfl, Nat.sub_self] at hx
  cases remaining with
  | nil => simp at hx
  | cons y remaining =>
      obtain rfl : y = x := by simpa using hx
      have hfind : n.find_child y = some c := by
        cases hf : n.find_child y with
        | none =>
            have hno := List.find?_eq_none.mp hf c hc
            simp only [decide_eq_true_eq] at hno
            exact absurd hcx hno
        | some d =>
            obtain ⟨hd, hdy⟩ := find_child_eq_some hf
            cases h with
            | mk _ _ _ increasing _ _ =>
                apply congrArg some
                apply eq_of_pairwise increasing hd hc
                · exact fun hlt => lt_irrefl y (hlt y hdy y hcx)
                · exact fun hlt => lt_irrefl y (hlt y hcx y hdy)
      have hedge : n.child_edge_label c <+: y :: remaining := by
        obtain ⟨s, hs⟩ := hext.1
        obtain ⟨u, hu⟩ := hpre
        rw [child_edge_label, ← hs, List.drop_left]
        rw [← hs, List.append_assoc] at hu
        exact ⟨u, List.append_cancel_left hu⟩
      refine ⟨(y :: remaining).drop (n.child_edge_label c).length, ?_⟩
      simp only [next_matching_child, hfind, if_pos hedge]

theorem Wf.next_matching_child_spec {n c : VocabPrefixTreeNode} (h : Wf n)
    {remaining rest : List Byte} (he : next_matching_child n remaining = some (c, rest)) :
    c ∈ n.children ∧ Wf c ∧ n.prefixBytes ++ remaining = c.prefixBytes ++ rest ∧
      n.prefixBytes.length < c.prefixBytes.length := by
  obtain ⟨hc, hr, -⟩ := next_matching_child_eq_some he
  cases h with
  | mk children _ extend _ _ _ =>
      obtain ⟨s, hs⟩ := (extend c hc).1
      refine ⟨hc, children c hc, ?_, (extend c hc).2⟩
      rw [hr, child_edge_label, ← hs, List.drop_left, List.append_assoc]

/-- An entry longer than the node's prefix lies below the child on the way to it. -/
theorem Wf.mem_child_tokens {n c : VocabPrefixTreeNode} (h : Wf n) {remaining rest : List Byte}
    (he : next_matching_child n remaining = some (c, rest)) {t : VocabEntry}
    (hlong : n.prefixBytes.length < t.2.length) (hpre : t.2 <+: n.prefixBytes ++ remaining) :
    t ∈ n.tokens ↔ t ∈ c.tokens := by
  obtain ⟨hc, hwf, heq, -⟩ := h.next_matching_child_spec he
  refine ⟨fun ht => ?_, fun ht => mem_tokens.mpr (Or.inr ⟨c, hc, ht⟩)⟩
  rcases mem_tokens.mp ht with ⟨-, rfl⟩ | ⟨d, hd, htd⟩
  · exact absurd hlong (lt_irrefl _)
  · have hwd : Wf d := by
      cases h with
      | mk children _ _ _ _ _ => exact children d hd
    have hdt := (hwd.token_extends htd).trans hpre
    have hcr : c.prefixBytes <+: n.prefixBytes ++ remaining := heq ▸ List.prefix_append _ _
    rwa [h.child_unique hc hd hcr hdt]

theorem Wf.no_tokens_of_none {n : VocabPrefixTreeNode} (h : Wf n) {remaining : List Byte}
    (he : next_matching_child n remaining = none) {t : VocabEntry} (ht : t ∈ n.tokens)
    (hpre : t.2 <+: n.prefixBytes ++ remaining) : t.2.length ≤ n.prefixBytes.length := by
  rcases mem_tokens.mp ht with ⟨-, rfl⟩ | ⟨d, hd, htd⟩
  · exact le_rfl
  · have hwd : Wf d := by
      cases h with
      | mk children _ _ _ _ _ => exact children d hd
    obtain ⟨rest, hr⟩ := h.next_matching_child_of_extends hd ((hwd.token_extends htd).trans hpre)
    rw [he] at hr
    cases hr

theorem Wf.own_token {n : VocabPrefixTreeNode} (h : Wf n) {id : ℕ} :
    (id, n.prefixBytes) ∈ n.tokens ↔ n.has_token = true ∧ n.token_id = id := by
  rw [mem_tokens]
  constructor
  · rintro (⟨hhas, he⟩ | ⟨c, hc, ht⟩)
    · exact ⟨hhas, (Prod.mk.inj he).1.symm⟩
    · cases h with
      | mk children _ extend _ _ _ =>
          have := ((children c hc).token_extends ht).length_le
          have := (extend c hc).2
          simp only at *
          omega
  · rintro ⟨hhas, rfl⟩
    exact Or.inl ⟨hhas, rfl⟩

theorem Wf.findFrom_iff {n : VocabPrefixTreeNode} (h : Wf n) {remaining : List Byte}
    (hne : remaining ≠ []) {id : ℕ} :
    findFrom n remaining = some id ↔ (id, n.prefixBytes ++ remaining) ∈ n.tokens := by
  induction hk : remaining.length using Nat.strong_induction_on generalizing n remaining with
  | _ k ih =>
  have hlong : n.prefixBytes.length < (n.prefixBytes ++ remaining).length := by
    have := List.length_pos_of_ne_nil hne
    rw [List.length_append]
    omega
  rw [findFrom]
  split
  · rename_i he
    constructor
    · exact fun hn => by cases hn
    · intro ht
      have := h.no_tokens_of_none he ht List.prefix_rfl
      simp only at this
      omega
  · rename_i c rest he
    obtain ⟨hc, hwf, heq, -⟩ := h.next_matching_child_spec he
    rw [h.mem_child_tokens he hlong List.prefix_rfl, heq]
    by_cases hr : rest = []
    · subst hr
      rw [List.append_nil, hwf.own_token]
      simp
    · rw [if_neg (by simpa using hr)]
      exact ih rest.length (hk ▸ (next_matching_child_eq_some he).2.2) hwf hr rfl

/-- `best` is kept when no longer entry lies on the way, and replaced by the longest one
otherwise. -/
theorem Wf.longestFrom_spec {n : VocabPrefixTreeNode} (h : Wf n) (remaining : List Byte)
    (best : Option VocabEntry) :
    (longestFrom n remaining best = best ∧ ∀ t ∈ n.tokens,
        t.2 <+: n.prefixBytes ++ remaining → t.2.length ≤ n.prefixBytes.length) ∨
      ∃ t ∈ n.tokens, longestFrom n remaining best = some t ∧
        n.prefixBytes.length < t.2.length ∧ t.2 <+: n.prefixBytes ++ remaining ∧
        ∀ u ∈ n.tokens, u.2 <+: n.prefixBytes ++ remaining → u.2.length ≤ t.2.length := by
  induction hk : remaining.length using Nat.strong_induction_on generalizing n remaining best with
  | _ k ih =>
  rw [longestFrom]
  split
  · rename_i he
    exact Or.inl ⟨rfl, fun t ht hpre => h.no_tokens_of_none he ht hpre⟩
  · rename_i c rest he
    obtain ⟨hc, hwf, heq, hlt⟩ := h.next_matching_child_spec he
    have hshort : ∀ t ∈ n.tokens, t.2 <+: n.prefixBytes ++ remaining →
        t.2.length ≤ n.prefixBytes.length ∨ t ∈ c.tokens := fun t ht hpre => by
      by_cases hl : t.2.length ≤ n.prefixBytes.length
      · exact Or.inl hl
      · exact Or.inr ((h.mem_child_tokens he (by omega) hpre).mp ht)
    have hup : ∀ t ∈ c.tokens, t ∈ n.tokens := fun t ht => mem_tokens.mpr (Or.inr ⟨c, hc, ht⟩)
    rw [heq] at hshort ⊢
    rcases ih rest.length (hk ▸ (next_matching_child_eq_some he).2.2) hwf rest
      (if c.has_token then some (c.token_id, c.prefixBytes) else best) rfl with
      ⟨hbest, hle⟩ | ⟨t, ht, hbest, hlong, hpre, hmax⟩
    · rw [hbest]
      by_cases hhas : c.has_token = true
      · rw [if_pos hhas]
        refine Or.inr ⟨_, hup _ (hwf.own_token.mpr ⟨hhas, rfl⟩), rfl, hlt,
          List.prefix_append _ _, fun u hu hpre => ?_⟩
        rcases hshort u hu hpre with h' | h'
        · simp only
          omega
        · exact hle u h' hpre
      · rw [if_neg hhas]
        refine Or.inl ⟨rfl, fun t ht hpre => ?_⟩
        rcases hshort t ht hpre with h' | h'
        · exact h'
        · exfalso
          have hlen := hle t h' hpre
          obtain ⟨s, hs⟩ := hwf.token_extends h'
          have hs' : s = [] := by
            have := congrArg List.length hs
            rw [List.length_append] at this
            exact List.length_eq_zero_iff.mp (by omega)
          subst hs'
          rw [List.append_nil] at hs
          obtain ⟨id, bytes⟩ := t
          simp only at hs
          subst hs
          exact hhas (hwf.own_token.mp h').1
    · refine Or.inr ⟨t, hup t ht, hbest, by omega, hpre, fun u hu hpre' => ?_⟩
      rcases hshort u hu hpre' with h' | h'
      · omega
      · exact hmax u h' hpre'

end GlrMask
