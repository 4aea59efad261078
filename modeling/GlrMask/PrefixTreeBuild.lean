import GlrMask.PrefixTreeLookup

/-!
# Building the prefix tree

Sorted entries between two entries with a common prefix share it, so the prefix
of a group is that of its first and last entry. Building yields a well-formed
tree whose tokens are the given entries, in their order.
-/

namespace GlrMask

open VocabPrefixTreeNode

/-! ## Common prefixes of sorted byte strings -/

theorem bytes_cons_le_cons_iff {x y : Byte} {u v : List Byte} :
    x :: u ≤ y :: v ↔ x < y ∨ x = y ∧ u ≤ v := by
  rw [← not_lt, List.cons_lt_cons_iff]
  rcases lt_trichotomy x y with h | h | h
  · simp [h, h.not_gt, h.ne']
  · simp [h]
  · simp [h, h.not_gt, h.ne']

theorem prefix_of_between {q a b c : List Byte} (hab : a ≤ b) (hbc : b ≤ c) (ha : q <+: a)
    (hc : q <+: c) : q <+: b := by
  induction q generalizing a b c with
  | nil => exact List.nil_prefix
  | cons x q ih =>
      obtain ⟨a', rfl⟩ := ha
      obtain ⟨c', rfl⟩ := hc
      cases b with
      | nil => exact absurd hab (by simp)
      | cons y b =>
          rw [List.cons_append, bytes_cons_le_cons_iff] at hab hbc
          rcases hab with hlt | ⟨rfl, hab⟩
          · rcases hbc with hlt' | ⟨rfl, -⟩
            · exact absurd (hlt.trans hlt') (lt_irrefl _)
            · exact absurd hlt (lt_irrefl _)
          · rcases hbc with hlt' | ⟨-, hbc⟩
            · exact absurd hlt' (lt_irrefl _)
            · rw [List.cons_prefix_cons]
              exact ⟨rfl, ih hab hbc (List.prefix_append _ _) (List.prefix_append _ _)⟩

theorem take_commonLen_prefix (a b : List Byte) : a.take (commonLen a b) <+: b := by
  induction a generalizing b with
  | nil => simp
  | cons x a ih =>
      cases b with
      | nil => simp [commonLen]
      | cons y b =>
          rw [commonLen]
          split_ifs with h
          · rw [List.take_succ_cons, List.cons_prefix_cons]
            exact ⟨h, ih b⟩
          · simp

theorem commonLen_le (a b : List Byte) : commonLen a b ≤ a.length := by
  induction a generalizing b with
  | nil => simp [commonLen]
  | cons x a ih =>
      cases b with
      | nil => simp [commonLen]
      | cons y b =>
          rw [commonLen]
          split_ifs
          · exact Nat.succ_le_succ (ih b)
          · exact Nat.zero_le _

theorem take_lcp_len_of_common {P a b : List Byte} (ha : P <+: a) (hb : P <+: b) :
    a.take (lcp_len a b P.length) <+: b := by
  obtain ⟨s, rfl⟩ := ha
  obtain ⟨t, rfl⟩ := hb
  rw [lcp_len, List.drop_left, List.drop_left, List.take_add, List.take_left, List.drop_left,
    List.prefix_append_right_inj]
  exact take_commonLen_prefix s t

theorem lcp_len_le {P a : List Byte} (b : List Byte) (ha : P <+: a) :
    lcp_len a b P.length ≤ a.length := by
  have := commonLen_le (a.drop P.length) (b.drop P.length)
  have := ha.length_le
  rw [List.length_drop] at *
  rw [lcp_len]
  omega

/-- Of two byte strings with a common prefix, the smaller one has the smaller next byte. -/
theorem next_byte_le {P u v : List Byte} (hu : P <+: u) (hv : P <+: v) (hlt : u < v) {x y : Byte}
    (hx : u[P.length]? = some x) (hy : v[P.length]? = some y) : x ≤ y := by
  induction P generalizing u v with
  | nil =>
      cases u with
      | nil => simp at hx
      | cons a u =>
          cases v with
          | nil => simp at hy
          | cons b v =>
              simp only [List.length_nil, List.getElem?_cons_zero, Option.some.injEq] at hx hy
              subst hx
              subst hy
              rcases List.cons_lt_cons_iff.mp hlt with h | ⟨rfl, -⟩
              · exact h.le
              · exact le_rfl
  | cons p P ih =>
      obtain ⟨u', rfl⟩ := hu
      obtain ⟨v', rfl⟩ := hv
      rw [List.cons_append, List.cons_append, List.cons_lt_cons_iff] at hlt
      rcases hlt with h | ⟨-, h⟩
      · exact absurd h (lt_irrefl _)
      · apply ih (List.prefix_append P u') (List.prefix_append P v') h
        · simpa using hx
        · simpa using hy

/-! ## Sorted entries below a prefix -/

def SortedEntries (entries : List VocabEntry) : Prop := entries.Pairwise fun a b => a.2 < b.2

/-- Sorted entries that all continue behind the prefix `P`. -/
structure Below (entries : List VocabEntry) (P : List Byte) : Prop where
  sorted : SortedEntries entries
  extend : ∀ e ∈ entries, P <+: e.2 ∧ P.length < e.2.length

theorem Below.sublist {entries entries' : List VocabEntry} {P : List Byte} (h : Below entries P)
    (hs : entries'.Sublist entries) : Below entries' P :=
  ⟨h.sorted.sublist hs, fun e he => h.extend e (hs.subset he)⟩

theorem SortedEntries.head_le {entries : List VocabEntry} (h : SortedEntries entries)
    (hne : entries ≠ []) {e : VocabEntry} (he : e ∈ entries) : (entries.head hne).2 ≤ e.2 := by
  cases entries with
  | nil => exact absurd rfl hne
  | cons f entries =>
      rcases List.mem_cons.mp he with rfl | he
      · exact le_rfl
      · exact le_of_lt (List.rel_of_pairwise_cons h he)

theorem SortedEntries.le_getLast {entries : List VocabEntry} (h : SortedEntries entries)
    (hne : entries ≠ []) {e : VocabEntry} (he : e ∈ entries) : e.2 ≤ (entries.getLast hne).2 := by
  induction entries with
  | nil => exact absurd rfl hne
  | cons f entries ih =>
      by_cases hnil : entries = []
      · subst hnil
        rw [List.mem_singleton.mp he]
        exact le_rfl
      · rw [List.getLast_cons hnil]
        rcases List.mem_cons.mp he with rfl | he
        · exact le_of_lt (List.rel_of_pairwise_cons h (List.getLast_mem hnil))
        · exact ih h.tail hnil he

/-- Behind the entries that share a byte only larger bytes follow. -/
theorem Below.lt_of_mem_dropWhile {entries : List VocabEntry} {P : List Byte}
    (h : Below entries P) {byte : Byte}
    (hge : ∀ e ∈ entries, ∀ y, e.2[P.length]? = some y → byte ≤ y) {e : VocabEntry}
    (he : e ∈ entries.dropWhile (sharesByte P.length byte)) {y : Byte}
    (hy : e.2[P.length]? = some y) : byte < y := by
  induction entries with
  | nil => simp at he
  | cons f entries ih =>
      have hmem := (List.dropWhile_sublist _).subset he
      rw [List.dropWhile_cons] at he
      split_ifs at he with hf
      · exact ih (h.sublist (List.sublist_cons_self _ _))
          (fun e he => hge e (List.mem_cons_of_mem _ he)) he
      · obtain ⟨hPf, hlf⟩ := h.extend f List.mem_cons_self
        have hz : f.2[P.length]? = some f.2[P.length] := List.getElem?_eq_getElem hlf
        have hlt : byte < f.2[P.length] := by
          apply lt_of_le_of_ne (hge f List.mem_cons_self _ hz)
          rintro rfl
          exact hf (by simp [sharesByte])
        rcases List.mem_cons.mp he with rfl | he
        · rw [hz] at hy
          exact Option.some.inj hy ▸ hlt
        · have hfe := List.rel_of_pairwise_cons h.sorted he
          exact hlt.trans_le (next_byte_le hPf (h.extend e (List.mem_cons_of_mem _ he)).1 hfe hz hy)

/-! ## Forests -/

/-- Well-formed children whose tokens are the given entries below the prefix `P`. -/
structure ForestSpec (entries : List VocabEntry) (P : List Byte)
    (children : List VocabPrefixTreeNode) : Prop where
  tokens : forestTokens children = entries
  wf : ∀ c ∈ children, Wf c
  nonempty : ∀ c ∈ children, c.tokens ≠ []
  extend : ∀ c ∈ children, P <+: c.prefixBytes ∧ P.length < c.prefixBytes.length
  increasing : children.Pairwise fun c d =>
    ∀ x ∈ c.prefixBytes[P.length]?, ∀ y ∈ d.prefixBytes[P.length]?, x < y

/-- A node over a forest records the ids and the bytes of its tokens. -/
theorem ForestSpec.node {entries : List VocabEntry} {P : List Byte}
    {children : List VocabPrefixTreeNode} (h : ForestSpec entries P children) (id : ℕ)
    (has : Bool) (metadata : Finset ℕ × ByteMask)
    (hm : metadata = children.foldl (merge_child_metadata P.length)
      (if has then {id} else ∅, fun _ => 0#64)) :
    Wf (.mk id has P children metadata.1 metadata.2) ∧
      (VocabPrefixTreeNode.mk id has P children metadata.1 metadata.2).tokens =
        (if has then [(id, P)] else []) ++ entries := by
  obtain ⟨hids, hbytes⟩ := merged_metadata children P.length
    (if has then {id} else ∅, fun _ => 0#64)
  rw [← hm] at hids hbytes
  refine ⟨Wf.mk h.wf h.nonempty h.extend h.increasing (fun k => ?_) (fun byte => ?_),
    by rw [VocabPrefixTreeNode.tokens, h.tokens]⟩
  · change k ∈ metadata.1 ↔ _
    rw [hids]
    constructor
    · rintro (hk | ⟨c, hc, hk⟩)
      · refine ⟨P, mem_tokens.mpr (Or.inl ?_)⟩
        cases has with
        | false => simp at hk
        | true =>
            obtain rfl : k = id := by simpa using hk
            exact ⟨rfl, rfl⟩
      · cases h.wf c hc with
        | mk _ _ _ _ ids _ =>
            obtain ⟨b, hb⟩ := (ids k).mp hk
            exact ⟨b, mem_tokens.mpr (Or.inr ⟨c, hc, hb⟩)⟩
    · rintro ⟨b, hb⟩
      rcases mem_tokens.mp hb with ⟨hhas, he⟩ | ⟨c, hc, hbc⟩
      · left
        have hhas' : has = true := hhas
        rw [if_pos hhas', Finset.mem_singleton]
        exact (Prod.mk.inj he).1
      · right
        cases h.wf c hc with
        | mk _ _ _ _ ids _ => exact ⟨c, hc, (ids k).mpr ⟨b, hbc⟩⟩
  · change metadata.2.contains byte = true ↔
      ∃ t ∈ (VocabPrefixTreeNode.mk id has P children metadata.1 metadata.2).tokens,
        byte ∈ t.2.drop P.length
    rw [hbytes]
    simp only [contains_zero, Bool.false_eq_true, false_or]
    have hdrop : ∀ c ∈ children, ∀ t ∈ c.tokens, t.2.drop P.length =
        c.prefixBytes.drop P.length ++ t.2.drop c.prefixBytes.length := fun c hc t ht => by
      obtain ⟨s, hs⟩ := (h.wf c hc).token_extends ht
      rw [← hs, List.drop_left, List.drop_append_of_le_length (h.extend c hc).2.le]
    constructor
    · rintro ⟨c, hc, hb | hb⟩
      · obtain ⟨t, ht⟩ := List.exists_mem_of_ne_nil _ (h.nonempty c hc)
        refine ⟨t, mem_tokens.mpr (Or.inr ⟨c, hc, ht⟩), ?_⟩
        rw [hdrop c hc t ht]
        exact List.mem_append_left _ hb
      · cases h.wf c hc with
        | mk _ _ _ _ _ bytes =>
            obtain ⟨t, ht, hbt⟩ := (bytes byte).mp hb
            refine ⟨t, mem_tokens.mpr (Or.inr ⟨c, hc, ht⟩), ?_⟩
            rw [hdrop c hc t ht]
            exact List.mem_append_right _ hbt
    · rintro ⟨t, ht, hb⟩
      rcases mem_tokens.mp ht with ⟨-, rfl⟩ | ⟨c, hc, htc⟩
      · simp [VocabPrefixTreeNode.prefixBytes] at hb
      · rw [hdrop c hc t htc] at hb
        rcases List.mem_append.mp hb with hb | hb
        · exact ⟨c, hc, Or.inl hb⟩
        · cases h.wf c hc with
          | mk _ _ _ _ _ bytes => exact ⟨c, hc, Or.inr ((bytes byte).mpr ⟨t, htc, hb⟩)⟩

/-! ## The group of one child -/

/-- The entries of a group extend the common prefix of the first and the last one, and those
behind an entry that equals it are longer. -/
theorem Group.below {entries : List VocabEntry} {P : List Byte} (h : Group entries P.length)
    (hb : Below entries P) :
    let first := entries.head h.ne
    let len := lcp_len first.2 (entries.getLast h.ne).2 P.length
    (first.2.take len).length = len ∧
      Below (if first.2.length = len then entries.tail else entries) (first.2.take len) := by
  intro first len
  have hfirst : first ∈ entries := List.head_mem h.ne
  have hle : len ≤ first.2.length := lcp_len_le _ (hb.extend first hfirst).1
  have hlen : (first.2.take len).length = len := by
    rw [List.length_take]
    omega
  have hall : ∀ e ∈ entries, first.2.take len <+: e.2 := fun e he =>
    prefix_of_between (hb.sorted.head_le h.ne he) (hb.sorted.le_getLast h.ne he)
      (List.take_prefix _ _)
      (take_lcp_len_of_common (hb.extend first hfirst).1 (hb.extend _ (List.getLast_mem h.ne)).1)
  -- An entry of length `len` is the prefix itself, which stands first.
  have hlong : ∀ e ∈ entries, first.2 < e.2 → len < e.2.length := fun e he hlt => by
    have hge := (hall e he).length_le
    rw [hlen] at hge
    by_contra hcon
    have heq : first.2.take len = e.2 := (hall e he).eq_of_length (by omega)
    rw [← heq] at hlt
    obtain ⟨s, hs⟩ := List.take_prefix len first.2
    have hpre : first.2.take len ≤ first.2 := by
      conv_rhs => rw [← hs]
      exact not_lt.mp (List.not_lt.mpr List.le_append_left)
    exact absurd (hlt.trans_le hpre) (lt_irrefl _)
  refine ⟨hlen, ?_⟩
  have hlater : ∀ e ∈ entries.tail, first.2 < e.2 := fun e he => by
    have hs := hb.sorted
    have hcons : entries = first :: entries.tail := (List.cons_head_tail h.ne).symm
    rw [hcons] at hs
    exact List.rel_of_pairwise_cons hs he
  split_ifs with hhas
  · refine ⟨hb.sorted.tail, fun e he => ?_⟩
    have hmem := List.mem_of_mem_tail he
    rw [hlen]
    exact ⟨hall e hmem, hlong e hmem (hlater e he)⟩
  · refine ⟨hb.sorted, fun e he => ?_⟩
    rw [hlen]
    refine ⟨hall e he, ?_⟩
    by_cases hef : e = first
    · rw [hef]
      omega
    · have he' : e ∈ first :: entries.tail := by
        rw [List.cons_head_tail h.ne]
        exact he
      exact hlong e he (hlater e ((List.mem_cons.mp he').resolve_left hef))

theorem build_subtree_spec {entries : List VocabEntry} {P : List Byte}
    (h : Group entries P.length) (hb : Below entries P)
    (ih : ∀ es Q, bytesLeft es Q.length < bytesLeft entries P.length → Below es Q →
      ForestSpec es Q (build_children es Q.length)) :
    Wf (build_subtree entries P.length h) ∧
      (build_subtree entries P.length h).tokens = entries ∧
      P <+: (build_subtree entries P.length h).prefixBytes ∧
      P.length < (build_subtree entries P.length h).prefixBytes.length := by
  obtain ⟨hlen, hbelow⟩ := h.below hb
  have hlt := h.lt_lcp_len
  have hfirst := hb.extend _ (List.head_mem h.ne)
  rw [build_subtree]
  generalize hL : lcp_len (entries.head h.ne).2 (entries.getLast h.ne).2 P.length = len
    at hlen hbelow hlt
  have hmeasure : bytesLeft (if (entries.head h.ne).2.length = len then entries.tail else entries)
      len < bytesLeft entries P.length := by
    have := h.bytesLeft_lt hlt
    have := bytesLeft_tail entries len
    split_ifs <;> omega
  have hspec := ih _ ((entries.head h.ne).2.take len) (by rw [hlen]; exact hmeasure) hbelow
  rw [hlen] at hspec
  obtain ⟨hwf, htok⟩ := hspec.node
    (if (entries.head h.ne).2.length = len then (entries.head h.ne).1 else 0)
    ((entries.head h.ne).2.length = len) _ rfl
  simp only [hlen, decide_eq_true_eq] at hwf htok
  refine ⟨hwf, ?_, ?_, ?_⟩
  · rw [htok]
    split_ifs with hhas
    · rw [← hhas, List.take_length]
      exact List.cons_head_tail h.ne
    · rfl
  · change P <+: (entries.head h.ne).2.take len
    apply List.prefix_of_prefix_length_le hfirst.1 (List.take_prefix _ _)
    rw [hlen]
    exact hlt.le
  · change P.length < ((entries.head h.ne).2.take len).length
    rw [hlen]
    exact hlt

/-! ## The whole tree -/

theorem build_children_spec (entries : List VocabEntry) (P : List Byte) (h : Below entries P) :
    ForestSpec entries P (build_children entries P.length) := by
  induction hn : bytesLeft entries P.length using Nat.strong_induction_on
    generalizing entries P with
  | _ n ih =>
  cases entries with
  | nil =>
      rw [build_children]
      exact ⟨rfl, by simp, by simp, by simp, List.Pairwise.nil⟩
  | cons e rest =>
      obtain ⟨hPe, hle⟩ := h.extend e List.mem_cons_self
      rw [build_children]
      split
      · rename_i he
        exact absurd hle (by simpa using he)
      · rename_i byte he
        have hgroup := @group_takeWhile e rest P.length byte he
        have hrest := h.sublist (List.sublist_cons_self e rest)
        have hsplit := bytesLeft_split (sharesByte P.length byte) rest P.length
        have hg : Below (e :: rest.takeWhile (sharesByte P.length byte)) P :=
          h.sublist ((List.takeWhile_sublist _).cons_cons e)
        have ho : Below (rest.dropWhile (sharesByte P.length byte)) P :=
          hrest.sublist (List.dropWhile_sublist _)
        have hsub := build_subtree_spec hgroup hg fun es Q hlt hbelow =>
          ih _ (by subst hn; simp only [bytesLeft, List.map_cons, List.sum_cons] at *; omega)
            es Q hbelow rfl
        have hothers := ih _ (by
          subst hn
          simp only [bytesLeft, List.map_cons, List.sum_cons] at *
          omega) _ P ho rfl
        generalize build_subtree (e :: rest.takeWhile (sharesByte P.length byte)) P.length
          hgroup = child at hsub
        obtain ⟨hwf, htok, hext, hlen⟩ := hsub
        have hbyte : child.prefixBytes[P.length]? = some byte := by
          have he' := hwf.token_extends (t := e) (by rw [htok]; exact List.mem_cons_self)
          rw [← he, List.getElem?_eq_getElem hlen, he'.getElem hlen]
          exact (List.getElem?_eq_getElem _).symm
        refine ⟨?_, ?_, ?_, ?_, ?_⟩
        · rw [forestTokens, htok, hothers.tokens, List.cons_append,
            List.takeWhile_append_dropWhile]
        · intro c hc
          rcases List.mem_cons.mp hc with rfl | hc
          · exact hwf
          · exact hothers.wf c hc
        · intro c hc
          rcases List.mem_cons.mp hc with rfl | hc
          · rw [htok]
            exact List.cons_ne_nil _ _
          · exact hothers.nonempty c hc
        · intro c hc
          rcases List.mem_cons.mp hc with rfl | hc
          · exact ⟨hext, hlen⟩
          · exact hothers.extend c hc
        · apply List.pairwise_cons.mpr ⟨?_, hothers.increasing⟩
          intro d hd x hx y hy
          rw [hbyte] at hx
          obtain rfl := Option.some.inj hx
          obtain ⟨t, ht⟩ := List.exists_mem_of_ne_nil _ (hothers.nonempty d hd)
          have hto : t ∈ rest.dropWhile (sharesByte P.length byte) := by
            rw [← hothers.tokens]
            exact mem_forestTokens.mpr ⟨d, hd, ht⟩
          have hlt := (hothers.extend d hd).2
          have hdt := (hothers.wf d hd).token_extends ht
          apply hrest.lt_of_mem_dropWhile _ hto
          · rw [List.getElem?_eq_getElem (hlt.trans_le hdt.length_le), ← hdt.getElem hlt]
            rw [← hy]
            exact (List.getElem?_eq_getElem hlt).symm
          · intro f hf z hz
            exact next_byte_le hPe (hrest.extend f hf).1 (List.rel_of_pairwise_cons h.sorted hf)
              he hz

/-- The tree of sorted entries is well formed and holds exactly them. -/
theorem build_presorted_spec {tokens : List VocabEntry} (h : SortedEntries tokens) :
    Wf (build_presorted tokens).root ∧ (build_presorted tokens).root.tokens = tokens ∧
      (build_presorted tokens).root.prefixBytes = [] ∧
      (build_presorted tokens).has_empty_string_token = (build_presorted tokens).root.has_token := by
  cases tokens with
  | nil =>
      have hspec : ForestSpec [] [] [] := ⟨rfl, by simp, by simp, by simp, List.Pairwise.nil⟩
      obtain ⟨hwf, htok⟩ := hspec.node 0 false (∅, fun _ => 0#64) rfl
      exact ⟨hwf, htok, rfl, rfl⟩
  | cons first rest =>
      have hbelow : Below (if first.2.isEmpty then rest else first :: rest) [] := by
        split_ifs with he
        · refine ⟨h.tail, fun e hmem => ⟨List.nil_prefix, ?_⟩⟩
          have hlt := List.rel_of_pairwise_cons h hmem
          rw [List.isEmpty_iff.mp he] at hlt
          exact List.length_pos_of_ne_nil (fun hn => by rw [hn] at hlt; exact lt_irrefl _ hlt)
        · refine ⟨h, fun e hmem => ⟨List.nil_prefix, ?_⟩⟩
          apply List.length_pos_of_ne_nil
          intro hn
          rcases List.mem_cons.mp hmem with rfl | hmem
          · exact he (List.isEmpty_iff.mpr hn)
          · have hlt := List.rel_of_pairwise_cons h hmem
            rw [hn] at hlt
            exact absurd hlt (List.not_lt_nil _)
      have hspec := build_children_spec _ [] hbelow
      have hids : (if first.2.isEmpty = true then {first.1} else ∅ : Finset ℕ) =
          if first.2.isEmpty = true then {if first.2.isEmpty = true then first.1 else 0} else ∅ := by
        split_ifs <;> rfl
      obtain ⟨hwf, htok⟩ := hspec.node (if first.2.isEmpty then first.1 else 0) first.2.isEmpty
        ((build_children (if first.2.isEmpty then rest else first :: rest) 0).foldl
          (merge_child_metadata 0) (if first.2.isEmpty then {first.1} else ∅, fun _ => 0#64))
        (by rw [hids]; rfl)
      refine ⟨hwf, htok.trans ?_, rfl, rfl⟩
      split_ifs with he
      · obtain ⟨id, bytes⟩ := first
        rw [show bytes = [] from List.isEmpty_iff.mp he]
        rfl
      · rfl

theorem dedup_tokens_eq {tokens : List VocabEntry} (h : SortedEntries tokens) :
    dedup_tokens tokens = tokens := by
  induction tokens with
  | nil => rw [dedup_tokens]
  | cons e tokens ih =>
      cases tokens with
      | nil => rw [dedup_tokens]
      | cons f tokens =>
          have hlt : e.2 < f.2 := List.rel_of_pairwise_cons h List.mem_cons_self
          rw [dedup_tokens, if_neg hlt.ne, ih h.tail]

theorem sort_and_dedup_tokens_spec {tokens : List VocabEntry}
    (h : (tokens.map Prod.snd).Nodup) :
    SortedEntries (sort_and_dedup_tokens tokens) ∧
      ∀ e, e ∈ sort_and_dedup_tokens tokens ↔ e ∈ tokens := by
  have htotal : Std.Total fun left right : VocabEntry => left.2 ≤ right.2 :=
    ⟨fun a b => le_total a.2 b.2⟩
  have htrans : IsTrans VocabEntry fun left right => left.2 ≤ right.2 :=
    ⟨fun a b c => le_trans⟩
  have hperm := List.perm_insertionSort (fun left right : VocabEntry => left.2 ≤ right.2) tokens
  have hle := List.pairwise_insertionSort (fun left right : VocabEntry => left.2 ≤ right.2) tokens
  have hne : (tokens.insertionSort fun left right => left.2 ≤ right.2).Pairwise
      fun a b => a.2 ≠ b.2 := by
    have hnd := (hperm.map Prod.snd).nodup_iff.mpr h
    exact List.pairwise_map.mp hnd
  have hsorted : SortedEntries (tokens.insertionSort fun left right => left.2 ≤ right.2) :=
    hle.imp₂ (fun _ _ hab hn => lt_of_le_of_ne hab hn) hne
  rw [sort_and_dedup_tokens, dedup_tokens_eq hsorted]
  exact ⟨hsorted, fun e => hperm.mem_iff⟩

section Tree

variable {tree : VocabPrefixTree} (hwf : Wf tree.root) (hroot : tree.root.prefixBytes = [])
  (hempty : tree.has_empty_string_token = tree.root.has_token)

include hwf hroot hempty

theorem find_token_iff {b : List Byte} {id : ℕ} :
    tree.find_token b = some id ↔ (id, b) ∈ tree.root.tokens := by
  unfold VocabPrefixTree.find_token
  by_cases hb : b = []
  · subst hb
    have hown := @Wf.own_token _ hwf id
    rw [hroot] at hown
    rw [hown, hempty]
    simp
  · have hfind := @Wf.findFrom_iff _ hwf _ hb id
    rw [hroot, List.nil_append] at hfind
    rw [if_neg (by simpa using hb), hfind]

/-- Either no entry starts the byte string, or the longest such entry is reported. -/
theorem find_longest_prefix_token_spec (b : List Byte) :
    (tree.find_longest_prefix_token b = none ∧ ∀ u ∈ tree.root.tokens, ¬ u.2 <+: b) ∨
      ∃ t ∈ tree.root.tokens, tree.find_longest_prefix_token b = some t ∧ t.2 <+: b ∧
        ∀ u ∈ tree.root.tokens, u.2 <+: b → u.2.length ≤ t.2.length := by
  unfold VocabPrefixTree.find_longest_prefix_token
  rcases hwf.longestFrom_spec b (if tree.has_empty_string_token
    then some (tree.root.token_id, tree.root.prefixBytes) else none) with
    ⟨hbest, hle⟩ | ⟨t, ht, hbest, -, hpre, hmax⟩
  · rw [hbest]
    rw [hroot, List.nil_append, List.length_nil] at hle
    by_cases hhas : tree.root.has_token = true
    · right
      refine ⟨_, hwf.own_token.mpr ⟨hhas, rfl⟩, by rw [hempty, if_pos hhas], ?_, fun u hu hpre => ?_⟩
      · rw [hroot]
        exact List.nil_prefix
      · have := hle u hu hpre
        omega
    · left
      refine ⟨by rw [hempty, if_neg hhas], fun u hu hpre => hhas ?_⟩
      obtain ⟨id, bytes⟩ := u
      have hnil : bytes = tree.root.prefixBytes := by
        rw [hroot]
        exact List.length_eq_zero_iff.mp (Nat.le_zero.mp (hle _ hu hpre))
      subst hnil
      exact (hwf.own_token.mp hu).1
  · rw [hroot, List.nil_append] at hpre hmax
    exact Or.inr ⟨t, ht, hbest, hpre, hmax⟩

omit hroot hempty in
theorem node_metadata {m : VocabPrefixTreeNode} (hm : m ∈ tree.root.nodes) :
    (∀ id, id ∈ m.reachable_token_ids ↔
        ∃ b, (id, b) ∈ tree.root.tokens ∧ m.prefixBytes <+: b) ∧
      ∀ byte, m.subtree_bytes.contains byte = true ↔
        ∃ t ∈ tree.root.tokens, m.prefixBytes <+: t.2 ∧ byte ∈ t.2.drop m.prefixBytes.length := by
  obtain ⟨-, hwm, htok⟩ := hwf.mem_tokens_of_extends hm
  cases hwm with
  | mk _ _ _ _ ids bytes =>
      refine ⟨fun id => ?_, fun byte => ?_⟩
      · rw [ids]
        exact exists_congr fun b => htok (id, b)
      · rw [bytes]
        apply exists_congr
        intro t
        rw [htok, and_assoc]

end Tree

theorem eq_of_bytes_eq {tokens : List VocabEntry} (h : (tokens.map Prod.snd).Nodup)
    {t u : VocabEntry} (ht : t ∈ tokens) (hu : u ∈ tokens) (he : t.2 = u.2) : t = u :=
  List.inj_on_of_nodup_map h ht hu he

end GlrMask
