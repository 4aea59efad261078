import Mathlib.Logic.Relation
import GlrMask.CondensationDepths

/-!
# Strongly connected components by two searches

The first search lists the nodes as it leaves them. Of the nodes that reach each other, the
last one listed comes after everything that they reach. The second search takes the nodes
from the last one listed on, and so it finds one component at a time.
-/

namespace GlrMask

namespace CondensationDepths

open Relation (ReflTransGen)

variable {n : ℕ} (refs : Fin n → List (Fin n))

def Reaches : Fin n → Fin n → Prop := ReflTransGen fun v w => w ∈ refs v

/-- The nodes reach each other. -/
def Mutual (v w : Fin n) : Prop := Reaches refs v w ∧ Reaches refs w v

/-- Some node of the component is listed after everything that the component reaches. -/
def Settled (finish : List (Fin n)) (v : Fin n) : Prop :=
  ∃ before last after, finish = before ++ last :: after ∧ Mutual refs v last ∧
    ∀ w, Reaches refs v w → w ∈ before ++ [last]

/-- The listed nodes are left, and those on the stack are entered in the order of a path. -/
structure Searching (visited : Finset (Fin n)) (finish : List (Fin n)) (stack : List (Fin n × ℕ)) :
    Prop where
  seen : ∀ v, v ∈ visited ↔ v ∈ finish ++ stack.map Prod.fst
  nodup : (finish ++ stack.map Prod.fst).Nodup
  path : stack.Pairwise fun top below => Reaches refs below.1 top.1
  scanned : ∀ e ∈ stack, ∀ i < e.2, ∀ w, (refs e.1)[i]? = some w → w ∈ visited
  closed : ∀ v ∈ finish, ∀ w ∈ refs v, w ∈ visited
  settled : ∀ v ∈ finish, (∃ e ∈ stack, Mutual refs v e.1) ∨ Settled refs finish v

variable {refs}

theorem Mutual.refl (v : Fin n) : Mutual refs v v := ⟨ReflTransGen.refl, ReflTransGen.refl⟩

theorem Mutual.symm {v w : Fin n} (h : Mutual refs v w) : Mutual refs w v := ⟨h.2, h.1⟩

theorem Mutual.trans {u v w : Fin n} (h : Mutual refs u v) (h' : Mutual refs v w) : Mutual refs u w :=
  ⟨h.1.trans h'.1, h'.2.trans h.2⟩

theorem Settled.append {finish : List (Fin n)} {v : Fin n} (h : Settled refs finish v)
    (more : List (Fin n)) : Settled refs (finish ++ more) v := by
  obtain ⟨before, last, after, rfl, hmutual, hbefore⟩ := h
  exact ⟨before, last, after ++ more, by simp, hmutual, hbefore⟩

theorem searching_nil : Searching refs ∅ [] [] where
  seen := by simp
  nodup := List.nodup_nil
  path := List.Pairwise.nil
  scanned e he := by cases he
  closed v hv := by cases hv
  settled v hv := by cases hv

section Steps

variable {visited : Finset (Fin n)} {finish : List (Fin n)} {stack : List (Fin n × ℕ)} {v w : Fin n}
  {next : ℕ}

/-- A node that was not seen is entered, from the top of the stack or on an empty one. -/
theorem Searching.push (h : Searching refs visited finish stack) (hw : w ∉ visited)
    (hedge : ∀ e ∈ stack.head?, w ∈ refs e.1) :
    Searching refs (insert w visited) finish ((w, 0) :: stack) := by
  have hnew : w ∉ finish ++ stack.map Prod.fst := fun hmem => hw ((h.seen w).mpr hmem)
  constructor
  · intro u
    rw [Finset.mem_insert, h.seen, List.map_cons, List.mem_append, List.mem_append, List.mem_cons]
    tauto
  · rw [List.map_cons, List.nodup_middle]
    exact List.nodup_cons.mpr ⟨hnew, h.nodup⟩
  · refine List.pairwise_cons.mpr ⟨?_, h.path⟩
    intro e he
    cases stack with
    | nil => cases he
    | cons top stack =>
        have htop : w ∈ refs top.1 := hedge top rfl
        obtain rfl | he := List.mem_cons.mp he
        · exact ReflTransGen.single htop
        · exact ReflTransGen.tail (List.rel_of_pairwise_cons h.path he) htop
  · intro e he i hi u hu
    obtain rfl | he := List.mem_cons.mp he
    · exact absurd hi (Nat.not_lt_zero i)
    · exact Finset.mem_insert_of_mem (h.scanned e he i hi u hu)
  · intro u hu x hx
    exact Finset.mem_insert_of_mem (h.closed u hu x hx)
  · intro u hu
    refine (h.settled u hu).imp_left ?_
    rintro ⟨e, he, hmutual⟩
    exact ⟨e, List.mem_cons_of_mem _ he, hmutual⟩

/-- The edge at the top of the stack leads to a node that was not seen, which is entered. -/
theorem Searching.enter (h : Searching refs visited finish ((v, next) :: stack))
    (hedge : (refs v)[next]? = some w) (hw : w ∉ visited) :
    Searching refs (insert w visited) finish ((w, 0) :: (v, next + 1) :: stack) := by
  have hpush := h.push hw fun e he => by
    obtain rfl := Option.some.inj he
    exact List.mem_of_getElem? hedge
  refine ⟨hpush.seen, hpush.nodup, ?_, ?_, hpush.closed, ?_⟩
  · have hpath := hpush.path
    simp only [List.pairwise_cons, List.mem_cons, forall_eq_or_imp] at hpath ⊢
    exact hpath
  · intro e he i hi u hu
    rw [List.mem_cons, List.mem_cons] at he
    obtain rfl | rfl | he := he
    · exact absurd hi (Nat.not_lt_zero i)
    · obtain hlt | rfl := Nat.lt_succ_iff_lt_or_eq.mp hi
      · exact Finset.mem_insert_of_mem (h.scanned (v, next) List.mem_cons_self i hlt u hu)
      · rw [Option.some.inj (hu.symm.trans hedge)]
        exact Finset.mem_insert_self w visited
    · exact Finset.mem_insert_of_mem (h.scanned e (List.mem_cons_of_mem _ he) i hi u hu)
  · intro u hu
    refine (h.settled u hu).imp_left ?_
    rintro ⟨e, he, hmutual⟩
    obtain rfl | he := List.mem_cons.mp he
    · exact ⟨(v, next + 1), by simp, hmutual⟩
    · exact ⟨e, by simp [he], hmutual⟩

/-- The edge at the top of the stack leads to a node that was seen. -/
theorem Searching.advance (h : Searching refs visited finish ((v, next) :: stack))
    (hedge : (refs v)[next]? = some w) (hw : w ∈ visited) :
    Searching refs visited finish ((v, next + 1) :: stack) := by
  refine ⟨h.seen, h.nodup, ?_, ?_, h.closed, ?_⟩
  · exact List.pairwise_cons.mpr (List.pairwise_cons.mp h.path)
  · intro e he i hi u hu
    obtain rfl | he := List.mem_cons.mp he
    · obtain hlt | rfl := Nat.lt_succ_iff_lt_or_eq.mp hi
      · exact h.scanned (v, next) List.mem_cons_self i hlt u hu
      · rwa [Option.some.inj (hu.symm.trans hedge)]
    · exact h.scanned e (List.mem_cons_of_mem _ he) i hi u hu
  · intro u hu
    refine (h.settled u hu).imp_left ?_
    rintro ⟨e, he, hmutual⟩
    obtain rfl | he := List.mem_cons.mp he
    · exact ⟨(v, next + 1), List.mem_cons_self, hmutual⟩
    · exact ⟨e, List.mem_cons_of_mem _ he, hmutual⟩

/-- When a node is left and reaches back to no entered node, all that it reaches is listed. -/
theorem Searching.reached (h : Searching refs visited finish ((v, next) :: stack))
    (hend : (refs v)[next]? = none) (hback : ∀ e ∈ stack, ¬ Mutual refs v e.1) (hw : Reaches refs v w) :
    w ∈ finish ++ [v] := by
  have hstep : ∀ u, Reaches refs v u → u ∈ visited → u ∈ finish ++ [v] := by
    intro u hu hvisited
    have hmem := (h.seen u).mp hvisited
    rw [List.map_cons, List.mem_append, List.mem_cons] at hmem
    obtain hmem | rfl | hmem := hmem
    · exact List.mem_append_left _ hmem
    · exact List.mem_append_right _ List.mem_cons_self
    · obtain ⟨e, he, rfl⟩ := List.mem_map.mp hmem
      exact absurd ⟨hu, List.rel_of_pairwise_cons h.path he⟩ (hback e he)
  induction hw with
  | refl => exact List.mem_append_right _ List.mem_cons_self
  | @tail u w hu hedge ih =>
      refine hstep w (hu.tail hedge) ?_
      obtain hu | hu := List.mem_append.mp ih
      · exact h.closed u hu w hedge
      · rw [List.mem_singleton.mp hu] at hedge
        obtain ⟨i, hi⟩ := List.mem_iff_getElem?.mp hedge
        have hlt : i < next := (List.getElem?_eq_some_iff.mp hi).1.trans_le
          (List.getElem?_eq_none_iff.mp hend)
        exact h.scanned (v, next) List.mem_cons_self i hlt w hi

theorem Searching.leave (h : Searching refs visited finish ((v, next) :: stack))
    (hend : (refs v)[next]? = none) : Searching refs visited (finish ++ [v]) stack := by
  have hassoc : finish ++ [v] ++ stack.map Prod.fst =
      finish ++ ((v, next) :: stack).map Prod.fst := by simp
  have hv : (∃ e ∈ stack, Mutual refs v e.1) ∨ Settled refs (finish ++ [v]) v := by
    by_cases hback : ∃ e ∈ stack, Mutual refs v e.1
    · exact Or.inl hback
    · refine Or.inr ⟨finish, v, [], rfl, Mutual.refl v, ?_⟩
      intro w hw
      exact h.reached hend (fun e he hmutual => hback ⟨e, he, hmutual⟩) hw
  constructor
  · rw [hassoc]
    exact h.seen
  · rw [hassoc]
    exact h.nodup
  · exact (List.pairwise_cons.mp h.path).2
  · intro e he
    exact h.scanned e (List.mem_cons_of_mem _ he)
  · intro u hu w hw
    obtain hu | hu := List.mem_append.mp hu
    · exact h.closed u hu w hw
    · rw [List.mem_singleton.mp hu] at hw
      obtain ⟨i, hi⟩ := List.mem_iff_getElem?.mp hw
      have hlt : i < next := (List.getElem?_eq_some_iff.mp hi).1.trans_le
        (List.getElem?_eq_none_iff.mp hend)
      exact h.scanned (v, next) List.mem_cons_self i hlt w hi
  · intro u hu
    obtain hu | hu := List.mem_append.mp hu
    · obtain ⟨e, he, hmutual⟩ | hsettled := h.settled u hu
      · obtain rfl | he := List.mem_cons.mp he
        · -- What holds of the node that is left holds of its whole component.
          obtain ⟨e, he, hback⟩ | ⟨before, last, after, heq, hlast, hbefore⟩ := hv
          · exact Or.inl ⟨e, he, hmutual.trans hback⟩
          · refine Or.inr ⟨before, last, after, heq, hmutual.trans hlast, ?_⟩
            intro w hw
            exact hbefore w (hmutual.2.trans hw)
        · exact Or.inl ⟨e, he, hmutual⟩
      · exact Or.inr (hsettled.append [v])
    · rw [List.mem_singleton.mp hu]
      exact hv

end Steps

theorem finishFrom_searching {visited : Finset (Fin n)} {finish : List (Fin n)}
    {stack : List (Fin n × ℕ)} (h : Searching refs visited finish stack) :
    Searching refs (finishFrom refs visited finish stack).1 (finishFrom refs visited finish stack).2 [] ∧
      visited ⊆ (finishFrom refs visited finish stack).1 := by
  induction visited, finish, stack using finishFrom.induct refs with
  | case1 visited finish =>
      unfold finishFrom
      exact ⟨h, Finset.Subset.refl visited⟩
  | case2 visited finish v next stack w hedge hw ih =>
      obtain ⟨hsearch, hsub⟩ := ih (h.advance hedge hw)
      unfold finishFrom
      split
      · rename_i w' hedge'
        obtain rfl := Option.some.inj (hedge.symm.trans hedge')
        rw [if_pos hw]
        exact ⟨hsearch, hsub⟩
      · rename_i hend
        rw [hedge] at hend
        cases hend
  | case3 visited finish v next stack w hedge hw ih =>
      obtain ⟨hsearch, hsub⟩ := ih (h.enter hedge hw)
      unfold finishFrom
      split
      · rename_i w' hedge'
        obtain rfl := Option.some.inj (hedge.symm.trans hedge')
        rw [if_neg hw]
        exact ⟨hsearch, (Finset.subset_insert w visited).trans hsub⟩
      · rename_i hend
        rw [hedge] at hend
        cases hend
  | case4 visited finish v next stack hend ih =>
      obtain ⟨hsearch, hsub⟩ := ih (h.leave hend)
      unfold finishFrom
      split
      · rename_i w hedge
        rw [hend] at hedge
        cases hedge
      · exact ⟨hsearch, hsub⟩

/-- All nodes are listed once, and the list is settled for each of them. -/
structure Listed (refs : Fin n → List (Fin n)) (finish : List (Fin n)) : Prop where
  nodup : finish.Nodup
  mem : ∀ v, v ∈ finish
  settled : ∀ v, Settled refs finish v

theorem finishOrder_listed (refs : Fin n → List (Fin n)) : Listed refs (finishOrder refs) := by
  have hfold : ∀ (starts : List (Fin n)) (found : Finset (Fin n) × List (Fin n)),
      Searching refs found.1 found.2 [] →
      let found' := starts.foldl (fun found start => if start ∈ found.1 then found else
        finishFrom refs (insert start found.1) found.2 [(start, 0)]) found
      Searching refs found'.1 found'.2 [] ∧ found.1 ⊆ found'.1 ∧ ∀ v ∈ starts, v ∈ found'.1 := by
    intro starts
    induction starts with
    | nil => exact fun found h => ⟨h, Finset.Subset.refl _, fun v hv => absurd hv List.not_mem_nil⟩
    | cons start starts ih =>
        intro found h
        rw [List.foldl_cons]
        by_cases hstart : start ∈ found.1
        · rw [if_pos hstart]
          obtain ⟨hsearch, hsub, hall⟩ := ih found h
          exact ⟨hsearch, hsub, List.forall_mem_cons.mpr ⟨hsub hstart, hall⟩⟩
        · rw [if_neg hstart]
          obtain ⟨hfrom, hgrows⟩ := finishFrom_searching (h.push hstart fun e he => by cases he)
          obtain ⟨hsearch, hsub, hall⟩ := ih _ hfrom
          refine ⟨hsearch, (Finset.subset_insert start _).trans (hgrows.trans hsub), ?_⟩
          exact List.forall_mem_cons.mpr ⟨hsub (hgrows (Finset.mem_insert_self start _)), hall⟩
  obtain ⟨hsearch, -, hall⟩ := hfold (List.finRange n) (∅, []) searching_nil
  have hmem : ∀ v, v ∈ finishOrder refs := by
    intro v
    have hv := (hsearch.seen v).mp (hall v (List.mem_finRange v))
    rwa [List.map_nil, List.append_nil] at hv
  refine ⟨?_, hmem, fun v => ?_⟩
  · have hnodup := hsearch.nodup
    rwa [List.map_nil, List.append_nil] at hnodup
  · obtain ⟨e, he, -⟩ | hsettled := hsearch.settled v (hmem v)
    · cases he
    · exact hsettled

/-! ## The second search -/

theorem mem_revRefs {v w : Fin n} : v ∈ revRefs refs w ↔ w ∈ refs v := by
  simp only [revRefs, List.mem_flatMap, List.mem_finRange, true_and, List.mem_filterMap]
  constructor
  · rintro ⟨u, x, hx, he⟩
    split_ifs at he with hxw
    obtain rfl := Option.some.inj he
    exact hxw ▸ hx
  · intro hw
    exact ⟨v, w, hw, if_pos rfl⟩

end CondensationDepths

namespace StackSearch

variable {S : Type*} [DecidableEq S] {succ : S → List S} {U : Finset S}

/-- What was seen before the search may as well be left out of the universe. -/
theorem closeFrom_union (seen : Finset S) (found : Finset S × List S) (closed : List S) :
    closeFrom succ U (seen ∪ found.1, found.2) closed = closeFrom succ (U \ seen) found closed := by
  have hdiscover : ∀ (targets : List S) (found : Finset S × List S),
      targets.foldl (discover U) (seen ∪ found.1, found.2) =
        (seen ∪ (targets.foldl (discover (U \ seen)) found).1,
          (targets.foldl (discover (U \ seen)) found).2) := by
    intro targets
    induction targets with
    | nil => exact fun found => rfl
    | cons target targets ih =>
        intro found
        rw [List.foldl_cons, List.foldl_cons, ← ih]
        unfold discover
        by_cases hnew : target ∈ U \ seen ∧ target ∉ found.1
        · have hnew' : target ∈ U ∧ target ∉ seen ∪ found.1 := by
            simp only [Finset.mem_sdiff, Finset.mem_union] at hnew ⊢
            tauto
          rw [if_pos hnew, if_pos hnew', Finset.union_insert]
        · have hnew' : ¬ (target ∈ U ∧ target ∉ seen ∪ found.1) := by
            simp only [Finset.mem_sdiff, Finset.mem_union] at hnew ⊢
            tauto
          rw [if_neg hnew, if_neg hnew']
  induction found, closed using closeFrom.induct succ (U \ seen) with
  | case1 found closed hstack =>
      rw [closeFrom, closeFrom]
      split
      · split
        · rfl
        · rename_i hcons
          rw [hstack] at hcons
          cases hcons
      · rename_i hcons
        rw [hstack] at hcons
        cases hcons
  | case2 found closed s rest hstack ih =>
      rw [closeFrom, closeFrom]
      split
      · rename_i hnil
        rw [hstack] at hnil
        cases hnil
      · rename_i s' rest' hcons
        split
        · rename_i hnil
          rw [hstack] at hnil
          cases hnil
        · rename_i s'' rest'' hcons'
          rw [hstack] at hcons hcons'
          cases hcons
          cases hcons'
          rw [hdiscover (succ s) (found.1, rest)]
          exact ih

/-- What was not seen before the search is what it collects from its start. -/
theorem mem_closeFrom_start {seen : Finset S} {start : S} (hU : start ∈ U) (hstart : start ∉ seen)
    {x : S} : x ∈ closeFrom succ U (insert start seen, [start]) [] ↔
      Relation.ReflTransGen (Step succ (U \ seen)) start x := by
  have hmem : start ∈ U \ seen := Finset.mem_sdiff.mpr ⟨hU, hstart⟩
  have hfound : insert start seen = seen ∪ {start} := by
    rw [Finset.union_comm, Finset.singleton_union]
  have hroots : [start].foldl (discover (U \ seen)) (∅, []) = ({start}, [start]) := by
    rw [List.foldl_cons, List.foldl_nil, discover, if_pos ⟨hmem, Finset.notMem_empty start⟩]
    rfl
  rw [hfound, closeFrom_union seen ({start}, [start]) [], ← hroots]
  change x ∈ collect succ (U \ seen) [start] ↔ _
  rw [mem_collect]
  simp [hU, hstart]

theorem discover_nodup (targets : List S) {found : Finset S × List S} {closed : List S}
    (hnodup : (closed ++ found.2).Nodup) (hfound : ∀ x ∈ closed ++ found.2, x ∈ found.1) :
    (closed ++ (targets.foldl (discover U) found).2).Nodup ∧
      ∀ x ∈ closed ++ (targets.foldl (discover U) found).2,
        x ∈ (targets.foldl (discover U) found).1 := by
  induction targets generalizing found with
  | nil => exact ⟨hnodup, hfound⟩
  | cons target targets ih =>
      rw [List.foldl_cons]
      apply ih
      · unfold discover
        split_ifs with hnew
        · rw [List.nodup_middle]
          exact List.nodup_cons.mpr ⟨fun hmem => hnew.2 (hfound target hmem), hnodup⟩
        · exact hnodup
      · intro x hx
        unfold discover at hx ⊢
        split_ifs at hx ⊢
        · rw [List.mem_append, List.mem_cons] at hx
          rw [Finset.mem_insert]
          obtain hx | rfl | hx := hx
          · exact Or.inr (hfound x (List.mem_append_left _ hx))
          · exact Or.inl rfl
          · exact Or.inr (hfound x (List.mem_append_right _ hx))
        · exact hfound x hx

/-- Nothing is closed twice. -/
theorem closeFrom_nodup {found : Finset S × List S} {closed : List S}
    (hnodup : (closed ++ found.2).Nodup) (hfound : ∀ x ∈ closed ++ found.2, x ∈ found.1) :
    (closeFrom succ U found closed).Nodup := by
  induction found, closed using closeFrom.induct succ U with
  | case1 found closed hstack =>
      rw [closeFrom]
      split
      · exact (List.nodup_append.mp hnodup).1
      · rename_i hcons
        rw [hstack] at hcons
        cases hcons
  | case2 found closed s rest hstack ih =>
      rw [closeFrom]
      split
      · rename_i hnil
        rw [hstack] at hnil
        cases hnil
      · rename_i s' rest' hcons
        rw [hstack] at hcons
        cases hcons
        have hshift : closed ++ [s] ++ rest = closed ++ found.2 := by rw [hstack]; simp
        have hnodup' : (closed ++ [s] ++ rest).Nodup := by rwa [hshift]
        have hfound' : ∀ x ∈ closed ++ [s] ++ rest, x ∈ found.1 := by rwa [hshift]
        obtain ⟨hnodup', hfound'⟩ := @discover_nodup _ _ _ (succ s) (found.1, rest) _ hnodup' hfound'
        exact ih hnodup' hfound'

end StackSearch

namespace CondensationDepths

open Relation (ReflTransGen)

variable {n : ℕ} (refs : Fin n → List (Fin n))

/-- The components of more than one node that were found so far. -/
structure Membership (n : ℕ) where
  visited : Finset (Fin n)
  membership : Fin n → Option ℕ
  nextComponent : ℕ

def addComponent (found : Membership n) (start : Fin n) : Membership n :=
  if start ∈ found.visited then found
  else
    let component := StackSearch.closeFrom (revRefs refs) Finset.univ
      (insert start found.visited, [start]) []
    { visited := found.visited ∪ component.toFinset
      membership := fun v =>
        if 2 ≤ component.length ∧ v ∈ component.toFinset then some found.nextComponent
        else found.membership v
      nextComponent :=
        if 2 ≤ component.length then found.nextComponent + 1 else found.nextComponent }

/-- The number of the component of a node, for the components of more than one node. -/
def nontrivialComponents : Fin n → Option ℕ :=
  ((finishOrder refs).reverse.foldl (addComponent refs) ⟨∅, fun _ => none, 0⟩).membership

/-- Whole components were found, from the end of the list on. -/
structure Labelled (refs : Fin n → List (Fin n)) (found : Membership n) : Prop where
  whole : ∀ v ∈ found.visited, ∀ w, Mutual refs v w → w ∈ found.visited
  bounded : ∀ v c, found.membership v = some c → v ∈ found.visited ∧ c < found.nextComponent
  same : ∀ v c, found.membership v = some c → ∀ w, found.membership w = some c ↔ Mutual refs v w
  alone : ∀ v ∈ found.visited, found.membership v = none → ∀ w, Mutual refs v w → w = v
  paired : ∀ v c, found.membership v = some c → ∃ w, Mutual refs v w ∧ w ≠ v

variable {refs}

/-- The search against the edges finds the component of the last node that was not found. -/
theorem mem_component {finish : List (Fin n)} (hlisted : Listed refs finish) {before after : List (Fin n)}
    {start : Fin n} (hfinish : finish = before ++ start :: after) {visited : Finset (Fin n)}
    (hafter : ∀ v ∈ after, v ∈ visited) (hwhole : ∀ v ∈ visited, ∀ w, Mutual refs v w → w ∈ visited)
    (hstart : start ∉ visited) (v : Fin n) :
    v ∈ StackSearch.closeFrom (revRefs refs) Finset.univ (insert start visited, [start]) [] ↔
      Mutual refs start v := by
  rw [StackSearch.mem_closeFrom_start (Finset.mem_univ start) hstart]
  constructor
  · intro h
    have hback : Reaches refs v start ∧ v ∉ visited := by
      induction h with
      | refl => exact ⟨ReflTransGen.refl, hstart⟩
      | tail _ hstep ih =>
          exact ⟨ReflTransGen.head (mem_revRefs.mp hstep.1) ih.1, (Finset.mem_sdiff.mp hstep.2).2⟩
    obtain ⟨hreach, hnew⟩ := hback
    obtain ⟨before', last, after', heq, hlast, hbefore⟩ := hlisted.settled v
    have hlastnew : last ∉ visited := fun hmem => hnew (hwhole last hmem v hlast.symm)
    obtain hmem | hmem := List.mem_append.mp (hbefore start hreach)
    · -- The last node of the component would come after the start.
      exfalso
      obtain ⟨l, m, rfl⟩ := List.append_of_mem hmem
      have hsplit : before ++ start :: after = l ++ start :: (m ++ last :: after') := by
        rw [← hfinish, heq, List.append_assoc, List.cons_append]
      have hnodup := hlisted.nodup
      rw [hfinish] at hnodup
      rw [List.nodup_middle, List.nodup_cons, List.mem_append, not_or] at hnodup
      obtain ⟨-, -, rfl⟩ := (List.append_cons_inj_of_notMem hnodup.1.1 hnodup.1.2).mp hsplit
      exact hlastnew (hafter last (by simp))
    · rw [List.mem_singleton.mp hmem]
      exact hlast.symm
  · intro h
    obtain ⟨hforth, hback⟩ := h
    -- Everything on the way lies in the component.
    have hnew : ∀ u, Mutual refs start u → u ∉ visited := fun u hu hmem =>
      hstart (hwhole u hmem start hu.symm)
    induction hback using ReflTransGen.head_induction_on with
    | refl => exact ReflTransGen.refl
    | @head u w hedge hw ih =>
        have hw' : Reaches refs start w := hforth.tail hedge
        refine ReflTransGen.tail (ih hw') ⟨mem_revRefs.mpr hedge, ?_⟩
        refine Finset.mem_sdiff.mpr ⟨Finset.mem_univ u, hnew u ⟨hforth, ?_⟩⟩
        exact ReflTransGen.head hedge hw

theorem exists_mem_ne_of_nodup {α : Type*} {l : List α} (hnodup : l.Nodup) (hlong : 2 ≤ l.length)
    (a : α) : ∃ b ∈ l, b ≠ a := by
  match l, hnodup, hlong with
  | b :: c :: l, hnodup, _ =>
      by_cases hb : b = a
      · refine ⟨c, by simp, ?_⟩
        rintro rfl
        exact (List.nodup_cons.mp hnodup).1 (hb ▸ List.mem_cons_self)
      · exact ⟨b, List.mem_cons_self, hb⟩

theorem Labelled.add {finish : List (Fin n)} (hlisted : Listed refs finish)
    {before after : List (Fin n)} {start : Fin n} (hfinish : finish = before ++ start :: after)
    {found : Membership n} (h : Labelled refs found) (hafter : ∀ v ∈ after, v ∈ found.visited) :
    Labelled refs (addComponent refs found start) ∧
      ∀ v ∈ start :: after, v ∈ (addComponent refs found start).visited := by
  unfold addComponent
  split_ifs with hstart
  · exact ⟨h, List.forall_mem_cons.mpr ⟨hstart, hafter⟩⟩
  · have hmem := mem_component hlisted hfinish hafter h.whole hstart
    have hnodup : (StackSearch.closeFrom (revRefs refs) Finset.univ
        (insert start found.visited, [start]) []).Nodup := by
      apply StackSearch.closeFrom_nodup (List.nodup_singleton start)
      simp
    simp only [List.mem_toFinset]
    generalize StackSearch.closeFrom (revRefs refs) Finset.univ
      (insert start found.visited, [start]) [] = component at hmem hnodup ⊢
    have hself : start ∈ component := (hmem start).mpr (Mutual.refl start)
    have hvisited : ∀ v, v ∈ found.visited ∪ component.toFinset ↔
        v ∈ found.visited ∨ Mutual refs start v := by
      intro v
      rw [Finset.mem_union, List.mem_toFinset, hmem]
    have hout : ∀ v, Mutual refs start v → v ∉ found.visited := fun v hv hold =>
      hstart (h.whole v hold start hv.symm)
    have hunlabelled : ∀ v, Mutual refs start v → found.membership v = none := by
      intro v hv
      cases he : found.membership v with
      | none => rfl
      | some c => exact absurd (h.bounded v c he).1 (hout v hv)
    refine ⟨⟨?_, ?_, ?_, ?_, ?_⟩, ?_⟩
    · intro v hv w hw
      rw [hvisited] at hv ⊢
      exact hv.imp (fun hv => h.whole v hv w hw) fun hv => hv.trans hw
    · intro v c hc
      dsimp only at hc ⊢
      rw [hvisited]
      split_ifs at hc with hlabel
      · obtain rfl := Option.some.inj hc
        rw [if_pos hlabel.1]
        exact ⟨Or.inr ((hmem v).mp hlabel.2), Nat.lt_succ_self _⟩
      · obtain ⟨hv, hlt⟩ := h.bounded v c hc
        refine ⟨Or.inl hv, ?_⟩
        split_ifs
        · exact hlt.trans (Nat.lt_succ_self _)
        · exact hlt
    · intro v c hc w
      dsimp only at hc ⊢
      split_ifs at hc with hlabel
      · obtain rfl := Option.some.inj hc
        have hvw : w ∈ component ↔ Mutual refs v w := by
          rw [hmem]
          exact ⟨fun hw => ((hmem v).mp hlabel.2).symm.trans hw, fun hw => ((hmem v).mp hlabel.2).trans hw⟩
        rw [← hvw]
        by_cases hw : w ∈ component
        · exact iff_of_true (if_pos ⟨hlabel.1, hw⟩) hw
        · refine iff_of_false ?_ hw
          rw [if_neg fun hand => hw hand.2]
          exact fun he => absurd (h.bounded w _ he).2 (lt_irrefl _)
      · have hold := (h.bounded v c hc).1
        rw [← h.same v c hc w]
        by_cases hw : 2 ≤ component.length ∧ w ∈ component
        · rw [if_pos hw, hunlabelled w ((hmem w).mp hw.2)]
          refine iff_of_false ?_ (by simp)
          intro he
          obtain rfl := Option.some.inj he
          exact absurd (h.bounded v _ hc).2 (lt_irrefl _)
        · rw [if_neg hw]
    · intro v hv hnone w hw
      dsimp only at hnone
      split_ifs at hnone with hlabel
      obtain hv | hv := (hvisited v).mp hv
      · exact h.alone v hv hnone w hw
      · -- The component has one node only.
        have hshort : ¬ 2 ≤ component.length := fun hlong => hlabel ⟨hlong, (hmem v).mpr hv⟩
        have hone : component = [start] := by
          obtain ⟨u, hu⟩ := List.length_eq_one_iff.mp
            (le_antisymm (Nat.le_of_lt_succ (not_le.mp hshort)) (List.length_pos_of_mem hself))
          rw [hu] at hself ⊢
          rw [List.mem_singleton.mp hself]
        have hv' := List.mem_singleton.mp (hone ▸ (hmem v).mpr hv)
        have hw' := List.mem_singleton.mp (hone ▸ (hmem w).mpr (hv.trans hw))
        rw [hv', hw']
    · intro v c hc
      dsimp only at hc
      split_ifs at hc with hlabel
      · obtain ⟨w, hw, hne⟩ := exists_mem_ne_of_nodup hnodup hlabel.1 v
        exact ⟨w, ((hmem v).mp hlabel.2).symm.trans ((hmem w).mp hw), hne⟩
      · exact h.paired v c hc
    · intro v hv
      rw [hvisited]
      obtain rfl | hv := List.mem_cons.mp hv
      · exact Or.inr (Mutual.refl v)
      · exact Or.inl (hafter v hv)

/-- A node has a number exactly if it reaches another node and is reached by it, and then the
nodes of the same number are those of its component. -/
theorem nontrivialComponents_spec (refs : Fin n → List (Fin n)) (v : Fin n) :
    (nontrivialComponents refs v = none ↔ ∀ w, Mutual refs v w → w = v) ∧
      ∀ c, nontrivialComponents refs v = some c →
        ∀ w, nontrivialComponents refs w = some c ↔ Mutual refs v w := by
  have hlisted := finishOrder_listed refs
  have hfold : ∀ before after : List (Fin n), finishOrder refs = before ++ after →
      let found := after.reverse.foldl (addComponent refs) ⟨∅, fun _ => none, 0⟩
      Labelled refs found ∧ ∀ v ∈ after, v ∈ found.visited := by
    intro before after
    induction after generalizing before with
    | nil =>
        intro _
        refine ⟨⟨?_, ?_, ?_, ?_, ?_⟩, ?_⟩ <;> simp
    | cons start after ih =>
        intro heq
        obtain ⟨hlabelled, hafter⟩ := ih (before ++ [start]) (by simpa using heq)
        rw [List.reverse_cons, List.foldl_append, List.foldl_cons, List.foldl_nil]
        exact hlabelled.add hlisted heq hafter
  obtain ⟨hlabelled, hall⟩ := hfold [] (finishOrder refs) rfl
  refine ⟨⟨hlabelled.alone v (hall v (hlisted.mem v)), ?_⟩, hlabelled.same v⟩
  intro halone
  cases hc : nontrivialComponents refs v with
  | none => rfl
  | some c =>
      obtain ⟨w, hw, hne⟩ := hlabelled.paired v c hc
      exact absurd (halone w hw) hne

end CondensationDepths

end GlrMask
