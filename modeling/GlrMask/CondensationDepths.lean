import Mathlib.Data.Fintype.Basic
import Mathlib.Data.List.FinRange
import GlrMask.StackSearch
import GlrMask.RangeMapJoin

/-!
# Depths of the components of a graph

Kosaraju's algorithm: a first search lists the nodes as it leaves them, a second search
against the edges numbers the strongly connected components from the sources on, and a
component lies one above the deepest component that it enters.
-/

namespace GlrMask

namespace CondensationDepths

variable {n : ℕ} (refs : Fin n → List (Fin n))

/-- What the first search has still to do: nodes to enter and edges of the entered ones. -/
def pending (stack : List (Fin n × ℕ)) : ℕ := (stack.map fun e => (refs e.1).length - e.2 + 1).sum

/-- The first search, with the entered nodes and their next edges on a stack. -/
def finishFrom (visited : Finset (Fin n)) (finish : List (Fin n)) :
    List (Fin n × ℕ) → Finset (Fin n) × List (Fin n)
  | [] => (visited, finish)
  | (v, next) :: stack =>
      match _h : (refs v)[next]? with
      | some w =>
          if w ∈ visited then finishFrom visited finish ((v, next + 1) :: stack)
          else finishFrom (insert w visited) finish ((w, 0) :: (v, next + 1) :: stack)
      | none => finishFrom visited (finish ++ [v]) stack
termination_by stack => ((Finset.univ \ visited).card, pending refs stack)
decreasing_by
  · have hlt := (List.getElem?_eq_some_iff.mp _h).1
    apply Prod.Lex.right
    simp only [pending, List.map_cons, List.sum_cons]
    omega
  · apply Prod.Lex.left
    apply Finset.card_lt_card
    rw [Finset.ssubset_iff_of_subset
      (Finset.sdiff_subset_sdiff Finset.Subset.rfl (Finset.subset_insert w visited))]
    refine ⟨w, ?_, ?_⟩ <;> simp_all
  · apply Prod.Lex.right
    simp only [pending, List.map_cons, List.sum_cons]
    omega

/-- The nodes in the order in which the first search leaves them. -/
def finishOrder : List (Fin n) :=
  ((List.finRange n).foldl (fun found start =>
    if start ∈ found.1 then found else finishFrom refs (insert start found.1) found.2 [(start, 0)])
    (∅, [])).2

/-- The nodes with an edge to a node. -/
def revRefs (target : Fin n) : List (Fin n) :=
  (List.finRange n).flatMap fun v => (refs v).filterMap fun w => if w = target then some v else none

structure Components (n : ℕ) where
  visited : Finset (Fin n)
  sccId : Fin n → ℕ
  nextScc : ℕ

/-- The second search numbers all nodes that are reached and not numbered yet. -/
def numberComponent (found : Components n) (start : Fin n) : Components n :=
  if start ∈ found.visited then found
  else
    let members := StackSearch.closeFrom (revRefs refs) Finset.univ
      (insert start found.visited, [start]) []
    { visited := found.visited ∪ members.toFinset
      sccId := fun v => if v ∈ members then found.nextScc else found.sccId v
      nextScc := found.nextScc + 1 }

def components : Components n :=
  (finishOrder refs).reverse.foldl (numberComponent refs) ⟨∅, fun _ => 0, 0⟩

/-- The components that a component enters. -/
def sccEdges (sccId : Fin n → ℕ) (scc : ℕ) : List ℕ :=
  sortDedup ((List.finRange n).flatMap fun v => (refs v).filterMap fun w =>
    if sccId v = scc ∧ sccId v ≠ sccId w then some (sccId w) else none)

/-- The longest way from every component down to a leaf, from the last component on. -/
def sccDepth (found : Components n) : ℕ → ℕ :=
  (List.range found.nextScc).reverse.foldl (fun depth scc =>
    Function.update depth scc ((sccEdges refs found.sccId scc).foldl
      (fun deepest target => max deepest (depth target + 1)) (depth scc))) (fun _ => 0)

def depth (v : Fin n) : ℕ := sccDepth refs (components refs) ((components refs).sccId v)

end CondensationDepths

end GlrMask
