import Mathlib.Computability.Language
import Mathlib.Data.Finset.Sort
import GlrMask.PrefixTree

/-!
# Lexer expressions

The expressions that terminals are written in, with the smart constructors the
optimiser rebuilds them by. An embedded automaton reads bytes and takes epsilon
transitions on the way; a choice of nothing and a repetition with crossed bounds
match no word.
-/

namespace GlrMask

abbrev U8Set := Finset Byte

namespace U8Set

def len (set : U8Set) : ℕ := set.card

def iter (set : U8Set) : List Byte := set.sort (· ≤ ·)

def is_empty (set : U8Set) : Bool := set.card == 0

end U8Set

structure LexerState where
  transitions : Byte → Option ℕ
  finalizers : Finset ℕ
  epsilon_transitions : List ℕ

structure LexerDFA where
  states : List LexerState

namespace LexerDFA

variable (dfa : LexerDFA)

def step (state : ℕ) (byte : Byte) : Option ℕ :=
  dfa.states[state]?.bind fun s => s.transitions byte

def finalizers (state : ℕ) : Finset ℕ :=
  dfa.states[state]?.elim ∅ LexerState.finalizers

def epsilon_transitions (state : ℕ) : List ℕ :=
  dfa.states[state]?.elim [] LexerState.epsilon_transitions

/-- The bytes on a path of byte and epsilon transitions. -/
inductive Reads : ℕ → List Byte → ℕ → Prop
  | done (state : ℕ) : Reads state [] state
  | byte {state next last : ℕ} {b : Byte} {w : List Byte} (hstep : dfa.step state b = some next)
      (hrest : Reads next w last) : Reads state (b :: w) last
  | epsilon {state next last : ℕ} {w : List Byte} (hstep : next ∈ dfa.epsilon_transitions state)
      (hrest : Reads next w last) : Reads state w last

def language : Language Byte :=
  {w | ∃ last, dfa.Reads 0 w last ∧ (dfa.finalizers last).Nonempty}

end LexerDFA

inductive Expr where
  | u8Seq (bytes : List Byte)
  | u8Class (set : U8Set)
  | dfa (dfa : LexerDFA)
  | intersect (expr intersect : Expr)
  | seq (parts : List Expr)
  | choice (options : List Expr)
  | exclude (expr exclude : Expr)
  | repeated (expr : Expr) (min : ℕ) (max : Option ℕ)
  | shared (inner : Expr)
  | epsilon

namespace Expr

/-! ## Languages -/

mutual

def language : Expr → Language Byte
  | u8Seq bytes => {bytes}
  | u8Class set => {w | ∃ b ∈ set, w = [b]}
  | dfa d => d.language
  | intersect expr other => expr.language ⊓ other.language
  | seq parts => sequenceLanguage parts
  | choice options => choiceLanguage options
  | exclude expr other => expr.language - other.language
  | repeated expr min max => {w | ∃ n, min ≤ n ∧ (∀ m ∈ max, n ≤ m) ∧ w ∈ expr.language ^ n}
  | shared inner => inner.language
  | epsilon => 1

def sequenceLanguage : List Expr → Language Byte
  | [] => 1
  | part :: parts => part.language * sequenceLanguage parts

def choiceLanguage : List Expr → Language Byte
  | [] => 0
  | option :: options => option.language + choiceLanguage options

end

@[simp] theorem mem_u8Seq {bytes w : List Byte} : w ∈ (u8Seq bytes).language ↔ w = bytes := Iff.rfl

@[simp] theorem mem_u8Class {set : U8Set} {w : List Byte} :
    w ∈ (u8Class set).language ↔ ∃ b ∈ set, w = [b] := Iff.rfl

theorem mem_repeated {expr : Expr} {min : ℕ} {max : Option ℕ} {w : List Byte} :
    w ∈ (repeated expr min max).language ↔
      ∃ n, min ≤ n ∧ (∀ m ∈ max, n ≤ m) ∧ w ∈ expr.language ^ n := Iff.rfl

/-! ## Smart constructors -/

def optimize_repeat_expr (expr : Expr) (min : ℕ) (max : Option ℕ) : Expr :=
  match min, max with
  | 0, some 0 => epsilon
  | 1, some 1 => expr
  | _, _ => repeated expr min max

def flatten_sequence_parts : List Expr → List Expr
  | [] => []
  | seq children :: exprs => children ++ flatten_sequence_parts exprs
  | epsilon :: exprs => flatten_sequence_parts exprs
  | other :: exprs => other :: flatten_sequence_parts exprs

def simplify_single_byte_class : Expr → Expr
  | u8Class set =>
      if set.len = 1 then
        match set.iter.head? with
        | some byte => u8Seq [byte]
        | none => u8Class set
      else u8Class set
  | other => other

def simplify_single_byte_classes (exprs : List Expr) : List Expr :=
  exprs.map simplify_single_byte_class

/-- One step of the merge; the last merged expression stands first. -/
def mergeByteSequence : List Expr → Expr → List Expr
  | u8Seq previous :: merged, u8Seq current => u8Seq (previous ++ current) :: merged
  | merged, other => other :: merged

def merge_adjacent_byte_sequences (exprs : List Expr) : List Expr :=
  (exprs.foldl mergeByteSequence []).reverse

def make_seq (exprs : List Expr) : Expr :=
  match flatten_sequence_parts exprs with
  | [] => epsilon
  | flat =>
      match merge_adjacent_byte_sequences (simplify_single_byte_classes flat) with
      | [expr] => expr
      | merged => seq merged

mutual

/-- A measure of the choices that the worklist has still to open. -/
def choiceSize : Expr → ℕ
  | choice options => 1 + choiceSizes options
  | _ => 1

def choiceSizes : List Expr → ℕ
  | [] => 0
  | option :: options => option.choiceSize + choiceSizes options

end

theorem choiceSizes_append (exprs others : List Expr) :
    choiceSizes (exprs ++ others) = choiceSizes exprs + choiceSizes others := by
  induction exprs with
  | nil => simp [choiceSizes]
  | cons expr exprs ih =>
      simp only [List.cons_append, choiceSizes, ih]
      omega

theorem choiceSizes_reverse (exprs : List Expr) :
    choiceSizes exprs.reverse = choiceSizes exprs := by
  induction exprs with
  | nil => rfl
  | cons expr exprs ih =>
      rw [List.reverse_cons, choiceSizes_append, ih]
      simp only [choiceSizes]
      omega

theorem choiceSize_pos (expr : Expr) : 0 < expr.choiceSize := by
  cases expr <;> simp [choiceSize]

/-- The loop of `flatten_choice_parts`; the worklist's end stands first. -/
def flattenWorklist : List Expr → List Expr
  | [] => []
  | choice children :: worklist => flattenWorklist (children.reverse ++ worklist)
  | other :: worklist => other :: flattenWorklist worklist
termination_by worklist => choiceSizes worklist
decreasing_by
  · simp only [List.unattach_reverse, List.unattach_attach, choiceSizes_append,
      choiceSizes_reverse, choiceSizes, choiceSize]
    omega
  · simp only [choiceSizes]
    exact Nat.lt_add_of_pos_left (choiceSize_pos _)

def flatten_choice_parts (exprs : List Expr) : List Expr := flattenWorklist exprs.reverse

def foldByteClass : U8Set × List Expr → Expr → U8Set × List Expr
  | (classes, complex), u8Class set => (classes ∪ set, complex)
  | (classes, complex), u8Seq [byte] => (insert byte classes, complex)
  | (classes, complex), other => (classes, complex ++ [other])

def fold_choice_byte_classes (exprs : List Expr) : List Expr :=
  let folded := exprs.foldl foldByteClass (∅, [])
  if U8Set.is_empty folded.1 then folded.2 else folded.2 ++ [u8Class folded.1]

def make_choice (exprs : List Expr) : Expr :=
  match flatten_choice_parts exprs with
  | [] => choice []
  | [expr] => expr
  | flat =>
      match fold_choice_byte_classes flat with
      | [expr] => expr
      | complex => choice complex

/-! ## The two passes over an expression -/

mutual

def is_nullable : Expr → Bool
  | u8Seq bytes => bytes.isEmpty
  | u8Class _ => false
  | dfa d => d.finalizers 0 ≠ ∅
  | intersect expr other => expr.is_nullable && other.is_nullable
  | seq parts => allNullable parts
  | choice options => anyNullable options
  | exclude expr other => expr.is_nullable && !other.is_nullable
  | repeated expr min _ => min == 0 || expr.is_nullable
  | shared inner => inner.is_nullable
  | epsilon => true

def allNullable : List Expr → Bool
  | [] => true
  | part :: parts => part.is_nullable && allNullable parts

def anyNullable : List Expr → Bool
  | [] => false
  | option :: options => option.is_nullable || anyNullable options

end

mutual

def optimize : Expr → Expr
  | seq parts => make_seq (optimizeAll parts)
  | choice options => make_choice (optimizeAll options)
  | intersect expr other => intersect expr.optimize other.optimize
  | exclude expr other => exclude expr.optimize other.optimize
  | repeated expr min max => optimize_repeat_expr expr.optimize min max
  | dfa d => dfa d
  | shared inner => shared inner.optimize
  | u8Seq bytes => u8Seq bytes
  | u8Class set => u8Class set
  | epsilon => epsilon

def optimizeAll : List Expr → List Expr
  | [] => []
  | expr :: exprs => expr.optimize :: optimizeAll exprs

end

end Expr

end GlrMask
