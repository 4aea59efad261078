import Mathlib

/-!
# Regular expressions as their text is read

A pattern is a choice of branches and a branch is a run of atoms, each with at most
one quantifier. The texts of two patterns are put side by side by joining the last
branch of the first with the first branch of the second; `Pattern.Denotes` says that a
pattern has one branch and therefore keeps its language wherever its text is put.
-/

namespace Regex

inductive Quantifier where
  | once
  | star
  | plus
  | optional
  | atLeast (least : ℕ)
  | between (least most : ℕ)
  deriving DecidableEq, Repr

mutual

inductive Atom (α : Type) where
  | char (a : α)
  | range (first last : α)
  | group (p : Pattern α)

inductive Branch (α : Type) where
  | nil
  | cons (a : Atom α) (q : Quantifier) (rest : Branch α)

inductive Pattern (α : Type) where
  | branch (b : Branch α)
  | alternative (b : Branch α) (rest : Pattern α)

end

section language

variable {α : Type}

def Quantifier.apply (L : Language α) : Quantifier → Language α
  | .once => L
  | .star => KStar.kstar L
  | .plus => L * KStar.kstar L
  | .optional => 1 + L
  | .atLeast least => L ^ least * KStar.kstar L
  | .between least most => {w | ∃ k, least ≤ k ∧ k ≤ most ∧ w ∈ L ^ k}

variable [LE α]

mutual

def Atom.language : Atom α → Language α
  | .char a => {[a]}
  | .range first last => {w | ∃ a, first ≤ a ∧ a ≤ last ∧ w = [a]}
  | .group p => p.language

def Branch.language : Branch α → Language α
  | .nil => 1
  | .cons a q rest => q.apply a.language * rest.language

def Pattern.language : Pattern α → Language α
  | .branch b => b.language
  | .alternative b rest => b.language + rest.language

end

end language

variable {α : Type}

def Branch.append : Branch α → Branch α → Branch α
  | .nil, c => c
  | .cons a q rest, c => .cons a q (rest.append c)

/-- The text of a branch before the text of a pattern. -/
def Branch.before (b : Branch α) : Pattern α → Pattern α
  | .branch c => .branch (b.append c)
  | .alternative c rest => .alternative (b.append c) rest

def Pattern.append : Pattern α → Pattern α → Pattern α
  | .branch b, p => b.before p
  | .alternative b rest, p => .alternative b (rest.append p)

instance : Append (Pattern α) := ⟨Pattern.append⟩

/-- The two texts with a bar between them. -/
def Pattern.choice : Pattern α → Pattern α → Pattern α
  | .branch b, p => .alternative b p
  | .alternative b rest, p => .alternative b (rest.choice p)

def Pattern.empty : Pattern α := .branch .nil

def Pattern.isEmpty : Pattern α → Bool
  | .branch .nil => true
  | _ => false

/-- The texts with bars between them. -/
def Pattern.join : List (Pattern α) → Pattern α
  | [] => .empty
  | [p] => p
  | p :: q :: ps => p.choice (join (q :: ps))

def Atom.quantified (a : Atom α) (q : Quantifier) : Pattern α := .branch (.cons a q .nil)

def char (a : α) : Pattern α := (Atom.char a).quantified .once

def range (first last : α) : Pattern α := (Atom.range first last).quantified .once

def group (p : Pattern α) : Pattern α := (Atom.group p).quantified .once

def literal : List α → Pattern α
  | [] => .empty
  | a :: w => char a ++ literal w

section text

/-- The text of a literal character; the characters with a meaning are escaped. -/
def escaped (c : Char) : List Char :=
  if c ∈ ['.', '*', '+', '?', '(', ')', '[', ']', '\x7b', '\x7d', '|', '\\', '^', '$'] then
    ['\\', c]
  else [c]

def Quantifier.text : Quantifier → List Char
  | .once => []
  | .star => ['*']
  | .plus => ['+']
  | .optional => ['?']
  | .atLeast least => '\x7b' :: Nat.toDigits 10 least ++ [',', '\x7d']
  | .between least most =>
      '\x7b' :: Nat.toDigits 10 least ++ ',' :: Nat.toDigits 10 most ++ ['\x7d']

mutual

def Atom.text : Atom Char → List Char
  | .char c => escaped c
  | .range first last => ['[', first, '-', last, ']']
  | .group p => '(' :: p.text ++ [')']

def Branch.text : Branch Char → List Char
  | .nil => []
  | .cons a q rest => a.text ++ q.text ++ rest.text

def Pattern.text : Pattern Char → List Char
  | .branch b => b.text
  | .alternative b rest => b.text ++ '|' :: rest.text

end

end text

theorem singleton_pow (a : α) (k : ℕ) : ({[a]} : Language α) ^ k = {List.replicate k a} := by
  induction k with
  | zero => rfl
  | succ k ih =>
    rw [pow_succ, ih, List.replicate_succ']
    ext w
    rw [Language.mem_mul]
    constructor
    · intro h
      obtain ⟨_, rfl, _, rfl, rfl⟩ := h
      rfl
    · intro h
      exact ⟨_, rfl, _, rfl, h.symm⟩

variable [LE α]

theorem Branch.language_append (b c : Branch α) :
    (b.append c).language = b.language * c.language := by
  fun_induction Branch.append b c with
  | case1 => simp only [Branch.language, one_mul]
  | case2 a s rest c ih => simp only [Branch.language, ih, mul_assoc]

theorem Pattern.language_choice (p q : Pattern α) :
    (p.choice q).language = p.language + q.language := by
  fun_induction Pattern.choice p q with
  | case1 b => rfl
  | case2 b rest q ih => simp only [Pattern.language, ih, add_assoc]

theorem Pattern.language_join {ps : List (Pattern α)} (h : ps ≠ []) :
    (Pattern.join ps).language = (ps.map Pattern.language).sum := by
  induction ps with
  | nil => exact absurd rfl h
  | cons p ps ih =>
    cases ps with
    | nil => simp [Pattern.join]
    | cons q ps =>
      rw [Pattern.join, Pattern.language_choice, ih (List.cons_ne_nil _ _)]
      rfl

theorem Pattern.mem_language_join {ps : List (Pattern α)} (h : ps ≠ []) {w : List α} :
    w ∈ (Pattern.join ps).language ↔ ∃ p ∈ ps, w ∈ p.language := by
  rw [Pattern.language_join h]
  clear h
  induction ps with
  | nil => simp [Language.notMem_zero]
  | cons p ps ih =>
    rw [List.map_cons, List.sum_cons, Language.mem_add, ih]
    simp

namespace Pattern

/-- The pattern is one branch, and its language is `L`. -/
def Denotes (p : Pattern α) (L : Language α) : Prop :=
  ∃ b : Branch α, p = .branch b ∧ b.language = L

variable {p q : Pattern α} {L M : Language α}

theorem Denotes.language_eq (h : p.Denotes L) : p.language = L := by
  obtain ⟨b, rfl, hb⟩ := h
  exact hb

theorem Denotes.append (hp : p.Denotes L) (hq : q.Denotes M) : (p ++ q).Denotes (L * M) := by
  obtain ⟨b, rfl, rfl⟩ := hp
  obtain ⟨c, rfl, rfl⟩ := hq
  exact ⟨b.append c, rfl, Branch.language_append b c⟩

theorem denotes_empty : (Pattern.empty : Pattern α).Denotes 1 := ⟨.nil, rfl, rfl⟩

theorem denotes_quantified (a : Atom α) (s : Quantifier) : (a.quantified s).Denotes (s.apply a.language) := by
  refine ⟨_, rfl, ?_⟩
  rw [Branch.language, Branch.language, mul_one]

theorem denotes_char (a : α) : (char a).Denotes {[a]} := denotes_quantified _ _

theorem denotes_range (first last : α) :
    (range first last).Denotes {w | ∃ a, first ≤ a ∧ a ≤ last ∧ w = [a]} := denotes_quantified _ _

theorem denotes_group (p : Pattern α) : (group p).Denotes p.language := denotes_quantified _ _

theorem Denotes.group_with (hp : p.Denotes L) (s : Quantifier) :
    ((Atom.group p).quantified s).Denotes (s.apply L) := by
  rw [← hp.language_eq]
  exact denotes_quantified _ _

theorem denotes_literal (w : List α) : (literal w).Denotes {w} := by
  induction w with
  | nil => exact denotes_empty
  | cons a w ih =>
    have h : ({a :: w} : Language α) = {[a]} * {w} := by
      ext v
      constructor
      · intro hv
        exact ⟨[a], rfl, w, rfl, hv.symm⟩
      · rintro ⟨_, rfl, _, rfl, rfl⟩
        rfl
    rw [h]
    exact (denotes_char a).append ih

/-- Patterns of one branch each that together denote `L`. -/
def DenoteAll (ps : List (Pattern α)) (L : Language α) : Prop :=
  (∀ p ∈ ps, ∃ b : Branch α, p = .branch b) ∧ (ps.map Pattern.language).sum = L

theorem denoteAll_nil : DenoteAll ([] : List (Pattern α)) 0 :=
  ⟨fun _ h => absurd h List.not_mem_nil, rfl⟩

theorem Denotes.denoteAll (h : p.Denotes L) : DenoteAll [p] L := by
  constructor
  · intro q hq
    rw [List.mem_singleton] at hq
    obtain ⟨b, hb, -⟩ := h
    exact ⟨b, hq.trans hb⟩
  · rw [List.map_singleton, List.sum_singleton, h.language_eq]

theorem DenoteAll.append {ps qs : List (Pattern α)} (hp : DenoteAll ps L) (hq : DenoteAll qs M) :
    DenoteAll (ps ++ qs) (L + M) := by
  constructor
  · intro p hmem
    obtain h | h := List.mem_append.mp hmem
    · exact hp.1 p h
    · exact hq.1 p h
  · rw [List.map_append, List.sum_append, hp.2, hq.2]

theorem DenoteAll.of_eq {ps : List (Pattern α)} (h : DenoteAll ps L) (he : L = M) :
    DenoteAll ps M := he ▸ h

theorem DenoteAll.denotes (h : DenoteAll [p] L) : p.Denotes L := by
  obtain ⟨b, rfl⟩ := h.1 p (List.mem_singleton_self p)
  refine ⟨b, rfl, ?_⟩
  rw [← h.2, List.map_singleton, List.sum_singleton]
  rfl

theorem DenoteAll.group_join {ps : List (Pattern α)} (h : DenoteAll ps L) (hne : ps ≠ []) :
    (group (join ps)).Denotes L := by
  rw [← h.2, ← language_join hne]
  exact denotes_group _

theorem Denotes.of_eq (h : p.Denotes L) (he : L = M) : p.Denotes M := he ▸ h

end Pattern

end Regex
