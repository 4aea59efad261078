import GlrMask.DecimalFraction
import GlrMask.IntegerRange

/-!
# Regular expressions for ranges of decimals

`rx_float_range` works on the texts that the bounds print as. Between two bounds that
are not negative it writes one pattern for the integer part of the left bound, one for
the integer parts in between and one for the integer part of the right bound; the digits
after the point are compared one at a time. `rx_noninteger_float_range` does the same
for the spellings with a point.
-/

namespace GlrMask

namespace NumericRange

open Regex (Pattern Atom group literal char range)
open Decimal

/-- A finite double by the text it prints as, which has at most 17 significant digits. -/
structure Double extends Printed where
  significant : fractionNumber fraction < 10 ^ 17

namespace Double

def ofNat (n : ℕ) : Double := ⟨⟨⟨false, n, []⟩, rfl⟩, Nat.pow_pos (by decide)⟩

def neg (x : Double) : Double :=
  ⟨⟨⟨!x.negative, x.integer, x.fraction⟩, x.shortest⟩, x.significant⟩

end Double

def digit_value (c : Char) : ℕ := c.toNat - '0'.toNat

/-- `[0-9]*` -/
def any_digits : Text := (Atom.range '0' '9').quantified .star

/-- `[0-9]+` -/
def some_digits : Text := (Atom.range '0' '9').quantified .plus

/-- A digit in a range, and any digits after it. -/
def digit_then_any (first last : ℕ) : Text :=
  range (Nat.digitChar first) (Nat.digitChar last) ++ any_digits

def lexi_x_to_9 (incl : Bool) : List Char → Text
  | [] => if incl then any_digits else any_digits ++ range '1' '9'
  | x :: x_rest =>
      if incl ∧ x_rest = [] then range x '9' ++ any_digits
      else
        mk_or ((char x ++ lexi_x_to_9 incl x_rest) ::
          if digit_value x < 9 then [digit_then_any (digit_value x + 1) 9] else [])

def lexi_0_to_x (incl : Bool) : List Char → RangeResult Text
  | [] =>
      if incl then .ok .empty
      else .error (.error "Inclusive flag must be true for an empty string")
  | x :: x_rest =>
      if ¬ incl ∧ x_rest = [] then
        if digit_value x = 0 then
          .error (.error "x0 must be greater than 0 for non-inclusive single character")
        else .ok (digit_then_any 0 (digit_value x - 1))
      else (lexi_0_to_x incl x_rest).map fun rest =>
        mk_or ((char x ++ rest) ::
          if digit_value x > 0 then [digit_then_any 0 (digit_value x - 1)] else [])

def trim_end_zeros (digits : List Char) : List Char := digits.rdropWhile (· = '0')

def mk_or_opt (parts : List Text) : Option Text :=
  if parts = [] then none else some (mk_or parts)

/-- The last alternative of `lexi_range`, where the digit is the one of the right bound. -/
def lexi_range_upper (r : Char) (rd_rest : List Char) (rd_incl : Bool) : RangeResult (List Text) :=
  if rd_rest ≠ [] ∨ rd_incl then (lexi_0_to_x rd_incl rd_rest).map fun rest => [char r ++ rest]
  else .ok []

def lexi_range (ld_incl rd_incl : Bool) (ld rd : List Char) : RangeResult Text :=
  if ld.length ≠ rd.length then .error (.error "ld and rd must have the same length")
  else if ld = rd then
    if ld_incl ∧ rd_incl then .ok (literal ld)
    else .error (.error "Empty range when ld equals rd and not both inclusive")
  else match ld, rd with
    | l :: ld_rest, r :: rd_rest =>
        if digit_value l = digit_value r then
          (lexi_range ld_incl rd_incl ld_rest rd_rest).map fun rest => char l ++ rest
        else
          (lexi_range_upper r (trim_end_zeros rd_rest) rd_incl).map fun upper =>
            mk_or ((char l ++ lexi_x_to_9 ld_incl (trim_end_zeros ld_rest)) ::
              (if digit_value l + 1 < digit_value r then
                [digit_then_any (digit_value l + 1) (digit_value r - 1)] else []) ++ upper)
    -- Different texts of one length are not empty.
    | _, _ => .error (.error "called `Option::unwrap()` on a `None` value")

def exact_float_regex (value : Double) : Text := group (literal value.text)

structure NonnegativeDecimalBounds where
  left_integer : ℤ
  right_integer : ℤ
  left_fraction : List Char
  right_fraction : List Char

/-- `split('.').nth(1).unwrap_or("")` -/
def decimal_fraction (rendered : List Char) : List Char :=
  ((rendered.dropWhile (· ≠ '.')).drop 1).takeWhile (· ≠ '.')

/-- The value of digits with an optional sign. -/
def signed_digits : List Char → ℤ
  | '-' :: digits => -Nat.ofDigitChars 10 digits 0
  | digits => Nat.ofDigitChars 10 digits 0

/-- `parse::<i64>` -/
def parse_i64 (text : List Char) : Option ℤ :=
  if i64_min ≤ signed_digits text ∧ signed_digits text ≤ i64_max then some (signed_digits text)
  else none

def parse_decimal_integer (rendered : List Char) (label : String) : RangeResult ℤ :=
  match parse_i64 (rendered.takeWhile (· ≠ '.')) with
  | some n => .ok n
  | none => .error (.error
      s!"Failed to parse {label} integer part: number too large to fit in target type")

def nonnegative_decimal_bounds (left right : Double) : RangeResult NonnegativeDecimalBounds :=
  if left.text = right.text then
    .error (.error "Unexpected equality of left and right string representations")
  else do
    let left_integer ← parse_decimal_integer left.text "left"
    let right_integer ← parse_decimal_integer right.text "right"
    return ⟨left_integer, right_integer, decimal_fraction left.text, decimal_fraction right.text⟩

/-- The first fraction with zeros up to the length of the second. -/
def pad_decimal_fraction (fraction other : List Char) : List Char :=
  fraction ++ List.replicate (other.length - fraction.length) '0'

inductive FloatRangeMode where
  | AllowIntegers
  | FractionOnly
  deriving DecidableEq, Repr

def same_integer_float_part (bounds : NonnegativeDecimalBounds)
    (left_inclusive right_inclusive : Bool) (mode : FloatRangeMode) : RangeResult Text :=
  let left_fraction := pad_decimal_fraction bounds.left_fraction bounds.right_fraction
  let right_fraction := pad_decimal_fraction bounds.right_fraction bounds.left_fraction
  (lexi_range left_inclusive right_inclusive left_fraction right_fraction).map fun digits =>
    let integer := literal (integer_spelling bounds.left_integer)
    let suffix := char '.' ++ digits
    if mode = .AllowIntegers ∧ (parse_i64 left_fraction).getD 0 = 0 then
      group (integer ++ (Atom.group suffix).quantified .optional)
    else group (integer ++ suffix)

/-- The pattern, and the integer part from which on all fractions are matched. -/
def lower_float_part (bounds : NonnegativeDecimalBounds) (left_inclusive : Bool)
    (mode : FloatRangeMode) : RangeResult (List Text × NonnegativeDecimalBounds) :=
  let integer := literal (integer_spelling bounds.left_integer)
  let lexi := group (integer ++ (char '.' ++ lexi_x_to_9 left_inclusive bounds.left_fraction))
  let next := (checked (bounds.left_integer + 1)).map fun n => { bounds with left_integer := n }
  match mode with
  | .AllowIntegers =>
      if bounds.left_fraction ≠ [] ∨ ¬ left_inclusive then next.map fun next => ([lexi], next)
      else .ok ([], bounds)
  | .FractionOnly =>
      if bounds.left_fraction ≠ [] then next.map fun next => ([lexi], next)
      else next.map fun next => ([group (integer ++ (char '.' ++ some_digits))], next)

def middle_float_part (bounds : NonnegativeDecimalBounds) (mode : FloatRangeMode) :
    RangeResult (List Text) :=
  if bounds.right_integer ≤ bounds.left_integer then .ok []
  else (rx_int_range (some bounds.left_integer) (some (bounds.right_integer - 1))).map fun inner =>
    match mode with
    | .AllowIntegers =>
        [group (inner ++ (Atom.group (char '.' ++ some_digits)).quantified .optional)]
    | .FractionOnly => [group (inner ++ (char '.' ++ some_digits))]

def upper_float_part (bounds : NonnegativeDecimalBounds) (right_inclusive : Bool)
    (mode : FloatRangeMode) : RangeResult (List Text) :=
  let integer := literal (integer_spelling bounds.right_integer)
  if bounds.right_fraction ≠ [] then
    (lexi_0_to_x right_inclusive bounds.right_fraction).map fun digits =>
      match mode with
      | .AllowIntegers =>
          [group (integer ++ (Atom.group (char '.' ++ digits)).quantified .optional)]
      | .FractionOnly =>
          if digits.isEmpty then [] else [group (integer ++ (char '.' ++ digits))]
  else if ¬ right_inclusive then .ok []
  else
    let zeros := char '.' ++ (Atom.char '0').quantified .plus
    match mode with
    | .AllowIntegers => .ok [integer ++ (Atom.group zeros).quantified .optional]
    | .FractionOnly => .ok [integer ++ zeros]

def collect_nonnegative_float_parts (bounds : NonnegativeDecimalBounds)
    (left_inclusive right_inclusive : Bool) (mode : FloatRangeMode) :
    RangeResult (List Text) := do
  let (lower, bounds) ← lower_float_part bounds left_inclusive mode
  let middle ← middle_float_part bounds mode
  let upper ← upper_float_part bounds right_inclusive mode
  return lower ++ middle ++ upper

def nonneg_float_range (left right : Double) (left_inclusive right_inclusive : Bool) :
    RangeResult Text := do
  let bounds ← nonnegative_decimal_bounds left right
  if bounds.left_integer = bounds.right_integer then
    same_integer_float_part bounds left_inclusive right_inclusive .AllowIntegers
  else
    let parts ←
      collect_nonnegative_float_parts bounds left_inclusive right_inclusive .AllowIntegers
    return mk_or parts

def nonneg_float_range_no_ints (left right : Double) (left_inclusive right_inclusive : Bool) :
    RangeResult (Option Text) := do
  let bounds ← nonnegative_decimal_bounds left right
  if bounds.left_integer = bounds.right_integer then
    (same_integer_float_part bounds left_inclusive right_inclusive .FractionOnly).map some
  else
    let parts ←
      collect_nonnegative_float_parts bounds left_inclusive right_inclusive .FractionOnly
    return mk_or_opt parts

def invalid_float_range (left right : Double) : RangeFailure :=
  .error s!"Invalid range: left ({String.ofList left.text}) > right ({String.ofList right.text})"

/-- `rx_float_range` with two bounds, the left one not negative. -/
def rx_nonneg_float_range (left right : Double) (left_inclusive right_inclusive : Bool) :
    RangeResult Text :=
  if left.value > right.value then .error (invalid_float_range left right)
  else if left.value = right.value then
    if left_inclusive ∧ right_inclusive then .ok (exact_float_regex left)
    else .error (.error "Empty range when left equals right and not both inclusive")
  else nonneg_float_range left right left_inclusive right_inclusive

/-- `rx_float_range` with two bounds. -/
def rx_bounded_float_range (left right : Double) (left_inclusive right_inclusive : Bool) :
    RangeResult Text :=
  if left.value > right.value then .error (invalid_float_range left right)
  else if left.value = right.value then
    if left_inclusive ∧ right_inclusive then .ok (exact_float_regex left)
    else .error (.error "Empty range when left equals right and not both inclusive")
  else if left.value < 0 then
    if right.value < 0 then
      (rx_nonneg_float_range right.neg left.neg right_inclusive left_inclusive).map fun part =>
        group (char '-' ++ part)
    else do
      let negative ← rx_nonneg_float_range (.ofNat 0) left.neg false left_inclusive
      if 0 < right.value ∨ right_inclusive then
        let positive ← rx_nonneg_float_range (.ofNat 0) right true right_inclusive
        return mk_or [group (char '-' ++ negative), positive]
      else return mk_or [group (char '-' ++ negative)]
  else nonneg_float_range left right left_inclusive right_inclusive

/-- `left as i64` of a double that is not negative. From `2 ^ 53` on its text need not be
its value, but has as many digits. -/
def integer_part (left : Double) : ℕ := min left.integer (2 ^ 63 - 1)

/-- `[1-9][0-9]{digits,}` -/
def longer_integers (digits : ℕ) : Text :=
  range '1' '9' ++ (Atom.range '0' '9').quantified (.atLeast digits)

/-- `(\.[0-9]+)?` -/
def optional_fraction : Text := (Atom.group (char '.' ++ some_digits)).quantified .optional

/-- `rx_float_range` with a left bound that is not negative and no right bound. -/
def rx_float_range_from (left : Double) (left_inclusive : Bool) : RangeResult Text := do
  let digits := num_digits (integer_part left)
  let low ← rx_nonneg_float_range left (.ofNat (10 ^ digits)) left_inclusive false
  return mk_or [low, longer_integers digits ++ optional_fraction]

def rx_float_range (left right : Option Double) (left_inclusive right_inclusive : Bool) :
    RangeResult Text :=
  match left, right with
  | none, none => .ok (integer_regex ++ optional_fraction)
  | some left, none =>
      if left.value < 0 then do
        let negative ← rx_bounded_float_range left (.ofNat 0) left_inclusive false
        let positive ← rx_float_range_from (.ofNat 0) true
        return mk_or [negative, positive]
      else rx_float_range_from left left_inclusive
  | none, some right =>
      if right.value = 0 then do
        let negative ← rx_float_range_from (.ofNat 0) false
        if right_inclusive then return mk_or [char '-' ++ negative, char '0']
        else return char '-' ++ negative
      else if right.value > 0 then do
        let negative ← rx_float_range_from (.ofNat 0) false
        let positive ← rx_nonneg_float_range (.ofNat 0) right true right_inclusive
        return mk_or [char '-' ++ negative, positive]
      else do
        let part ← rx_float_range_from right.neg right_inclusive
        return char '-' ++ part
  | some left, some right => rx_bounded_float_range left right left_inclusive right_inclusive

/-- `rx_noninteger_float_range` with two bounds, the left one not negative. -/
def rx_nonneg_noninteger_range (left right : Double) (left_inclusive right_inclusive : Bool) :
    RangeResult (Option Text) :=
  if left.value > right.value then .error (invalid_float_range left right)
  else if left.value = right.value then
    if ¬ left_inclusive ∨ ¬ right_inclusive then .ok none
    else if '.' ∈ left.text then .ok (some (exact_float_regex left))
    else .ok none
  else nonneg_float_range_no_ints left right left_inclusive right_inclusive

/-- `rx_noninteger_float_range` with two bounds. -/
def rx_bounded_noninteger_range (left right : Double) (left_inclusive right_inclusive : Bool) :
    RangeResult (Option Text) :=
  if left.value > right.value then .error (invalid_float_range left right)
  else if left.value = right.value then
    if ¬ left_inclusive ∨ ¬ right_inclusive then .ok none
    else if '.' ∈ left.text then .ok (some (exact_float_regex left))
    else .ok none
  else if left.value < 0 then
    if right.value < 0 then
      (rx_nonneg_noninteger_range right.neg left.neg right_inclusive left_inclusive).map
        fun part => part.map fun part => group (char '-' ++ part)
    else do
      let negative ← rx_nonneg_noninteger_range (.ofNat 0) left.neg false left_inclusive
      let parts := (negative.map fun part => group (char '-' ++ part)).toList
      if 0 < right.value ∨ right_inclusive then
        let positive ← rx_nonneg_noninteger_range (.ofNat 0) right true right_inclusive
        return mk_or_opt (parts ++ positive.toList)
      else return mk_or_opt parts
  else nonneg_float_range_no_ints left right left_inclusive right_inclusive

/-- `rx_noninteger_float_range` with a left bound that is not negative and no right bound. -/
def rx_noninteger_range_from (left : Double) (left_inclusive : Bool) :
    RangeResult (Option Text) := do
  let digits := num_digits (integer_part left)
  let low ← rx_nonneg_noninteger_range left (.ofNat (10 ^ digits)) left_inclusive false
  return some (mk_or (low.toList ++ [longer_integers digits ++ (char '.' ++ some_digits)]))

def rx_noninteger_float_range (left right : Option Double) (left_inclusive right_inclusive : Bool) :
    RangeResult (Option Text) :=
  match left, right with
  | none, none => .ok (some (integer_regex ++ (char '.' ++ some_digits)))
  | some left, none =>
      if left.value < 0 then do
        let negative ← rx_bounded_noninteger_range left (.ofNat 0) left_inclusive false
        let positive ← rx_noninteger_range_from (.ofNat 0) true
        return mk_or_opt (negative.toList ++ positive.toList)
      else rx_noninteger_range_from left left_inclusive
  | none, some right =>
      if right.value = 0 then do
        let negative ← rx_noninteger_range_from (.ofNat 0) false
        let parts := (negative.map fun part => char '-' ++ part).toList
        if right_inclusive then
          return mk_or_opt (parts ++ [char '0' ++ (char '.' ++ (Atom.char '0').quantified .plus)])
        else return mk_or_opt parts
      else if right.value > 0 then do
        let negative ← rx_noninteger_range_from (.ofNat 0) false
        let positive ← rx_nonneg_noninteger_range (.ofNat 0) right true right_inclusive
        return mk_or_opt
          ((negative.map fun part => char '-' ++ part).toList ++ positive.toList)
      else
        (rx_noninteger_range_from right.neg right_inclusive).map
          fun part => part.map fun part => char '-' ++ part
  | some left, some right =>
      rx_bounded_noninteger_range left right left_inclusive right_inclusive

end NumericRange

end GlrMask
