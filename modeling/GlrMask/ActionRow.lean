import GlrMask.SparseRow
import GlrMask.TokenSets

/-!
# Action rows

A row of the action table is a sparse row, a default action with the exceptions to it,
or a vector of entries with a table of slots. Mutations of an indexed row expand it
first; a default row is expanded when a column beyond its terminals is inserted.
-/

namespace GlrMask

/-- `u32::MAX`, outside the ordinary terminals. -/
def EOF : ℕ := 4294967295

/-- `u8::MAX`, the slot of an absent terminal. -/
def ABSENT : ℕ := 255

inductive ActionRow (A : Type) where
  | sparse (row : SparseRow ℕ A)
  | default (action : A) (exceptions : SparseRow ℕ (Option A)) (num_terminals : ℕ)
  | indexed (slots : List ℕ) (eof_slot : ℕ) (entries : List (ℕ × A))

namespace ActionRow

variable {A : Type}

def empty : ActionRow A := sparse SparseRow.default

def is_default_compressed : ActionRow A → Bool
  | default .. => true
  | _ => false

/-! ## Construction from indexed entries -/

def slotOf (slots : List ℕ) (eof_slot key : ℕ) : ℕ :=
  if key = EOF then eof_slot else slots.getD key ABSENT

/-- The loop that fills the slots; `none` when a terminal occurs twice. -/
def indexSlots : List (ℕ × A) → ℕ → List ℕ → ℕ → Option (List ℕ × ℕ)
  | [], _, slots, eof_slot => some (slots, eof_slot)
  | (terminal, _) :: entries, index, slots, eof_slot =>
      let slot := index % 256
      if terminal = EOF then
        if eof_slot ≠ ABSENT then none
        else indexSlots entries (index + 1) slots slot
      else if slots.getD terminal ABSENT ≠ ABSENT then none
      else indexSlots entries (index + 1) (slots.set terminal slot) eof_slot

def from_iter (entries : List (ℕ × A)) : ActionRow A := sparse (SparseRow.from_iter entries)

def from_indexed_entries (entries : List (ℕ × A)) : ActionRow A :=
  if entries.length ≤ INLINE_ROW_CAPACITY ∨ ABSENT ≤ entries.length then from_iter entries
  else
    match ((entries.map Prod.fst).filter (· ≠ EOF)).max? with
    | none => from_iter entries
    | some max_regular =>
        if 16383 < max_regular then from_iter entries
        else
          match indexSlots entries 0 (List.replicate (max_regular + 1) ABSENT) ABSENT with
          | none => from_iter entries
          | some (slots, eof_slot) => indexed slots eof_slot entries

/-! ## Queries -/

/-- The action of a terminal of a default row, given its exception. -/
def exceptional (action : A) : Option (Option A) → Option A
  | some exception => exception
  | none => some action

def len : ActionRow A → ℕ
  | sparse row => row.len
  | indexed _ _ entries => entries.length
  | default _ exceptions num_terminals =>
      num_terminals - (exceptions.values.filter Option.isNone).length

def is_empty (row : ActionRow A) : Bool := row.len == 0

def get (row : ActionRow A) (key : ℕ) : Option A :=
  match row with
  | sparse row => row.get key
  | indexed slots eof_slot entries =>
      if slotOf slots eof_slot key ≠ ABSENT then
        entries[slotOf slots eof_slot key]?.map Prod.snd
      else none
  | default action exceptions num_terminals =>
      if num_terminals ≤ key then none else exceptional action (exceptions.get key)

def contains_key (row : ActionRow A) (key : ℕ) : Bool := (row.get key).isSome

def iter : ActionRow A → List (ℕ × A)
  | sparse row => row.iter
  | indexed _ _ entries => entries
  | default action exceptions num_terminals =>
      (List.range num_terminals).filterMap fun terminal =>
        (exceptional action (exceptions.get terminal)).map fun a => (terminal, a)

def keys (row : ActionRow A) : List ℕ := row.iter.map Prod.fst

def values (row : ActionRow A) : List A := row.iter.map Prod.snd

def eq [DecidableEq A] (row other : ActionRow A) : Bool :=
  if row.len ≠ other.len then false
  else row.iter.all fun e => other.get e.1 = some e.2

/-! ## Expansion -/

def expandDefault (action : A) (exceptions : SparseRow ℕ (Option A)) (num_terminals : ℕ) :
    SparseRow ℕ A :=
  (List.range num_terminals).foldl (fun row terminal =>
    match exceptional action (exceptions.get terminal) with
    | some a => (row.insert terminal a).2
    | none => row) SparseRow.default

def expandIndexed (entries : List (ℕ × A)) : SparseRow ℕ A :=
  entries.foldl (fun row e => (row.insert e.1 e.2).2) (.with_expected_len entries.length)

def expand_default_to_sparse : ActionRow A → ActionRow A
  | default action exceptions num_terminals =>
      sparse (expandDefault action exceptions num_terminals)
  | row => row

/-- The sparse row that `expand_runtime_rows_to_sparse` leaves. -/
def expanded : ActionRow A → SparseRow ℕ A
  | sparse row => row
  | default action exceptions num_terminals => expandDefault action exceptions num_terminals
  | indexed _ _ entries => expandIndexed entries

def expand_runtime_rows_to_sparse (row : ActionRow A) : ActionRow A := sparse row.expanded

/-! ## Mutations -/

def insert_expanded (row : ActionRow A) (key : ℕ) (value : A) : Option A × ActionRow A :=
  let r := row.expanded.insert key value
  (r.1, sparse r.2)

def insert [DecidableEq A] (row : ActionRow A) (key : ℕ) (value : A) :
    Option A × ActionRow A :=
  match row with
  | sparse _ => row.insert_expanded key value
  | indexed .. => row.insert_expanded key value
  | default action exceptions num_terminals =>
      if num_terminals ≤ key then row.insert_expanded key value
      else
        let previous := exceptional action (exceptions.get key)
        if value = action then (previous, default action (exceptions.remove key).2 num_terminals)
        else (previous, default action (exceptions.insert key (some value)).2 num_terminals)

def remove_expanded (row : ActionRow A) (key : ℕ) : Option A × ActionRow A :=
  let r := row.expanded.remove key
  (r.1, sparse r.2)

def remove (row : ActionRow A) (key : ℕ) : Option A × ActionRow A :=
  match row with
  | sparse _ => row.remove_expanded key
  | indexed .. => row.remove_expanded key
  | default action exceptions num_terminals =>
      if num_terminals ≤ key then
        let r := exceptions.remove key
        (r.1.join, default action r.2 num_terminals)
      else
        match exceptions.get key with
        | some none => (none, row)
        | some (some removed) =>
            (some removed, default action (exceptions.insert key none).2 num_terminals)
        | none => (some action, default action (exceptions.insert key none).2 num_terminals)

/-- The row after the value that `get_mut` points to has been changed. -/
def get_mut (row : ActionRow A) (key : ℕ) (f : A → A) : ActionRow A :=
  sparse (row.expanded.get_mut key f)

def for_each_value_mut (row : ActionRow A) (f : A → A) : ActionRow A :=
  sparse (row.expanded.for_each_value_mut f)

/-! ## Default compression -/

/-- One more occurrence of an action. -/
def countAction [DecidableEq A] (action : A) : List (A × ℕ) → List (A × ℕ)
  | [] => [(action, 1)]
  | (a, count) :: counts =>
      if a = action then (a, count + 1) :: counts else (a, count) :: countAction action counts

/-- The multiplicities of the actions; `none` when a terminal is out of the domain. -/
def countActions [DecidableEq A] (num_terminals : ℕ) : List (ℕ × A) → Option (List (A × ℕ))
  | entries =>
      entries.foldlM (fun counts e =>
        if num_terminals ≤ e.1 then none else some (countAction e.2 counts)) []

/-- `max_by_key`: the last of the entries with the greatest count. -/
def maxByCount : List (A × ℕ) → Option (A × ℕ)
  | [] => none
  | e :: counts => some (counts.foldl (fun best e => if best.2 ≤ e.2 then e else best) e)

def exceptionsFrom [DecidableEq A] (row : SparseRow ℕ A) (action : A) (num_terminals : ℕ) :
    SparseRow ℕ (Option A) :=
  (List.range num_terminals).foldl (fun exceptions terminal =>
    match row.get terminal with
    | some a => if a = action then exceptions else (exceptions.insert terminal (some a)).2
    | none => (exceptions.insert terminal none).2) SparseRow.default

def compressSparse [Runtime] [DecidableEq A] (row : SparseRow ℕ A) (num_terminals : ℕ) :
    ActionRow A :=
  if row.is_empty ∨ num_terminals = 0 then sparse row
  else
    let present_count := row.len
    if present_count ≤ (num_terminals + 1) / 2 then sparse row
    else
      match countActions num_terminals row.iter with
      | none => sparse row
      | some counts =>
          let sparse_cost := present_count
          if num_terminals < present_count then sparse row
          else
            match maxByCount (Runtime.reorder counts) with
            | none => sparse row
            | some (default_action, default_count) =>
                let absent_count := num_terminals - present_count
                let non_default_present := present_count - default_count
                let exception_count := absent_count + non_default_present
                let default_cost := 1 + exception_count
                if sparse_cost ≤ default_cost then sparse row
                else default default_action (exceptionsFrom row default_action num_terminals)
                  num_terminals

def compress_default [Runtime] [DecidableEq A] (row : ActionRow A) (num_terminals : ℕ) :
    ActionRow A :=
  match row with
  | default .. => row
  | sparse _ => compressSparse row.expanded num_terminals
  | indexed .. => compressSparse row.expanded num_terminals

end ActionRow

end GlrMask
