/-
Checking the grammar of statements without translating them. The validator counts the statements
it begins, so an error names the statement that it is in together with the token that does not
fit.
-/
import LoopAsm.Error
import LoopAsm.Grammar.Reading
import LoopAsm.Log

namespace LoopAsm

/-- What a request for one more statement found. -/
inductive Outcome where
  | statement
  | endOfInput
  deriving DecidableEq, Repr, Inhabited

/-- A validator between two statements. -/
structure Validator where
  cursor : Cursor
  /-- The statements begun so far. -/
  statements : Nat := 0
  /-- What was reported so far. -/
  log : Array Event := #[]
  deriving DecidableEq, Repr, Inhabited

namespace Validator

/-- A validator at the start of a record list. -/
def ofRecords (records : List Record) : Validator :=
  { cursor := { unread := records } }

/-- The reports of steps. -/
def events (steps : Array Step) : List Event :=
  (steps.toList.filterMap Step.skipped?).map Event.skipped

/-- Checks one statement. A token that does not fit stays in the cursor's slot. -/
def statement (v : Validator) : Except Error Outcome × Validator :=
  match Read.statement { cursor := v.cursor } with
  | .ok false r => (.ok .endOfInput, { v with cursor := r.cursor, log := v.log ++ events r.steps })
  | .ok true r =>
    (.ok .statement,
      { cursor := r.cursor, statements := v.statements + 1, log := v.log ++ events r.steps })
  | .error _ r =>
    let (found, skipped, cursor) := r.cursor.peek
    (.error (.grammar (v.statements + 1) found),
      { cursor
        statements := v.statements + 1
        log := v.log ++ events r.steps ++ skipped.map Event.skipped })

theorem remaining_statement {v v' : Validator} (h : v.statement = (.ok .statement, v')) :
    v'.cursor.remaining < v.cursor.remaining := by
  unfold statement at h
  split at h
  · cases h
  · rename_i hr
    cases h
    exact Read.statement_consumes _ _ _ hr rfl
  · cases h

/-- Checks all statements and counts them. -/
def run (v : Validator) : Except Error Nat × Validator :=
  match _h : v.statement with
  | (.ok .statement, v') => v'.run
  | (.ok .endOfInput, v') =>
    (.ok v'.statements, { v' with log := v'.log.push (.checked v'.statements) })
  | (.error e, v') => (.error e, v')
termination_by v.cursor.remaining
decreasing_by exact remaining_statement _h

end Validator

/-- Checks the grammar of all statements in a record list and counts them. -/
def validate (records : List Record) : Except Error Nat :=
  (Validator.ofRecords records).run.1

end LoopAsm
