/-
Translating statements into code. A statement is read first and its actions are carried out in
order; where one of them fails, the translator stands where the reader stood at that action. A
failed statement leaves stacks, registers and labels as they are, and the next one finds them so.
-/
import LoopAsm.Grammar.Validator
import LoopAsm.Translate.Generator

namespace LoopAsm

/-- The capacity of the translator's stacks unless another one is asked for. -/
def defaultCapacity : Nat := 512

/-- A translator between two statements. -/
structure Translator where
  cursor : Cursor
  generator : Generator
  /-- What was reported so far. -/
  log : Array Event := #[]

/-- The fault of a token that does not fit. -/
def Expected.fault : Expected → SyncFault
  | target => .expectedTarget
  | operand => .expectedOperand
  | comparison => .expectedComparison
  | punctuation _ => .unexpectedToken

/-- Where the translator goes on after a token that does not fit: it takes the token for the
missing punctuation, and leaves it in the slot otherwise. -/
def Expected.recover : Expected → Cursor → Cursor
  | punctuation _, c => c.discard
  | _, c => c

namespace Translator

/-- A translator at the start of a record list. -/
def ofRecords (records : List Record) (capacity : Nat) : Translator where
  cursor := { unread := records }
  generator := .empty capacity

/-- The code so far. -/
def code (t : Translator) : Array Instr :=
  t.generator.code

/-- Carries out an action and reports the instructions it writes. -/
def perform (t : Translator) (a : Action) : Except Error Unit × Translator :=
  let ⟨cursor, generator, log⟩ := t
  let before := generator.code.size
  let report (generator : Generator) : Translator :=
    { cursor, generator, log := log ++ (generator.code.extract before).map Event.emitted }
  match Generate.action a generator with
  | .ok () g => (.ok (), report g)
  | .error e g => (.error e, report g)

/-- Carries out steps, up to the first failure. -/
def follow (t : Translator) : List Step → Except Error Unit × Translator
  | [] => (.ok (), t)
  | .skip word :: steps => { t with log := t.log.push (.skipped word) }.follow steps
  | .act a place :: steps =>
    match { t with cursor := place }.perform a with
    | (.ok (), t) => t.follow steps
    | (.error e, t) => (.error e, t)

/-- Following steps generates the code of their actions, in order and up to the first failure. -/
theorem follow_actions (t : Translator) (steps : List Step) :
    match Generate.actions (steps.filterMap Step.action?) t.generator with
    | .ok () g => (t.follow steps).1 = .ok () ∧ (t.follow steps).2.generator = g
    | .error e g => (t.follow steps).1 = .error e ∧ (t.follow steps).2.generator = g := by
  induction steps generalizing t with
  | nil => exact ⟨rfl, rfl⟩
  | cons step steps ih =>
    cases step with
    | skip word => exact ih { t with log := t.log.push (.skipped word) }
    | act a place =>
      simp only [List.filterMap_cons, Step.action?, Generate.actions, Bind.bind, EStateM.bind,
        follow, perform]
      cases Generate.action a t.generator with
      | ok _ g =>
        exact ih ⟨place, g, t.log ++ (g.code.extract t.generator.code.size).map Event.emitted⟩
      | error e g => exact ⟨rfl, rfl⟩

/-- Translates one statement. -/
def statement (t : Translator) : Except Error Outcome × Translator :=
  match Read.statement { cursor := t.cursor } with
  | .ok more r =>
    match t.follow r.steps.toList with
    | (.ok (), t) =>
      (.ok (if more then .statement else .endOfInput), { t with cursor := r.cursor })
    | (.error e, t) => (.error e, t)
  | .error expected r =>
    match t.follow r.steps.toList with
    | (.ok (), t) =>
      (.error (.outOfSync expected.fault), { t with cursor := expected.recover r.cursor })
    | (.error e, t) => (.error e, t)

theorem remaining_statement {t t' : Translator} (h : t.statement = (.ok .statement, t')) :
    t'.cursor.remaining < t.cursor.remaining := by
  unfold statement at h
  split at h
  · rename_i more r hr
    split at h
    · cases more with
      | true => cases h; exact Read.statement_consumes _ _ _ hr rfl
      | false => cases h
    · cases h
  · split at h <;> cases h

/-- Translates all statements, of which `count` came before. -/
def run (t : Translator) (count : Nat) : Except Error (Array Instr) × Translator :=
  match _h : t.statement with
  | (.ok .statement, t') => t'.run (count + 1)
  | (.ok .endOfInput, t') =>
    (.ok t'.code, { t' with log := t'.log.push (.translated count t'.code.size) })
  | (.error e, t') => (.error e, t')
termination_by t.cursor.remaining
decreasing_by exact remaining_statement _h

end Translator

/-- Translates a record list that follows the grammar. -/
def translate (records : List Record) (capacity : Nat) : Except Error (Array Instr) :=
  ((Translator.ofRecords records capacity).run 0).1

end LoopAsm
