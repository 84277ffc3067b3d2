/-
The whole way from records, or from a source text, to code: the grammar of every statement is
checked before the first one is translated.
-/
import LoopAsm.Scan.Queue
import LoopAsm.Translate.Translator

namespace LoopAsm

/-- Checks and translates a record list, and reports what happened. -/
def compileLogged (records : List Record) (capacity : Nat) :
    Except Error (Array Instr) × List Event :=
  match (Validator.ofRecords records).run with
  | (.error e, v) => (.error e, v.log.toList)
  | (.ok statements, v) =>
    let (result, t) := (Translator.ofRecords records capacity).run 0
    (result, v.log.toList ++ .translating statements :: t.log.toList)

/-- Checks and translates a record list. -/
def compile (records : List Record) (capacity : Nat) : Except Error (Array Instr) :=
  (compileLogged records capacity).1

/-- Scans, checks and translates a source text. -/
def compileText (text : String) : Except Error (Array Instr) :=
  compile (scan text) defaultCapacity

theorem compile_eq (records : List Record) (capacity : Nat) :
    compile records capacity =
      match validate records with
      | .error e => .error e
      | .ok _ => translate records capacity := by
  unfold compile compileLogged validate translate
  rcases (Validator.ofRecords records).run with ⟨_ | _, _⟩ <;> rfl

end LoopAsm
