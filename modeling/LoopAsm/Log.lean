/-
What the library and the command line report while they work, as values: each event has a level and
a text. Who keeps the log decides from which level on events are shown, and what a line looks like.
-/
import LoopAsm.Error
import LoopAsm.Machine.Instr

namespace LoopAsm

open Numeral (decimal)

/-- How much an event matters. -/
inductive Level where
  | error
  | warn
  | info
  | debug
  | trace
  deriving DecidableEq, Repr, Inhabited

namespace Level

/-- The name of a level in a log line. -/
def name : Level → String
  | error => "ERROR"
  | warn => "WARN"
  | info => "INFO"
  | debug => "DEBUG"
  | trace => "TRACE"

/-- Lower is more severe. -/
def rank : Level → Nat
  | error => 0
  | warn => 1
  | info => 2
  | debug => 3
  | trace => 4

/-- Whether a log kept at `threshold` has the events of a level. -/
def shownAt (level threshold : Level) : Bool :=
  level.rank ≤ threshold.rank

end Level

/-- Something worth reporting. -/
inductive Event where
  /-- The scanner completed a malformed word. -/
  | malformed (t : Token)
  /-- The scanner completed any other word. -/
  | scanned (t : Token)
  /-- The source ended inside a block comment. -/
  | openComment
  /-- A source was scanned to its end. -/
  | scanFinished (lines words bad : Nat)
  /-- The parser passed over a malformed word. -/
  | skipped (t : Token)
  /-- All statements follow the grammar. -/
  | checked (statements : Nat)
  /-- The statements go on to the translator. -/
  | translating (statements : Nat)
  /-- The translator wrote an instruction. -/
  | emitted (i : Instr)
  /-- All statements were translated. -/
  | translated (statements instructions : Nat)
  /-- A source is to be scanned into a token stream. -/
  | scanning (source output : String)
  /-- The token stream of a source is written. -/
  | streamWritten (lines words bad : Nat)
  /-- A token stream is to be translated into code. -/
  | parsing (stream output : String)
  /-- A token stream cannot be read. -/
  | streamRejected (e : Error)
  /-- A program cannot be translated. -/
  | programRejected (e : Error)
  /-- The code of a token stream is written. -/
  | codeWritten (instructions : Nat)
  deriving DecidableEq, Repr, Inhabited

namespace Event

/-- The level of an event. -/
def level : Event → Level
  | streamRejected _ | programRejected _ => .error
  | malformed _ | openComment | skipped _ => .warn
  | scanning .. | streamWritten .. | parsing .. | codeWritten _ => .info
  | scanFinished .. | checked _ | translating _ | translated .. => .debug
  | scanned _ | emitted _ => .trace

/-- The text of an event. -/
def message : Event → String
  | malformed t => "malformed word '" ++ t.lexeme ++ "' at line " ++ decimal t.line
  | scanned t => t.kind.name ++ " " ++ Quoted.quote t.lexeme
  | openComment => "unterminated block comment at end of input"
  | scanFinished lines words bad =>
    "scanned " ++ decimal lines ++ " lines, " ++ decimal words ++ " words, " ++ decimal bad
      ++ " malformed"
  | skipped t => "skipping malformed word '" ++ t.lexeme ++ "' at line " ++ decimal t.line
  | checked statements => "grammar check passed, " ++ decimal statements ++ " statements"
  | translating statements => "translating " ++ decimal statements ++ " statements"
  | emitted i => i.text
  | translated statements instructions =>
    "translated " ++ decimal statements ++ " statements into " ++ decimal instructions
      ++ " instructions"
  | scanning source output => "scanning " ++ source ++ " into " ++ output
  | streamWritten lines words bad =>
    decimal lines ++ " lines, " ++ decimal words ++ " words, " ++ decimal bad ++ " malformed"
  | parsing stream output => "parsing " ++ stream ++ " into " ++ output
  | streamRejected e => "token stream rejected\n" ++ e.message
  | programRejected e => "parse error\n" ++ e.message
  | codeWritten instructions => "wrote " ++ decimal instructions ++ " instructions"

/-- The event as a log line. -/
def line (e : Event) : String :=
  e.level.name ++ " " ++ e.message

/-- What the scanner reports of a record: its words, not its counters. -/
def ofRecord? : Record → Option Event
  | .token t => some (if t.kind = .malformed then malformed t else scanned t)
  | _ => none

end Event

/-! ## Logs -/

/-- The lines of a log kept at a level. -/
def logLines (threshold : Level) (events : List Event) : List String :=
  (events.filter (·.level.shownAt threshold)).map Event.line

/-- What shows events: from which level on, or none at all, and as which text. The text may have the
time in it and whatever else changes from one event to the next, so it depends on how many events
came before. -/
structure Logger where
  threshold : Option Level
  text : Nat → Event → String

namespace Logger

/-- Shows nothing. -/
def off : Logger where
  threshold := none
  text _ _ := ""

/-- Whether an event is shown. -/
def shows (l : Logger) (e : Event) : Bool :=
  l.threshold.any e.level.shownAt

end Logger

/-! ## Output -/

/-- A piece of what the program writes to its standard output. -/
inductive Output where
  /-- Printed for its user. -/
  | printed (text : String)
  /-- Reported to the logger, which shows it in the same place or not at all. -/
  | logged (e : Event)
  deriving DecidableEq, Repr, Inhabited

namespace Output

/-- The text that a piece prints, whatever the logger. -/
def printed? : Output → Option String
  | printed text => some text
  | logged _ => none

/-- What is printed for the user. -/
def printedText (pieces : List Output) : String :=
  String.join (pieces.filterMap printed?)

/-- All that is written under a logger, behind a number of events. -/
def shown (l : Logger) (count : Nat) : List Output → String
  | [] => ""
  | printed text :: pieces => text ++ shown l count pieces
  | logged e :: pieces => (if l.shows e then l.text count e else "") ++ shown l (count + 1) pieces

/-- A logger that is off leaves what is printed. -/
theorem shown_of_off {l : Logger} (h : l.threshold = none) (count : Nat) (pieces : List Output) :
    shown l count pieces = printedText pieces := by
  induction pieces generalizing count with
  | nil => rfl
  | cons piece pieces ih =>
    cases piece with
    | printed text =>
      rw [shown, ih]
      simp [printedText, printed?]
    | logged e =>
      have hshows : l.shows e = false := by simp [Logger.shows, h]
      rw [shown, ih, hshows]
      simp [printedText, printed?, List.filterMap_cons]

theorem shown_append (l : Logger) (count : Nat) (pieces pieces' : List Output) :
    ∃ count', shown l count (pieces ++ pieces') =
      shown l count pieces ++ shown l count' pieces' := by
  induction pieces generalizing count with
  | nil => exact ⟨count, (String.empty_append).symm⟩
  | cons piece pieces ih =>
    cases piece with
    | printed text =>
      obtain ⟨count', h⟩ := ih count
      exact ⟨count', by rw [List.cons_append, shown, shown, h, String.append_assoc]⟩
    | logged e =>
      obtain ⟨count', h⟩ := ih (count + 1)
      exact ⟨count', by rw [List.cons_append, shown, shown, h, String.append_assoc]⟩

/-- Nothing of a log is printed. -/
@[simp] theorem printedText_logged (log : List Event) : printedText (log.map logged) = "" := by
  induction log with
  | nil => rfl
  | cons e log ih => exact ih

/-- A text that is printed behind a log. -/
@[simp] theorem printedText_logged_printed (log : List Event) (text : String) :
    printedText (log.map logged ++ [printed text]) = text := by
  induction log with
  | nil => simp [printedText, printed?]
  | cons e log ih => exact ih

end Output

end LoopAsm
