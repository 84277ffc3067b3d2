/-
What can go wrong, by cause, and how it is reported: `Error.message` is the sentence for a
reader, `Error.inspect` shows the error with its parts, for the last line of a failed command.
-/
import LoopAsm.Text.Quoted
import LoopAsm.Token.Basic

namespace LoopAsm

open Numeral (decimal hexadecimal)
open Quoted (quote)

/-! ## Causes -/

/-- Why a line of a token stream cannot be read. -/
inductive LineFault where
  | missingTab
  | invalidTag (text : String)
  | tagOutOfRange (tag : Nat)
  | reservedTag (tag : Nat)
  /-- A malformed word whose line number is missing. -/
  | unplacedWord
  | invalidLineNumber (text : String)
  | emptyLexeme
  | invalidCount (text : String)
  | unknownLine (text : String)
  | other (text : String)
  deriving DecidableEq, Repr, Inhabited

/-- Why the translator cannot follow a statement. -/
inductive SyncFault where
  | unexpectedToken
  | expectedTarget
  | expectedOperand
  | expectedComparison
  | unknownComparison
  | unknownAdditive
  | unknownMultiplicative
  | stacksNotEmpty
  | registersInUse
  | other (text : String)
  deriving DecidableEq, Repr, Inhabited

/-- Why reading or writing failed. -/
inductive IoFault where
  | notFound
  | invalidUtf8
  | readFailed
  | writeFailed
  | other (text : String)
  deriving DecidableEq, Repr, Inhabited

/-- Everything that can fail. -/
inductive Error where
  /-- A line of a token stream is not of its format. -/
  | format (line : Nat) (fault : LineFault)
  /-- A statement does not follow the grammar; `found` is the token that does not fit. -/
  | grammar (statement : Nat) (found : Option Token)
  | registersExhausted
  | stackOverflow (capacity : Nat)
  | stackUnderflow
  | outOfSync (fault : SyncFault)
  | io (fault : IoFault)
  | formatting
  deriving DecidableEq, Repr, Inhabited

-- Results are compared as their parts are, so that runs can be evaluated.
instance decidableEqResult {ε α : Type} [DecidableEq ε] [DecidableEq α] :
    DecidableEq (Except ε α)
  | .ok a, .ok b => decidable_of_iff (a = b) ⟨congrArg Except.ok, Except.ok.inj⟩
  | .error e, .error e' => decidable_of_iff (e = e') ⟨congrArg Except.error, Except.error.inj⟩
  | .ok _, .error _ => isFalse nofun
  | .error _, .ok _ => isFalse nofun

/-! ## Sentences -/

/-- The fault in words. -/
def LineFault.message : LineFault → String
  | missingTab => "missing tab after tag"
  | invalidTag text => "invalid tag '0x" ++ text ++ "'"
  | tagOutOfRange tag => "tag 0x" ++ hexadecimal tag ++ " out of range"
  | reservedTag tag => "reserved tag 0x" ++ hexadecimal tag
  | unplacedWord => "malformed word without line"
  | invalidLineNumber text => "invalid line number '" ++ text ++ "'"
  | emptyLexeme => "empty lexeme"
  | invalidCount text => "invalid count '" ++ text ++ "'"
  | unknownLine text => "unknown line '" ++ text ++ "'"
  | other text => text

/-- The fault in words. -/
def SyncFault.message : SyncFault → String
  | unexpectedToken => "unexpected token"
  | expectedTarget => "expected assignment target"
  | expectedOperand => "expected operand"
  | expectedComparison => "expected comparison operator"
  | unknownComparison => "unknown comparison operator"
  | unknownAdditive => "unknown additive operator"
  | unknownMultiplicative => "unknown multiplicative operator"
  | stacksNotEmpty => "stacks not empty after statement"
  | registersInUse => "registers still in use after statement"
  | other text => text

/-- The fault in words. -/
def IoFault.message : IoFault → String
  | notFound => "No such file or directory (os error 2)"
  | invalidUtf8 => "stream did not contain valid UTF-8"
  | readFailed => "read failed"
  | writeFailed => "write failed"
  | other text => text

namespace Error

/-- The text of an error in formatting, which has no parts. -/
def formattingText : String := "an error occurred when formatting an argument"

/-- The error as a sentence. -/
def message : Error → String
  | format line fault =>
    "invalid token stream at line " ++ decimal line ++ ": " ++ fault.message
  | grammar statement (some t) =>
    "grammar error in statement " ++ decimal statement ++ ": unexpected " ++ t.kind.description
      ++ " '" ++ t.lexeme ++ "' on line " ++ decimal t.line
  | grammar statement none =>
    "grammar error in statement " ++ decimal statement ++ ": unexpected end of input"
  | registersExhausted => "no free register left"
  | stackOverflow capacity =>
    "translation stack exceeded its capacity of " ++ decimal capacity
  | stackUnderflow => "pop from an empty translation stack"
  | outOfSync fault => "translator out of sync: " ++ fault.message
  | io fault => fault.message
  | formatting => formattingText

/-- The text of the failure behind an error, for errors that only pass one on. -/
def cause? : Error → Option String
  | io fault => some fault.message
  | formatting => some formattingText
  | _ => none

/-! ## Errors with their parts -/

/-- A named group of parts. -/
def group (name parts : String) : String :=
  name ++ " \x7b " ++ parts ++ " \x7d"

/-- A token with its parts. -/
def inspectToken (t : Token) : String :=
  group "Token" ("kind: " ++ t.kind.name ++ ", lexeme: " ++ quote t.lexeme ++ ", line: "
    ++ decimal t.line)

/-- A failure of reading or writing with its parts. -/
def inspectIo : IoFault → String
  | .notFound => group "Os" ("code: 2, kind: NotFound, message: "
      ++ quote "No such file or directory")
  | .invalidUtf8 => group "Error" ("kind: InvalidData, message: "
      ++ quote (IoFault.message .invalidUtf8))
  | fault => group "Custom" ("kind: Other, error: " ++ quote fault.message)

/-- The error with its parts. -/
def inspect : Error → String
  | format line fault =>
    group "Format" ("line: " ++ decimal line ++ ", message: " ++ quote fault.message)
  | grammar statement (some t) =>
    group "Grammar" ("statement: " ++ decimal statement ++ ", found: Some(" ++ inspectToken t
      ++ ")")
  | grammar statement none =>
    group "Grammar" ("statement: " ++ decimal statement ++ ", found: None")
  | registersExhausted => "RegisterExhausted"
  | stackOverflow capacity => group "StackOverflow" ("capacity: " ++ decimal capacity)
  | stackUnderflow => "StackUnderflow"
  | outOfSync fault => "Desync(" ++ quote fault.message ++ ")"
  | io fault => "Io(" ++ inspectIo fault ++ ")"
  | formatting => "Fmt(Error)"

end Error

end LoopAsm
