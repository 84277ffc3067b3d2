/-
The token stream format, a record a line. A token is written as its tag, a tab and its lexeme;
a malformed word also bears its line number, and the controls in a blank are escaped so that
they do not break the line. The line number of any other token is not written: the reader knows
it from the counters.
-/
import LoopAsm.Error
import LoopAsm.Text.Split

namespace LoopAsm.Wire

open Numeral (decimal hexadecimal read? counterLimit tagLimit)
open Split (behind? before? atFirst? atLast?)

/-! ## Blanks -/

/-- A character of a blank as it is written. -/
def escapeChar : Char → List Char
  | '\t' => ['\\', 't']
  | '\r' => ['\\', 'r']
  | '\n' => ['\\', 'n']
  | c => [c]

/-- A blank as it is written. -/
def escape (blank : List Char) : List Char :=
  blank.flatMap escapeChar

/-- Reads a blank back; a backslash before any other character stands for itself. -/
def unescape : List Char → List Char
  | '\\' :: 't' :: cs => '\t' :: unescape cs
  | '\\' :: 'r' :: cs => '\r' :: unescape cs
  | '\\' :: 'n' :: cs => '\n' :: unescape cs
  | '\\' :: c :: cs => '\\' :: c :: unescape cs
  | c :: cs => c :: unescape cs
  | [] => []

/-! ## Writing -/

/-- What stands between a malformed word and its line number. -/
def placeMark : String := " at line "

/-- What stands behind the tab of a token's line. -/
def body (t : Token) : String :=
  match t.kind with
  | .malformed => t.lexeme ++ placeMark ++ decimal t.line
  | .whitespace => String.ofList (escape t.lexeme.toList)
  | _ => t.lexeme

/-- A record as a line, without the newline. -/
def encode : Record → String
  | .token t => "0x" ++ hexadecimal t.kind.tag ++ "\t" ++ body t
  | .line line words =>
    "line " ++ decimal line ++ " has " ++ decimal words ++ if words = 1 then " word" else " words"
  | .total words => "total " ++ decimal words ++ " words"

/-- Records as a text. -/
def encodeAll (records : List Record) : String :=
  String.join (records.map fun r => encode r ++ "\n")

/-! ## Reading -/

/-- The value, or the fault if there is none. -/
def orFault {α : Type} (fault : LineFault) : Option α → Except LineFault α
  | some a => .ok a
  | none => .error fault

/-- Reads a counter. -/
def readCount (text : List Char) : Except LineFault Nat :=
  orFault (.invalidCount (String.ofList text)) (read? 10 counterLimit text)

/-- Reads the tag of a token. -/
def readKind (text : List Char) : Except LineFault Kind := do
  let tag ← orFault (.invalidTag (String.ofList text)) (read? 16 tagLimit text)
  if tag < Kind.minTag ∨ Kind.maxTag < tag then throw (.tagOutOfRange tag)
  orFault (.reservedTag tag) (Kind.ofTag? tag)

/-- Reads what stands behind the tab of a token's line, which is on line `sourceLine` unless it
says otherwise. -/
def readBody (kind : Kind) (text : List Char) (sourceLine : Nat) : Except LineFault Token :=
  match kind with
  | .malformed => do
    let (lexeme, place) ← orFault .unplacedWord (atLast? placeMark.toList text)
    let line ← orFault (.invalidLineNumber (String.ofList place)) (read? 10 counterLimit place)
    return ⟨kind, String.ofList lexeme, line⟩
  | .whitespace => .ok ⟨kind, String.ofList (unescape text), sourceLine⟩
  | _ => .ok ⟨kind, String.ofList text, sourceLine⟩

/-- Reads the line of a token, given what follows its first mark. -/
def decodeToken (text : List Char) (sourceLine : Nat) : Except LineFault Record := do
  let (tag, text) ← orFault .missingTab (atFirst? ['\t'] text)
  let kind ← readKind tag
  let token ← readBody kind text sourceLine
  if token.lexeme = "" then throw .emptyLexeme
  return .token token

/-- The parts of a line counter, given what follows its first mark: the line number and the
number of words. -/
def counterParts? (text : List Char) : Option (List Char × List Char) := do
  let (line, text) ← atFirst? " has ".toList text
  let words ← before? " words".toList text <|> before? " word".toList text
  return (line, words)

/-- Reads a line. -/
def decodeLine (text : List Char) (sourceLine : Nat) : Except LineFault Record :=
  match behind? "0x".toList text with
  | some rest => decodeToken rest sourceLine
  | none =>
    match behind? "line ".toList text with
    | some rest => do
      let (line, words) ← orFault (.unknownLine (String.ofList text)) (counterParts? rest)
      let line ← readCount line
      let words ← readCount words
      return .line line words
    | none => do
      let words ← orFault (.unknownLine (String.ofList text))
        ((behind? "total ".toList text).bind (before? " words".toList))
      return .total (← readCount words)

/-- Reads line `lineNo` of a stream; a fault is reported with the number of the line. -/
def decodeAt (text : List Char) (lineNo sourceLine : Nat) : Except Error Record :=
  (decodeLine text sourceLine).mapError (.format lineNo)

end LoopAsm.Wire
