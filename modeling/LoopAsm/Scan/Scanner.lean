/-
The scanner: a machine that takes one character at a time and hands out the records that the
character completes. Each word is counted on its line and in all; each newline, inside a comment
or not, closes a line with its word counter. The end of the text acts as one more newline and is
followed by the grand total.
-/
import LoopAsm.Scan.Mode
import LoopAsm.Token.Basic
import LoopAsm.Transducer

namespace LoopAsm

open Scan

/-- A scanner between two characters. -/
structure Scanner where
  mode : Mode := .initial
  /-- The characters of the word being read. -/
  pending : String := ""
  /-- Whether a question mark waits for its colon. -/
  ternary : Bool := false
  /-- The number of the current line. -/
  line : Nat := 1
  /-- The words on the current line so far. -/
  lineWords : Nat := 0
  /-- The words in the whole text so far. -/
  words : Nat := 0
  deriving DecidableEq, Repr, Inhabited

namespace Scanner

/-- Joins two steps: the records of the first come before those of the second. -/
def followedBy (a : Scanner × List Record) (f : Scanner → Scanner × List Record) :
    Scanner × List Record :=
  let b := f a.1
  (b.1, a.2 ++ b.2)

/-- Ends the current line. -/
def closeLine (s : Scanner) : Scanner × List Record :=
  ({ s with line := s.line + 1, lineWords := 0 }, [.line s.line s.lineWords])

/-- Completes a word: it is recorded and counted, and a newline also ends its line. A word of
letters gets its class from its spelling. -/
def emit (s : Scanner) (kind : Kind) (lexeme : String) : Scanner × List Record :=
  let kind := if kind = .identifier then Kind.ofWord lexeme else kind
  let s' := { s with
    mode := .initial, pending := "", lineWords := s.lineWords + 1, words := s.words + 1 }
  let recorded := (s', [Record.token ⟨kind, lexeme, s.line⟩])
  if kind = .whitespace ∧ lexeme = "\n" then followedBy recorded closeLine else recorded

/-- Takes a character as `t` says. -/
def take (s : Scanner) (t : Take) (c : Char) : Scanner × List Record :=
  match t with
  | .grow next => ({ s with mode := next, pending := s.pending.push c }, [])
  | .close kind => s.emit kind (s.pending.push c)
  | .drop next => ({ s with mode := next }, [])
  | .comment next => ({ s with mode := next, pending := "" }, [])
  | .newline next => { s with mode := next }.closeLine
  | .question =>
    -- Conditionals do not nest: a second question mark before the colon is a malformed word.
    if s.ternary then ({ s with mode := .malformed, pending := s.pending.push c }, [])
    else ({ s with mode := .initial, ternary := true }, [])
  | .colon =>
    if s.ternary then { s with ternary := false }.emit .ternaryColon "?:"
    else s.emit .colon (s.pending.push c)

/-- Reads one character. -/
def feed (s : Scanner) (c : Char) : Scanner × List Record :=
  match s.mode.move c with
  | .take t => s.take t c
  | .release kind => followedBy (s.emit kind s.pending) (·.take (start c) c)

/-- Reads characters one after the other. -/
def feedAll (s : Scanner) (cs : List Char) : Scanner × Array Record :=
  Transducer.run feed s cs

/-- Whether the text ends inside a block comment. -/
def endsInComment (s : Scanner) : Bool :=
  (s.feed '\n').1.mode.inBlockComment

/-- Ends the text: a last newline flushes the pending word and closes the last line, and the
grand total follows. -/
def finish (s : Scanner) : Scanner × List Record :=
  followedBy (s.feed '\n') fun s => ({ s with mode := .initial, pending := "" }, [.total s.words])

end Scanner

/-- The records of a whole text. -/
def scan (text : String) : List Record :=
  let (s, out) := ({} : Scanner).feedAll text.toList
  (out ++ s.finish.2).toList

end LoopAsm
