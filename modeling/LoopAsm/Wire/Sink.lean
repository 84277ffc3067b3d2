/-
Where output goes: bytes are taken until a limit is reached, and the write that passes the limit
is cut there and fails. A text is written line by line, so a failure leaves all lines before it
whole.
-/
import LoopAsm.Error
import LoopAsm.Text.Utf8

namespace LoopAsm

open Utf8 (Byte)

/-- A place that takes bytes. -/
structure Sink where
  /-- How many bytes fit, if that is bounded. -/
  limit : Option Nat := none
  /-- The bytes taken so far. -/
  written : Array Byte := #[]
  deriving DecidableEq, Repr, Inhabited

namespace Sink

/-- How many of `n` more bytes still fit. -/
def room (s : Sink) (n : Nat) : Nat :=
  match s.limit with
  | none => n
  | some limit => min n (limit - s.written.size)

/-- Writes bytes, as many as fit. -/
def write (s : Sink) (bytes : List Byte) : Except Error Unit × Sink :=
  let n := bytes.length
  let fits := s.room n
  let s' := { s with written := s.written ++ bytes.take fits }
  if fits < n then (.error (.io .writeFailed), s') else (.ok (), s')

/-- Writes lines, up to the first failure. -/
def writeLines (s : Sink) : List String → Except Error Unit × Sink
  | [] => (.ok (), s)
  | line :: lines =>
    match s.write (Utf8.encode (line ++ "\n")) with
    | (.ok (), s) => s.writeLines lines
    | (.error e, s) => (.error e, s)

/-- The text of the bytes taken so far. -/
def text (s : Sink) : String :=
  Utf8.decodeLossy s.written.toList

/-- The text of the lines that were taken whole. -/
def wholeLines (s : Sink) : String :=
  Utf8.decodeLossy (s.written.toList.reverse.dropWhile (· ≠ 10)).reverse

end Sink

end LoopAsm
