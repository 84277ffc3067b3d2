/-
Scanning a source that arrives in pieces. Each read fills what is free of a buffer; the bytes of
a character that is not complete yet stay in the buffer for the next read. The records of each
piece are written before the next piece is read, so what is written never depends on what a
failing read would have brought.
-/
import LoopAsm.Scan.Queue
import LoopAsm.Text.Utf8
import LoopAsm.Wire.Line
import LoopAsm.Wire.Sink

namespace LoopAsm

open Utf8 (Byte)

/-! ## Sources -/

/-- How a read is answered. -/
inductive Reply where
  /-- With no more than this many bytes; no byte at all means the end. -/
  | atMost (n : Nat)
  /-- With an error. -/
  | failure
  deriving DecidableEq, Repr, Inhabited

/-- A place that gives bytes. Its first reads go as `plan` says, all later ones give as much as
fits. -/
structure Source where
  bytes : List Byte
  plan : List Reply := []
  deriving DecidableEq, Repr, Inhabited

namespace Source

/-- Gives up to `n` bytes. -/
def give (s : Source) (n : Nat) : List Byte × Source :=
  (s.bytes.take n, { s with bytes := s.bytes.drop n })

/-- Reads up to `room` bytes. -/
def read (s : Source) (room : Nat) : Except Error (List Byte) × Source :=
  match s.plan with
  | [] => let (bytes, s) := s.give room; (.ok bytes, s)
  | .failure :: plan => (.error (.io .readFailed), { s with plan })
  | .atMost n :: plan =>
    let (bytes, s) := { s with plan }.give (min room n)
    (.ok bytes, s)

theorem length_bytes_read {s s' : Source} {room : Nat} {b : Byte} {bs : List Byte}
    (h : s.read room = (.ok (b :: bs), s')) : s'.bytes.length < s.bytes.length := by
  have drop : ∀ n, s.bytes.take n = b :: bs → (s.bytes.drop n).length < s.bytes.length := by
    intro n hn
    have hl := congrArg List.length hn
    simp only [List.length_take, List.length_cons] at hl
    simp only [List.length_drop]
    omega
  unfold read give at h
  split at h
  · simp only [Prod.mk.injEq, Except.ok.injEq] at h
    obtain ⟨hb, rfl⟩ := h
    exact drop _ hb
  · simp at h
  · simp only [Prod.mk.injEq, Except.ok.injEq] at h
    obtain ⟨hb, rfl⟩ := h
    exact drop _ hb

end Source

/-! ## The loop -/

/-- What was scanned in all. -/
structure Summary where
  lines : Nat := 0
  words : Nat := 0
  malformed : Nat := 0
  deriving DecidableEq, Repr, Inhabited

/-- Counts a record. -/
def Summary.count (s : Summary) : Record → Summary
  | .token t => if t.kind = .malformed then { s with malformed := s.malformed + 1 } else s
  | .line line _ => { s with lines := line }
  | .total words => { s with words }

/-- A scan in progress. -/
structure Pump where
  scanner : Scanner := {}
  /-- The bytes of a character that is not complete yet. -/
  held : List Byte := []
  sink : Sink := {}
  summary : Summary := {}
  /-- What was reported so far. -/
  log : Array Event := #[]
  deriving DecidableEq, Repr, Inhabited

namespace Pump

/-- The least size of the buffer: that of the longest character. -/
def minBuffer : Nat := 4

/-- The size of the buffer unless another one is asked for. -/
def defaultBuffer : Nat := 4096

/-- How many bytes the buffer has room for. -/
def room (p : Pump) (bufferSize : Nat) : Nat :=
  max bufferSize minBuffer - p.held.length

/-- Counts records and writes them, a line each. -/
def put (p : Pump) (records : List Record) : Except Error Unit × Pump :=
  let (result, sink) := p.sink.writeLines (records.map Wire.encode)
  (result, { p with sink, summary := records.foldl Summary.count p.summary })

/-- Takes a piece of the source. -/
def advance (p : Pump) (bytes : List Byte) : Except Error Unit × Pump :=
  let (held, pieces) := Utf8.steps p.held bytes
  let (scanner, out) := p.scanner.feedAll (pieces.toList.map Utf8.Piece.toChar)
  let log := p.log ++ out.toList.filterMap Event.ofRecord?
  { p with held, scanner, log }.put out.toList

/-- Takes the end of the source. -/
def conclude (p : Pump) : Except Error Summary × Pump :=
  let (scanner, out) := p.scanner.feedAll ((Utf8.atEnd p.held).map Utf8.Piece.toChar)
  let records := out.toList ++ scanner.finish.2
  let log := p.log ++ out.toList.filterMap Event.ofRecord? ++ scanner.finishEvents
  match { p with held := [], scanner := scanner.finish.1, log }.put records with
  | (.error e, p) => (.error e, p)
  | (.ok (), p) =>
    let s := p.summary
    (.ok s, { p with log := p.log.push (.scanFinished s.lines s.words s.malformed) })

/-- Scans a source to its end. -/
def run (p : Pump) (bufferSize : Nat) (source : Source) : Except Error Summary × Pump :=
  match _h : source.read (p.room bufferSize) with
  | (.error e, _) => (.error e, p)
  | (.ok [], _) => p.conclude
  | (.ok (b :: bs), source') =>
    match p.advance (b :: bs) with
    | (.error e, p) => (.error e, p)
    | (.ok (), p) => p.run bufferSize source'
termination_by source.bytes.length
decreasing_by exact Source.length_bytes_read _h

end Pump

end LoopAsm
