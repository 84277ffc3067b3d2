/-
Reading a token stream line by line. The decoder knows which line of the stream it is on, for
error reports, and which line of the source the next token belongs to, which is the one behind
the last line counter. It can go on after a bad line.
-/
import LoopAsm.Text.Utf8
import LoopAsm.Wire.Line

namespace LoopAsm

namespace Wire

/-- A line of a stream, or `none` if its bytes are no text. -/
abbrev RawLine := Option (List Char)

/-- The lines of a text. -/
def textLines (text : String) : List RawLine :=
  (Split.lines '\n' text.toList).map some

/-- The lines of a row of bytes. -/
def byteLines (bytes : List Utf8.Byte) : List RawLine :=
  (Split.lines 10 bytes).map fun l => (Utf8.decode? l).map String.toList

/-- A line without the carriage return that may end it. -/
def dropReturn (line : List Char) : List Char :=
  (Split.before? ['\r'] line).getD line

end Wire

/-- A token stream being read. -/
structure Decoder where
  /-- The lines still to be read. -/
  rest : List Wire.RawLine
  /-- The lines read so far. -/
  lineNo : Nat := 0
  /-- The source line of the next token. -/
  sourceLine : Nat := 1

namespace Decoder

/-- The source line behind a record. Line numbers are words of 64 bits. -/
def lineAfter (sourceLine : Nat) : Record → Nat
  | .line line _ => (line + 1) % Numeral.counterLimit
  | _ => sourceLine

/-- Reads the next record; `none` is the end of the stream. A line that is no text is passed over
without being counted. -/
def next (d : Decoder) : Except Error (Option Record) × Decoder :=
  match d.rest with
  | [] => (.ok none, d)
  | none :: rest => (.error (.io .invalidUtf8), { d with rest })
  | some line :: rest =>
    let lineNo := d.lineNo + 1
    match Wire.decodeLine (Wire.dropReturn line) d.sourceLine with
    | .ok r => (.ok (some r), { rest, lineNo, sourceLine := lineAfter d.sourceLine r })
    | .error fault => (.error (.format lineNo fault), { d with rest, lineNo })

theorem length_rest_next {d d' : Decoder} {r : Record} (h : d.next = (.ok (some r), d')) :
    d'.rest.length < d.rest.length := by
  unfold next at h
  split at h
  · cases h
  · cases h
  · rename_i hrest
    split at h
    · cases h
      simp [hrest]
    · cases h

/-- Reads all records, up to the first error. -/
def readAll (d : Decoder) (done : Array Record) : Except Error (List Record) :=
  match _h : d.next with
  | (.ok none, _) => .ok done.toList
  | (.ok (some r), d') => readAll d' (done.push r)
  | (.error e, _) => .error e
termination_by d.rest.length
decreasing_by exact length_rest_next _h

end Decoder

namespace Wire

/-- The records of a text. -/
def decode (text : String) : Except Error (List Record) :=
  Decoder.readAll { rest := textLines text } #[]

/-- The records of a row of bytes. -/
def decodeBytes (bytes : List Utf8.Byte) : Except Error (List Record) :=
  Decoder.readAll { rest := byteLines bytes } #[]

end Wire

end LoopAsm
