/-
The records of a source text as a table for a reader: a row a token, with its line, tag, lexeme
and class in columns, and the counters in between as in a token stream.
-/
import LoopAsm.Scan.Queue
import LoopAsm.Text.Utf8
import LoopAsm.Wire.Line

namespace LoopAsm.Table

open Numeral (decimal hexadecimal)

/-- A text with blanks in front of it, up to a width. -/
def alignRight (width : Nat) (s : String) : String :=
  String.ofList (List.replicate (width - s.length) ' ') ++ s

/-- A text with blanks behind it, up to a width. -/
def alignLeft (width : Nat) (s : String) : String :=
  s ++ String.ofList (List.replicate (width - s.length) ' ')

/-- A lexeme in its column; the controls that are lexemes by themselves are made visible. -/
def visible (lexeme : String) : String :=
  match lexeme with
  | "\n" => "\\n"
  | "\t" => "\\t"
  | "\r" => "\\r"
  | lexeme => lexeme

/-- A record as a row. -/
def row : Record → String
  | .token t =>
    alignRight 4 (decimal t.line) ++ " 0x" ++ hexadecimal t.kind.tag ++ " "
      ++ alignLeft 16 (visible t.lexeme) ++ " " ++ t.kind.name
  | r => Wire.encode r

/-- Records with the events that they came with, which are reported before the first row. -/
def rows (events : List Event) (records : List Record) : List Output :=
  events.map .logged ++ records.map fun r => .printed (row r ++ "\n")

/-- The rows of one more character. -/
def step (s : Scanner) (c : Char) : Scanner × List Output :=
  let (s, records) := s.feed c
  (s, rows (records.filterMap Event.ofRecord?) records)

/-- The table of a source text, under its size in bytes. It is printed while the text is scanned. -/
def output (text : String) : List Output :=
  let size := "Source Byte Count: " ++ decimal (Utf8.encode text).length
  let (s, out) := Transducer.run step {} text.toList
  .printed (size ++ "\n") :: (out.toList ++ rows s.finishEvents s.finish.2)

end LoopAsm.Table
