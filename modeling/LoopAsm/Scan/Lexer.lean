/-
Reading a text record by record. A lexer scans no more of its text than the next record needs: it
hands out a record that waits, and reads on only where none does. Behind the last character it
signals the end of the text, and behind the last record it has nothing more to hand out.
-/
import LoopAsm.Scan.Queue

namespace LoopAsm

/-- A text that is scanned on demand. -/
structure Lexer where
  /-- The characters that are not scanned yet. -/
  rest : List Char
  queue : ScanQueue := {}
  deriving DecidableEq, Repr, Inhabited

namespace Lexer

/-- A lexer at the start of a text. -/
def ofText (text : String) : Lexer where
  rest := text.toList

/-- Scans until a record waits, at the longest to the end of the text. -/
def fill (queue : ScanQueue) : List Char → Lexer
  | [] => { rest := [], queue := if queue.ready = [] then queue.finish else queue }
  | c :: cs => if queue.ready = [] then fill (queue.feed [c]) cs else { rest := c :: cs, queue }

/-- Hands out the next record; `none` is the end. -/
def next (l : Lexer) : Option Record × Lexer :=
  let l := fill l.queue l.rest
  let (r, queue) := l.queue.pop
  (r, { l with queue })

end Lexer

end LoopAsm
