/-
A scanner with a queue of finished records between it and its user, who feeds text at one end
and takes records at the other, in any order of calls. The end of the text may be signalled more
than once and counts once.
-/
import LoopAsm.Log
import LoopAsm.Scan.Scanner

namespace LoopAsm

/-- The events of the end of a text: those of its last words, then an open comment. -/
def Scanner.finishEvents (s : Scanner) : List Event :=
  s.finish.2.filterMap Event.ofRecord? ++ if s.endsInComment then [.openComment] else []

/-- The events of scanning a whole text. -/
def scanEvents (text : String) : List Event :=
  let (s, out) := ({} : Scanner).feedAll text.toList
  out.toList.filterMap Event.ofRecord? ++ s.finishEvents

/-- A scanner and the records that wait to be taken. -/
structure ScanQueue where
  scanner : Scanner := {}
  ready : List Record := []
  finished : Bool := false
  /-- What was reported so far. -/
  log : Array Event := #[]
  deriving DecidableEq, Repr, Inhabited

namespace ScanQueue

/-- Scans a piece of text. -/
def feed (q : ScanQueue) (cs : List Char) : ScanQueue :=
  let (scanner, out) := q.scanner.feedAll cs
  { q with
    scanner
    ready := q.ready ++ out.toList
    log := q.log ++ out.toList.filterMap Event.ofRecord? }

/-- Signals the end of the text. -/
def finish (q : ScanQueue) : ScanQueue :=
  if q.finished then q
  else
    let (scanner, out) := q.scanner.finish
    { scanner
      ready := q.ready ++ out
      finished := true
      log := q.log ++ q.scanner.finishEvents }

/-- Takes the oldest record. -/
def pop (q : ScanQueue) : Option Record × ScanQueue :=
  match q.ready with
  | [] => (none, q)
  | r :: ready => (some r, { q with ready })

/-- Takes all records. -/
def drain (q : ScanQueue) : List Record × ScanQueue :=
  (q.ready, { q with ready := [] })

/-- A call of the user. -/
inductive Call where
  | feed (text : List Char)
  | finish
  | pop
  | drain
  deriving DecidableEq, Repr, Inhabited

/-- Makes a call and gives the records that it hands out. -/
def call (q : ScanQueue) : Call → List Record × ScanQueue
  | .feed text => ([], q.feed text)
  | .finish => ([], q.finish)
  | .pop => let (r, q) := q.pop; (r.toList, q)
  | .drain => q.drain

end ScanQueue

end LoopAsm
