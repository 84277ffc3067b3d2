/-
Feeding and taking do not disturb each other. A queue only adds records at its end and only takes
them from its front, so what was handed out, followed by what still waits, is what the scanner
recorded of the text fed so far. This holds behind every call, in whatever order the calls come, as
long as nothing is fed behind the end of the text. A lexer makes its calls in one such order.
-/
import LoopAsm.Proofs.Scan.Displacement
import LoopAsm.Scan.Lexer

namespace LoopAsm

/-! ## Calls one after the other -/

namespace ScanQueue

/-- Whether a call feeds text. -/
def Call.isFeed : Call → Bool
  | feed _ => true
  | _ => false

/-- The text that a call feeds. -/
def Call.text : Call → List Char
  | feed text => text
  | _ => []

/-- No text is fed behind the end of the text. -/
def InOrder (calls : List Call) : Prop :=
  calls.Pairwise fun call later => call = .finish → later.isFeed = false

instance (calls : List Call) : Decidable (InOrder calls) :=
  inferInstanceAs (Decidable (calls.Pairwise _))

/-- Makes calls one after the other and gives the records that they hand out. -/
def make (q : ScanQueue) : List Call → List Record × ScanQueue
  | [] => ([], q)
  | call :: calls =>
    let (out, q) := q.call call
    let (more, q) := q.make calls
    (out ++ more, q)

variable {q : ScanQueue} {text : List Char} {out : List Record} {x : Call} {calls : List Call}

theorem make_append (q : ScanQueue) (calls later : List Call) :
    q.make (calls ++ later) =
      ((q.make calls).1 ++ ((q.make calls).2.make later).1, ((q.make calls).2.make later).2) := by
  induction calls generalizing q with
  | nil => rfl
  | cons x calls ih => simp only [List.cons_append, make, ih, List.append_assoc]

/-- A queue is finished by the first signal of the end, and stays so. -/
theorem finished_call : (q.call x).2.finished = true ↔ q.finished = true ∨ x = .finish := by
  cases x with
  | feed more => simp [call, feed]
  | finish =>
    simp only [call, finish, or_true, iff_true]
    split
    · assumption
    · rfl
  | pop =>
    simp only [call, pop, reduceCtorEq, or_false]
    split <;> rfl
  | drain => simp [call, drain]

theorem finished_make : (q.make calls).2.finished = true ↔ q.finished = true ∨ .finish ∈ calls := by
  induction calls generalizing q with
  | nil => simp [make]
  | cons x calls ih =>
    rw [make, ih, finished_call, List.mem_cons, eq_comm (a := x), or_assoc]

/-! ## What a queue has recorded -/

/-- The records of a text: all of them if it has ended, else those of a beginning. -/
def recorded (finished : Bool) (text : List Char) : List Record :=
  if finished then scan (String.ofList text) else (({} : Scanner).feedAll text).2.toList

/-- The queue is behind a text, and some of its records are handed out. -/
structure Follows (q : ScanQueue) (text : List Char) (out : List Record) : Prop where
  scanner : q.finished = false → q.scanner = (({} : Scanner).feedAll text).1
  records : out ++ q.ready = recorded q.finished text

theorem follows_start : ({} : ScanQueue).Follows [] [] :=
  ⟨fun _ => rfl, rfl⟩

theorem Follows.feed (h : q.Follows text out) (hopen : q.finished = false) (more : List Char) :
    (q.feed more).Follows (text ++ more) out := by
  have hrun := Transducer.run_append Scanner.feed {} text more
  have hscanner := h.scanner hopen
  have hrecords := h.records
  unfold Scanner.feedAll at hscanner
  unfold recorded Scanner.feedAll at hrecords
  rw [hopen, if_neg Bool.false_ne_true] at hrecords
  constructor
  · intro _
    show (q.scanner.feedAll more).1 = _
    unfold Scanner.feedAll
    rw [hrun, hscanner]
  · show out ++ (q.ready ++ (q.scanner.feedAll more).2.toList) = recorded q.finished (text ++ more)
    unfold recorded Scanner.feedAll
    rw [hopen, if_neg Bool.false_ne_true, hrun, hscanner, ← List.append_assoc, hrecords]
    exact (Array.toList_append ..).symm

theorem Follows.finish (h : q.Follows text out) : q.finish.Follows text out := by
  unfold ScanQueue.finish
  cases hopen : q.finished with
  | true => exact h
  | false =>
    have hrecords := h.records
    rw [hopen] at hrecords
    constructor
    · intro hfinished
      cases hfinished
    · show out ++ (q.ready ++ q.scanner.finish.2) = scan (String.ofList text)
      rw [← List.append_assoc, hrecords, h.scanner hopen]
      simp [recorded, scan]

theorem Follows.pop (h : q.Follows text out) : q.pop.2.Follows text (out ++ q.pop.1.toList) := by
  have hrecords := h.records
  unfold ScanQueue.pop
  cases hready : q.ready with
  | nil => exact ⟨h.scanner, by simpa using hrecords⟩
  | cons r ready => exact ⟨h.scanner, by simpa [hready] using hrecords⟩

/-- One call: the text that it feeds comes behind the text so far, and the records that it hands
out come behind those handed out so far. -/
theorem Follows.call (h : q.Follows text out) (hx : q.finished = true → x.isFeed = false) :
    (q.call x).2.Follows (text ++ x.text) (out ++ (q.call x).1) := by
  cases x with
  | feed more =>
    have hopen : q.finished = false := by
      cases hq : q.finished with
      | true => cases hx hq
      | false => rfl
    show (q.feed more).Follows (text ++ more) (out ++ [])
    rw [List.append_nil]
    exact h.feed hopen more
  | finish =>
    show q.finish.Follows (text ++ []) (out ++ [])
    rw [List.append_nil, List.append_nil]
    exact h.finish
  | pop =>
    show q.pop.2.Follows (text ++ []) (out ++ q.pop.1.toList)
    rw [List.append_nil]
    exact h.pop
  | drain =>
    show q.drain.2.Follows (text ++ []) (out ++ q.ready)
    rw [List.append_nil]
    exact ⟨h.scanner, (List.append_nil _).trans h.records⟩

/-- Calls in any order, with nothing fed behind the end of the text. -/
theorem Follows.make (h : q.Follows text out) (horder : InOrder calls)
    (hq : q.finished = true → ∀ x ∈ calls, x.isFeed = false) :
    (q.make calls).2.Follows (text ++ calls.flatMap Call.text) (out ++ (q.make calls).1) := by
  induction calls generalizing q text out with
  | nil => simpa [ScanQueue.make] using h
  | cons x calls ih =>
    obtain ⟨hlater, hcalls⟩ := List.pairwise_cons.1 horder
    have hstep := h.call fun hfinished => hq hfinished x (List.mem_cons_self ..)
    have hclosed : (q.call x).2.finished = true → ∀ y ∈ calls, y.isFeed = false := by
      intro hfinished y hy
      rcases finished_call.1 hfinished with hfinished | hx
      · exact hq hfinished y (List.mem_cons_of_mem x hy)
      · exact hlater y hy hx
    simpa [ScanQueue.make] using ih hstep hcalls hclosed

theorem follows_make (h : InOrder calls) :
    (({} : ScanQueue).make calls).2.Follows (calls.flatMap Call.text)
      (({} : ScanQueue).make calls).1 :=
  follows_start.make h (fun hfinished => by cases hfinished)

end ScanQueue

/-! ## The grand total -/

/-- Whether a record is the grand total. -/
def Record.isTotal : Record → Bool
  | total _ => true
  | _ => false

theorem Tallied.isTotal_eq_false {line words line' words' : Nat} {records : List Record}
    (h : Tallied line words records line' words') : ∀ r ∈ records, r.isTotal = false := by
  induction h with
  | nil => exact fun r hr => nomatch hr
  | token kind lexeme _ ih => exact List.forall_mem_cons.2 ⟨rfl, ih⟩
  | line _ ih => exact List.forall_mem_cons.2 ⟨rfl, ih⟩

/-- The grand total is the last record of a scan, and there is no other one. -/
theorem exists_total_of_scan (text : String) : ∃ records words,
    scan text = records ++ [.total words] ∧ ∀ r ∈ records, r.isTotal = false := by
  have haccounts : Scanner.Accounts {} _ _ :=
    Scanner.accounts_feedAll (fun _ => rfl) (text.toList ++ ['\n'])
  exact ⟨_, _, scan_eq text, haccounts.tallied.isTotal_eq_false⟩

/-! ## Records on demand -/

namespace Lexer

open ScanQueue

variable {l : Lexer} {text : List Char} {out : List Record} {x : Call} {calls : List Call}

/-- The lexer after a number of calls for the next record, whatever they returned. -/
def after (l : Lexer) : Nat → Lexer
  | 0 => l
  | k + 1 => (l.after k).next.2

/-- What call number `k` returns, where the first call is number zero. -/
def call (l : Lexer) (k : Nat) : Option Record :=
  (l.after k).next.1

/-- The calls that a lexer has made since the start of its text, and the records that they handed
out. -/
structure Made (text : List Char) (calls : List Call) (out : List Record) (l : Lexer) : Prop where
  inOrder : InOrder calls
  make : ({} : ScanQueue).make calls = (out, l.queue)
  text : calls.flatMap Call.text ++ l.rest = text
  ended : l.queue.finished = true → l.rest = []

theorem made_start (text : List Char) : Made text [] [] { rest := text } :=
  ⟨.nil, rfl, rfl, fun h => by cases h⟩

/-- One more call, which feeds some of what is left of the text. -/
theorem Made.concat {rest : List Char} {more : List Record} {queue : ScanQueue}
    (h : Made text calls out l) (hcall : l.queue.call x = (more, queue))
    (hx : l.queue.finished = true → x.isFeed = false) (hrest : l.rest = x.text ++ rest)
    (hended : queue.finished = true → rest = []) :
    Made text (calls ++ [x]) (out ++ more) { rest, queue } := by
  refine ⟨?_, ?_, ?_, hended⟩
  · refine List.pairwise_append.2 ⟨h.inOrder, List.pairwise_singleton .., ?_⟩
    rintro y hy z hz rfl
    rw [List.mem_singleton.1 hz]
    have hfinished := (finished_make (q := {})).2 (.inr hy)
    rw [h.make] at hfinished
    exact hx hfinished
  · simp [make_append, h.make, ScanQueue.make, hcall]
  · rw [List.flatMap_append, List.append_assoc, ← h.text, hrest]
    simp

theorem Made.follows (h : Made text calls out l) :
    l.queue.Follows (calls.flatMap Call.text) out := by
  have hfollows := follows_make h.inOrder
  rwa [h.make] at hfollows

/-- A lexer that reads on until a record waits makes some more calls; none of them hands out a
record, and no record waits only behind the end. -/
theorem Made.fill {rest : List Char} {queue : ScanQueue} (h : Made text calls out { rest, queue }) :
    ∃ more, Made text (calls ++ more) out (fill queue rest) ∧
      ((fill queue rest).queue.ready = [] → (fill queue rest).queue.finished = true) := by
  induction rest generalizing calls queue with
  | nil =>
    unfold Lexer.fill
    split
    · have hfinish := h.concat (x := .finish) rfl (fun _ => rfl) rfl (fun _ => rfl)
      rw [List.append_nil] at hfinish
      exact ⟨[.finish], hfinish, fun _ => finished_call.2 (.inr rfl)⟩
    · rename_i hready
      exact ⟨[], by rwa [List.append_nil], fun hnil => absurd hnil hready⟩
  | cons c rest ih =>
    unfold Lexer.fill
    split
    · have hopen : queue.finished ≠ true := fun hfinished => by cases h.ended hfinished
      have hfeed := h.concat (x := .feed [c]) rfl (fun hfinished => absurd hfinished hopen) rfl
        (fun hfinished => absurd hfinished hopen)
      rw [List.append_nil] at hfeed
      obtain ⟨more, hmore, hready⟩ := ih hfeed
      exact ⟨.feed [c] :: more, by simpa using hmore, hready⟩
    · rename_i hready
      exact ⟨[], by rwa [List.append_nil], fun hnil => absurd hnil hready⟩

/-- What was handed out and what waits begins the records of the whole text. -/
theorem Made.exists_scan (h : Made text calls out l) :
    ∃ later, scan (String.ofList text) = out ++ l.queue.ready ++ later ∧
      (l.queue.finished = true → later = []) := by
  rw [h.follows.records, ← h.text]
  unfold recorded
  cases hfinished : l.queue.finished with
  | true => exact ⟨[], by simp [h.ended hfinished], fun _ => rfl⟩
  | false =>
    refine ⟨(({} : Scanner).feedAll (calls.flatMap Call.text)).1.scanRest l.rest, ?_,
      fun hend => by cases hend⟩
    have hrun := Transducer.run_append Scanner.feed {} (calls.flatMap Call.text) l.rest
    simp [scan, Scanner.scanRest, Scanner.feedAll, hrun]

/-- The next record is the first one that was not handed out. -/
theorem Made.next (h : Made text calls out l) :
    (∃ more, Made text (calls ++ more) (out ++ l.next.1.toList) l.next.2) ∧
      l.next.1 = (scan (String.ofList text))[out.length]? := by
  obtain ⟨more, hfill, hready⟩ := h.fill
  obtain ⟨later, hscan, hlater⟩ := hfill.exists_scan
  unfold Lexer.next
  dsimp only
  generalize Lexer.fill l.queue l.rest = filled at hfill hready hscan hlater
  constructor
  · have hended (h : (filled.queue.call .pop).2.finished = true) : filled.rest = [] :=
      hfill.ended ((finished_call.1 h).resolve_right (by simp))
    have hpop := hfill.concat (x := .pop) rfl (fun _ => rfl) rfl hended
    exact ⟨more ++ [.pop], by rwa [← List.append_assoc]⟩
  · rw [hscan]
    unfold ScanQueue.pop
    cases hwaiting : filled.queue.ready with
    | nil => simp [hlater (hready hwaiting)]
    | cons r ready => simp

theorem getElem?_length_take (records : List Record) (k : Nat) :
    records[(records.take k).length]? = records[k]? := by
  rcases Nat.le_total k records.length with hk | hk
  · rw [List.length_take_of_le hk]
  · rw [List.take_of_length_le hk, List.getElem?_length, List.getElem?_eq_none hk]

/-- After any number of calls, a lexer has handed out as many records of its text. -/
theorem made_after (text : String) (k : Nat) :
    ∃ calls, Made text.toList calls ((scan text).take k) ((ofText text).after k) := by
  induction k with
  | zero => exact ⟨[], made_start text.toList⟩
  | succ k ih =>
    obtain ⟨calls, hmade⟩ := ih
    obtain ⟨⟨more, hnext⟩, hrecord⟩ := hmade.next
    rw [String.ofList_toList, getElem?_length_take] at hrecord
    rw [hrecord, ← List.take_add_one] at hnext
    exact ⟨calls ++ more, hnext⟩

theorem call_eq_getElem? (text : String) (k : Nat) :
    (ofText text).call k = (scan text)[k]? := by
  obtain ⟨calls, hmade⟩ := made_after text k
  rw [← getElem?_length_take, call, hmade.next.2, String.ofList_toList]

/-- Only behind the end of the text are all its records handed out. -/
theorem Made.finish_mem {source : String} (h : Made source.toList calls (scan source) l) :
    .finish ∈ calls := by
  by_contra hnone
  have hopen : l.queue.finished = false := by
    apply Bool.eq_false_of_not_eq_true
    intro hfinished
    have hmade : (({} : ScanQueue).make calls).2.finished = true := by
      rwa [h.make]
    rcases finished_make.1 hmade with hstart | hend
    · cases hstart
    · exact hnone hend
  have hrecords := h.follows.records
  obtain ⟨records, words, hscan, -⟩ := exists_total_of_scan source
  have haccounts : Scanner.Accounts {} _ _ :=
    Scanner.accounts_feedAll (fun _ => rfl) (calls.flatMap Call.text)
  have htotal := haccounts.tallied.isTotal_eq_false (.total words) (by
    rw [hopen] at hrecords
    rw [show (({} : Scanner).feedAll (calls.flatMap Call.text)).2.toList =
      recorded false (calls.flatMap Call.text) from rfl, ← hrecords, hscan]
    simp)
  cases htotal

end Lexer

open ScanQueue in
/-- Feeding and taking can be mixed in any way, with text fed by single characters or in pieces.
Calls that signal the end of the text, once or more often, and feed nothing behind that hand out the
scan of all the text that they feed, if what still waits is counted in; so nothing is lost, doubled
or reordered, and there is one grand total. A lexer hands out the records of its text one by one and
nothing behind the grand total. Whatever it has handed out, it has made such calls for it, which fed
the text up to where it stands; once all is handed out, they have signalled the end. -/
theorem make_yields_scan (calls : List Call) (horder : InOrder calls) (hend : .finish ∈ calls) :
    (({} : ScanQueue).make calls).1 ++ (({} : ScanQueue).make calls).2.ready =
      scan (String.ofList (calls.flatMap Call.text)) ∧
    ((({} : ScanQueue).make calls).1 ++ (({} : ScanQueue).make calls).2.ready).countP
      Record.isTotal = 1 ∧
    ∀ text : String,
      (∃ records words, scan text = records ++ [.total words] ∧
        (∀ r ∈ records, r.isTotal = false) ∧
        ∀ k, (Lexer.ofText text).call k = (records ++ [.total words])[k]?) ∧
      ∀ k, ∃ made, InOrder made ∧
        made.flatMap Call.text ++ ((Lexer.ofText text).after k).rest = text.toList ∧
        ({} : ScanQueue).make made =
          ((scan text).take k, ((Lexer.ofText text).after k).queue) ∧
        ((scan text).length ≤ k → .finish ∈ made) := by
  have hscan : (({} : ScanQueue).make calls).1 ++ (({} : ScanQueue).make calls).2.ready =
      scan (String.ofList (calls.flatMap Call.text)) := by
    have hrecords := (follows_make horder).records
    rwa [finished_make.2 (.inr hend)] at hrecords
  refine ⟨hscan, ?_, fun text => ⟨?_, fun k => ?_⟩⟩
  · obtain ⟨records, words, htotal, hother⟩ :=
      exists_total_of_scan (String.ofList (calls.flatMap Call.text))
    rw [hscan, htotal, List.countP_append, List.countP_eq_zero.2 fun r hr => by simp [hother r hr]]
    rfl
  · obtain ⟨records, words, htotal, hother⟩ := exists_total_of_scan text
    refine ⟨records, words, htotal, hother, fun k => ?_⟩
    rw [← htotal, Lexer.call_eq_getElem?]
  · obtain ⟨made, hmade⟩ := Lexer.made_after text k
    refine ⟨made, hmade.inOrder, hmade.text, hmade.make, fun hk => ?_⟩
    rw [List.take_of_length_le hk] at hmade
    exact hmade.finish_mem

open ScanQueue in
/-- A conditional in two pieces and an unclosed comment, with records taken one by one and all at
once, and the end signalled three times. -/
theorem make_yields_scan_of_pieces :
    let calls : List Call :=
      [.feed "a ?".toList, .pop, .feed " b".toList, .drain, .pop, .feed ": 1 /* c\n".toList, .pop,
        .finish, .pop, .finish, .drain, .pop, .finish]
    InOrder calls ∧ .finish ∈ calls ∧
    (({} : ScanQueue).make calls).1 ++ (({} : ScanQueue).make calls).2.ready =
      scan "a ? b: 1 /* c\n" ∧
    ((({} : ScanQueue).make calls).1 ++ (({} : ScanQueue).make calls).2.ready).countP
      Record.isTotal = 1 := by
  intro calls
  have horder : InOrder calls := by decide
  have hend : .finish ∈ calls := by decide
  have htext : String.ofList (calls.flatMap Call.text) = "a ? b: 1 /* c\n" := by decide
  obtain ⟨hscan, htotal, -⟩ := make_yields_scan calls horder hend
  rw [htext] at hscan
  exact ⟨horder, hend, hscan, htotal⟩

end LoopAsm
