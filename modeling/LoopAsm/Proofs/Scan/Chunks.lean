/-
Scanning by pieces. However a source is cut into reads, what is written is the scan of its text as
a whole, with faults replaced: the decoder goes on where it stopped, with the bytes of an
unfinished character, and so does the scanner. At most three bytes are carried over, so there is
always room for a read, and none is taken for the end of the source.
-/
import LoopAsm.Proofs.Scan.Accounting
import LoopAsm.Proofs.Text.Lossy
import Mathlib.Logic.Relation

namespace LoopAsm

open Utf8 (Byte)

/-! ## Writing -/

/-- Without a limit, lines are written whole. -/
theorem Sink.writeLines_of_limit {s : Sink} (h : s.limit = none) (lines : List String) :
    ∃ s', s.writeLines lines = (.ok (), s') ∧ s'.limit = none ∧ s'.written.toList =
      s.written.toList ++ lines.flatMap fun line => Utf8.encode (line ++ "\n") := by
  induction lines generalizing s with
  | nil => exact ⟨s, rfl, h, by simp⟩
  | cons line lines ih =>
    have hwrite : s.write (Utf8.encode (line ++ "\n")) = (.ok (), { s with
        written := s.written ++ Utf8.encode (line ++ "\n") }) := by
      simp [write, room, h]
    obtain ⟨s', hlines, hlimit, hwritten⟩ :=
      @ih { s with written := s.written ++ Utf8.encode (line ++ "\n") } h
    refine ⟨s', ?_, hlimit, ?_⟩
    · rw [writeLines, hwrite]
      exact hlines
    · rw [hwritten]
      simp

theorem Wire.encode_encodeAll (records : List Record) :
    Utf8.encode (encodeAll records) =
      (records.map encode).flatMap fun line => Utf8.encode (line ++ "\n") := by
  simp [Utf8.encode, encodeAll, List.flatMap_map, List.flatMap_assoc]

theorem Wire.encode_encodeAll_append (a b : List Record) :
    Utf8.encode (encodeAll (a ++ b)) = Utf8.encode (encodeAll a) ++ Utf8.encode (encodeAll b) := by
  simp [encode_encodeAll]

/-! ## Reading -/

namespace Source

/-- What is read are the next bytes; the rest of them and of the plan are left. -/
theorem rest_of_read {s s' : Source} {room : Nat} {bytes : List Byte}
    (h : s.read room = (.ok bytes, s')) : s.bytes = bytes ++ s'.bytes ∧ s'.plan ⊆ s.plan := by
  unfold read at h
  split at h
  · cases h
    exact ⟨(List.take_append_drop _ _).symm, List.Subset.refl _⟩
  · cases h
  · rename_i hplan
    cases h
    rw [hplan]
    exact ⟨(List.take_append_drop _ _).symm, List.subset_cons_self _ _⟩

/-- Every read that is planned asks for some bytes. -/
def Patient (s : Source) : Prop :=
  ∀ reply ∈ s.plan, ∃ n, 0 < n ∧ reply = .atMost n

/-- Where there is room, a read brings the next bytes, and none only at the end. -/
theorem Patient.read {s : Source} (h : s.Patient) {room : Nat} (hroom : 0 < room) :
    ∃ k s', s.read room = (.ok (s.bytes.take k), s') ∧ 0 < k ∧ k ≤ room ∧
      s'.bytes = s.bytes.drop k ∧ s'.Patient := by
  unfold Source.read
  cases hplan : s.plan with
  | nil => exact ⟨room, _, rfl, hroom, Nat.le_refl _, rfl, h⟩
  | cons reply plan =>
    unfold Patient at h
    rw [hplan] at h
    obtain ⟨⟨n, hn, rfl⟩, hrest⟩ := List.forall_mem_cons.1 h
    exact ⟨min room n, _, rfl, Nat.lt_min.2 ⟨hroom, hn⟩, Nat.min_le_left _ _, rfl, hrest⟩

end Source

/-! ## What is carried over -/

theorem Utf8.step_suffix (held : List Byte) (b : Byte) : (step held b).1 <:+ held ++ [b] := by
  unfold step
  split
  · exact List.nil_suffix
  · exact List.suffix_rfl
  · split
    · exact List.nil_suffix
    · split
      · exact List.nil_suffix
      · exact List.suffix_append held [b]
      · exact List.nil_suffix

/-- The bytes carried over are the last ones that were read. -/
theorem Utf8.steps_suffix (held bytes : List Byte) : (steps held bytes).1 <:+ held ++ bytes := by
  induction bytes generalizing held with
  | nil => simp [steps]
  | cons b bytes ih =>
    have hrest : (steps held (b :: bytes)).1 <:+ (step held b).1 ++ bytes := by
      unfold steps
      rw [Transducer.run_cons]
      exact ih (step held b).1
    obtain ⟨front, hfront⟩ := step_suffix held b
    refine hrest.trans ⟨front, ?_⟩
    rw [← List.append_assoc, hfront, List.append_assoc, List.singleton_append]

theorem Utf8.steps_append (held a b : List Byte) :
    steps held (a ++ b) =
      ((steps (steps held a).1 b).1, (steps held a).2 ++ (steps (steps held a).1 b).2) :=
  Transducer.run_append step held a b

/-- Bytes that are all held back when they are read by themselves. -/
def Utf8.Held (held : List Byte) : Prop :=
  steps [] held = (held, #[])

theorem Utf8.Held.step {held : List Byte} (h : Held held) (b : Byte) :
    Held (Utf8.step held b).1 := by
  have hgrown (hi : examine (held ++ [b]) = .incomplete) : Held (held ++ [b]) := by
    have hstep : Utf8.step held b = (held ++ [b], []) := by simp only [Utf8.step, hi]
    rw [Held, steps_append, h, steps, Transducer.run_cons, hstep]
    rfl
  have hsingle (hi : examine [b] = .incomplete) : Held [b] := by
    have hstep : Utf8.step [] b = ([b], []) := by simp only [Utf8.step, List.nil_append, hi]
    rw [Held, steps, Transducer.run_cons, hstep]
    rfl
  unfold Utf8.step
  split
  · rfl
  · rename_i hi
    exact hgrown hi
  · split
    · rfl
    · split
      · rfl
      · rename_i hi
        exact hsingle hi
      · rfl

/-- What is held back is held back when it is read again. -/
theorem Utf8.held_steps (bytes : List Byte) : Held (steps [] bytes).1 := by
  have hnil : Held [] := rfl
  exact Transducer.run_invariant (fun _ b h => h.step b) hnil bytes

/-- Reading held bytes again before what follows comes to the same as going on behind them. -/
theorem Utf8.Held.steps_afresh {held : List Byte} (h : Held held) (bytes : List Byte) :
    steps [] (held ++ bytes) = steps held bytes := by
  rw [Utf8.steps_append, h]
  simp

/-- At the end, held bytes are a text by themselves. -/
theorem Utf8.Held.pieces_eq {held : List Byte} (h : Held held) : pieces held = atEnd held := by
  rw [pieces, h]
  simp

namespace Pump

/-! ## The loop -/

/-- The scanner behind bytes, apart from those of an unfinished character, and its records. -/
def scanned (bytes : List Byte) : Scanner × Array Record :=
  ({} : Scanner).feedAll ((Utf8.steps [] bytes).2.toList.map Utf8.Piece.toChar)

theorem scanned_append (a b : List Byte) :
    scanned (a ++ b) =
      (((scanned a).1.feedAll ((Utf8.steps (Utf8.steps [] a).1 b).2.toList.map
          Utf8.Piece.toChar)).1,
        (scanned a).2 ++ ((scanned a).1.feedAll ((Utf8.steps (Utf8.steps [] a).1 b).2.toList.map
          Utf8.Piece.toChar)).2) := by
  unfold scanned Utf8.steps Scanner.feedAll
  rw [Transducer.run_append, Array.toList_append, List.map_append, Transducer.run_append]

/-- The scan is behind `bytes`: what is carried over, written and counted is what it would be if
they had been read at once. -/
structure Behind (p : Pump) (bytes : List Byte) : Prop where
  held : p.held = (Utf8.steps [] bytes).1
  scanner : p.scanner = (scanned bytes).1
  limit : p.sink.limit = none
  written : p.sink.written.toList = Utf8.encode (Wire.encodeAll (scanned bytes).2.toList)
  summary : p.summary = (scanned bytes).2.toList.foldl Summary.count {}

theorem behind_start : ({} : Pump).Behind [] :=
  ⟨rfl, rfl, rfl, rfl, rfl⟩

/-- Without a limit, records are written and counted, and nothing else changes. -/
theorem put_of_limit {p : Pump} (h : p.sink.limit = none) (records : List Record) :
    ∃ p', p.put records = (.ok (), p') ∧ p'.held = p.held ∧ p'.scanner = p.scanner ∧
      p'.sink.limit = none ∧
      p'.sink.written.toList = p.sink.written.toList ++ Utf8.encode (Wire.encodeAll records) ∧
      p'.summary = records.foldl Summary.count p.summary := by
  obtain ⟨sink, hlines, hlimit, hwritten⟩ := Sink.writeLines_of_limit h (records.map Wire.encode)
  refine ⟨{ p with sink, summary := records.foldl Summary.count p.summary }, ?_, rfl, rfl, hlimit,
    ?_, rfl⟩
  · simp only [put, hlines]
  · rw [hwritten, Wire.encode_encodeAll]

/-- A piece of the source is scanned as if it had been read with what came before. -/
theorem Behind.advance {p : Pump} {done : List Byte} (h : p.Behind done) (bytes : List Byte) :
    ∃ p', p.advance bytes = (.ok (), p') ∧ p'.Behind (done ++ bytes) := by
  have hscanned := scanned_append done bytes
  rw [← h.held, ← h.scanner] at hscanned
  have hheld : (Utf8.steps [] (done ++ bytes)).1 = (Utf8.steps p.held bytes).1 := by
    rw [Utf8.steps_append, h.held]
  generalize hout : p.scanner.feedAll ((Utf8.steps p.held bytes).2.toList.map Utf8.Piece.toChar) =
    out at hscanned
  have hadvance : p.advance bytes = { p with
      held := (Utf8.steps p.held bytes).1, scanner := out.1,
      log := p.log ++ out.2.toList.filterMap Event.ofRecord? }.put out.2.toList := by
    rw [← hout]
    rfl
  obtain ⟨p', hput, hheld', hscanner, hlimit, hwritten, hsummary⟩ :=
    put_of_limit (p := { p with
      held := (Utf8.steps p.held bytes).1, scanner := out.1,
      log := p.log ++ out.2.toList.filterMap Event.ofRecord? }) h.limit out.2.toList
  refine ⟨p', hadvance.trans hput, ?_⟩
  refine ⟨hheld'.trans hheld.symm, by rw [hscanner, hscanned], hlimit, ?_, ?_⟩
  · rw [hwritten, h.written, hscanned, Array.toList_append, Wire.encode_encodeAll_append]
  · rw [hsummary, h.summary, hscanned, Array.toList_append, List.foldl_append]

theorem Behind.held_held {p : Pump} {done : List Byte} (h : p.Behind done) : Utf8.Held p.held := by
  rw [h.held]
  exact Utf8.held_steps done

/-- A piece of the source may be decoded afresh, together with the bytes that are carried over. -/
theorem Behind.advance_afresh {p : Pump} {done : List Byte} (h : p.Behind done)
    (bytes : List Byte) : p.advance bytes = { p with held := [] }.advance (p.held ++ bytes) := by
  rw [Pump.advance, Pump.advance, h.held_held.steps_afresh]

/-- What is carried over at the end may be decoded afresh as well. -/
theorem Behind.conclude_afresh {p : Pump} {done : List Byte} (h : p.Behind done) :
    (Utf8.atEnd p.held).map Utf8.Piece.toChar = (Utf8.decodeLossy p.held).toList := by
  rw [Utf8.decodeLossy, String.toList_ofList, h.held_held.pieces_eq]

/-- The scan of a text with faults replaced, where what is left at the end is added. -/
theorem scan_decodeLossy (bytes : List Byte) :
    scan (Utf8.decodeLossy bytes) = (scanned bytes).2.toList ++
      (((scanned bytes).1.feedAll ((Utf8.atEnd (Utf8.steps [] bytes).1).map
          Utf8.Piece.toChar)).2.toList ++
        ((scanned bytes).1.feedAll ((Utf8.atEnd (Utf8.steps [] bytes).1).map
          Utf8.Piece.toChar)).1.finish.2) := by
  have htext : (Utf8.decodeLossy bytes).toList =
      (Utf8.steps [] bytes).2.toList.map Utf8.Piece.toChar ++
        (Utf8.atEnd (Utf8.steps [] bytes).1).map Utf8.Piece.toChar := by
    simp [Utf8.decodeLossy, Utf8.pieces]
  unfold scan scanned Scanner.feedAll
  rw [htext, Transducer.run_append]
  simp

/-- At the end of the source, an unfinished character is a fault, and the scan ends. -/
theorem Behind.conclude {p : Pump} {bytes : List Byte} (h : p.Behind bytes) :
    ∃ p', p.conclude = (.ok ((scan (Utf8.decodeLossy bytes)).foldl Summary.count {}), p') ∧
      p'.sink.written.toList =
        Utf8.encode (Wire.encodeAll (scan (Utf8.decodeLossy bytes))) := by
  rw [scan_decodeLossy, ← h.held, ← h.scanner]
  generalize hout : p.scanner.feedAll ((Utf8.atEnd p.held).map Utf8.Piece.toChar) = out
  obtain ⟨p', hput, -, -, -, hwritten, hsummary⟩ :=
    put_of_limit (p := { p with
      held := [], scanner := out.1.finish.1,
      log := p.log ++ out.2.toList.filterMap Event.ofRecord? ++ out.1.finishEvents }) h.limit
      (out.2.toList ++ out.1.finish.2)
  refine ⟨{ p' with log := p'.log.push (.scanFinished p'.summary.lines p'.summary.words
    p'.summary.malformed) }, ?_, ?_⟩
  · unfold Pump.conclude
    rw [hout]
    dsimp only
    rw [hput]
    rw [List.foldl_append, ← h.summary, ← hsummary]
  · rw [hwritten, h.written, ← Wire.encode_encodeAll_append]

theorem Behind.length_held {p : Pump} {bytes : List Byte} (h : p.Behind bytes) :
    p.held.length ≤ 3 := by
  rw [h.held]
  exact Utf8.length_steps_le bytes (Nat.zero_le 3)

theorem Behind.room_pos {p : Pump} {bytes : List Byte} (h : p.Behind bytes) (bufferSize : Nat) :
    0 < p.room bufferSize := by
  have hheld := h.length_held
  have hbuffer : 4 ≤ max bufferSize minBuffer := Nat.le_max_right _ _
  unfold room
  omega

/-- From any state of the loop, the rest of the source is scanned. -/
theorem Behind.run {p : Pump} {done : List Byte} (h : p.Behind done) (bufferSize : Nat)
    {source : Source} (hs : source.Patient) :
    ∃ p', p.run bufferSize source =
        (.ok ((scan (Utf8.decodeLossy (done ++ source.bytes))).foldl Summary.count {}), p') ∧
      p'.sink.written.toList =
        Utf8.encode (Wire.encodeAll (scan (Utf8.decodeLossy (done ++ source.bytes)))) := by
  have hread := hs.read (h.room_pos bufferSize)
  fun_induction Pump.run p bufferSize source generalizing done with
  | case1 p source e source' hr =>
    obtain ⟨k, s', hk, -⟩ := hread
    rw [hr] at hk
    cases hk
  | case2 p source source' hr =>
    obtain ⟨k, s', hk, hpos, -⟩ := hread
    rw [hr] at hk
    rw [Prod.mk.injEq, Except.ok.injEq] at hk
    have hend : source.bytes = [] := by
      rcases List.take_eq_nil_iff.1 hk.1.symm with rfl | hnil
      · exact absurd hpos (Nat.lt_irrefl 0)
      · exact hnil
    rw [hend, List.append_nil]
    exact h.conclude
  | case3 p source b bs source' hr e p' ha =>
    obtain ⟨p'', ha', -⟩ := h.advance (b :: bs)
    rw [ha] at ha'
    cases ha'
  | case4 p source b bs source' hr p' ha ih =>
    obtain ⟨k, s', hk, -, -, hbytes, hs'⟩ := hread
    obtain ⟨p'', ha', h'⟩ := h.advance (b :: bs)
    rw [hr, Prod.mk.injEq, Except.ok.injEq] at hk
    obtain ⟨htake, rfl⟩ := hk
    rw [ha] at ha'
    cases ha'
    have hrest := ih h' hs' (hs'.read (h'.room_pos bufferSize))
    rwa [List.append_assoc, htake, hbytes, List.take_append_drop] at hrest

/-! ## What a run goes through -/

section

variable {p : Pump} {bufferSize : Nat} {source source' : Source}

theorem run_of_failure {e : Error} (h : source.read (p.room bufferSize) = (.error e, source')) :
    p.run bufferSize source = (.error e, p) := by
  rw [run]
  split <;> rename_i hread <;> rw [h] at hread <;> cases hread
  rfl

theorem run_of_end (h : source.read (p.room bufferSize) = (.ok [], source')) :
    p.run bufferSize source = p.conclude := by
  rw [run]
  split <;> rename_i hread <;> rw [h] at hread <;> cases hread

theorem run_of_piece {b : Byte} {bytes : List Byte}
    (h : source.read (p.room bufferSize) = (.ok (b :: bytes), source')) :
    p.run bufferSize source =
      match p.advance (b :: bytes) with
      | (.error e, p') => (.error e, p')
      | (.ok (), p') => p'.run bufferSize source' := by
  rw [run]
  split <;> rename_i hread <;> rw [h] at hread <;> cases hread
  rfl

end

/-- One turn of the loop: some bytes are read and scanned. -/
def Turn (bufferSize : Nat) (a b : Pump × Source) : Prop :=
  ∃ bytes, bytes ≠ [] ∧ a.2.read (a.1.room bufferSize) = (.ok bytes, b.2) ∧
    a.1.advance bytes = (.ok (), b.1)

theorem run_of_turn {bufferSize : Nat} {a b : Pump × Source} (h : Turn bufferSize a b) :
    a.1.run bufferSize a.2 = b.1.run bufferSize b.2 := by
  obtain ⟨bytes, hne, hr, ha⟩ := h
  cases bytes with
  | nil => exact absurd rfl hne
  | cons c bytes => rw [run_of_piece hr, ha]

theorem run_of_turns {bufferSize : Nat} {a b : Pump × Source}
    (h : Relation.ReflTransGen (Turn bufferSize) a b) :
    a.1.run bufferSize a.2 = b.1.run bufferSize b.2 := by
  induction h with
  | refl => rfl
  | tail _ hturn ih => exact ih.trans (run_of_turn hturn)

/-- Every state that a run goes through is behind the bytes that were read and before the others. -/
theorem delivered_of_turns {bufferSize : Nat} {source : Source} {a : Pump × Source}
    (h : Relation.ReflTransGen (Turn bufferSize) ({}, source) a) :
    ∃ done, a.1.Behind done ∧ source.bytes = done ++ a.2.bytes ∧ a.2.plan ⊆ source.plan := by
  induction h with
  | refl => exact ⟨[], behind_start, rfl, List.Subset.refl _⟩
  | tail _ hturn ih =>
    obtain ⟨done, hbehind, hbytes, hplan⟩ := ih
    obtain ⟨bytes, -, hr, ha⟩ := hturn
    obtain ⟨p', ha', hbehind'⟩ := hbehind.advance bytes
    obtain ⟨hbytes', hplan'⟩ := Source.rest_of_read hr
    rw [ha'] at ha
    cases ha
    refine ⟨done ++ bytes, hbehind', ?_, List.Subset.trans hplan' hplan⟩
    rw [hbytes, hbytes', List.append_assoc]

theorem behind_of_turns {bufferSize : Nat} {source : Source} (hs : source.Patient)
    {p : Pump} {s : Source}
    (h : Relation.ReflTransGen (Turn bufferSize) ({}, source) (p, s)) :
    (∃ done, p.Behind done) ∧ s.Patient ∧
      ({} : Pump).run bufferSize source = p.run bufferSize s := by
  obtain ⟨done, hbehind, -, hplan⟩ := delivered_of_turns h
  exact ⟨⟨done, hbehind⟩, fun reply hreply => hs reply (hplan hreply), run_of_turns h⟩

end Pump

/-- Reading in pieces does not matter. For any bytes, any size of the buffer and any plan for the
reads, none of which asks for nothing, the text of the bytes with their faults replaced is scanned
as a whole, written and summed up. At every turn of the loop there are at most three bytes carried
over and there is room for a read, what is read fits the buffer, and what is carried over is the
end of what is in it. -/
theorem run_eq_scan_of_plan (bytes : List Byte) (bufferSize : Nat) (plan : List Nat)
    (hplan : ∀ n ∈ plan, 0 < n) :
    (∃ text p, (∀ cs, Utf8.Lossy bytes cs ↔ cs = text.toList) ∧
      ({} : Pump).run bufferSize ⟨bytes, plan.map .atMost⟩ =
        (.ok ⟨text.toList.count '\n' + 1, (tokensOf (scan text)).length,
          (tokensOf (scan text)).countP (·.kind = .malformed)⟩, p) ∧
      p.sink.written.toList = Utf8.encode (Wire.encodeAll (scan text))) ∧
    ∀ p s, Relation.ReflTransGen (Pump.Turn bufferSize) ({}, ⟨bytes, plan.map .atMost⟩) (p, s) →
      ({} : Pump).run bufferSize ⟨bytes, plan.map .atMost⟩ = p.run bufferSize s ∧
      p.held.length ≤ 3 ∧ 0 < p.room bufferSize ∧
      ∃ more s', s.read (p.room bufferSize) = (.ok more, s') ∧ (more = [] ↔ s.bytes = []) ∧
        p.held.length + more.length ≤ max bufferSize Pump.minBuffer ∧
        (p.advance more).2.held <:+ p.held ++ more := by
  have hpatient : Source.Patient ⟨bytes, plan.map .atMost⟩ := by
    intro reply hreply
    obtain ⟨n, hn, rfl⟩ := List.mem_map.1 hreply
    exact ⟨n, hplan n hn, rfl⟩
  constructor
  · obtain ⟨p, hrun, hwritten⟩ := Pump.behind_start.run bufferSize hpatient
    rw [foldl_count_scan] at hrun
    exact ⟨Utf8.decodeLossy bytes, p, fun cs => Utf8.lossy_iff_decodeLossy, hrun, hwritten⟩
  · intro p s h
    obtain ⟨⟨done, hbehind⟩, hs, hrun⟩ := Pump.behind_of_turns hpatient h
    refine ⟨hrun, hbehind.length_held, hbehind.room_pos bufferSize, ?_⟩
    obtain ⟨k, s', hr, hk, hroom, -, -⟩ := hs.read (hbehind.room_pos bufferSize)
    refine ⟨s.bytes.take k, s', hr, ?_, ?_, ?_⟩
    · rw [List.take_eq_nil_iff]
      exact ⟨fun h => h.resolve_left (Nat.ne_of_gt hk), .inr⟩
    · have hheld := hbehind.length_held
      have hbuffer : 4 ≤ max bufferSize Pump.minBuffer := Nat.le_max_right _ _
      have htake : (s.bytes.take k).length ≤ k := List.length_take_le k s.bytes
      unfold Pump.room at hroom
      omega
    · exact Utf8.steps_suffix p.held (s.bytes.take k)

/-- A character, a newline and two faults, one of them at the end, in reads of one to three
bytes. -/
theorem run_eq_scan_of_short_reads :
    (∀ n ∈ [1, 1, 3, 2], 0 < n) ∧
    ∃ p, ({} : Pump).run 0 ⟨[0x61, 0xC3, 0xA9, 0x0A, 0xE2, 0x82, 0x78, 0xF0, 0x9F],
        [1, 1, 3, 2].map .atMost⟩ = (.ok ⟨2, 5, 2⟩, p) ∧
      p.sink.written.toList = Utf8.encode (Wire.encodeAll (scan "aé\n\uFFFDx\uFFFD")) := by
  have hplan : ∀ n ∈ [1, 1, 3, 2], 0 < n := by decide
  obtain ⟨⟨text, p, htext, hrun, hwritten⟩, -⟩ :=
    run_eq_scan_of_plan [0x61, 0xC3, 0xA9, 0x0A, 0xE2, 0x82, 0x78, 0xF0, 0x9F] 0 _ hplan
  have hdecode : Utf8.decodeLossy [0x61, 0xC3, 0xA9, 0x0A, 0xE2, 0x82, 0x78, 0xF0, 0x9F] =
      "aé\n\uFFFDx\uFFFD" := by decide +kernel
  obtain rfl : "aé\n\uFFFDx\uFFFD" = text := by
    rw [← hdecode]
    exact String.toList_inj.1 ((htext _).1 (Utf8.lossy_iff_decodeLossy.2 rfl))
  have hlines : "aé\n\uFFFDx\uFFFD".toList.count '\n' = 1 := by decide
  have hwords : (tokensOf (scan "aé\n\uFFFDx\uFFFD")).length = 5 := by decide +kernel
  have hmalformed : (tokensOf (scan "aé\n\uFFFDx\uFFFD")).countP (·.kind = .malformed) = 2 := by
    decide +kernel
  rw [hlines, hwords, hmalformed] at hrun
  exact ⟨hplan, p, hrun, hwritten⟩

end LoopAsm
