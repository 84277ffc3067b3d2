/-
Reading and writing that break off. Which lines a scan writes does not depend on where they go: it
writes them in order up to the first failure, as lines are written that are all known before. So a
sink that is full holds the first bytes of what one without a limit would. A read that fails leaves
the lines of those records that the bytes before it have completed, and whatever bytes would have
followed, these records come first.
-/
import LoopAsm.Proofs.Scan.Chunks
import LoopAsm.Machine.Instr

namespace LoopAsm

open Utf8 (Byte)

/-! ## Full sinks -/

namespace Sink

variable {s : Sink} {bytes : List Byte} {α : Type}

theorem room_le (s : Sink) (k : Nat) : s.room k ≤ k := by
  unfold room
  split
  · exact Nat.le_refl k
  · exact Nat.min_le_left k _

theorem room_of_full {k m : Nat} (h : s.room k < k) (hk : k ≤ m) : s.room m = s.room k := by
  unfold room at h ⊢
  split at h
  · omega
  · omega

theorem write_of_fits (h : s.room bytes.length = bytes.length) :
    s.write bytes = (.ok (), { s with written := s.written ++ bytes }) := by
  rw [write, h]
  simp

theorem write_of_full (h : s.room bytes.length < bytes.length) :
    s.write bytes = (.error (.io .writeFailed),
      { s with written := s.written ++ bytes.take (s.room bytes.length) }) := by
  rw [write]
  exact if_pos h

theorem write_nil (s : Sink) : s.write [] = (.ok (), s) :=
  write_of_fits (Nat.le_zero.1 (s.room_le 0))

theorem room_behind {front : List Byte} (h : s.room front.length = front.length) (k : Nat) :
    s.room (front.length + k) =
      front.length + { s with written := s.written ++ front }.room k := by
  have hsize : (s.written ++ front).size = s.written.size + front.length := by
    rw [← Array.length_toList, Array.toList_appendList, List.length_append, Array.length_toList]
  cases hlimit : s.limit with
  | none => simp only [room, hlimit]
  | some limit =>
    simp only [room, hlimit, hsize] at h ⊢
    omega

/-- It does not matter how bytes are cut into writes, if none of them is done behind a failure. -/
theorem write_append (s : Sink) (a b : List Byte) :
    s.write (a ++ b) =
      match s.write a with
      | (.ok (), s') => s'.write b
      | (.error e, s') => (.error e, s') := by
  rcases Nat.lt_or_eq_of_le (s.room_le a.length) with ha | ha
  · have hroom : s.room (a ++ b).length = s.room a.length := by
      apply room_of_full ha
      rw [List.length_append]
      omega
    have hfull : s.room (a ++ b).length < (a ++ b).length := by
      rw [hroom, List.length_append]
      omega
    rw [write_of_full ha, write_of_full hfull, hroom, List.take_append_of_le_length (by omega)]
  · rw [write_of_fits ha]
    have hroom := room_behind ha b.length
    rw [← List.length_append] at hroom
    rcases Nat.lt_or_eq_of_le (room_le { s with written := s.written ++ a } b.length) with hb | hb
    · have hfull : s.room (a ++ b).length < (a ++ b).length := by
        rw [hroom, List.length_append]
        omega
      dsimp only
      rw [write_of_full hfull, write_of_full hb, hroom, List.take_length_add_append]
      simp [← Array.toList_inj]
    · have hfits : s.room (a ++ b).length = (a ++ b).length := by
        rw [hroom, hb, List.length_append]
      dsimp only
      rw [write_of_fits hfits, write_of_fits hb]
      simp [← Array.toList_inj]

/-- Lines are written as their bytes would be at once. -/
theorem writeLines_eq_write (s : Sink) (lines : List String) :
    s.writeLines lines = s.write (lines.flatMap fun line => Utf8.encode (line ++ "\n")) := by
  induction lines generalizing s with
  | nil => exact s.write_nil.symm
  | cons line lines ih =>
    rw [writeLines, List.flatMap_cons, write_append]
    rcases s.write (Utf8.encode (line ++ "\n")) with ⟨_ | _, s'⟩
    · rfl
    · exact ih s'

/-- A call writes `bytes` and returns `value`. A sink that takes no more than `n` bytes gets the
first `n` of them, and if they are not all, the call returns the error of the sink. -/
structure Delivers (call : Sink → Except Error α × Sink) (value : α) (bytes : List Byte) :
    Prop where
  free : ∃ s, call {} = (.ok value, s) ∧ s.written.toList = bytes
  fits : ∀ n, bytes.length ≤ n →
    ∃ s, call { limit := some n } = (.ok value, s) ∧ s.written.toList = bytes
  full : ∀ n < bytes.length,
    ∃ s, call { limit := some n } = (.error (.io .writeFailed), s) ∧
      s.written.toList = bytes.take n

/-- What is returned in place of nothing does not matter. -/
theorem Delivers.returning {call : Sink → Except Error Unit × Sink}
    {call' : Sink → Except Error α × Sink} {value : α} (h : Delivers call () bytes)
    (hcall : ∀ s, call' s = ((call s).1.bind fun _ => .ok value, (call s).2)) :
    Delivers call' value bytes where
  free := by
    obtain ⟨s, hs, hwritten⟩ := h.free
    exact ⟨s, by rw [hcall, hs]; rfl, hwritten⟩
  fits n hn := by
    obtain ⟨s, hs, hwritten⟩ := h.fits n hn
    exact ⟨s, by rw [hcall, hs]; rfl, hwritten⟩
  full n hn := by
    obtain ⟨s, hs, hwritten⟩ := h.full n hn
    exact ⟨s, by rw [hcall, hs]; rfl, hwritten⟩

theorem delivers_write (bytes : List Byte) : Delivers (·.write bytes) () bytes where
  free := ⟨_, write_of_fits rfl, by simp⟩
  fits n h := by
    refine ⟨_, write_of_fits ?_, by simp⟩
    exact Nat.min_eq_left h
  full n h := by
    have hroom : ({ limit := some n } : Sink).room bytes.length = n := Nat.min_eq_right (by omega)
    refine ⟨_, write_of_full (by rwa [hroom]), ?_⟩
    rw [hroom]
    simp

theorem delivers_writeLines (lines : List String) : Delivers (·.writeLines lines) ()
    (lines.flatMap fun line => Utf8.encode (line ++ "\n")) := by
  have hcall : (·.writeLines lines) =
      fun s : Sink => s.write (lines.flatMap fun line => Utf8.encode (line ++ "\n")) := by
    funext s
    exact s.writeLines_eq_write lines
  rw [hcall]
  exact delivers_write _

end Sink

/-! ## Sources -/

namespace Source

variable {s s' : Source} {room : Nat}

theorem failure_of_read {e : Error} (h : s.read room = (.error e, s')) : .failure ∈ s.plan := by
  unfold read at h
  split at h
  · cases h
  · rename_i hplan
    rw [hplan]
    exact List.mem_cons_self
  · cases h

end Source

/-! ## Which lines a run writes -/

namespace Pump

variable {p : Pump} {bufferSize : Nat} {source source' : Source}

/-- Whatever the sink, the lines of these records are written, and `result` is returned if they
are written whole. -/
def Writes (p : Pump) (bufferSize : Nat) (source : Source) (records : List Record)
    (result : Except Error Summary) : Prop :=
  ∀ sink, ∃ p', { p with sink }.run bufferSize source =
      ((sink.write (Utf8.encode (Wire.encodeAll records))).1.bind fun _ => result, p') ∧
    p'.sink = (sink.write (Utf8.encode (Wire.encodeAll records))).2

theorem put_eq (p : Pump) (records : List Record) :
    p.put records = ((p.sink.write (Utf8.encode (Wire.encodeAll records))).1,
      { p with
        sink := (p.sink.write (Utf8.encode (Wire.encodeAll records))).2
        summary := records.foldl Summary.count p.summary }) := by
  rw [put, Sink.writeLines_eq_write, ← Wire.encode_encodeAll]

/-- Where the records of a piece go does not matter for the state behind it. -/
theorem exists_advance (p : Pump) (bytes : List Byte) :
    ∃ (q : Pump) (records : List Record), ∀ sink, { p with sink }.advance bytes =
      ((sink.write (Utf8.encode (Wire.encodeAll records))).1,
        { q with sink := (sink.write (Utf8.encode (Wire.encodeAll records))).2 }) := by
  generalize hout : p.scanner.feedAll ((Utf8.steps p.held bytes).2.toList.map Utf8.Piece.toChar) =
    out
  refine ⟨{ p with
    held := (Utf8.steps p.held bytes).1, scanner := out.1,
    log := p.log ++ out.2.toList.filterMap Event.ofRecord?,
    summary := out.2.toList.foldl Summary.count p.summary }, out.2.toList, fun sink => ?_⟩
  unfold advance
  dsimp only
  rw [hout, put_eq]

theorem writes_of_end (h : source.read (p.room bufferSize) = (.ok [], source')) :
    ∃ records summary, p.Writes bufferSize source records (.ok summary) := by
  generalize hout : p.scanner.feedAll ((Utf8.atEnd p.held).map Utf8.Piece.toChar) = out
  refine ⟨out.2.toList ++ out.1.finish.2,
    (out.2.toList ++ out.1.finish.2).foldl Summary.count p.summary, fun sink => ?_⟩
  have hend : { p with sink }.run bufferSize source = { p with sink }.conclude := run_of_end h
  rw [hend]
  unfold conclude
  dsimp only
  rw [hout, put_eq]
  dsimp only
  rcases sink.write (Utf8.encode (Wire.encodeAll (out.2.toList ++ out.1.finish.2))) with
    ⟨_ | _, sink'⟩
  · exact ⟨_, rfl, rfl⟩
  · exact ⟨_, rfl, rfl⟩

theorem writes_of_failure {e : Error}
    (h : source.read (p.room bufferSize) = (.error e, source')) :
    p.Writes bufferSize source [] (.error e) := by
  intro sink
  have hnone : sink.write (Utf8.encode (Wire.encodeAll [])) = (.ok (), sink) := sink.write_nil
  rw [hnone]
  exact ⟨_, run_of_failure h, rfl⟩

/-- What a run writes does not depend on the sink, and neither does what it returns unless the sink
is full. Only a read that fails makes it fail otherwise. -/
theorem exists_writes (p : Pump) (bufferSize : Nat) (source : Source) :
    ∃ records result, p.Writes bufferSize source records result ∧
      (.failure ∉ source.plan → ∃ summary, result = .ok summary) := by
  induction hsize : source.bytes.length using Nat.strongRecOn generalizing p source with
  | _ size ih =>
    rcases hread : source.read (p.room bufferSize) with ⟨e | bytes, source'⟩
    · exact ⟨[], .error e, writes_of_failure hread,
        fun hplan => absurd (Source.failure_of_read hread) hplan⟩
    · cases bytes with
      | nil =>
        obtain ⟨records, summary, hwrites⟩ := writes_of_end hread
        exact ⟨records, .ok summary, hwrites, fun _ => ⟨summary, rfl⟩⟩
      | cons b bytes =>
        obtain ⟨q, first, hadvance⟩ := p.exists_advance (b :: bytes)
        obtain ⟨more, result, hwrites, hresult⟩ :=
          ih _ (hsize ▸ Source.length_bytes_read hread) q source' rfl
        refine ⟨first ++ more, result, fun sink => ?_, fun hplan => ?_⟩
        · have hrun : { p with sink }.run bufferSize source = _ := run_of_piece hread
          rw [hrun, hadvance, Wire.encode_encodeAll_append, Sink.write_append]
          rcases sink.write (Utf8.encode (Wire.encodeAll first)) with ⟨_ | _, sink'⟩
          · exact ⟨_, rfl, rfl⟩
          · exact hwrites sink'
        · exact hresult fun hmem => hplan ((Source.rest_of_read hread).2 hmem)

/-! ## What a failing read leaves -/

/-- The records that some bytes complete come first, whatever bytes follow. -/
theorem scanned_prefix (done more : List Byte) :
    (scanned done).2.toList <+: scan (Utf8.decodeLossy (done ++ more)) := by
  rw [scan_decodeLossy, scanned_append, Array.toList_append, List.append_assoc]
  exact List.prefix_append _ _

end Pump

/-- Scans a source into a sink. -/
def scanInto (bufferSize : Nat) (source : Source) (sink : Sink) : Except Error Summary × Sink :=
  let (result, p) := ({ sink } : Pump).run bufferSize source
  (result, p.sink)

theorem delivers_scanInto (bufferSize : Nat) {source : Source} (h : .failure ∉ source.plan) :
    ∃ summary bytes, Sink.Delivers (scanInto bufferSize source) summary bytes := by
  obtain ⟨records, result, hwrites, hresult⟩ := ({} : Pump).exists_writes bufferSize source
  obtain ⟨summary, rfl⟩ := hresult h
  refine ⟨summary, _, (Sink.delivers_write (Utf8.encode (Wire.encodeAll records))).returning ?_⟩
  intro sink
  obtain ⟨p, hrun, hsink⟩ := hwrites sink
  have hrun' : ({ sink } : Pump).run bufferSize source = _ := hrun
  rw [scanInto, hrun', ← hsink]

/-- Where reading or writing breaks off, what was written is a beginning of what would have been.
If records, code or the scan of a source, in whatever pieces it comes, go to a sink that takes `n`
bytes, it gets the first `n` bytes of all that would be written, and its error is returned unless
that is everything. If instead a read fails, its error is returned, and what was written are the
lines of whole records; more of them follow in the output for all bytes that begin with those read
before, in whatever pieces they come. -/
theorem interruption_leaves_prefix :
    (∀ records : List Record, Sink.Delivers (·.writeLines (records.map Wire.encode)) ()
      (Utf8.encode (Wire.encodeAll records))) ∧
    (∀ code : List Instr, Sink.Delivers (·.writeLines (code.map Instr.text)) ()
      (code.flatMap fun instr => Utf8.encode (instr.text ++ "\n"))) ∧
    (∀ bufferSize source, .failure ∉ source.plan →
      ∃ summary bytes, Sink.Delivers (scanInto bufferSize source) summary bytes) ∧
    (∀ bufferSize source p s s' fault,
      Relation.ReflTransGen (Pump.Turn bufferSize) ({}, source) (p, s) →
      s.read (p.room bufferSize) = (.error (.io fault), s') →
      ({} : Pump).run bufferSize source = (.error (.io fault), p) ∧
      ∃ done records, source.bytes = done ++ s.bytes ∧
        p.sink.written.toList = Utf8.encode (Wire.encodeAll records) ∧
        ∀ more bufferSize' plan, Source.Patient ⟨done ++ more, plan⟩ →
          ∃ summary p' later,
            ({} : Pump).run bufferSize' ⟨done ++ more, plan⟩ = (.ok summary, p') ∧
            p'.sink.written.toList =
              p.sink.written.toList ++ Utf8.encode (Wire.encodeAll later)) := by
  refine ⟨?_, ?_, ?_, ?_⟩
  · intro records
    rw [Wire.encode_encodeAll]
    exact Sink.delivers_writeLines _
  · intro code
    have hlines := Sink.delivers_writeLines (code.map Instr.text)
    rwa [List.flatMap_map] at hlines
  · intro bufferSize source h
    exact delivers_scanInto bufferSize h
  · intro bufferSize source p s s' fault hturns hread
    obtain ⟨done, hbehind, hbytes, -⟩ := Pump.delivered_of_turns hturns
    refine ⟨(Pump.run_of_turns hturns).trans (Pump.run_of_failure hread), done,
      (Pump.scanned done).2.toList, hbytes, hbehind.written, ?_⟩
    intro more bufferSize' plan hpatient
    obtain ⟨p', hrun, hwritten⟩ := Pump.behind_start.run bufferSize' hpatient
    obtain ⟨later, hlater⟩ := Pump.scanned_prefix done more
    refine ⟨_, p', later, hrun, ?_⟩
    rw [hwritten, hbehind.written, ← Wire.encode_encodeAll_append, hlater]
    rfl

/-- A read fails behind a word that may go on and the first byte of a character. Before that, a word
and a blank were written, and so they are with the second byte of the character. -/
theorem interruption_leaves_prefix_of_open_word :
    (Reply.failure ∉ [Reply.atMost 3] ∧ ∃ summary bytes,
      Sink.Delivers (scanInto 4 ⟨[0x61, 0x20, 0x62], [.atMost 3]⟩) summary bytes) ∧
    ∃ p s s', Relation.ReflTransGen (Pump.Turn 4)
        ({}, ⟨[0x61, 0x20, 0x62, 0xC3], [.atMost 3, .atMost 1, .failure]⟩) (p, s) ∧
      s.read (p.room 4) = (.error (.io .readFailed), s') ∧
      ({} : Pump).run 4 ⟨[0x61, 0x20, 0x62, 0xC3], [.atMost 3, .atMost 1, .failure]⟩ =
        (.error (.io .readFailed), p) ∧
      p.sink.written.toList = Utf8.encode "0x104\ta\n0x102\t \n" ∧
      ∃ summary p' later,
        ({} : Pump).run 4 ⟨[0x61, 0x20, 0x62, 0xC3, 0xA9], [.atMost 5]⟩ = (.ok summary, p') ∧
        p'.sink.written.toList =
          p.sink.written.toList ++ Utf8.encode (Wire.encodeAll later) := by
  obtain ⟨-, -, hwriter, hreader⟩ := interruption_leaves_prefix
  have hplan : Reply.failure ∉ [Reply.atMost 3] := by decide
  refine ⟨⟨hplan, hwriter 4 ⟨[0x61, 0x20, 0x62], [.atMost 3]⟩ hplan⟩, ?_⟩
  generalize hfirst : ({} : Pump).advance [0x61, 0x20, 0x62] = first
  generalize hsecond : first.2.advance [0xC3] = second
  have hfirst' : Pump.Turn 4 ({}, ⟨[0x61, 0x20, 0x62, 0xC3], [.atMost 3, .atMost 1, .failure]⟩)
      (first.2, ⟨[0xC3], [.atMost 1, .failure]⟩) := by
    subst hfirst
    refine ⟨[0x61, 0x20, 0x62], by decide, by decide +kernel, ?_⟩
    decide +kernel
  have hsecond' : Pump.Turn 4 (first.2, ⟨[0xC3], [.atMost 1, .failure]⟩)
      (second.2, ⟨[], [.failure]⟩) := by
    subst hfirst hsecond
    refine ⟨[0xC3], by decide, by decide +kernel, ?_⟩
    decide +kernel
  have hturns := (Relation.ReflTransGen.single hfirst').tail hsecond'
  have hread : Source.read ⟨[], [.failure]⟩ (second.2.room 4) =
      (.error (.io .readFailed), ⟨[], []⟩) := rfl
  obtain ⟨hrun, done, records, hdone, hwritten, hmore⟩ := hreader _ _ _ _ _ _ hturns hread
  refine ⟨second.2, _, _, hturns, hread, hrun, ?_, ?_⟩
  · subst hfirst hsecond
    decide +kernel
  · have hpatient : Source.Patient ⟨done ++ [0xA9], [.atMost 5]⟩ := by
      intro reply hreply
      exact ⟨5, by decide, List.mem_singleton.1 hreply⟩
    obtain rfl : [0x61, 0x20, 0x62, 0xC3] = done := hdone.trans (List.append_nil done)
    exact hmore [0xA9] 4 [.atMost 5] hpatient

end LoopAsm
