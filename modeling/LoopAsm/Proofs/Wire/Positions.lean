/-
Where the decoder is in a stream. A line is read with its own number, and with the source line
behind the latest line counter before it, whatever the other lines are: a bad line moves the
decoder on by one line and leaves the source line as it was. What a line is read as can thus be
said of the lines alone. Calls of the decoder give these readings one after the other, also after
an error; reading the stream as a whole gives them all, or the first of them that is an error.
-/
import LoopAsm.Proofs.Command.TwoSteps
import LoopAsm.Proofs.Wire.Format

namespace LoopAsm

open Numeral (counterLimit)

/-! ## Calls one after the other -/

namespace Decoder

/-- The decoder after a number of calls, whatever they returned. -/
def after : Nat → Decoder → Decoder
  | 0, d => d
  | k + 1, d => after k d.next.2

/-- What call number `k` returns, where the first call is number zero. -/
def call (d : Decoder) (k : Nat) : Except Error (Option Record) :=
  (d.after k).next.1

/-- The calls return the records one after the other, and then the end. -/
def Returns (d : Decoder) (records : List Record) : Prop :=
  ∀ k ≤ records.length, d.call k = .ok records[k]?

/-- A call fails, and those before it return a record each. -/
def Fails (d : Decoder) (e : Error) : Prop :=
  ∃ k, d.call k = .error e ∧ ∀ j < k, ∃ r, d.call j = .ok (some r)

theorem returns_nil_iff {d : Decoder} : d.Returns [] ↔ d.next.1 = .ok none := by
  constructor
  · intro h
    exact h 0 (Nat.le_refl 0)
  · intro h k hk
    rw [List.length_nil, Nat.le_zero] at hk
    subst hk
    exact h

theorem returns_cons_iff {d : Decoder} {r : Record} {records : List Record} :
    d.Returns (r :: records) ↔ d.next.1 = .ok (some r) ∧ d.next.2.Returns records := by
  constructor
  · intro h
    exact ⟨h 0 (Nat.zero_le _), fun k hk => h (k + 1) (Nat.succ_le_succ hk)⟩
  · rintro ⟨hfirst, hrest⟩ k hk
    cases k with
    | zero => exact hfirst
    | succ k => exact hrest k (Nat.le_of_succ_le_succ hk)

theorem fails_iff (d : Decoder) {e : Error} : d.Fails e ↔
    d.next.1 = .error e ∨ (∃ r, d.next.1 = .ok (some r)) ∧ d.next.2.Fails e := by
  constructor
  · rintro ⟨k, hk, hbefore⟩
    cases k with
    | zero => exact .inl hk
    | succ k =>
      refine .inr ⟨hbefore 0 (Nat.zero_lt_succ k), k, hk, fun j hj => ?_⟩
      exact hbefore (j + 1) (Nat.succ_lt_succ hj)
  · rintro (hnext | ⟨hfirst, k, hk, hbefore⟩)
    · exact ⟨0, hnext, fun j hj => absurd hj (Nat.not_lt_zero j)⟩
    · refine ⟨k + 1, hk, fun j hj => ?_⟩
      cases j with
      | zero => exact hfirst
      | succ j => exact hbefore j (Nat.lt_of_succ_lt_succ hj)

/-- The records are collected exactly as the calls return them. -/
theorem readAll_eq_ok_iff {d : Decoder} {done : Array Record} {out : List Record} :
    d.readAll done = .ok out ↔ ∃ records, out = done.toList ++ records ∧ d.Returns records := by
  fun_induction readAll d done with
  | case1 d done d' hnext =>
    constructor
    · rintro ⟨⟩
      exact ⟨[], (List.append_nil _).symm, returns_nil_iff.2 (by rw [hnext])⟩
    · rintro ⟨records, rfl, h⟩
      cases records with
      | nil => rw [List.append_nil]
      | cons r records => simp [returns_cons_iff, hnext] at h
  | case2 d done r d' hnext ih =>
    rw [ih]
    constructor
    · rintro ⟨records, rfl, h⟩
      exact ⟨r :: records, by simp, returns_cons_iff.2 ⟨by rw [hnext], by rwa [hnext]⟩⟩
    · rintro ⟨records, rfl, h⟩
      cases records with
      | nil => simp [returns_nil_iff, hnext] at h
      | cons r' records =>
        obtain ⟨hfirst, hrest⟩ := returns_cons_iff.1 h
        rw [hnext] at hfirst hrest
        cases hfirst
        exact ⟨records, by simp, hrest⟩
  | case3 d done e d' hnext =>
    constructor
    · rintro ⟨⟩
    · rintro ⟨records, rfl, h⟩
      cases records with
      | nil => simp [returns_nil_iff, hnext] at h
      | cons r records => simp [returns_cons_iff, hnext] at h

/-- Collecting stops at the first call that fails. -/
theorem readAll_eq_error_iff {d : Decoder} {done : Array Record} {e : Error} :
    d.readAll done = .error e ↔ d.Fails e := by
  fun_induction readAll d done with
  | case1 d done d' hnext =>
    rw [fails_iff, hnext]
    simp
  | case2 d done r d' hnext ih =>
    rw [ih, fails_iff d, hnext]
    simp
  | case3 d done e' d' hnext =>
    rw [fails_iff, hnext]
    simp

end Decoder

/-! ## The lines of a stream -/

namespace Wire

/-- A line without what ends it: a carriage return that stands last is not a part of the line. -/
inductive Stripped : List Char → List Char → Prop
  | ended (line : List Char) : Stripped (line ++ ['\r']) line
  | bare {line : List Char} (h : line.getLast? ≠ some '\r') : Stripped line line

/-- The lines of a text without what ends them. A newline ends a line; an unended last line counts
if it is not empty. -/
inductive StreamLines : List Char → List (List Char) → Prop
  | nil : StreamLines [] []
  | last {raw line : List Char} (hne : raw ≠ []) (hraw : '\n' ∉ raw) (hline : Stripped raw line) :
    StreamLines raw [line]
  | cons {raw line rest : List Char} {lines : List (List Char)} (hraw : '\n' ∉ raw)
      (hline : Stripped raw line) (hrest : StreamLines rest lines) :
    StreamLines (raw ++ '\n' :: rest) (line :: lines)

/-- The lines of a text, cut as the decoder cuts them. -/
def streamLines (text : String) : List (List Char) :=
  (Split.lines '\n' text.toList).map dropReturn

theorem stripped_dropReturn (raw : List Char) : Stripped raw (dropReturn raw) := by
  by_cases h : raw.getLast? = some '\r'
  · obtain ⟨line, rfl⟩ := List.getLast?_eq_some_iff.1 h
    rw [dropReturn_return]
    exact .ended line
  · rw [dropReturn_of_getLast? h]
    exact .bare h

theorem streamLines_lines (text : List Char) :
    StreamLines text ((Split.lines '\n' text).map dropReturn) := by
  -- The text is cut at its first newline; what is behind it is shorter.
  induction h : text.length using Nat.strongRecOn generalizing text with
  | _ n ih =>
    by_cases hmem : '\n' ∈ text
    · obtain ⟨raw, rest, rfl, hraw⟩ := List.eq_append_cons_of_mem hmem
      have hlt : rest.length < n := by
        rw [← h, List.length_append, List.length_cons]
        omega
      rw [Split.lines_append_newline hraw]
      exact .cons hraw (stripped_dropReturn raw) (ih _ hlt rest rfl)
    · by_cases hne : text = []
      · subst hne
        exact .nil
      · have hlines : Split.lines '\n' text = [text] := by
          simpa using Split.lines_append hmem hne []
        rw [hlines]
        exact .last hne hmem (stripped_dropReturn text)

/-! ## Source lines -/

/-- The line number of a line counter. -/
def countedLine? (line : List Char) : Option Nat :=
  (decodeLine line 1).toOption.bind closedLine?

/-- The source line of line `k`, counted from zero: the one behind the latest line counter before
it, or the first. -/
def sourceLineAt (lines : List (List Char)) (k : Nat) : Nat :=
  ((lines.take k).filterMap countedLine?).getLast?.elim 1 (· + 1)

/-- What the lines of a stream are read as, each where it stands. -/
def readings (lines : List (List Char)) : List (Except Error Record) :=
  lines.mapIdx fun k line => decodeAt line (k + 1) (sourceLineAt lines k)

/-- Whether a line is a counter does not depend on where it is read. -/
theorem countedLine?_eq (line : List Char) (sourceLine : Nat) :
    countedLine? line = (decodeLine line sourceLine).toOption.bind closedLine? := by
  unfold countedLine?
  cases hread : decodeLine line sourceLine with
  | ok r =>
    obtain ⟨form, rfl, rfl⟩ := exists_form_of_decodeLine hread
    rw [decodeLine_text]
    cases form <;> rfl
  | error fault =>
    cases hone : decodeLine line 1 with
    | ok r =>
      obtain ⟨form, rfl, rfl⟩ := exists_form_of_decodeLine hone
      rw [decodeLine_text] at hread
      cases hread
    | error fault' => rfl

theorem lt_of_countedLine? {line : List Char} {n : Nat} (h : countedLine? line = some n) :
    n < counterLimit := by
  obtain ⟨r, hr, hclosed⟩ := Option.bind_eq_some_iff.1 h
  cases hread : decodeLine line 1 with
  | error fault =>
    rw [hread] at hr
    cases hr
  | ok r' =>
    rw [hread] at hr
    cases hr
    cases r with
    | line n' words =>
      cases hclosed
      exact (representable_of_decodeLine hread (by decide)).1
    | token t => cases hclosed
    | total words => cases hclosed

/-- The source line behind a line. -/
def lineBehind (sourceLine : Nat) (line : List Char) : Nat :=
  (countedLine? line).elim sourceLine fun n => (n + 1) % counterLimit

theorem foldl_lineBehind {lines : List (List Char)}
    (h : ∀ line ∈ lines, countedLine? line ≠ some (2 ^ 64 - 1)) :
    lines.foldl lineBehind 1 = (lines.filterMap countedLine?).getLast?.elim 1 (· + 1) := by
  induction lines using List.reverseRecOn with
  | nil => rfl
  | append_singleton lines line ih =>
    have hline := h line (by simp)
    rw [List.foldl_append, List.foldl_cons, List.foldl_nil,
      ih fun l hl => h l (List.mem_append_left _ hl), lineBehind]
    cases hcounted : countedLine? line with
    | none => simp [hcounted]
    | some n =>
      have hlt : n < counterLimit := lt_of_countedLine? hcounted
      have hne : n ≠ 2 ^ 64 - 1 := fun hn => hline (by rw [hcounted, hn])
      have hmod : (n + 1) % counterLimit = n + 1 := by
        refine Nat.mod_eq_of_lt ?_
        unfold counterLimit at hlt ⊢
        omega
      simp [hcounted, hmod]

/-! ## Calls and lines -/

/-- A call reads the line that the decoder has come to, and moves it on by one line. -/
theorem next_line (raw : List Char) (rest : List RawLine) (lineNo sourceLine : Nat) :
    Decoder.next ⟨some raw :: rest, lineNo, sourceLine⟩ =
      (some <$> decodeAt (dropReturn raw) (lineNo + 1) sourceLine,
        ⟨rest, lineNo + 1, lineBehind sourceLine (dropReturn raw)⟩) := by
  simp only [Decoder.next, lineBehind, countedLine?_eq _ sourceLine]
  cases hread : decodeLine (dropReturn raw) sourceLine with
  | error fault =>
    rw [decodeAt_of_error hread]
    rfl
  | ok r =>
    rw [decodeAt_eq_ok_iff.2 hread]
    cases r <;> rfl

/-- Call `k` reads line `k`, if there is one. -/
theorem call_lines (raws : List (List Char)) (lineNo sourceLine k : Nat) :
    Decoder.call ⟨raws.map some, lineNo, sourceLine⟩ k =
      (raws.map dropReturn)[k]?.mapM fun line => decodeAt line (lineNo + k + 1)
        (((raws.map dropReturn).take k).foldl lineBehind sourceLine) := by
  induction k generalizing raws lineNo sourceLine with
  | zero =>
    cases raws with
    | nil => rfl
    | cons raw raws =>
      rw [Decoder.call, Decoder.after, List.map_cons, next_line]
      rfl
  | succ k ih =>
    cases raws with
    | nil => exact ih [] lineNo sourceLine
    | cons raw raws =>
      rw [Decoder.call, Decoder.after, List.map_cons, next_line]
      have hrest := ih raws (lineNo + 1) (lineBehind sourceLine (dropReturn raw))
      rw [Nat.add_right_comm lineNo 1 k] at hrest
      exact hrest

theorem mapM_id_eq_ok_iff {ε α : Type} {o : Option (Except ε α)} {p : Option α} :
    o.mapM id = .ok p ↔ o = p.map .ok := by
  rcases o with _ | _ | a
  · cases p <;> simp [pure, Except.pure]
  · cases p <;> simp [Functor.map, Except.map]
  · cases p <;> simp [Functor.map, Except.map]

theorem mapM_id_eq_error_iff {ε α : Type} {o : Option (Except ε α)} {e : ε} :
    o.mapM id = .error e ↔ o = some (.error e) := by
  rcases o with _ | _ | a
  · simp [pure, Except.pure]
  · simp [Functor.map, Except.map]
  · simp [Functor.map, Except.map]

section

variable {text : String}
  (h : ∀ line ∈ streamLines text, countedLine? line ≠ some (2 ^ 64 - 1))

include h

theorem call_encode (k : Nat) : Decoder.call { rest := byteLines (Utf8.encode text) } k =
    (streamLines text)[k]?.mapM fun line =>
      decodeAt line (k + 1) (sourceLineAt (streamLines text) k) := by
  have htake := foldl_lineBehind fun line hline => h line (List.mem_of_mem_take (i := k) hline)
  rw [byteLines_encode, textLines, call_lines, Nat.zero_add, sourceLineAt, ← htake]
  rfl

theorem call_eq_reading (k : Nat) : Decoder.call { rest := byteLines (Utf8.encode text) } k =
    (readings (streamLines text))[k]?.mapM id := by
  rw [call_encode h, readings, List.getElem?_mapIdx]
  cases (streamLines text)[k]? <;> rfl

theorem decodeBytes_eq_ok_iff {records : List Record} :
    decodeBytes (Utf8.encode text) = .ok records ↔
      readings (streamLines text) = records.map .ok := by
  have hreturns : Decoder.Returns { rest := byteLines (Utf8.encode text) } records ↔
      ∀ k ≤ records.length, (readings (streamLines text))[k]? = (records.map .ok)[k]? := by
    simp only [Decoder.Returns, call_eq_reading h, mapM_id_eq_ok_iff, List.getElem?_map]
  rw [decodeBytes, Decoder.readAll_eq_ok_iff]
  simp only [List.nil_append, exists_eq_left', hreturns]
  constructor
  · intro hall
    have hend : (readings (streamLines text)).length ≤ records.length := by
      rw [← List.getElem?_eq_none_iff, hall _ (Nat.le_refl _)]
      simp
    refine List.ext_getElem? fun k => ?_
    by_cases hk : k ≤ records.length
    · exact hall k hk
    · rw [List.getElem?_eq_none (by omega), List.getElem?_eq_none (by simp; omega)]
  · intro heq k _
    rw [heq]

theorem decodeBytes_eq_error_iff {e : Error} :
    decodeBytes (Utf8.encode text) = .error e ↔
      ∃ k : Nat, (readings (streamLines text))[k]? = some (.error e) ∧
        ∀ j < k, ∃ r, (readings (streamLines text))[j]? = some (.ok r) := by
  rw [decodeBytes, Decoder.readAll_eq_error_iff]
  simp only [Decoder.Fails, call_eq_reading h, mapM_id_eq_error_iff, mapM_id_eq_ok_iff,
    Option.map_some]

end

/-- The error of a reading is a format error with the number of the line. -/
theorem format_of_reading {lines : List (List Char)} {k : Nat} {e : Error}
    (h : (readings lines)[k]? = some (.error e)) : ∃ fault, e = .format (k + 1) fault := by
  rw [readings, List.getElem?_mapIdx, Option.map_eq_some_iff] at h
  obtain ⟨line, -, h⟩ := h
  cases hread : decodeLine line (sourceLineAt lines k) with
  | ok r =>
    rw [decodeAt_eq_ok_iff.2 hread] at h
    cases h
  | error fault =>
    rw [decodeAt_of_error hread] at h
    cases h
    exact ⟨fault, rfl⟩

/-- The decoder's positions are right in any stream in which no line counter is at its bound, also
behind bad lines. Call `k`, counted from zero, reads line `k` of the stream as line number `k + 1`
and with the source line behind the latest line counter before it, and it returns the end behind
the last line. Read as a whole, the stream gives all its records if every line is good, and
otherwise the format error of the first bad line, with that line's number. -/
theorem call_and_decode_positions (text : String)
    (h : ∀ line ∈ streamLines text, countedLine? line ≠ some (2 ^ 64 - 1)) :
    StreamLines text.toList (streamLines text) ∧
    (∀ k, Decoder.call { rest := byteLines (Utf8.encode text) } k =
      (streamLines text)[k]?.mapM fun line =>
        decodeAt line (k + 1) (sourceLineAt (streamLines text) k)) ∧
    (∀ records, decodeBytes (Utf8.encode text) = .ok records ↔
      readings (streamLines text) = records.map .ok) ∧
    ∀ e, decodeBytes (Utf8.encode text) = .error e ↔
      ∃ k fault, e = .format (k + 1) fault ∧
        (readings (streamLines text))[k]? = some (.error e) ∧
        ∀ j < k, ∃ r, (readings (streamLines text))[j]? = some (.ok r) := by
  refine ⟨streamLines_lines text.toList, call_encode h, fun records => decodeBytes_eq_ok_iff h,
    fun e => ?_⟩
  rw [decodeBytes_eq_error_iff h]
  constructor
  · rintro ⟨k, hk, hbefore⟩
    obtain ⟨fault, hfault⟩ := format_of_reading hk
    exact ⟨k, fault, hfault, hk, hbefore⟩
  · rintro ⟨k, fault, -, hk, hbefore⟩
    exact ⟨k, hk, hbefore⟩

/-- A line that ends in a carriage return, a line counter, a tag of no class, a malformed word that
says where it is, a counter of nothing, and a last line that is not ended. -/
theorem call_and_decode_mixed_stream :
    let text := "0x104\tx\r\nline 7 has 2 word\n0x999\tq\n0x101\t@ at line 9\nline x\n0x104\ty"
    let start : Decoder := { rest := byteLines (Utf8.encode text) }
    (∀ line ∈ streamLines text, countedLine? line ≠ some (2 ^ 64 - 1)) ∧
    start.call 3 = .ok (some (.token ⟨.malformed, "@", 9⟩)) ∧
    start.call 4 = .error (.format 5 (.unknownLine "line x")) ∧
    start.call 5 = .ok (some (.token ⟨.identifier, "y", 8⟩)) ∧
    start.call 6 = .ok none ∧
    decodeBytes (Utf8.encode text) = .error (.format 3 (.tagOutOfRange 0x999)) := by
  intro text start
  have hcounters : ∀ line ∈ streamLines text, countedLine? line ≠ some (2 ^ 64 - 1) := by
    decide +kernel
  obtain ⟨-, hcall, -, herror⟩ := call_and_decode_positions text hcounters
  refine ⟨hcounters, (hcall 3).trans ?_, (hcall 4).trans ?_, (hcall 5).trans ?_,
    (hcall 6).trans ?_, (herror _).2 ⟨2, _, rfl, ?_, fun j hj => ?_⟩⟩
  · decide +kernel
  · decide +kernel
  · decide +kernel
  · decide +kernel
  · decide +kernel
  · rcases j with _ | _ | j
    · exact ⟨.token ⟨.identifier, "x", 1⟩, by decide +kernel⟩
    · exact ⟨.line 7 2, by decide +kernel⟩
    · omega

end Wire

end LoopAsm
