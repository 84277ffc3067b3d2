/-
How far the counters go. A stream of fewer than `2 ^ 63` bytes has fewer lines than that, a record
comes of a line, every statement takes a token, and a statement begins one loop at most: so the
lines read, the statements and the labels are counted far below `2 ^ 64`. The line number in a line
counter is another matter. It is bounded by its type alone, and the line behind it is one more: a
counter of line `2 ^ 64 - 1` is the one thing in a stream that makes a sum too large.
-/
import LoopAsm.Proofs.Translate.Pressure
import LoopAsm.Proofs.Translate.Slot
import LoopAsm.Proofs.Wire.Positions

namespace LoopAsm

/-! ## Step by step -/

theorem add_le_of_decreasing {f : Nat → Nat} {n : Nat} (h : ∀ i < n, f (i + 1) < f i) :
    n + f n ≤ f 0 := by
  induction n with
  | zero => omega
  | succ n ih =>
    have hstep := h n (Nat.lt_succ_self n)
    have hbefore := ih fun i hi => h i (Nat.lt_succ_of_lt hi)
    omega

theorem le_add_of_growing {f : Nat → Nat} (h : ∀ i, f (i + 1) ≤ f i + 1) (n : Nat) :
    f n ≤ f 0 + n := by
  induction n with
  | zero => omega
  | succ n ih =>
    have hstep := h n
    omega

theorem Split.length_lines_le {α : Type} [DecidableEq α] (newline : α) (xs : List α) :
    (Split.lines newline xs).length ≤ xs.length := by
  induction xs with
  | nil => simp
  | cons x xs ih =>
    rw [Split.lines_cons, List.length_cons]
    split
    · rw [List.length_cons]
      omega
    · cases hlines : Split.lines newline xs with
      | nil => simp [Split.prepend]
      | cons l ls =>
        rw [hlines] at ih
        simp only [Split.prepend, List.length_cons] at ih ⊢
        omega

/-! ## The decoder -/

namespace Wire

theorem lt_of_decodeLine {text : List Char} {sourceLine line words : Nat}
    (h : decodeLine text sourceLine = .ok (.line line words)) : line < 2 ^ 64 := by
  obtain ⟨form, -, hform⟩ := exists_form_of_decodeLine h
  cases form with
  | counter line words plural =>
    cases hform
    exact line.bounded
  | token | malformed | total => cases hform

theorem line_of_decodeLine {text : List Char} {sourceLine : Nat} {t : Token}
    (h : decodeLine text sourceLine = .ok (.token t)) (hk : t.kind ≠ .malformed) :
    t.line = sourceLine := by
  obtain ⟨form, -, hform⟩ := exists_form_of_decodeLine h
  cases form with
  | token =>
    cases hform
    rfl
  | malformed =>
    cases hform
    exact absurd rfl hk
  | counter | total => cases hform

end Wire

namespace Decoder

variable {d d' : Decoder} {records : List Record}

/-- The sums that the next call computes: the lines read, and behind a line counter the line that
follows, before it is cut to 64 bits. -/
def sums (d : Decoder) : List Nat :=
  match d.next with
  | (.ok (some (.line line _)), d') => [d'.lineNo, line + 1]
  | (_, d') => [d'.lineNo]

/-- Reading the stream as a whole comes to call `k`: the calls before it return records. -/
def Comes (d : Decoder) (k : Nat) : Prop :=
  ∀ j < k, ∃ r, d.call j = .ok (some r)

theorem next_record {r : Record} (h : d.next = (.ok (some r), d')) :
    ∃ raw rest, d.rest = some raw :: rest ∧
      Wire.decodeLine (Wire.dropReturn raw) d.sourceLine = .ok r ∧
      d' = ⟨rest, d.lineNo + 1, lineAfter d.sourceLine r⟩ := by
  unfold next at h
  split at h
  · cases h
  · cases h
  · rename_i raw rest hrest
    dsimp only at h
    split at h
    · rename_i hread
      cases h
      exact ⟨raw, rest, hrest, hread, rfl⟩
    · cases h

/-- A line is counted when it is read, if at all. -/
theorem lines_next (d : Decoder) :
    d.next.2.lineNo + d.next.2.rest.length ≤ d.lineNo + d.rest.length := by
  unfold next
  split
  · exact Nat.le_refl _
  · rename_i hrest
    rw [hrest, List.length_cons]
    dsimp only
    omega
  · rename_i hrest
    rw [hrest, List.length_cons]
    dsimp only
    split
    · dsimp only
      omega
    · dsimp only
      omega

theorem lines_after (d : Decoder) (k : Nat) :
    (d.after k).lineNo + (d.after k).rest.length ≤ d.lineNo + d.rest.length := by
  induction k generalizing d with
  | zero => exact Nat.le_refl _
  | succ k ih => exact Nat.le_trans (ih d.next.2) d.lines_next

/-- The sums of a call are words of 64 bits unless it reads the last of all line counters. -/
theorem sums_lt_iff (h : d.lineNo + d.rest.length < 2 ^ 64) :
    (∀ n ∈ d.sums, n < 2 ^ 64) ↔
      ∀ words, d.next.1 ≠ .ok (some (.line (2 ^ 64 - 1) words)) := by
  have hcounted : d.next.2.lineNo < 2 ^ 64 := by
    have := d.lines_next
    omega
  unfold sums
  rcases hnext : d.next with ⟨_ | _ | r, d'⟩ <;> rw [hnext] at hcounted
  · simpa using hcounted
  · simpa using hcounted
  · cases r with
    | token t => simpa using hcounted
    | total words => simpa using hcounted
    | line line words =>
      obtain ⟨raw, rest, -, hread, -⟩ := next_record hnext
      have hline := Wire.lt_of_decodeLine hread
      constructor
      · rintro hsums words' heq
        cases heq
        have hsum := hsums (2 ^ 64 - 1 + 1) (by simp)
        omega
      · intro hne n hn
        have hbound : line ≠ 2 ^ 64 - 1 := by
          rintro rfl
          exact hne words rfl
        rcases List.mem_cons.1 hn with rfl | hn
        · exact hcounted
        · rw [List.mem_singleton.1 hn]
          omega

/-- A record takes a line. -/
theorem Returns.length_le (h : d.Returns records) : records.length ≤ d.rest.length := by
  induction records generalizing d with
  | nil => exact Nat.zero_le _
  | cons r records ih =>
    obtain ⟨hfirst, hrest⟩ := returns_cons_iff.1 h
    have hshorter := length_rest_next (Prod.ext hfirst rfl : d.next = (_, d.next.2))
    have hremain := ih hrest
    rw [List.length_cons]
    omega

/-- A word is placed on the source line that the records before it lead to. -/
theorem Returns.line_eq (h : d.Returns records) {i : Nat} {t : Token}
    (hi : records[i]? = some (.token t)) (hk : t.kind ≠ .malformed) :
    t.line = (records.take i).foldl lineAfter d.sourceLine := by
  induction records generalizing d i with
  | nil => cases hi
  | cons r records ih =>
    obtain ⟨hfirst, hrest⟩ := returns_cons_iff.1 h
    obtain ⟨raw, rest, -, hread, hnext⟩ :=
      next_record (Prod.ext hfirst rfl : d.next = (_, d.next.2))
    cases i with
    | zero =>
      cases hi
      exact Wire.line_of_decodeLine hread hk
    | succ i =>
      have hline := ih hrest hi
      rw [hnext] at hline
      exact hline

theorem Returns.comes (h : d.Returns records) {k : Nat} (hk : k ≤ records.length) : d.Comes k := by
  intro j hj
  have hcall := h j (by omega)
  rw [List.getElem?_eq_getElem (by omega)] at hcall
  exact ⟨_, hcall⟩

end Decoder

/-! ## The validator -/

namespace Validator

variable {v : Validator} {calls : Nat}

theorem statements_statement_le (v : Validator) :
    v.statement.2.statements ≤ v.statements + 1 := by
  unfold statement
  split
  · exact Nat.le_succ _
  · exact Nat.le_refl _
  · exact Nat.le_refl _

/-- Statement after statement, each takes one of the records. -/
theorem calls_le (h : ∀ i < calls, (v.after i).statement.1 = .ok .statement) :
    calls ≤ v.cursor.remaining := by
  have hshorter (i : Nat) (hi : i < calls) :
      (v.after (i + 1)).cursor.remaining < (v.after i).cursor.remaining := by
    rw [after_succ]
    exact remaining_statement (Prod.ext (h i hi) rfl)
  have hsum := add_le_of_decreasing (f := fun i => (v.after i).cursor.remaining) hshorter
  exact Nat.le_of_add_right_le hsum

theorem statements_after_le (v : Validator) (calls : Nat) :
    (v.after calls).statements ≤ v.statements + calls := by
  refine le_add_of_growing (f := fun i => (v.after i).statements) (fun i => ?_) calls
  rw [after_succ]
  exact statements_statement_le _

end Validator

/-! ## The translator -/

namespace Generate

variable {g : Generator}

theorem Plain.counters {α : Type} {x : Generate α} (hx : Plain x) (g : Generator) :
    (final x g).loops = g.loops ∧ (final x g).branches = g.branches :=
  hx.keeps (P := fun g' => g'.loops = g.loops ∧ g'.branches = g.branches)
    (fun _ _ _ h => h) (fun _ _ _ _ _ _ h _ _ => h) ⟨rfl, rfl⟩

theorem counters_branch (g : Generator) :
    (final branch g).loops = g.loops ∧ (final branch g).branches = g.branches + 1 := by
  obtain ⟨operands, operators, registers, loops, branches, compared, code, pressure⟩ := g
  rcases compared with _ | op | op | op <;> exact ⟨rfl, rfl⟩

/-- One action, whether it succeeds or fails. -/
theorem counters_action (a : Action) (g : Generator) :
    (final (action a) g).loops = g.loops + [a].count .loopBegin ∧
      (final (action a) g).branches = g.branches + [a].count .branch := by
  cases hn : a.isNumbering with
  | false =>
    have hloop : a ≠ .loopBegin := by rintro rfl; cases hn
    have hbranch : a ≠ .branch := by rintro rfl; cases hn
    simpa [hloop, hbranch] using (plain_action hn).counters g
  | true =>
    cases a with
    | loopBegin => exact ⟨rfl, rfl⟩
    | branch => exact counters_branch g
    | loopEnd => exact ⟨rfl, rfl⟩
    | _ => cases hn

/-- Actions one after the other, up to the first failure. -/
theorem counters_actions (as : List Action) (g : Generator) :
    (final (actions as) g).loops ≤ g.loops + as.count .loopBegin ∧
      (final (actions as) g).branches ≤ g.branches + as.count .branch := by
  induction as generalizing g with
  | nil => exact ⟨Nat.le_refl _, Nat.le_refl _⟩
  | cons a as ih =>
    obtain ⟨hloops, hbranches⟩ := counters_action a g
    obtain ⟨hloops', hbranches'⟩ := ih (final (action a) g)
    rw [← List.singleton_append, List.count_append, List.count_append]
    rcases final_bind (action a) (fun _ => actions as) g with ⟨_, h⟩ | h <;>
      rw [List.singleton_append, actions, h]
    · constructor <;> omega
    · constructor <;> omega

end Generate

/-- A statement has one loop at most, which has one condition. -/
theorem Statement.count_actions_le (st : Statement) :
    st.actions.count .loopBegin ≤ 1 ∧ st.actions.count .branch ≤ 1 := by
  have hbody (a : Assignment) : a.actions.count .loopBegin = 0 ∧ a.actions.count .branch = 0 := by
    constructor
    · exact List.count_eq_zero.2 fun h => nomatch Assignment.isNumbering_of_mem h
    · exact List.count_eq_zero.2 fun h => nomatch Assignment.isNumbering_of_mem h
  cases st with
  | assignment a => simp [Statement.actions, hbody a]
  | loop left op right body => simp [Statement.actions, hbody body]

namespace Translator

variable {t : Translator} {calls : Nat}

theorem counters_statement_le (t : Translator) :
    t.statement.2.generator.loops ≤ t.generator.loops + 1 ∧
      t.statement.2.generator.branches ≤ t.generator.branches + 1 := by
  have hfinal : t.statement.2.generator =
      Generate.final (Generate.actions t.asked) t.generator := by
    have hcall := statement_carries_out t
    unfold Generate.final
    split at hcall <;> rename_i hx <;> rw [hx] <;> exact hcall.1
  obtain ⟨st, hasked⟩ : ∃ st : Statement, t.asked <+: st.actions := by
    have hasks := Read.statement_asks t.cursor
    unfold asked
    cases h : Read.statement { cursor := t.cursor } <;> rw [h] at hasks <;> exact hasks
  obtain ⟨hloops, hbranches⟩ := Generate.counters_actions t.asked t.generator
  obtain ⟨hloop, hbranch⟩ := st.count_actions_le
  have hloop' := hasked.sublist.count_le (a := .loopBegin)
  have hbranch' := hasked.sublist.count_le (a := .branch)
  rw [hfinal]
  constructor <;> omega

theorem calls_le (h : ∀ i < calls, (t.after i).statement.1 = .ok .statement) :
    calls ≤ t.cursor.remaining := by
  have hshorter (i : Nat) (hi : i < calls) :
      (t.after (i + 1)).cursor.remaining < (t.after i).cursor.remaining := by
    rw [after_succ]
    exact remaining_statement (Prod.ext (h i hi) rfl)
  have hsum := add_le_of_decreasing (f := fun i => (t.after i).cursor.remaining) hshorter
  exact Nat.le_of_add_right_le hsum

theorem counters_after_le (t : Translator) (calls : Nat) :
    (t.after calls).generator.loops ≤ t.generator.loops + calls ∧
      (t.after calls).generator.branches ≤ t.generator.branches + calls := by
  constructor
  · refine le_add_of_growing (f := fun i => (t.after i).generator.loops) (fun i => ?_) calls
    rw [after_succ]
    exact (counters_statement_le _).1
  · refine le_add_of_growing (f := fun i => (t.after i).generator.branches) (fun i => ?_) calls
    rw [after_succ]
    exact (counters_statement_le _).2

end Translator

/-! ## From a stream to its code -/

/-- Reading a stream, checking its statements and translating them computes no number that is too
large for a word of 64 bits. -/
structure CountersFit (bytes : List Utf8.Byte) : Prop where
  /-- The lines read, and the lines behind line counters. -/
  decoder : ∀ k, Decoder.Comes { rest := Wire.byteLines bytes } k →
    ∀ n ∈ (Decoder.after k { rest := Wire.byteLines bytes }).sums, n < 2 ^ 64
  /-- The lines of words, which are those behind the line counters before them. -/
  words : ∀ records, Wire.decodeBytes bytes = .ok records →
    ∀ i t, records[i]? = some (.token t) → t.kind ≠ .malformed →
      t.line = Wire.sourceLine (records.take i)
  /-- The statements begun, up to the call that ends the check. -/
  validator : ∀ records, Wire.decodeBytes bytes = .ok records →
    ∀ calls, (∀ i < calls, ((Validator.ofRecords records).after i).statement.1 = .ok .statement) →
      ((Validator.ofRecords records).after (calls + 1)).statements < 2 ^ 64
  /-- The statements translated and the labels, up to the call that ends the translation. -/
  translator : ∀ records, Wire.decodeBytes bytes = .ok records →
    ∀ capacity calls,
      (∀ i < calls,
        ((Translator.ofRecords records capacity).after i).statement.1 = .ok .statement) →
      calls < 2 ^ 64 ∧
      ((Translator.ofRecords records capacity).after (calls + 1)).generator.loops < 2 ^ 64 ∧
      ((Translator.ofRecords records capacity).after (calls + 1)).generator.branches < 2 ^ 64

section

variable {bytes : List Utf8.Byte} {records : List Record}

theorem returns_of_decodeBytes (h : Wire.decodeBytes bytes = .ok records) :
    Decoder.Returns { rest := Wire.byteLines bytes } records := by
  obtain ⟨records', hrecords, hreturns⟩ := Decoder.readAll_eq_ok_iff.1 h
  rw [List.nil_append] at hrecords
  exact hrecords ▸ hreturns

theorem length_byteLines_le (bytes : List Utf8.Byte) :
    (Wire.byteLines bytes).length ≤ bytes.length := by
  rw [Wire.byteLines, List.length_map]
  exact Split.length_lines_le 10 bytes

theorem length_le_of_decodeBytes (h : Wire.decodeBytes bytes = .ok records) :
    records.length ≤ bytes.length :=
  Nat.le_trans (returns_of_decodeBytes h).length_le (length_byteLines_le bytes)

/-- Where no line counter is the last of all, words are on the lines that the counters say. -/
theorem line_of_decodeBytes (h : Wire.decodeBytes bytes = .ok records)
    (hlast : ∀ k words, Decoder.Comes { rest := Wire.byteLines bytes } k →
      Decoder.call { rest := Wire.byteLines bytes } k ≠ .ok (some (.line (2 ^ 64 - 1) words)))
    {i : Nat} {t : Token} (hi : records[i]? = some (.token t)) (hk : t.kind ≠ .malformed) :
    t.line = Wire.sourceLine (records.take i) := by
  have hreturns := returns_of_decodeBytes h
  rw [hreturns.line_eq hi hk]
  refine Wire.foldl_lineAfter_eq fun n words hmem => ?_
  obtain ⟨k, hk⟩ := List.mem_iff_getElem?.1 (List.mem_of_mem_take hmem)
  have hlen : k ≤ records.length := Nat.le_of_lt (List.getElem?_eq_some_iff.1 hk).1
  have hcall : Decoder.call { rest := Wire.byteLines bytes } k = .ok (some (.line n words)) := by
    rw [hreturns k hlen, hk]
  obtain ⟨raw, rest, -, hread, -⟩ := Decoder.next_record (Prod.ext hcall rfl)
  have hlt := Wire.lt_of_decodeLine hread
  have hne : n ≠ 2 ^ 64 - 1 := by
    rintro rfl
    exact hlast k words (hreturns.comes hlen) hcall
  unfold Numeral.counterLimit
  omega

end

/-- Reading a stream of fewer than `2 ^ 63` bytes and translating its statements computes no number
that is too large, and places no word on a line that was cut to 64 bits, exactly if no line counter
that is read says that it ends line `2 ^ 64 - 1`. -/
theorem countersFit_iff (bytes : List Utf8.Byte) (h : bytes.length < 2 ^ 63) :
    CountersFit bytes ↔
      ∀ k words, Decoder.Comes { rest := Wire.byteLines bytes } k →
        Decoder.call { rest := Wire.byteLines bytes } k ≠
          .ok (some (.line (2 ^ 64 - 1) words)) := by
  have hsums (k : Nat) : (∀ n ∈ (Decoder.after k { rest := Wire.byteLines bytes }).sums,
      n < 2 ^ 64) ↔ ∀ words, Decoder.call { rest := Wire.byteLines bytes } k ≠
        .ok (some (.line (2 ^ 64 - 1) words)) := by
    have hbytes := length_byteLines_le bytes
    have hlines := Decoder.lines_after { rest := Wire.byteLines bytes } k
    dsimp only at hlines
    exact Decoder.sums_lt_iff (by omega)
  constructor
  · intro hfit k words hcomes
    exact (hsums k).1 (hfit.decoder k hcomes) words
  · intro hlast
    constructor
    case decoder =>
      intro k hcomes
      exact (hsums k).2 fun words => hlast k words hcomes
    case words =>
      intro records hread i t hi hk
      exact line_of_decodeBytes hread hlast hi hk
    case validator =>
      intro records hread calls hcalls
      have hrecords := length_le_of_decodeBytes hread
      have hle : calls ≤ 0 + records.length := Validator.calls_le hcalls
      have hcount := (Validator.ofRecords records).statements_after_le (calls + 1)
      have hstart : (Validator.ofRecords records).statements = 0 := rfl
      omega
    case translator =>
      intro records hread capacity calls hcalls
      have hrecords := length_le_of_decodeBytes hread
      have hle : calls ≤ 0 + records.length := Translator.calls_le hcalls
      obtain ⟨hloops, hbranches⟩ :=
        (Translator.ofRecords records capacity).counters_after_le (calls + 1)
      have hloop : (Translator.ofRecords records capacity).generator.loops = 0 := rfl
      have hbranch : (Translator.ofRecords records capacity).generator.branches = 0 := rfl
      refine ⟨?_, ?_, ?_⟩ <;> omega

/-- The last but one of all line counters, with a word behind it on the last line of all. -/
theorem countersFit_before_last_line :
    let bytes := Utf8.encode "line 18446744073709551614 has 0 words\n0x104\tx\n"
    bytes.length < 2 ^ 63 ∧ CountersFit bytes ∧
      Wire.decodeBytes bytes =
        .ok [.line (2 ^ 64 - 2) 0, .token ⟨.identifier, "x", 2 ^ 64 - 1⟩] := by
  intro bytes
  have hlength : bytes.length < 2 ^ 63 := by decide +kernel
  have hread : Wire.decodeBytes bytes =
      .ok [.line (2 ^ 64 - 2) 0, .token ⟨.identifier, "x", 2 ^ 64 - 1⟩] := by decide +kernel
  refine ⟨hlength, (countersFit_iff bytes hlength).2 fun k words hcomes hcall => ?_, hread⟩
  have hreturns := returns_of_decodeBytes hread
  rcases k with _ | _ | k
  · rw [hreturns 0 (by decide)] at hcall
    cases hcall
  · rw [hreturns 1 (by decide)] at hcall
    cases hcall
  · rcases k with _ | k
    · rw [hreturns 2 (by decide)] at hcall
      cases hcall
    · obtain ⟨r, hr⟩ := hcomes 2 (by omega)
      rw [hreturns 2 (by decide)] at hr
      cases hr

/-- Behind the last of all line counters, a word is placed on line zero. -/
theorem countersFit_fails_at_last_line :
    let bytes := Utf8.encode "line 18446744073709551615 has 0 words\n0x104\tx\n"
    bytes.length < 2 ^ 63 ∧ ¬ CountersFit bytes ∧
      Wire.decodeBytes bytes = .ok [.line (2 ^ 64 - 1) 0, .token ⟨.identifier, "x", 0⟩] := by
  intro bytes
  refine ⟨by decide +kernel, fun hfit => ?_, by decide +kernel⟩
  have hcomes : Decoder.Comes { rest := Wire.byteLines bytes } 0 :=
    fun j hj => absurd hj (Nat.not_lt_zero j)
  have hmem : 2 ^ 64 ∈ (Decoder.after 0 { rest := Wire.byteLines bytes }).sums := by decide +kernel
  exact absurd (hfit.decoder 0 hcomes _ hmem) (Nat.lt_irrefl _)

end LoopAsm
