/-
Exactly which records survive the token stream. The format escapes only what would break a line,
and no backslash, so that a blank survives unless a backslash in it gets a partner that it did not
have or had for something else. A newline in any other word makes two lines of one record, and
then more records are read than were written, whatever the lines say; so no list survives by
accident. Where each record is on a line of its own, what is read from the line must be what was
written to it.
-/
import LoopAsm.Proofs.Wire.RoundTrip
import Mathlib.Algebra.GroupWithZero.Nat
import Mathlib.Data.List.Induction

namespace LoopAsm

theorem Split.length_lines_append {α : Type} [DecidableEq α] (newline : α) (l rest : List α) :
    (lines newline (l ++ newline :: rest)).length =
      l.count newline + 1 + (lines newline rest).length := by
  induction l with
  | nil => simp [Nat.add_comm]
  | cons x l ih =>
    rw [List.cons_append, lines_cons, List.count_cons]
    by_cases hx : x = newline
    · simp [hx, ih]
      omega
    · -- The element joins a line that is there, ended by the newline further on.
      cases hlines : lines newline (l ++ newline :: rest) with
      | nil =>
        rw [hlines, List.length_nil] at ih
        omega
      | cons first more =>
        rw [hlines] at ih
        simpa [hx, prepend] using ih

theorem Numeral.lt_of_read? {base limit n : Nat} {text : List Char}
    (h : read? base limit text = some n) : n < limit := by
  unfold read? at h
  dsimp only at h
  split at h
  · rename_i hdigits
    cases h
    exact hdigits.2.2
  · cases h

/-- The numbers of a record are words of 64 bits. -/
def Record.Representable : Record → Prop
  | token t => t.line < Numeral.counterLimit
  | line n words => n < Numeral.counterLimit ∧ words < Numeral.counterLimit
  | total words => words < Numeral.counterLimit

namespace Wire

open Numeral (counterLimit hexadecimal read?)

/-! ## Blanks -/

/-- The characters behind a backslash, where backslashes are read from the left and each one takes
the character behind it. -/
def backslashed : List Char → List Char
  | '\\' :: c :: cs => c :: backslashed cs
  | _ :: cs => backslashed cs
  | [] => []

/-- The letters of escapes and the controls that they stand for. -/
def escapables : List Char :=
  ['t', 'r', 'n', '\t', '\r', '\n']

theorem mem_escapables {c : Char} :
    c ∈ escapables ↔ c = 't' ∨ c = 'r' ∨ c = 'n' ∨ c = '\t' ∨ c = '\r' ∨ c = '\n' := by
  simp [escapables]

theorem unescape_escape_cons {c : Char} (cs : List Char) (h : c ≠ '\\') :
    unescape (escape (c :: cs)) = c :: unescape (escape cs) := by
  unfold escape
  rw [List.flatMap_cons]
  unfold escapeChar
  split
  · rfl
  · rfl
  · rfl
  · rw [List.singleton_append, unescape]
    all_goals
      intros
      contradiction

/-- A backslash keeps its partner unless one of the two is rewritten. -/
theorem unescape_escape_pair {c : Char} (cs : List Char) (h : c ∉ escapables) :
    unescape (escape ('\\' :: c :: cs)) = '\\' :: c :: unescape (escape cs) := by
  simp only [mem_escapables, not_or] at h
  obtain ⟨ht, hr, hn, htab, hreturn, hnewline⟩ := h
  have hc : escapeChar c = [c] := by
    unfold escapeChar
    split <;> first | contradiction | rfl
  have hbackslash : escapeChar '\\' = ['\\'] := rfl
  unfold escape
  rw [List.flatMap_cons, List.flatMap_cons, hc, hbackslash, List.singleton_append,
    List.singleton_append, unescape]
  all_goals assumption

theorem unescape_escape_ne {c : Char} (cs : List Char) (h : c ∈ escapables) :
    unescape (escape ('\\' :: c :: cs)) ≠ '\\' :: c :: cs := by
  rcases mem_escapables.1 h with rfl | rfl | rfl | rfl | rfl | rfl <;>
    simp [escape, escapeChar, unescape]

/-- A blank is read back exactly if no backslash takes the letter of an escape or a control. -/
theorem unescape_escape_iff (blank : List Char) :
    unescape (escape blank) = blank ↔ ∀ c ∈ backslashed blank, c ∉ escapables := by
  fun_induction backslashed blank with
  | case1 c cs ih =>
    rw [List.forall_mem_cons, ← ih]
    by_cases hc : c ∈ escapables
    · exact ⟨fun h => absurd h (unescape_escape_ne cs hc), fun h => absurd hc h.1⟩
    · rw [unescape_escape_pair cs hc]
      simp [hc]
  | case2 c cs hpair ih =>
    by_cases hc : c = '\\'
    · -- The last backslash of a blank has no partner.
      cases cs with
      | nil => simp [hc, backslashed, escape, escapeChar, unescape]
      | cons d cs => exact absurd rfl (hpair d cs hc)
    · rw [unescape_escape_cons cs hc, ← ih]
      simp
  | case3 => simp [escape, unescape]

/-! ## Lines that were read -/

theorem ok_of_bind {α β ε : Type} {x : Except ε α} {f : α → Except ε β} {b : β}
    (h : (x >>= f) = .ok b) : ∃ a, x = .ok a ∧ f a = .ok b := by
  cases x with
  | ok a => exact ⟨a, rfl, h⟩
  | error e => cases h

theorem orFault_eq_ok {α : Type} {fault : LineFault} {o : Option α} {a : α}
    (h : orFault fault o = .ok a) : o = some a := by
  cases o with
  | some b => cases h; rfl
  | none => cases h

theorem lt_of_readCount {text : List Char} {n : Nat} (h : readCount text = .ok n) :
    n < counterLimit :=
  Numeral.lt_of_read? (orFault_eq_ok h)

theorem line_of_readBody {k : Kind} {text : List Char} {line : Nat} {t : Token}
    (h : readBody k text line = .ok t) (hm : k ≠ .malformed) : t.line = line := by
  unfold readBody at h
  split at h
  · exact absurd rfl hm
  · cases h; rfl
  · cases h; rfl

theorem lexeme_of_readBody {k : Kind} {text : List Char} {line : Nat} {t : Token}
    (h : readBody k text line = .ok t) (hm : k ≠ .malformed) :
    t.lexeme.toList = if k = .whitespace then unescape text else text := by
  unfold readBody at h
  split at h
  · exact absurd rfl hm
  · cases h
    rw [if_pos rfl, String.toList_ofList]
  · rename_i hw
    cases h
    rw [if_neg hw, String.toList_ofList]

theorem lt_of_readBody {k : Kind} {text : List Char} {line : Nat} {t : Token}
    (h : readBody k text line = .ok t) (hline : line < counterLimit) : t.line < counterLimit := by
  by_cases hm : k = .malformed
  · subst hm
    obtain ⟨⟨lexeme, place⟩, -, h⟩ := ok_of_bind h
    obtain ⟨n, hn, h⟩ := ok_of_bind h
    cases h
    exact Numeral.lt_of_read? (orFault_eq_ok hn)
  · rw [line_of_readBody h hm]
    exact hline

theorem readBody_of_decodeToken {text : List Char} {line : Nat} {r : Record}
    (h : decodeToken text line = .ok r) :
    ∃ k body t, readBody k body line = .ok t ∧ t.lexeme ≠ "" ∧ r = .token t := by
  obtain ⟨⟨tag, body⟩, -, h⟩ := ok_of_bind h
  obtain ⟨k, -, h⟩ := ok_of_bind h
  obtain ⟨t, hbody, h⟩ := ok_of_bind h
  split at h
  · cases h
  · rename_i hempty
    cases h
    exact ⟨k, body, t, hbody, hempty, rfl⟩

/-- Only words of 64 bits are read. -/
theorem representable_of_decodeLine {text : List Char} {line : Nat} {r : Record}
    (h : decodeLine text line = .ok r) (hline : line < counterLimit) : r.Representable := by
  unfold decodeLine at h
  split at h
  · obtain ⟨k, body, t, hbody, -, rfl⟩ := readBody_of_decodeToken h
    exact lt_of_readBody hbody hline
  · split at h
    · obtain ⟨⟨first, second⟩, -, h⟩ := ok_of_bind h
      obtain ⟨n, hn, h⟩ := ok_of_bind h
      obtain ⟨words, hwords, h⟩ := ok_of_bind h
      cases h
      exact ⟨lt_of_readCount hn, lt_of_readCount hwords⟩
    · obtain ⟨count, -, h⟩ := ok_of_bind h
      obtain ⟨words, hwords, h⟩ := ok_of_bind h
      cases h
      exact lt_of_readCount hwords

/-! ## The end of a line -/

theorem dropReturn_return (l : List Char) : dropReturn (l ++ ['\r']) = l := by
  rw [dropReturn, Split.before?_eq_some_iff.2 rfl]
  rfl

theorem dropReturn_append {front : List Char} (h : front.getLast? ≠ some '\r') (l : List Char) :
    dropReturn (front ++ l) = front ++ dropReturn l := by
  rcases List.eq_nil_or_concat' l with rfl | ⟨l, c, rfl⟩
  · rw [List.append_nil, dropReturn_of_getLast? h, dropReturn_of_getLast? (by simp),
      List.append_nil]
  · by_cases hc : c = '\r'
    · subst hc
      rw [← List.append_assoc, dropReturn_return, dropReturn_return]
    · rw [dropReturn_of_getLast? (by simpa using hc), dropReturn_of_getLast? (by simpa using hc)]

theorem getLast?_of_dropReturn {l : List Char} (h : dropReturn l = l) : l.getLast? ≠ some '\r' := by
  intro hlast
  obtain ⟨front, rfl⟩ := List.getLast?_eq_some_iff.1 hlast
  rw [dropReturn_return] at h
  simpa using congrArg List.length h

theorem dropReturn_encode_token (t : Token) : dropReturn (encode (.token t)).toList =
    "0x".toList ++ ((hexadecimal t.kind.tag).toList ++ (['\t'] ++ dropReturn (body t).toList)) := by
  have hfront :
      ("0x".toList ++ (hexadecimal t.kind.tag).toList ++ ['\t']).getLast? ≠ some '\r' := by
    rw [List.getLast?_concat]
    decide
  have hdrop := dropReturn_append hfront (body t).toList
  simpa only [toList_encode_token, List.append_assoc] using hdrop

theorem body_blank {t : Token} (h : t.kind = .whitespace) :
    (body t).toList = escape t.lexeme.toList := by
  simp [body, h]

/-! ## One record -/

theorem mem_encode_of_mem_lexeme {t : Token} (h : t.kind ≠ .whitespace) {c : Char}
    (hc : c ∈ t.lexeme.toList) : c ∈ (encode (.token t)).toList := by
  have hbody : c ∈ (body t).toList := by
    unfold body
    split
    · simp [hc]
    · contradiction
    · exact hc
  rw [toList_encode_token]
  simp [hbody]

/-- A token that is read back from its own line is one that survives. -/
theorem survives_of_decodeLine {t : Token} {line : Nat} (hline : line < counterLimit)
    (hnewline : '\n' ∉ (encode (.token t)).toList)
    (h : decodeLine (dropReturn (encode (.token t)).toList) line = .ok (.token t)) :
    Survives line t := by
  rw [dropReturn_encode_token, decodeLine_tagged] at h
  obtain ⟨t', hbody, h⟩ := ok_of_bind h
  split at h
  · cases h
  rename_i hempty
  cases h
  refine ⟨hempty, ?_, ?_, ?_, ?_, ?_⟩
  · intro hw hmem
    exact hnewline (mem_encode_of_mem_lexeme hw hmem)
  · intro hw hm
    have hlexeme := lexeme_of_readBody hbody hm
    rw [if_neg hw, body_plain hw hm] at hlexeme
    exact getLast?_of_dropReturn hlexeme.symm
  · intro hw
    have hlexeme := lexeme_of_readBody hbody (by rw [hw]; decide)
    have hclean := dropReturn_of_getLast? (getLast?_ne (escape_clean t.lexeme.toList).2)
    rw [if_pos hw, body_blank hw, hclean] at hlexeme
    exact hlexeme.symm
  · intro hm
    exact line_of_readBody hbody hm
  · intro _
    exact lt_of_readBody hbody hline

theorem faithful_of_decodeLine {r : Record} {line : Nat} (hline : line < counterLimit)
    (hnewline : '\n' ∉ (encode r).toList)
    (h : decodeLine (dropReturn (encode r).toList) line = .ok r) : Faithful line r := by
  cases r with
  | token t => exact survives_of_decodeLine hline hnewline h
  | line n words => exact representable_of_decodeLine h hline
  | total words => exact representable_of_decodeLine h hline

/-! ## All records -/

/-- Lines are read one after the other, each where the one before it has led. -/
inductive Decoded : Nat → List (List Char) → List Record → Prop
  | nil (line : Nat) : Decoded line [] []
  | cons {line : Nat} {text : List Char} {texts : List (List Char)} {r : Record}
      {records : List Record} (first : decodeLine (dropReturn text) line = .ok r)
      (rest : Decoded (Decoder.lineAfter line r) texts records) :
    Decoded line (text :: texts) (r :: records)

theorem decoded_of_readAll {texts : List (List Char)} {lineNo line : Nat} {done : Array Record}
    {out : List Record} (h : Decoder.readAll ⟨texts.map some, lineNo, line⟩ done = .ok out) :
    ∃ records, out = done.toList ++ records ∧ Decoded line texts records := by
  induction texts generalizing lineNo line done with
  | nil =>
    rw [List.map_nil, Decoder.readAll] at h
    split at h <;> rename_i hnext <;> cases hnext
    cases h
    exact ⟨[], (List.append_nil _).symm, .nil line⟩
  | cons text texts ih =>
    rw [List.map_cons, Decoder.readAll] at h
    simp only [Decoder.next] at h
    cases hline : decodeLine (dropReturn text) line with
    | error fault =>
      split at h <;> rename_i hnext <;> rw [hline] at hnext <;> cases hnext
      cases h
    | ok r =>
      split at h <;> rename_i hnext <;> rw [hline] at hnext <;> cases hnext
      obtain ⟨records, rfl, hrest⟩ := ih h
      exact ⟨r :: records, by simp, .cons hline hrest⟩

theorem Decoded.length_eq {line : Nat} {texts : List (List Char)} {records : List Record}
    (h : Decoded line texts records) : texts.length = records.length := by
  induction h with
  | nil => rfl
  | cons _ _ ih => rw [List.length_cons, List.length_cons, ih]

theorem lineAfter_lt {line : Nat} (h : line < counterLimit) (r : Record) :
    Decoder.lineAfter line r < counterLimit := by
  cases r with
  | line n words => exact Nat.mod_lt _ (by decide)
  | token t => exact h
  | total words => exact h

theorem length_lines_encodeAll (records : List Record) :
    (Split.lines '\n' (encodeAll records).toList).length =
      (records.map fun r => (encode r).toList.count '\n').sum + records.length := by
  rw [toList_encodeAll]
  induction records with
  | nil => rfl
  | cons r records ih =>
    rw [List.flatMap_cons, List.append_assoc, List.singleton_append, Split.length_lines_append, ih,
      List.map_cons, List.sum_cons, List.length_cons]
    omega

/-- Records that are read back are on a line each: a newline in one of them would make more lines,
and as many records more. -/
theorem Decoded.newline_not_mem {line : Nat} {records : List Record}
    (h : Decoded line (Split.lines '\n' (encodeAll records).toList) records) :
    ∀ r ∈ records, '\n' ∉ (encode r).toList := by
  have hlength := h.length_eq
  rw [length_lines_encodeAll] at hlength
  have hsum : (records.map fun r => (encode r).toList.count '\n').sum = 0 := by omega
  intro r hr
  have hcount := List.sum_eq_zero_iff_forall_eq_nat.1 hsum _ (List.mem_map_of_mem hr)
  exact List.count_eq_zero.1 hcount

theorem Decoded.faithfulAll {line : Nat} {records : List Record} (hline : line < counterLimit)
    (hnewline : ∀ r ∈ records, '\n' ∉ (encode r).toList)
    (h : Decoded line (records.map fun r => (encode r).toList) records) :
    ∃ line', FaithfulAll line records line' := by
  induction records generalizing line with
  | nil => exact ⟨line, .nil line⟩
  | cons r records ih =>
    obtain ⟨hr, hrest⟩ := List.forall_mem_cons.1 hnewline
    cases h with
    | cons first rest =>
      obtain ⟨line', hfaithful⟩ := ih (lineAfter_lt hline r) hrest rest
      exact ⟨line', .cons (faithful_of_decodeLine hline hr first) hfaithful⟩

/-- A list is read back exactly if its records survive one after the other. -/
theorem decode_encodeAll_iff_faithfulAll {records : List Record} :
    decode (encodeAll records) = .ok records ↔ ∃ line, FaithfulAll 1 records line := by
  constructor
  · intro h
    obtain ⟨out, hout, hdecoded⟩ := decoded_of_readAll h
    rw [List.nil_append] at hout
    subst hout
    have hnewline := hdecoded.newline_not_mem
    rw [lines_encodeAll hnewline] at hdecoded
    exact hdecoded.faithfulAll (by decide) hnewline
  · rintro ⟨line, h⟩
    exact decode_encodeAll h

/-! ## Which records survive -/

/-- The line that a line counter closes. -/
def closedLine? : Record → Option Nat
  | .line n _ => some n
  | _ => none

/-- The line of a token behind records: the one behind the last line counter, or the first. -/
def sourceLine (records : List Record) : Nat :=
  (records.filterMap closedLine?).getLast?.elim 1 (· + 1)

/-- What a token has to be like so that it can be read back where a token is expected to be on line
`line`. A malformed word may have anything in it but a newline. -/
structure Writable (line : Nat) (t : Token) : Prop where
  nonempty : t.lexeme ≠ ""
  noNewline : t.kind ≠ .whitespace → '\n' ∉ t.lexeme.toList
  noReturn : t.kind ≠ .whitespace → t.kind ≠ .malformed → t.lexeme.toList.getLast? ≠ some '\r'
  unescaped : t.kind = .whitespace → ∀ c ∈ backslashed t.lexeme.toList, c ∉ escapables
  placed : t.kind ≠ .malformed → t.line = line

theorem writable_iff {line : Nat} {t : Token} : Writable line t ↔
    t.lexeme ≠ "" ∧ (t.kind ≠ .whitespace → '\n' ∉ t.lexeme.toList) ∧
    (t.kind ≠ .whitespace → t.kind ≠ .malformed → t.lexeme.toList.getLast? ≠ some '\r') ∧
    (t.kind = .whitespace → ∀ c ∈ backslashed t.lexeme.toList, c ∉ escapables) ∧
    (t.kind ≠ .malformed → t.line = line) :=
  ⟨fun h => ⟨h.nonempty, h.noNewline, h.noReturn, h.unescaped, h.placed⟩,
    fun ⟨hempty, hnewline, hreturn, hblank, hplaced⟩ =>
      ⟨hempty, hnewline, hreturn, hblank, hplaced⟩⟩

instance (line : Nat) (t : Token) : Decidable (Writable line t) :=
  -- By the characters of the lexeme; characters are finitely many, but too many to go through.
  have : Decidable (∀ c ∈ backslashed t.lexeme.toList, c ∉ escapables) := List.decidableBAll _ _
  decidable_of_iff _ writable_iff.symm

theorem faithful_iff {line : Nat} (hline : line < counterLimit) {r : Record} :
    Faithful line r ↔ r.Representable ∧ ∀ t, r = .token t → Writable line t := by
  cases r with
  | token t =>
    constructor
    · intro h
      have hbound : t.line < counterLimit := by
        by_cases hm : t.kind = .malformed
        · exact h.bounded hm
        · rw [h.placed hm]
          exact hline
      refine ⟨hbound, ?_⟩
      rintro _ ⟨⟩
      exact ⟨h.nonempty, h.noNewline, h.noReturn,
        fun hw => (unescape_escape_iff _).1 (h.unescape hw), h.placed⟩
    · rintro ⟨hbound, h⟩
      obtain ⟨hempty, hnewline, hreturn, hblank, hplaced⟩ := h t rfl
      exact ⟨hempty, hnewline, hreturn, fun hw => (unescape_escape_iff _).2 (hblank hw), hplaced,
        fun _ => hbound⟩
  | line n words => exact ⟨fun h => ⟨h, fun t ht => nomatch ht⟩, fun h => h.1⟩
  | total words => exact ⟨fun h => ⟨h, fun t ht => nomatch ht⟩, fun h => h.1⟩

theorem faithfulAll_iff {records : List Record} {line : Nat} :
    (∃ line', FaithfulAll line records line') ↔
      ∀ i r, records[i]? = some r → Faithful ((records.take i).foldl Decoder.lineAfter line) r := by
  induction records generalizing line with
  | nil => exact ⟨fun _ i r h => by simp at h, fun _ => ⟨line, .nil line⟩⟩
  | cons first records ih =>
    constructor
    · rintro ⟨line', h⟩ i r hr
      cases h with
      | cons hfirst hrest =>
        cases i with
        | zero =>
          cases hr
          exact hfirst
        | succ i => exact ih.1 ⟨line', hrest⟩ i r hr
    · intro h
      obtain ⟨line', hrest⟩ := ih.2 fun i r hr => h (i + 1) r hr
      exact ⟨line', .cons (h 0 first rfl) hrest⟩

theorem foldl_lineAfter_lt (records : List Record) {line : Nat} (h : line < counterLimit) :
    records.foldl Decoder.lineAfter line < counterLimit := by
  induction records generalizing line with
  | nil => exact h
  | cons r records ih => exact ih (lineAfter_lt h r)

/-- As long as no line counter is at its bound, the reader counts lines as they are. -/
theorem foldl_lineAfter_eq {records : List Record}
    (h : ∀ n words, Record.line n words ∈ records → n + 1 < counterLimit) :
    records.foldl Decoder.lineAfter 1 = sourceLine records := by
  induction records using List.reverseRecOn with
  | nil => rfl
  | append_singleton records r ih =>
    have ih := ih fun n words hr => h n words (List.mem_append_left _ hr)
    rw [List.foldl_append, List.foldl_cons, List.foldl_nil]
    cases r with
    | line n words =>
      have hn := h n words (List.mem_append_right _ List.mem_cons_self)
      simpa [sourceLine, closedLine?, Decoder.lineAfter] using Nat.mod_eq_of_lt hn
    | token t => simpa [sourceLine, closedLine?, Decoder.lineAfter] using ih
    | total words => simpa [sourceLine, closedLine?, Decoder.lineAfter] using ih

/-- Exactly these lists of records are read back from what is written for them, as long as no line
counter is at its bound of `2 ^ 64 - 1`: all numbers are words of 64 bits, and every token is
writable behind the records before it. -/
theorem decode_encodeAll_eq_ok_iff (records : List Record)
    (h : ∀ n words, Record.line n words ∈ records → n ≠ 2 ^ 64 - 1) :
    decode (encodeAll records) = .ok records ↔
      (∀ r ∈ records, r.Representable) ∧
      ∀ i t, records[i]? = some (.token t) → Writable (sourceLine (records.take i)) t := by
  have hline (i : Nat) : (records.take i).foldl Decoder.lineAfter 1 < counterLimit :=
    foldl_lineAfter_lt _ (by decide)
  have hsource (hr : ∀ r ∈ records, r.Representable) (i : Nat) :
      (records.take i).foldl Decoder.lineAfter 1 = sourceLine (records.take i) := by
    refine foldl_lineAfter_eq fun n words hmem => ?_
    have hn : n < counterLimit := (hr _ (List.mem_of_mem_take hmem)).1
    have hne := h n words (List.mem_of_mem_take hmem)
    unfold counterLimit at hn ⊢
    omega
  rw [decode_encodeAll_iff_faithfulAll, faithfulAll_iff]
  simp only [faithful_iff (hline _)]
  constructor
  · intro hall
    have hr : ∀ r ∈ records, r.Representable := by
      intro r hmem
      obtain ⟨i, hi⟩ := List.mem_iff_getElem?.1 hmem
      exact (hall i r hi).1
    refine ⟨hr, fun i t hi => ?_⟩
    rw [← hsource hr]
    exact (hall i _ hi).2 t rfl
  · rintro ⟨hr, hall⟩ i r hi
    refine ⟨hr r (List.mem_of_getElem? hi), ?_⟩
    rintro t rfl
    rw [hsource hr]
    exact hall i t hi

/-- A carriage return inside a word, a malformed word that looks like the end of a line, a blank
with a pair of backslashes before a letter, and the largest count. -/
theorem decode_encodeAll_odd_words :
    let records : List Record := [.token ⟨.identifier, "a\rb", 1⟩,
      .token ⟨.malformed, "@\t at line 3 at line \r", 40⟩, .line 7 2,
      .token ⟨.whitespace, "\\\\t\r\n", 8⟩, .total (2 ^ 64 - 1)]
    (∀ n words, Record.line n words ∈ records → n ≠ 2 ^ 64 - 1) ∧
      decode (encodeAll records) = .ok records := by
  intro records
  have hlines : ∀ n words, Record.line n words ∈ records → n ≠ 2 ^ 64 - 1 := by
    simp [records]
  have hnumbers : ∀ r ∈ records, r.Representable := by
    simp [records, Record.Representable, counterLimit]
  refine ⟨hlines, (decode_encodeAll_eq_ok_iff records hlines).2 ⟨hnumbers, fun i t hi => ?_⟩⟩
  rcases i with _ | _ | _ | _ | _ | i <;> cases hi <;> decide

end Wire

end LoopAsm
