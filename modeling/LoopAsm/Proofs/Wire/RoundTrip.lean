/-
Records that survive the token stream: what is written as a line is read back as the same record,
and the lines of a whole list are read back in order. The line of a token is not written unless
the word is malformed, so a list survives only if every other token is on the line behind the
last line counter.
-/
import LoopAsm.Wire.Decoder
import Mathlib.Data.List.Basic

namespace LoopAsm

/-! ## Cutting at a separator -/

namespace Split

variable {α : Type} [DecidableEq α]

/-- A separator stands first where its first element does. -/
theorem atFirst?_append {x : α} {a : List α} (sep b : List α) (hx : x ∉ a) :
    atFirst? (x :: sep) (a ++ (x :: sep ++ b)) = some (a, b) := by
  have hgo (left : List α) :
      atFirst?.go (x :: sep) left (a ++ (x :: sep ++ b)) = some (left.reverse ++ a, b) := by
    induction a generalizing left with
    | nil =>
      have hb : behind? (x :: sep) (x :: sep ++ b) = some b := behind?_eq_some_iff.2 rfl
      unfold atFirst?.go
      rw [List.nil_append, hb, List.append_nil]
    | cons y a ih =>
      rw [List.mem_cons, not_or] at hx
      have hb : behind? (x :: sep) (y :: (a ++ (x :: sep ++ b))) = none := if_neg hx.1
      unfold atFirst?.go
      rw [List.cons_append, hb]
      dsimp only
      rw [ih hx.2]
      simp
  exact hgo []

/-- A separator stands last where its last element does. -/
theorem atLast?_append {x : α} {b : List α} (a sep : List α) (hx : x ∉ b) :
    atLast? (sep ++ [x]) (a ++ (sep ++ [x] ++ b)) = some (a, b) := by
  have hrev : (a ++ (sep ++ [x] ++ b)).reverse = b.reverse ++ (x :: sep.reverse ++ a.reverse) := by
    simp
  rw [atLast?, hrev, List.reverse_append, List.reverse_singleton, List.singleton_append,
    atFirst?_append _ _ (by simpa using hx)]
  simp

theorem before?_of_getLast? {back xs : List α} {x : α} (hback : back.getLast? = some x)
    (h : xs.getLast? ≠ some x) : before? back xs = none := by
  cases hb : before? back xs with
  | none => rfl
  | some rest =>
    rw [before?_eq_some_iff] at hb
    refine absurd ?_ h
    rw [hb, List.getLast?_append, hback]
    rfl

theorem lines_append_newline {newline : α} {l : List α} (h : newline ∉ l) (rest : List α) :
    lines newline (l ++ newline :: rest) = l :: lines newline rest := by
  induction l with
  | nil => simp
  | cons x l ih =>
    rw [List.mem_cons, not_or] at h
    rw [List.cons_append, lines_cons, if_neg (Ne.symm h.1), ih h.2]
    rfl

end Split

namespace Numeral

theorem not_mem_toDigits {base : Nat} {c : Char} (h1 : 1 < base) (h16 : base ≤ 16) (n : Nat)
    (h : isDigitOf base c = false) : c ∉ Nat.toDigits base n := by
  intro hc
  have hdigit := (toDigits_spec h1 h16 n).1 c hc
  rw [h] at hdigit
  cases hdigit

theorem not_mem_decimal {c : Char} (n : Nat) (h : isDigitOf 10 c = false) :
    c ∉ (decimal n).toList := by
  rw [decimal, String.toList_ofList]
  exact not_mem_toDigits (by decide) (by decide) n h

theorem not_mem_hexadecimal {c : Char} (n : Nat) (h : isDigitOf 16 c = false) :
    c ∉ (hexadecimal n).toList := by
  rw [hexadecimal, String.toList_ofList]
  exact not_mem_toDigits (by decide) (by decide) n h

end Numeral

namespace Wire

open Numeral (decimal hexadecimal read? counterLimit)
open Split (behind? before? atFirst? atLast?)

/-! ## Records that survive -/

/-- A token can be read back from its line where a token is expected to be on line `line`. -/
structure Survives (line : Nat) (t : Token) : Prop where
  nonempty : t.lexeme ≠ ""
  noNewline : t.kind ≠ .whitespace → '\n' ∉ t.lexeme.toList
  noReturn : t.kind ≠ .whitespace → t.kind ≠ .malformed → t.lexeme.toList.getLast? ≠ some '\r'
  unescape : t.kind = .whitespace → unescape (escape t.lexeme.toList) = t.lexeme.toList
  placed : t.kind ≠ .malformed → t.line = line
  bounded : t.kind = .malformed → t.line < counterLimit

/-- A record can be read back from its line. -/
def Faithful (line : Nat) : Record → Prop
  | .token t => Survives line t
  | .line n words => n < counterLimit ∧ words < counterLimit
  | .total words => words < counterLimit

/-- Records can be read back one after the other, and the source line behind them is `line'`. -/
inductive FaithfulAll : Nat → List Record → Nat → Prop where
  | nil (line : Nat) : FaithfulAll line [] line
  | cons {line line' : Nat} {r : Record} {rs : List Record} (first : Faithful line r)
      (rest : FaithfulAll (Decoder.lineAfter line r) rs line') : FaithfulAll line (r :: rs) line'

theorem FaithfulAll.append {line line' line'' : Nat} {a b : List Record}
    (ha : FaithfulAll line a line') (hb : FaithfulAll line' b line'') :
    FaithfulAll line (a ++ b) line'' := by
  induction ha with
  | nil => exact hb
  | cons first _ ih => exact .cons first (ih hb)

/-! ## Lines of tokens -/

theorem orFault_bind {α β : Type} {fault : LineFault} {o : Option α} {a : α} (h : o = some a)
    (f : α → Except LineFault β) : (orFault fault o >>= f) = f a := by
  rw [h]; rfl

theorem readKind_hexadecimal (k : Kind) : readKind (hexadecimal k.tag).toList = .ok k := by
  have hread : read? 16 Numeral.tagLimit (hexadecimal k.tag).toList = some k.tag :=
    Numeral.read?_hexadecimal (Nat.lt_of_le_of_lt k.tag_le_maxTag (by decide))
  have hmin := k.minTag_le_tag
  have hmax := k.tag_le_maxTag
  rw [readKind, orFault_bind hread, if_neg (by omega), Kind.ofTag?_tag]
  rfl

theorem body_plain {t : Token} (hw : t.kind ≠ .whitespace) (hm : t.kind ≠ .malformed) :
    body t = t.lexeme := by
  unfold body
  split <;> first | contradiction | rfl

theorem readBody_plain {k : Kind} (hw : k ≠ .whitespace) (hm : k ≠ .malformed) (text : List Char)
    (line : Nat) : readBody k text line = .ok ⟨k, String.ofList text, line⟩ := by
  unfold readBody
  split <;> first | contradiction | rfl

theorem readBody_body {line : Nat} {t : Token} (h : Survives line t) :
    readBody t.kind (body t).toList line = .ok t := by
  obtain ⟨kind, lexeme, place⟩ := t
  by_cases hm : kind = .malformed
  · subst hm
    -- The mark ends in a blank, and the number behind it has none.
    have hlast : atLast? placeMark.toList (lexeme ++ placeMark ++ decimal place).toList =
        some (lexeme.toList, (decimal place).toList) := by
      have := Split.atLast?_append lexeme.toList " at line".toList
        (Numeral.not_mem_decimal (c := ' ') place (by decide))
      simpa [placeMark] using this
    show (orFault _ (atLast? placeMark.toList (lexeme ++ placeMark ++ decimal place).toList) >>= _) = _
    rw [orFault_bind hlast]
    dsimp only
    rw [orFault_bind (Numeral.read?_decimal (h.bounded rfl)), String.ofList_toList]
    rfl
  · have hline : place = line := h.placed hm
    by_cases hw : kind = .whitespace
    · subst hw
      have hlexeme : unescape (escape lexeme.toList) = lexeme.toList := h.unescape rfl
      simp [readBody, body, hlexeme, hline]
    · rw [readBody_plain hw hm, body_plain hw hm, String.ofList_toList, hline]

theorem toList_encode_token (t : Token) : (encode (.token t)).toList =
    "0x".toList ++ ((hexadecimal t.kind.tag).toList ++ (['\t'] ++ (body t).toList)) := by
  simp [encode]

/-- A line that begins with the tag of a class is read as a token of that class. -/
theorem decodeLine_tagged (k : Kind) (text : List Char) (line : Nat) :
    decodeLine ("0x".toList ++ ((hexadecimal k.tag).toList ++ (['\t'] ++ text))) line = do
      let token ← readBody k text line
      if token.lexeme = "" then throw .emptyLexeme
      return .token token := by
  have hfront : behind? "0x".toList ("0x".toList ++ ((hexadecimal k.tag).toList
      ++ (['\t'] ++ text))) = some ((hexadecimal k.tag).toList ++ (['\t'] ++ text)) :=
    Split.behind?_eq_some_iff.2 rfl
  have htab := Split.atFirst?_append [] text
    (Numeral.not_mem_hexadecimal (c := '\t') k.tag (by decide))
  rw [decodeLine, hfront]
  dsimp only
  rw [decodeToken, orFault_bind htab]
  dsimp only
  rw [readKind_hexadecimal]
  rfl

theorem decodeLine_token {line : Nat} {t : Token} (h : Survives line t) :
    decodeLine (encode (.token t)).toList line = .ok (.token t) := by
  rw [toList_encode_token, decodeLine_tagged, readBody_body h]
  exact if_neg h.nonempty

/-! ## Lines of counters -/

/-- What a line counter calls its words. -/
def unit (words : Nat) : List Char :=
  (if words = 1 then " word" else " words").toList

theorem before?_unit (words : Nat) (digits : List Char) :
    (before? " words".toList (digits ++ unit words) <|>
      before? " word".toList (digits ++ unit words)) = some digits := by
  unfold unit
  split
  -- A single word does not end in the letter of many.
  · have hone := Split.before?_eq_some_iff.2 (rfl : digits ++ " word".toList = _)
    have hmany : before? " words".toList (digits ++ " word".toList) = none :=
      Split.before?_of_getLast? (x := 's') rfl (by simp)
    rw [hmany, hone]
    rfl
  · have hmany := Split.before?_eq_some_iff.2 (rfl : digits ++ " words".toList = _)
    rw [hmany]
    rfl

theorem decodeLine_line {n words : Nat} (hn : n < counterLimit) (hwords : words < counterLimit)
    (line : Nat) : decodeLine (encode (.line n words)).toList line = .ok (.line n words) := by
  have htext : (encode (.line n words)).toList = "line ".toList ++ ((decimal n).toList
      ++ (" has ".toList ++ ((decimal words).toList ++ unit words))) := by
    simp [encode, unit]
  have htoken : behind? "0x".toList (encode (.line n words)).toList = none := by
    rw [htext]; rfl
  have hmiddle : atFirst? " has ".toList ((decimal n).toList ++ (" has ".toList
      ++ ((decimal words).toList ++ unit words))) =
        some ((decimal n).toList, (decimal words).toList ++ unit words) :=
    Split.atFirst?_append "has ".toList _ (Numeral.not_mem_decimal (c := ' ') n (by decide))
  have hparts : counterParts? ((decimal n).toList ++ (" has ".toList ++ ((decimal words).toList
      ++ unit words))) = some ((decimal n).toList, (decimal words).toList) := by
    rw [counterParts?, hmiddle, Option.bind_eq_bind, Option.bind_some]
    dsimp only
    rw [before?_unit]
    rfl
  rw [decodeLine, htoken, Split.behind?_eq_some_iff.2 htext]
  dsimp only
  rw [orFault_bind hparts]
  dsimp only
  rw [readCount, orFault_bind (Numeral.read?_decimal hn), readCount,
    orFault_bind (Numeral.read?_decimal hwords)]
  rfl

theorem decodeLine_total {words : Nat} (hwords : words < counterLimit) (line : Nat) :
    decodeLine (encode (.total words)).toList line = .ok (.total words) := by
  have htext : (encode (.total words)).toList =
      "total ".toList ++ ((decimal words).toList ++ " words".toList) := by
    simp [encode]
  have htoken : behind? "0x".toList (encode (.total words)).toList = none := by
    rw [htext]; rfl
  have hline : behind? "line ".toList (encode (.total words)).toList = none := by
    rw [htext]; rfl
  have hparts : (behind? "total ".toList (encode (.total words)).toList).bind
      (before? " words".toList) = some (decimal words).toList := by
    rw [Split.behind?_eq_some_iff.2 htext]
    exact Split.before?_eq_some_iff.2 rfl
  rw [decodeLine, htoken, hline]
  dsimp only
  rw [orFault_bind hparts, readCount, orFault_bind (Numeral.read?_decimal hwords)]
  rfl

theorem decodeLine_encode {line : Nat} {r : Record} (h : Faithful line r) :
    decodeLine (encode r).toList line = .ok r := by
  cases r with
  | token t => exact decodeLine_token h
  | line n words => exact decodeLine_line h.1 h.2 line
  | total words => exact decodeLine_total h line

/-! ## The lines of a list -/

theorem getLast?_ne {l : List Char} {c : Char} (h : c ∉ l) : l.getLast? ≠ some c := by
  intro hlast
  exact h (List.mem_of_getLast? hlast)

theorem dropReturn_of_getLast? {l : List Char} (h : l.getLast? ≠ some '\r') : dropReturn l = l := by
  rw [dropReturn, Split.before?_of_getLast? rfl h]
  rfl

theorem escape_clean (blank : List Char) : '\n' ∉ escape blank ∧ '\r' ∉ escape blank := by
  have hchar (c d : Char) (hd : d ∈ escapeChar c) : d ≠ '\n' ∧ d ≠ '\r' := by
    unfold escapeChar at hd
    split at hd
    · simp at hd; rcases hd with rfl | rfl <;> decide
    · simp at hd; rcases hd with rfl | rfl <;> decide
    · simp at hd; rcases hd with rfl | rfl <;> decide
    · rw [List.mem_singleton] at hd
      subst hd
      exact ⟨by assumption, by assumption⟩
  constructor <;> intro h <;> obtain ⟨c, -, hc⟩ := List.mem_flatMap.1 h
  · exact (hchar c _ hc).1 rfl
  · exact (hchar c _ hc).2 rfl

theorem newline_not_mem_encode {line : Nat} {r : Record} (h : Faithful line r) :
    '\n' ∉ (encode r).toList := by
  have hdec (n : Nat) : '\n' ∉ (decimal n).toList := Numeral.not_mem_decimal n (by decide)
  cases r with
  | token t =>
    have hbody : '\n' ∉ (body t).toList := by
      unfold body
      split
      · rename_i hk
        simp [placeMark, hdec, h.noNewline (by simp [hk])]
      · rw [String.toList_ofList]
        exact (escape_clean _).1
      · rename_i hw
        exact h.noNewline hw
    have hhex : '\n' ∉ (hexadecimal t.kind.tag).toList := Numeral.not_mem_hexadecimal _ (by decide)
    rw [toList_encode_token]
    simp [hhex, hbody]
  | line n words => by_cases hone : words = 1 <;> simp [encode, hdec, hone]
  | total words => simp [encode, hdec]

/-- No line that survives ends in a carriage return, which would be taken for a part of the line's
end. -/
theorem getLast?_encode {line : Nat} {r : Record} (h : Faithful line r) :
    (encode r).toList.getLast? ≠ some '\r' := by
  have hdec (n : Nat) : '\r' ∉ (decimal n).toList := Numeral.not_mem_decimal n (by decide)
  cases r with
  | token t =>
    have hhex : '\r' ∉ (hexadecimal t.kind.tag).toList := Numeral.not_mem_hexadecimal _ (by decide)
    -- The last character is a digit of the line, an escaped blank, or that of the word itself.
    by_cases hm : t.kind = .malformed
    · have hne : (decimal t.line).toList ≠ [] := by
        rw [decimal, String.toList_ofList]
        exact Nat.toDigits_ne_nil
      have htext : (encode (.token t)).toList = ("0x" ++ hexadecimal t.kind.tag ++ "\t" ++ t.lexeme
          ++ placeMark).toList ++ (decimal t.line).toList := by
        simp [encode, body, hm]
      rw [htext, List.getLast?_append_of_ne_nil _ hne]
      exact getLast?_ne (hdec _)
    · by_cases hw : t.kind = .whitespace
      · have hnot : '\r' ∉ (encode (.token t)).toList := by
          rw [toList_encode_token, body, hw]
          rw [hw] at hhex
          simp [hhex, (escape_clean _).2]
        exact getLast?_ne hnot
      · have hne : t.lexeme.toList ≠ [] := by simpa using h.nonempty
        have htext : (encode (.token t)).toList =
            ("0x" ++ hexadecimal t.kind.tag ++ "\t").toList ++ t.lexeme.toList := by
          simp [encode, body_plain hw hm]
        rw [htext, List.getLast?_append_of_ne_nil _ hne]
        exact h.noReturn hw hm
  | line n words =>
    have hnot : '\r' ∉ (encode (.line n words)).toList := by
      by_cases hone : words = 1 <;> simp [encode, hdec, hone]
    exact getLast?_ne hnot
  | total words =>
    have hnot : '\r' ∉ (encode (.total words)).toList := by simp [encode, hdec]
    exact getLast?_ne hnot

theorem FaithfulAll.newline_not_mem {line line' : Nat} {records : List Record}
    (h : FaithfulAll line records line') : ∀ r ∈ records, '\n' ∉ (encode r).toList := by
  induction h with
  | nil => exact fun r hr => absurd hr List.not_mem_nil
  | cons first _ ih => exact List.forall_mem_cons.2 ⟨newline_not_mem_encode first, ih⟩

theorem toList_encodeAll (records : List Record) :
    (encodeAll records).toList = records.flatMap fun r => (encode r).toList ++ ['\n'] := by
  simp [encodeAll, List.flatMap_map]

/-- Records that are written without a newline are on a line each. -/
theorem lines_encodeAll {records : List Record} (h : ∀ r ∈ records, '\n' ∉ (encode r).toList) :
    Split.lines '\n' (encodeAll records).toList = records.map fun r => (encode r).toList := by
  rw [toList_encodeAll]
  induction records with
  | nil => rfl
  | cons r records ih =>
    obtain ⟨hr, hrest⟩ := List.forall_mem_cons.1 h
    rw [List.flatMap_cons, List.append_assoc, List.singleton_append,
      Split.lines_append_newline hr, ih hrest, List.map_cons]

theorem textLines_encodeAll {line line' : Nat} {records : List Record}
    (h : FaithfulAll line records line') :
    textLines (encodeAll records) = records.map fun r => some (encode r).toList := by
  rw [textLines, lines_encodeAll h.newline_not_mem, List.map_map]
  rfl

theorem next_encode {line : Nat} {r : Record} (h : Faithful line r) (rest : List RawLine)
    (lineNo : Nat) :
    Decoder.next ⟨some (encode r).toList :: rest, lineNo, line⟩ =
      (.ok (some r), ⟨rest, lineNo + 1, Decoder.lineAfter line r⟩) := by
  simp only [Decoder.next]
  rw [dropReturn_of_getLast? (getLast?_encode h), decodeLine_encode h]

theorem readAll_encode {line line' : Nat} {records : List Record}
    (h : FaithfulAll line records line') (lineNo : Nat) (done : Array Record) :
    Decoder.readAll ⟨records.map fun r => some (encode r).toList, lineNo, line⟩ done =
      .ok (done.toList ++ records) := by
  induction h generalizing lineNo done with
  | nil line =>
    have hend : Decoder.next ⟨[], lineNo, line⟩ = (.ok none, ⟨[], lineNo, line⟩) := rfl
    rw [List.map_nil, Decoder.readAll]
    split <;> rename_i hnext <;> rw [hend] at hnext <;> cases hnext
    rw [List.append_nil]
  | cons first _ ih =>
    rw [List.map_cons, Decoder.readAll]
    split <;> rename_i hnext <;> rw [next_encode first] at hnext <;> cases hnext
    rw [ih]
    simp

/-- Records that survive line by line survive as a list. -/
theorem decode_encodeAll {line : Nat} {records : List Record} (h : FaithfulAll 1 records line) :
    decode (encodeAll records) = .ok records := by
  rw [decode, textLines_encodeAll h, readAll_encode h]
  rfl

end Wire

end LoopAsm
