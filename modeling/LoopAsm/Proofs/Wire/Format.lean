/-
Exactly which lines a token stream may have. A form is a line by its parts, and only parts that
fit together make one: the text of a form is a line of the format, and a form names the record
that the line stands for. The reader cuts a line at the first or the last place where a mark
stands, although a mark may also stand inside a lexeme; but no mark shares a character with a
number, so that the cut next to a number is the only one there is. Hence a line is accepted
exactly if it is the text of a form, and of no more than one.
-/
import LoopAsm.Proofs.Wire.Survival
import Mathlib.Data.Option.Basic

namespace LoopAsm

/-! ## Numbers -/

namespace Numeral

/-- A character stands for a digit of the given base; a letter may be of either case. -/
def Digit (base : Nat) (c : Char) (d : Nat) : Prop :=
  d < base ∧ (c = d.digitChar ∨ c = d.digitChar.toUpper)

/-- One or more digits have a value. -/
inductive Digits (base : Nat) : List Char → Nat → Prop
  | one {c : Char} {d : Nat} (h : Digit base c d) : Digits base [c] d
  | more {cs : List Char} {c : Char} {n d : Nat} (front : Digits base cs n)
      (last : Digit base c d) : Digits base (cs ++ [c]) (base * n + d)

/-- A text denotes a number: digits, or digits behind a plus sign. -/
def Denotes (base : Nat) (text : List Char) (n : Nat) : Prop :=
  ∃ digits, (text = digits ∨ text = '+' :: digits) ∧ Digits base digits n

theorem digitValue?_of_digit {c : Char} {d : Nat} (h : Digit 16 c d) : digitValue? c = some d := by
  obtain ⟨hd, hc⟩ := h
  have hupper : ∀ d : Fin 16, digitValue? d.val.digitChar.toUpper = some d.val := by decide
  rcases hc with rfl | rfl
  · exact digitValue?_digitChar hd
  · exact hupper ⟨d, hd⟩

instance (base : Nat) (c : Char) (d : Nat) : Decidable (Digit base c d) :=
  inferInstanceAs (Decidable (_ ∧ _))

/-- All digits are among the first characters, which are few enough to go through. -/
theorem digit_of_digitValue? {c : Char} {d : Nat} (h : digitValue? c = some d) : Digit 16 c d := by
  have hfirst : ∀ n : Fin 128, ∀ d ∈ digitValue? (Char.ofNat n), Digit 16 (Char.ofNat n) d := by
    decide +kernel
  have hc : c.toNat < 128 := by
    unfold digitValue? at h
    split at h
    · rename_i hrange
      exact Nat.lt_of_le_of_lt hrange.2 (by decide)
    · split at h
      · rename_i hrange
        exact Nat.lt_of_le_of_lt hrange.2 (by decide)
      · split at h
        · rename_i hrange
          exact Nat.lt_of_le_of_lt hrange.2 (by decide)
        · cases h
  have hdigit := hfirst ⟨c.toNat, hc⟩
  rw [Char.ofNat_toNat] at hdigit
  exact hdigit d h

section

variable {base : Nat} (h16 : base ≤ 16)

include h16

theorem digit_iff {c : Char} {d : Nat} : Digit base c d ↔ digitValue? c = some d ∧ d < base := by
  constructor
  · rintro ⟨hd, hc⟩
    exact ⟨digitValue?_of_digit ⟨by omega, hc⟩, hd⟩
  · rintro ⟨hvalue, hd⟩
    exact ⟨hd, (digit_of_digitValue? hvalue).2⟩

theorem digit_iff_isDigitOf {c : Char} {d : Nat} :
    Digit base c d ↔ isDigitOf base c = true ∧ (digitValue? c).getD 0 = d := by
  rw [digit_iff h16, isDigitOf]
  cases digitValue? c with
  | none => simp
  | some e =>
    simp only [Option.some.injEq, decide_eq_true_eq, Option.getD_some]
    constructor
    · rintro ⟨rfl, h⟩
      exact ⟨h, rfl⟩
    · rintro ⟨h, rfl⟩
      exact ⟨rfl, h⟩

theorem digits_iff {cs : List Char} {n : Nat} :
    Digits base cs n ↔ cs ≠ [] ∧ (∀ c ∈ cs, isDigitOf base c = true) ∧ value base cs = n := by
  constructor
  · intro h
    induction h with
    | one h =>
      obtain ⟨hdigit, hvalue⟩ := (digit_iff_isDigitOf h16).1 h
      simp [hdigit, value, hvalue]
    | more front last ih =>
      obtain ⟨-, hdigits, rfl⟩ := ih
      obtain ⟨hdigit, rfl⟩ := (digit_iff_isDigitOf h16).1 last
      refine ⟨by simp, ?_, value_append_singleton ..⟩
      intro c hc
      rcases List.mem_append.1 hc with hc | hc
      · exact hdigits c hc
      · rwa [List.mem_singleton.1 hc]
  · rintro ⟨hne, hdigits, rfl⟩
    induction cs using List.reverseRecOn with
    | nil => exact absurd rfl hne
    | append_singleton cs c ih =>
      have hlast : Digit base c ((digitValue? c).getD 0) :=
        (digit_iff_isDigitOf h16).2 ⟨hdigits c (by simp), rfl⟩
      rw [value_append_singleton]
      by_cases hcs : cs = []
      · subst hcs
        simpa [value] using Digits.one hlast
      · exact .more (ih hcs fun c hc => hdigits c (List.mem_append_left _ hc)) hlast

/-- Exactly the numbers below the limit are read. -/
theorem read?_eq_some_iff {limit n : Nat} {text : List Char} :
    read? base limit text = some n ↔ Denotes base text n ∧ n < limit := by
  have hread : read? base limit text = some n ↔ Digits base (dropPlus text) n ∧ n < limit := by
    rw [digits_iff h16, read?]
    simp only [Option.ite_none_right_eq_some, Option.some.injEq, List.all_eq_true]
    constructor
    · rintro ⟨⟨hne, hdigits, hlt⟩, rfl⟩
      exact ⟨⟨hne, hdigits, rfl⟩, hlt⟩
    · rintro ⟨⟨hne, hdigits, rfl⟩, hlt⟩
      exact ⟨⟨hne, hdigits, hlt⟩, rfl⟩
  rw [hread]
  refine and_congr_left fun _ => ⟨fun h => ⟨_, ?_, h⟩, ?_⟩
  · unfold dropPlus
    split
    · exact .inr rfl
    · exact .inl rfl
  · rintro ⟨digits, rfl | rfl, h⟩
    · rwa [dropPlus_of_isDigitOf ((digits_iff h16).1 h).2.1]
    · exact h

theorem Denotes.unique {text : List Char} {m n : Nat} (hm : Denotes base text m)
    (hn : Denotes base text n) : m = n := by
  have hread {k : Nat} (h : Denotes base text k) (hk : k < m + n + 1) :
      read? base (m + n + 1) text = some k := (read?_eq_some_iff h16).2 ⟨h, hk⟩
  exact Option.some.inj ((hread hm (by omega)).symm.trans (hread hn (by omega)))

theorem Denotes.not_mem {text : List Char} {n : Nat} (h : Denotes base text n) {c : Char}
    (hc : isDigitOf base c = false) (hplus : c ≠ '+') : c ∉ text := by
  obtain ⟨digits, htext, hdigits⟩ := h
  have hmem : c ∉ digits := by
    intro hmem
    rw [((digits_iff h16).1 hdigits).2.1 c hmem] at hc
    cases hc
  rcases htext with rfl | rfl
  · exact hmem
  · simp [hplus, hmem]

end

end Numeral

namespace Wire

open Numeral (Denotes counterLimit read?)
open Split (behind? before? atFirst? atLast?)

/-! ## Forms -/

/-- A counter or a line number as it may be written, with or without a sign and leading zeros. -/
structure Count where
  text : List Char
  value : Nat
  denotes : Denotes 10 text value
  bounded : value < 2 ^ 64

/-- A line of the format, by its parts. -/
inductive LineForm where
  /-- The line of a token that is no malformed word. -/
  | token (kind : Kind) (tag body : List Char) (tagged : Denotes 16 tag kind.tag)
      (wellFormed : kind ≠ .malformed) (nonempty : body ≠ [])
  /-- The line of a malformed word, which says where the word is. -/
  | malformed (tag lexeme : List Char) (place : Count)
      (tagged : Denotes 16 tag Kind.malformed.tag) (nonempty : lexeme ≠ [])
  | counter (line words : Count) (plural : Bool)
  | total (words : Count)

/-- What a line counter calls its words, which may be in the plural even if it is one. -/
def unitMark (plural : Bool) : List Char :=
  (if plural then " words" else " word").toList

namespace LineForm

/-- What is written. -/
def text : LineForm → List Char
  | token _ tag body _ _ _ => "0x".toList ++ (tag ++ (['\t'] ++ body))
  | malformed tag lexeme place _ _ =>
    "0x".toList ++ (tag ++ (['\t'] ++ (lexeme ++ (" at line ".toList ++ place.text))))
  | counter line words plural =>
    "line ".toList ++ (line.text ++ (" has ".toList ++ (words.text ++ unitMark plural)))
  | total words => "total ".toList ++ (words.text ++ " words".toList)

/-- What is meant, where a token is expected to be on line `sourceLine`. -/
def record (sourceLine : Nat) : LineForm → Record
  | token kind _ body _ _ _ =>
    .token ⟨kind, String.ofList (if kind = .whitespace then unescape body else body), sourceLine⟩
  | malformed _ lexeme place _ _ => .token ⟨.malformed, String.ofList lexeme, place.value⟩
  | counter line words _ => .line line.value words.value
  | total words => .total words.value

end LineForm

/-! ## Reading numbers -/

theorem read?_counter_iff {text : List Char} {n : Nat} :
    read? 10 counterLimit text = some n ↔ Denotes 10 text n ∧ n < 2 ^ 64 :=
  Numeral.read?_eq_some_iff (by decide)

namespace Count

theorem read?_text (c : Count) : read? 10 counterLimit c.text = some c.value :=
  read?_counter_iff.2 ⟨c.denotes, c.bounded⟩

theorem readCount_text (c : Count) : readCount c.text = .ok c.value := by
  rw [readCount, c.read?_text]
  rfl

theorem exists_of_read? {text : List Char} {n : Nat} (h : read? 10 counterLimit text = some n) :
    ∃ c : Count, c.text = text ∧ c.value = n :=
  ⟨⟨text, n, (read?_counter_iff.1 h).1, (read?_counter_iff.1 h).2⟩, rfl, rfl⟩

theorem blank_not_mem (c : Count) : ' ' ∉ c.text :=
  c.denotes.not_mem (by decide) (by decide) (by decide)

theorem eq_of_text {c c' : Count} (h : c.text = c'.text) : c = c' := by
  obtain ⟨text, value, denotes, bounded⟩ := c
  obtain ⟨text', value', denotes', bounded'⟩ := c'
  cases h
  cases denotes.unique (by decide) denotes'
  rfl

end Count

theorem readKind_eq_ok_iff {text : List Char} {k : Kind} :
    readKind text = .ok k ↔ Denotes 16 text k.tag := by
  have hmin := k.minTag_le_tag
  have hmax := k.tag_le_maxTag
  constructor
  · intro h
    obtain ⟨tag, htag, h⟩ := ok_of_bind h
    obtain ⟨hdenotes, -⟩ := (Numeral.read?_eq_some_iff (by decide)).1 (orFault_eq_ok htag)
    split at h
    · cases h
    · rwa [Kind.ofTag?_eq_some_iff.1 (orFault_eq_ok h)]
  · intro h
    have hlt : k.tag < Numeral.tagLimit := Nat.lt_of_le_of_lt hmax (by decide)
    have hread : read? 16 Numeral.tagLimit text = some k.tag :=
      (Numeral.read?_eq_some_iff (by decide)).2 ⟨h, hlt⟩
    rw [readKind, orFault_bind hread, if_neg (by omega), Kind.ofTag?_tag]
    rfl

/-! ## Every form is read -/

theorem unescape_eq_nil_iff {text : List Char} : unescape text = [] ↔ text = [] := by
  fun_cases unescape text <;> simp

theorem readBody_of_ne_malformed {k : Kind} (hk : k ≠ .malformed) (text : List Char) (line : Nat) :
    readBody k text line =
      .ok ⟨k, String.ofList (if k = .whitespace then unescape text else text), line⟩ := by
  by_cases hw : k = .whitespace
  · subst hw
    rfl
  · rw [readBody_plain hw hk, if_neg hw]

theorem readBody_malformed (lexeme : List Char) (place : Count) (line : Nat) :
    readBody .malformed (lexeme ++ (" at line ".toList ++ place.text)) line =
      .ok ⟨.malformed, String.ofList lexeme, place.value⟩ := by
  have hlast : atLast? placeMark.toList (lexeme ++ (" at line ".toList ++ place.text)) =
      some (lexeme, place.text) := Split.atLast?_append lexeme " at line".toList place.blank_not_mem
  rw [readBody, orFault_bind hlast]
  dsimp only
  rw [orFault_bind place.read?_text]
  rfl

theorem decodeLine_tag {tag : List Char} {k : Kind} (h : Denotes 16 tag k.tag) (text : List Char)
    (line : Nat) : decodeLine ("0x".toList ++ (tag ++ (['\t'] ++ text))) line = do
      let token ← readBody k text line
      if token.lexeme = "" then throw .emptyLexeme
      return .token token := by
  have hfront := Split.behind?_eq_some_iff.2
    (rfl : "0x".toList ++ (tag ++ (['\t'] ++ text)) = "0x".toList ++ _)
  have htab := Split.atFirst?_append [] text
    (h.not_mem (c := '\t') (by decide) (by decide) (by decide))
  rw [decodeLine, hfront]
  dsimp only
  rw [decodeToken, orFault_bind htab]
  dsimp only
  rw [readKind_eq_ok_iff.2 h]
  rfl

theorem before?_unitMark (plural : Bool) (digits : List Char) :
    (before? " words".toList (digits ++ unitMark plural) <|>
      before? " word".toList (digits ++ unitMark plural)) = some digits := by
  cases plural with
  | true => exact before?_unit 0 digits
  | false => exact before?_unit 1 digits

theorem counterParts?_text (line words : Count) (plural : Bool) :
    counterParts? (line.text ++ (" has ".toList ++ (words.text ++ unitMark plural))) =
      some (line.text, words.text) := by
  have hmiddle : atFirst? " has ".toList (line.text ++ (" has ".toList ++ (words.text
      ++ unitMark plural))) = some (line.text, words.text ++ unitMark plural) :=
    Split.atFirst?_append "has ".toList _ line.blank_not_mem
  rw [counterParts?, hmiddle, Option.bind_eq_bind, Option.bind_some]
  dsimp only
  rw [before?_unitMark]
  rfl

/-- Every form is read as what it means. -/
theorem decodeLine_text (form : LineForm) (sourceLine : Nat) :
    decodeLine form.text sourceLine = .ok (form.record sourceLine) := by
  cases form with
  | token kind tag body tagged hk hbody =>
    change decodeLine ("0x".toList ++ (tag ++ (['\t'] ++ body))) sourceLine = _
    rw [decodeLine_tag tagged, readBody_of_ne_malformed hk]
    refine if_neg ?_
    split <;> simp [unescape_eq_nil_iff, hbody]
  | malformed tag lexeme place tagged hlexeme =>
    change decodeLine ("0x".toList ++ (tag ++ (['\t'] ++ (lexeme ++ (" at line ".toList
      ++ place.text))))) sourceLine = _
    rw [decodeLine_tag tagged, readBody_malformed]
    exact if_neg (by simpa using hlexeme)
  | counter line words plural =>
    have htext : (LineForm.counter line words plural).text = "line ".toList ++ (line.text
        ++ (" has ".toList ++ (words.text ++ unitMark plural))) := rfl
    have htoken : behind? "0x".toList (LineForm.counter line words plural).text = none := rfl
    rw [decodeLine, htoken, Split.behind?_eq_some_iff.2 htext]
    dsimp only
    rw [orFault_bind (counterParts?_text line words plural)]
    dsimp only
    rw [line.readCount_text, words.readCount_text]
    rfl
  | total words =>
    have htext : (LineForm.total words).text = "total ".toList ++ (words.text
        ++ " words".toList) := rfl
    have htoken : behind? "0x".toList (LineForm.total words).text = none := rfl
    have hline : behind? "line ".toList (LineForm.total words).text = none := rfl
    have hparts : (behind? "total ".toList (LineForm.total words).text).bind
        (before? " words".toList) = some words.text := by
      rw [Split.behind?_eq_some_iff.2 htext]
      exact Split.before?_eq_some_iff.2 rfl
    rw [decodeLine, htoken, hline]
    dsimp only
    rw [orFault_bind hparts, words.readCount_text]
    rfl

/-! ## Nothing else is read -/

theorem exists_form_of_decodeToken {text : List Char} {sourceLine : Nat} {r : Record}
    (h : decodeToken text sourceLine = .ok r) :
    ∃ form : LineForm, form.text = "0x".toList ++ text ∧ form.record sourceLine = r := by
  obtain ⟨⟨tag, body⟩, htab, h⟩ := ok_of_bind h
  have htext := Split.eq_append_of_atFirst? (orFault_eq_ok htab)
  obtain ⟨k, hkind, h⟩ := ok_of_bind h
  have htag : Denotes 16 tag k.tag := readKind_eq_ok_iff.1 hkind
  obtain ⟨t, hbody, h⟩ := ok_of_bind h
  split at h
  · cases h
  rename_i hempty
  cases h
  rw [htext, List.append_assoc]
  by_cases hk : k = .malformed
  · subst hk
    obtain ⟨⟨lexeme, place⟩, hlast, hbody⟩ := ok_of_bind hbody
    have hplace := Split.eq_append_of_atLast? (orFault_eq_ok hlast)
    obtain ⟨n, hn, hbody⟩ := ok_of_bind hbody
    obtain ⟨c, rfl, rfl⟩ := Count.exists_of_read? (orFault_eq_ok hn)
    cases hbody
    refine ⟨.malformed tag lexeme c htag (by simpa using hempty), ?_, rfl⟩
    rw [hplace, List.append_assoc]
    rfl
  · rw [readBody_of_ne_malformed hk] at hbody
    cases hbody
    have hne : body ≠ [] := by
      rintro rfl
      simp [unescape] at hempty
    exact ⟨.token k tag body htag hk hne, rfl, rfl⟩

theorem append_of_counterParts? {text first second : List Char}
    (h : counterParts? text = some (first, second)) :
    ∃ plural, text = first ++ (" has ".toList ++ (second ++ unitMark plural)) := by
  rw [counterParts?, Option.bind_eq_bind, Option.bind_eq_some_iff] at h
  obtain ⟨⟨first', rest⟩, hmiddle, h⟩ := h
  obtain ⟨second', hwords, h⟩ := Option.bind_eq_some_iff.1 h
  cases h
  rw [Split.eq_append_of_atFirst? hmiddle, List.append_assoc]
  rcases (Option.orElse_eq_some ..).1 hwords with hmany | ⟨-, hone⟩
  · exact ⟨true, by rw [Split.before?_eq_some_iff.1 hmany]; rfl⟩
  · exact ⟨false, by rw [Split.before?_eq_some_iff.1 hone]; rfl⟩

/-- What is read is a form and what it means. -/
theorem exists_form_of_decodeLine {text : List Char} {sourceLine : Nat} {r : Record}
    (h : decodeLine text sourceLine = .ok r) :
    ∃ form : LineForm, form.text = text ∧ form.record sourceLine = r := by
  unfold decodeLine at h
  split at h
  · rename_i hfront
    rw [Split.behind?_eq_some_iff.1 hfront]
    exact exists_form_of_decodeToken h
  · split at h
    · rename_i hfront
      obtain ⟨⟨first, second⟩, hparts, h⟩ := ok_of_bind h
      obtain ⟨n, hn, h⟩ := ok_of_bind h
      obtain ⟨words, hwords, h⟩ := ok_of_bind h
      obtain ⟨plural, hrest⟩ := append_of_counterParts? (orFault_eq_ok hparts)
      obtain ⟨c, rfl, rfl⟩ := Count.exists_of_read? (orFault_eq_ok hn)
      obtain ⟨c', rfl, rfl⟩ := Count.exists_of_read? (orFault_eq_ok hwords)
      cases h
      exact ⟨.counter c c' plural, by rw [Split.behind?_eq_some_iff.1 hfront, hrest]; rfl, rfl⟩
    · obtain ⟨count, hparts, h⟩ := ok_of_bind h
      obtain ⟨words, hwords, h⟩ := ok_of_bind h
      obtain ⟨rest, hfront, hback⟩ := Option.bind_eq_some_iff.1 (orFault_eq_ok hparts)
      obtain ⟨c, rfl, rfl⟩ := Count.exists_of_read? (orFault_eq_ok hwords)
      cases h
      refine ⟨.total c, ?_, rfl⟩
      rw [Split.behind?_eq_some_iff.1 hfront, Split.before?_eq_some_iff.1 hback]
      rfl

/-! ## One form for a line -/

theorem tag_inj {tag tag' body body' : List Char} {n n' : Nat} (h : Denotes 16 tag n)
    (h' : Denotes 16 tag' n')
    (heq : "0x".toList ++ (tag ++ (['\t'] ++ body)) = "0x".toList ++ (tag' ++ (['\t'] ++ body'))) :
    tag = tag' ∧ body = body' := by
  have hcut {tag body : List Char} {n : Nat} (h : Denotes 16 tag n) :
      atFirst? ['\t'] (tag ++ (['\t'] ++ body)) = some (tag, body) :=
    Split.atFirst?_append [] body (h.not_mem (by decide) (by decide) (by decide))
  have hparts := (hcut h).symm.trans (List.append_cancel_left heq ▸ hcut h')
  simpa using hparts

theorem place_inj {lexeme lexeme' : List Char} {place place' : Count}
    (h : lexeme ++ (" at line ".toList ++ place.text) =
      lexeme' ++ (" at line ".toList ++ place'.text)) : lexeme = lexeme' ∧ place = place' := by
  have hcut (lexeme : List Char) (place : Count) :
      atLast? " at line ".toList (lexeme ++ (" at line ".toList ++ place.text)) =
        some (lexeme, place.text) :=
    Split.atLast?_append lexeme " at line".toList place.blank_not_mem
  have hparts := (hcut lexeme place).symm.trans (h ▸ hcut lexeme' place')
  simp only [Option.some.injEq, Prod.mk.injEq] at hparts
  exact ⟨hparts.1, Count.eq_of_text hparts.2⟩

theorem unitMark_injective : ∀ {plural plural' : Bool},
    unitMark plural = unitMark plural' → plural = plural' := by
  decide

theorem counter_inj {line line' words words' : Count} {plural plural' : Bool}
    (h : line.text ++ (" has ".toList ++ (words.text ++ unitMark plural)) =
      line'.text ++ (" has ".toList ++ (words'.text ++ unitMark plural'))) :
    line = line' ∧ words = words' ∧ plural = plural' := by
  have hparts := (counterParts?_text line words plural).symm.trans
    (h ▸ counterParts?_text line' words' plural')
  simp only [Option.some.injEq, Prod.mk.injEq] at hparts
  obtain rfl := Count.eq_of_text hparts.1
  obtain rfl := Count.eq_of_text hparts.2
  have hmark : unitMark plural = unitMark plural' := by simpa using h
  exact ⟨rfl, rfl, unitMark_injective hmark⟩

/-- A line has one form at most. -/
theorem text_injective {form form' : LineForm} (h : form.text = form'.text) : form = form' := by
  -- The records agree, and so the forms are of one sort; it remains to find the cuts.
  have hrecord : form.record 0 = form'.record 0 := by
    have hread := decodeLine_text form 0
    rw [h, decodeLine_text form' 0] at hread
    exact (Except.ok.inj hread).symm
  cases form with
  | token kind tag body tagged hk hbody =>
    cases form' with
    | token kind' tag' body' tagged' hk' hbody' =>
      obtain ⟨rfl, rfl⟩ := tag_inj tagged tagged' h
      obtain rfl := Kind.tag_injective (tagged.unique (by decide) tagged')
      rfl
    | malformed => exact absurd (Token.mk.inj (Record.token.inj hrecord)).1 hk
    | counter => cases hrecord
    | total => cases hrecord
  | malformed tag lexeme place tagged hlexeme =>
    cases form' with
    | token kind' tag' body' tagged' hk' =>
      exact absurd (Token.mk.inj (Record.token.inj hrecord)).1.symm hk'
    | malformed tag' lexeme' place' tagged' =>
      obtain ⟨rfl, hbody⟩ := tag_inj tagged tagged' h
      obtain ⟨rfl, rfl⟩ := place_inj hbody
      rfl
    | counter => cases hrecord
    | total => cases hrecord
  | counter line words plural =>
    cases form' with
    | counter line' words' plural' =>
      obtain ⟨rfl, rfl, rfl⟩ := counter_inj (List.append_cancel_left h)
      rfl
    | token => cases hrecord
    | malformed => cases hrecord
    | total => cases hrecord
  | total words =>
    cases form' with
    | total words' =>
      have hwords : words.text = words'.text :=
        List.append_cancel_right (List.append_cancel_left h)
      rw [Count.eq_of_text hwords]
    | token => cases hrecord
    | malformed => cases hrecord
    | counter => cases hrecord

/-! ## The format -/

theorem decodeAt_eq_ok_iff {text : List Char} {lineNo sourceLine : Nat} {r : Record} :
    decodeAt text lineNo sourceLine = .ok r ↔ decodeLine text sourceLine = .ok r := by
  unfold decodeAt
  cases decodeLine text sourceLine <;> simp [Except.mapError]

theorem decodeAt_of_error {text : List Char} {sourceLine : Nat} {fault : LineFault}
    (h : decodeLine text sourceLine = .error fault) (lineNo : Nat) :
    decodeAt text lineNo sourceLine = .error (.format lineNo fault) := by
  rw [decodeAt, h]
  rfl

/-- Exactly the lines of the format are read, wherever they are in the stream and whatever the line
of a token: a line is accepted if it is the text of a form, as the record that the form names, and
it is then the text of no other form; any other line is a format error with the number of the
line. -/
theorem decodeAt_iff_form (text : List Char) (lineNo sourceLine : Nat) :
    (∀ r, decodeAt text lineNo sourceLine = .ok r ↔
      ∃ form : LineForm, form.text = text ∧ form.record sourceLine = r) ∧
    (∀ form form' : LineForm, form.text = text → form'.text = text → form = form') ∧
    ((¬ ∃ form : LineForm, form.text = text) →
      ∃ fault, decodeAt text lineNo sourceLine = .error (.format lineNo fault)) := by
  refine ⟨fun r => ?_, fun form form' h h' => text_injective (h.trans h'.symm), fun hnone => ?_⟩
  · rw [decodeAt_eq_ok_iff]
    constructor
    · exact exists_form_of_decodeLine
    · rintro ⟨form, rfl, rfl⟩
      exact decodeLine_text form sourceLine
  · cases hread : decodeLine text sourceLine with
    | ok r =>
      obtain ⟨form, htext, -⟩ := exists_form_of_decodeLine hread
      exact absurd ⟨form, htext⟩ hnone
    | error fault => exact ⟨fault, decodeAt_of_error hread lineNo⟩

-- The mark inside a malformed word is passed over; a number may have a sign and leading zeros.
example : decodeAt "0x+0101\t at line 3 at line +07".toList 5 2 =
    .ok (.token ⟨.malformed, " at line 3", 7⟩) := by
  decide +kernel

example : decodeAt "line 3 has 4 has 5 words".toList 5 2 =
    .error (.format 5 (.invalidCount "4 has 5")) := by
  decide +kernel

end Wire

end LoopAsm
