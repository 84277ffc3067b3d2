/-
A character that joins the pending word leads from the language of one mode into that of the next,
by cases on the modes; so whatever grows is in the language of the mode it grows into. The language
of malformed words needs more than the mode: what is pending decides what could still complete it,
and a word is spoiled where nothing could.
-/
import LoopAsm.Proofs.Scan.Lexemes
import LoopAsm.Proofs.Scan.Pending

namespace LoopAsm

open Computability Scan

variable {p : Char → Bool} {c : Char} {u w : List Char} {l l' : Language Char}

/-! ## Languages, one character more -/

namespace Lexicon

theorem concat_mem (hw : w ∈ l) (hc : p c = true) : w ++ [c] ∈ l * one p :=
  Language.append_mem_mul hw ⟨c, rfl, hc⟩

theorem concat_chr_mem (hw : w ∈ l) (c : Char) : w ++ [c] ∈ l * chr c :=
  concat_mem hw (beq_self_eq_true c)

theorem mem_mul_many (hw : w ∈ l) : w ∈ l * (one p)∗ := by
  have h := Language.append_mem_mul hw (Language.nil_mem_kstar (one p))
  rwa [List.append_nil] at h

theorem mem_mul_opt (hw : w ∈ l ∨ w ∈ l * l') : w ∈ l * opt l' := by
  rw [opt, mul_add, mul_one]
  exact hw

theorem concat_mem_many (hw : w ∈ l * (one p)∗) (hc : p c = true) :
    w ++ [c] ∈ l * (one p)∗ := by
  obtain ⟨a, ha, b, hb, rfl⟩ := Language.mem_mul.1 hw
  rw [List.append_assoc]
  refine Language.append_mem_mul ha (mem_many.2 ?_)
  simpa [or_imp, forall_and, hc] using mem_many.1 hb

theorem concat_mem_plus (hw : w ∈ l ∨ w ∈ l * plus (one p)) (hc : p c = true) :
    w ++ [c] ∈ l * plus (one p) := by
  rw [plus, ← mul_assoc] at hw ⊢
  rcases hw with hw | hw
  · exact mem_mul_many (concat_mem hw hc)
  · exact concat_mem_many hw hc

end Lexicon

namespace Scan

open Lexicon

variable {m next : Mode}

theorem spoil_ne_grow (hnext : next ≠ .malformed) : Move.spoil c ≠ .grow next := by
  unfold Move.spoil
  split
  · simp
  · intro h
    cases h
    exact hnext rfl

/-! ## Numbers -/

namespace NumberPart

variable {part : NumberPart}

theorem over_whole (hpart : part ∈ wholes) : Over Char.isDigit part.language := by
  have hzero : Over Char.isDigit (chr '0') := over_chr rfl
  have hdigits : Over Char.isDigit (one Char.isDigit)∗ := over_kstar (over_one fun c => id)
  rcases mem_wholes.1 hpart with rfl | rfl | rfl | rfl
  · exact hzero
  · exact over_mul (over_one fun c hc => isDigit_iff.2 (.inr hc)) hdigits
  · exact over_mul hzero (over_plus (over_one fun c hc => isDigit_of_isOctDigit hc))
  · exact fun w hw => over_mul hzero hdigits w hw.1

theorem mem_mantissas (hpart : part ∈ wholes) (h : w ∈ part.language) : w ∈ mantissas :=
  .inr (mem_plus.2 ⟨(part.leads_language w h).ne_nil rfl, over_whole hpart w h⟩)

/-- A point behind a number that has none. -/
theorem concat_mem_pointed (h : w ∈ zero.language ∨ w ∈ decimal.language) :
    w ++ ['.'] ∈ pointed :=
  .inl (mem_mul_many (concat_chr_mem h '.'))

/-- A wrong digit behind a leading zero. -/
theorem concat_mem_badOctal (h : w ∈ chr '0' * (one Char.isDigit)∗) (hc : c.isDigit = true)
    (hbad : isOctDigit c = false ∨ '8' ∈ w ∨ '9' ∈ w) : w ++ [c] ∈ badOctal.language := by
  refine ⟨concat_mem_many h hc, ?_⟩
  rcases hbad with hbad | hbad
  · rcases eq_eight_or_nine hc hbad with rfl | rfl <;> simp
  · rcases hbad with hbad | hbad <;> simp [hbad]

theorem concat_mem_language (part : NumberPart) (h : w ∈ part.language)
    (hmove : part.move c = .grow next) (hnext : next ≠ .malformed) :
    w ++ [c] ∈ next.language := by
  have hspoil := spoil_ne_grow (c := c) hnext
  cases part with
  | zero =>
    simp only [NumberPart.move] at hmove
    split_ifs at hmove with hoct hdigit hhex hdot hmark <;> cases hmove
    · exact concat_mem_plus (.inl h) hoct
    · exact concat_mem_badOctal (mem_mul_many h) hdigit (.inl (Bool.eq_false_of_not_eq_true hoct))
    · exact concat_mem h (isHexMark_iff.2 hhex)
    · rw [hdot]
      exact concat_mem_pointed (.inl h)
    · exact concat_mem (mem_mantissas (by decide) h) hmark
  | decimal =>
    simp only [NumberPart.move] at hmove
    split_ifs at hmove with hdigit hdot hmark <;> cases hmove
    · exact concat_mem_many h hdigit
    · rw [hdot]
      exact concat_mem_pointed (.inr h)
    · exact concat_mem (mem_mantissas (by decide) h) hmark
  | octal =>
    simp only [NumberPart.move] at hmove
    split_ifs at hmove with hoct hdigit hmark <;> cases hmove
    · exact concat_mem_plus (.inr h) hoct
    · -- The octal digits so far are forgotten: only that they are digits counts from here on.
      obtain ⟨a, ha, b, hb, rfl⟩ := Language.mem_mul.1 h
      have hb : b ∈ (one Char.isDigit)∗ :=
        mem_many.2 fun d hd => isDigit_of_isOctDigit ((mem_plus.1 hb).2 d hd)
      exact concat_mem_badOctal (Language.append_mem_mul ha hb) hdigit
        (.inl (Bool.eq_false_of_not_eq_true hoct))
    · exact concat_mem (mem_mantissas (by decide) h) hmark
  | hexPrefix =>
    simp only [NumberPart.move] at hmove
    split_ifs at hmove with hhex
    · cases hmove
      exact concat_mem_plus (.inl h) hhex
    · exact absurd hmove hspoil
  | hex =>
    simp only [NumberPart.move] at hmove
    split_ifs at hmove with hhex
    · cases hmove
      exact concat_mem_plus (.inr h) hhex
    · cases hmove
  | badOctal =>
    simp only [NumberPart.move] at hmove
    split_ifs at hmove with hdigit hmark
    · cases hmove
      exact concat_mem_badOctal h.1 hdigit (.inr h.2)
    · cases hmove
      exact concat_mem (mem_mantissas (by decide) h) hmark
    · cases hmove
    · exact absurd hmove hspoil
  | dot =>
    simp only [NumberPart.move] at hmove
    split_ifs at hmove with hdigit
    cases hmove
    exact .inr (concat_mem_plus (.inl h) hdigit)
  | fraction =>
    simp only [NumberPart.move] at hmove
    split_ifs at hmove with hdigit hmark <;> cases hmove
    · rcases h with h | h
      · exact .inl (concat_mem_many h hdigit)
      · exact .inr (concat_mem_plus (.inr h) hdigit)
    · exact concat_mem (.inl h) hmark
  | exponent =>
    simp only [NumberPart.move] at hmove
    split_ifs at hmove with hdigit hsign
    · cases hmove
      exact concat_mem_plus (.inl (mem_mul_opt (.inl h))) hdigit
    · cases hmove
      exact concat_mem h (isSign_iff.2 hsign)
    · exact absurd hmove hspoil
  | exponentSign =>
    simp only [NumberPart.move] at hmove
    split_ifs at hmove with hdigit
    · cases hmove
      exact concat_mem_plus (.inl (mem_mul_opt (.inr h))) hdigit
    · exact absurd hmove hspoil
  | exponentDigits =>
    simp only [NumberPart.move] at hmove
    split_ifs at hmove with hdigit <;> cases hmove
    exact concat_mem_plus (.inr h) hdigit

end NumberPart

/-! ## Quoted literals -/

namespace Quote

variable {q : Quote} {part : QuotePart}

/-- One more character of the text of a literal. -/
theorem mem_afterEscape (h : w ∈ q.opened * unit q) : w ∈ q.language q.afterEscape := by
  cases q with
  | string =>
    rw [opened, mul_assoc] at h
    obtain ⟨a, ha, b, hb, rfl⟩ := Language.mem_mul.1 h
    exact Language.append_mem_mul ha (kstar_mul_le_kstar (a := unit .string) hb)
  | character => exact h

theorem mem_of_escapes (h : w ∈ q.opened * chr '\\' * escapes) : w ∈ q.language q.afterEscape := by
  rw [mul_assoc] at h
  obtain ⟨a, ha, b, hb, rfl⟩ := Language.mem_mul.1 h
  exact mem_afterEscape (Language.append_mem_mul ha (.inr hb))

theorem concat_mem_language (q : Quote) (h : w ∈ q.language part)
    (hmove : q.move part c = .grow next) (hnext : next ≠ .malformed) :
    w ++ [c] ∈ next.language := by
  have hspoil := spoil_ne_grow (c := c) hnext
  cases part with
  | body =>
    have hescape (hc : c = '\\') : w ++ [c] ∈ q.language .escape := by
      rw [hc]
      exact concat_chr_mem h '\\'
    have hunit (hraw : isRaw q c = true) : w ++ [c] ∈ q.language q.afterEscape :=
      mem_afterEscape (Language.append_mem_mul h (.inl ⟨c, rfl, hraw⟩))
    cases q with
    | string =>
      simp only [Quote.move] at hmove
      split_ifs at hmove with hbackslash hnewline hquote <;> cases hmove
      · exact hescape hbackslash
      · exact hunit (by simp [isRaw, hbackslash, hnewline, hquote])
    | character =>
      simp only [Quote.move] at hmove
      split_ifs at hmove with hbackslash hnewline <;> cases hmove
      · exact hescape hbackslash
      · exact hunit (by simp [isRaw, hbackslash, hnewline])
  | escape =>
    simp only [Quote.move] at hmove
    split_ifs at hmove with hoct hu hsimple
    · cases hmove
      refine ⟨by decide, ?_⟩
      rw [pow_one]
      exact concat_mem h hoct
    · cases hmove
      refine ⟨by decide, ?_⟩
      rw [pow_zero, mul_one, hu]
      exact concat_chr_mem h 'u'
    · cases hmove
      exact mem_of_escapes (Language.append_mem_mul h (.inl (.inl ⟨c, rfl, hsimple⟩)))
    · exact absurd hmove hspoil
  | octal n =>
    obtain ⟨⟨hn, hle⟩, h⟩ := h
    simp only [Quote.move] at hmove
    split_ifs at hmove with hoct hlast
    · -- The bound on what was counted says that this digit is the third, which ends the escape.
      cases hmove
      obtain rfl : n = 2 := by omega
      obtain ⟨a, ha, b, hb, rfl⟩ := Language.mem_mul.1 h
      rw [List.append_assoc]
      exact mem_of_escapes (Language.append_mem_mul ha (.inr (concat_mem hb hoct)))
    · cases hmove
      refine ⟨by omega, ?_⟩
      rw [pow_succ, ← mul_assoc]
      exact concat_mem h hoct
    · exact absurd hmove hspoil
  | unicode n =>
    obtain ⟨hn, h⟩ := h
    simp only [Quote.move] at hmove
    split_ifs at hmove with hhex hlast
    · cases hmove
      obtain rfl : n = 3 := by omega
      rw [mul_assoc] at h
      obtain ⟨a, ha, b, hb, rfl⟩ := Language.mem_mul.1 h
      have hb : b ++ [c] ∈ chr 'u' * one isHexDigit ^ 4 := by
        rw [pow_succ, ← mul_assoc]
        exact concat_mem hb hhex
      rw [List.append_assoc]
      exact mem_of_escapes (Language.append_mem_mul ha (.inl (.inr hb)))
    · cases hmove
      refine ⟨by omega, ?_⟩
      rw [pow_succ, ← mul_assoc]
      exact concat_mem h hhex
    · exact absurd hmove hspoil
  | closing =>
    cases q with
    | string => exact absurd hmove hspoil
    | character =>
      simp only [Quote.move] at hmove
      split_ifs at hmove
      · cases hmove
      · exact absurd hmove hspoil

end Quote

/-! ## All modes -/

theorem Symbol.concat_spelling (s : Symbol) (hmove : s.move c = .grow next) :
    s.spelling ++ [c] ∈ next.language := by
  cases s <;> simp only [Symbol.move] at hmove <;> split_ifs at hmove <;> cases hmove
  all_goals
    rename_i hc
    rw [hc]
    rfl

theorem concat_mem_start (hmove : start c = .grow next) (hnext : next ≠ .malformed) :
    [c] ∈ next.language := by
  unfold start at hmove
  split at hmove
  · rename_i hc
    cases hmove
    exact mem_mul_many ⟨c, rfl, hc⟩
  split at hmove
  · rename_i hc
    cases hmove
    exact cons_mem_chr.2 ⟨hc, rfl⟩
  split at hmove
  · rename_i hzero hc
    cases hmove
    exact mem_mul_many ⟨c, rfl, (isDigit_iff.1 hc).resolve_left hzero⟩
  split at hmove <;> cases hmove
  all_goals
    simp_all [NumberPart.language, Quote.language, Quote.opened, Symbol.spelling,
      Language.nil_mem_kstar]

/-- Nothing joins a word in a comment. -/
theorem move_comment_ne_grow (hidle : m.idle = true) (hinside : m ≠ .initial) :
    m.move c ≠ .grow next := by
  intro hmove
  obtain ⟨_, hcomment | hcomment⟩ := Scanner.comment_move hidle hinside c <;>
    · rw [hcomment] at hmove
      cases hmove

/-- A character that joins the pending word, and does not spoil it, leads to the language of the
next mode. -/
theorem concat_mem_language (h : w ∈ m.language) (hmove : m.move c = .grow next)
    (hnext : next ≠ .malformed) : w ++ [c] ∈ next.language := by
  cases m with
  | initial =>
    rw [(Language.mem_one w).1 h]
    exact concat_mem_start (Move.take.inj hmove) hnext
  | word =>
    simp only [Mode.move] at hmove
    split_ifs at hmove with hc
    cases hmove
    exact concat_mem_many h hc
  | quoted q part => exact q.concat_mem_language h hmove hnext
  | number part => exact part.concat_mem_language h hmove hnext
  | symbol s =>
    rw [mem_language_symbol.1 h]
    exact s.concat_spelling hmove
  | blockComment star => exact absurd hmove (move_comment_ne_grow rfl (by simp))
  | lineComment => exact absurd hmove (move_comment_ne_grow rfl (by simp))
  | malformed => exact absurd hmove (spoil_ne_grow hnext)

/-! ## Malformed words -/

theorem viable_of_reads (h : Reads w m.residual) (hm : m.Live) : Viable w := by
  obtain ⟨k, v, hv⟩ := exists_mem_residual hm
  exact ⟨k, v, (h k v).1 hv⟩

theorem not_viable_of_reads {r : Category → Language Char} (h : Reads w r) (hr : ∀ k, r k = 0) :
    ¬ Viable w := by
  rintro ⟨k, v, hv⟩
  rw [← h, hr] at hv
  exact Language.notMem_zero v hv

/-- What is pending in a mode shows that something leads there. -/
theorem live_of_mem_language (h : w ∈ m.language) (hm : m ≠ .malformed) : m.Live := by
  refine ⟨hm, ?_⟩
  rintro rfl
  exact Language.notMem_zero w h

/-- What is pending decides what completes the word. -/
theorem reads_of_mem_language (h : w ∈ m.language) (hm : m ≠ .malformed)
    (hmove : m.move c = .grow next) : Reads w m.residual := by
  by_cases hbusy : m.idle = false
  · exact (leads_language hbusy hm w h).reads Reads.initial
  · have hidle : m.idle = true := Bool.eq_true_of_not_eq_false hbusy
    by_cases hinitial : m = .initial
    · subst hinitial
      rw [(Language.mem_one w).1 h]
      exact .initial
    · exact absurd hmove (move_comment_ne_grow hidle hinitial)

/-- A character that spoils the pending word leads to a malformed word. -/
theorem concat_mem_malformed (h : w ∈ m.language) (hmove : m.move c = .grow .malformed) :
    w ++ [c] ∈ Mode.malformed.language := by
  have hstops := move_stops m c
  rw [hmove] at hstops
  obtain ⟨hdelim, hmode⟩ := hstops
  have hstray : isStray c = true := by simp [isStray, hdelim]
  by_cases hm : m = .malformed
  · subst hm
    exact concat_mem_many h hstray
  · have hreads := reads_of_mem_language h hm hmove
    have hstuck : ¬ Viable (w ++ [c]) := by
      refine not_viable_of_reads (hreads.move c) fun k => ?_
      rw [hmove]
      rfl
    exact mem_mul_many
      (.inl ⟨w, c, rfl, viable_of_reads hreads (live_of_mem_language h hm), hreads.not_word hmode,
        hstuck, hstray⟩)

/-- Where no word goes on, the pending word is complete or the character spoils it. -/
theorem move_of_stuck (hreads : Reads u m.residual) (hword : ∀ k : Category, u ∉ k.language)
    (hstuck : ¬ Viable (u ++ [c])) (hc : isStray c = true) : m.move c = .grow .malformed := by
  have hnext := hreads.move c
  have hfits := move_fits m c
  have hstops := move_stops m c
  have hdead {next : Mode} (h : Reads (u ++ [c]) next.residual) : ¬ next.Live :=
    fun hlive => hstuck (viable_of_reads h hlive)
  have honly {k : Category} : ¬ Reads (u ++ [c]) (only k) := by
    intro h
    exact hstuck ⟨k, [], (h k []).1 (mem_only.2 ⟨rfl, rfl⟩)⟩
  have hcomment {ended : Category} {next : Mode} (hidle : next.idle = true) :
      ¬ Reads (u ++ [c]) (commentRest ended next) := by
    intro h
    rcases h.comment with ⟨-, h⟩ | ⟨-, h⟩
    · exact honly h
    · exact hdead h (live_of_idle hidle)
  cases hmove : m.move c with
  | release kind =>
    rw [hmove] at hstops
    obtain ⟨hnewline, hdelim⟩ := hstops
    -- A word that is released is a word of the language, or else a delimiter releases it.
    have hmalformed : kind = .malformed := by
      by_contra hkind
      have hmem := nil_mem_residual.2 ⟨kind, hnewline, hkind, rfl⟩
      exact hword (.ofKind kind) (hreads.mem_iff.2 hmem)
    simp [isStray, hdelim hmalformed] at hc
  | take t =>
    rw [hmove] at hnext hfits
    cases t with
    | grow next =>
      have hspoilt : next = .malformed :=
        of_not_not fun hne => hdead hnext (live_of_grow hmove hne)
      rw [hspoilt]
    | close kind => exact absurd hnext honly
    | drop next => exact absurd hnext (hcomment hfits.2.1)
    | comment next => exact absurd (live_of_idle hfits.2.1) (hdead hnext)
    | newline next => exact absurd hnext (hcomment hfits.2.1)
    | question => exact absurd hnext honly
    | colon => exact absurd hnext honly

/-- How what some word begins with is read: it grows, it is a comment, or it is a word whatever
follows. -/
inductive Begun (u : List Char) : Prop where
  | growing (m : Mode) (reads : Reads u m.residual) (grows : Grows .initial u m)
  | comment (m : Mode) (reads : Reads u m.residual) (idle : m.idle = true) (inside : m ≠ .initial)
  | whole (k : Category) (reads : Reads u (only k))

/-- A character more in a comment. -/
theorem begun_of_comment {ended : Category} (hidle : next.idle = true)
    (h : Reads u (commentRest ended next)) : Begun u := by
  rcases h.comment with ⟨-, h⟩ | ⟨hinside, h⟩
  · exact .whole ended h
  · exact .comment next h hidle hinside

/-- A character more that leaves something to complete. -/
theorem begun_of_move (hreads : Reads u m.residual)
    (hgrows : ∀ next, m.move c = .grow next → Grows .initial u m) (h : Viable (u ++ [c])) :
    Begun (u ++ [c]) := by
  have hnext := hreads.move c
  have hfits := move_fits m c
  cases hmove : m.move c with
  | release kind =>
    rw [hmove] at hnext
    exact absurd h (not_viable_of_reads hnext fun k => rfl)
  | take t =>
    rw [hmove] at hnext hfits
    cases t with
    | grow next =>
      exact .growing next hnext ((hgrows next hmove).append (grows_single hmove))
    | close kind => exact .whole (.ofKind kind) hnext
    | drop next => exact begun_of_comment hfits.2.1 hnext
    | comment next =>
      exact .comment next hnext hfits.2.1 (Scanner.ne_initial_of_comment hmove)
    | newline next => exact begun_of_comment hfits.2.1 hnext
    | question => exact .whole .question hnext
    | colon => exact .whole .colon hnext

theorem begun_of_viable (h : Viable u) : Begun u := by
  -- Along the text, for what some word begins with begins with such a text itself.
  induction u using List.reverseRecOn with
  | nil => exact .growing .initial .initial (.nil _)
  | append_singleton u c ih =>
    obtain ⟨k, v, hv⟩ := h
    rw [List.append_assoc] at hv
    cases ih ⟨k, [c] ++ v, hv⟩ with
    | growing m hreads hgrows =>
      exact begun_of_move hreads (fun _ _ => hgrows) ⟨k, v, by rwa [List.append_assoc]⟩
    | comment m hreads hidle hinside =>
      exact begun_of_move hreads (fun _ hmove => absurd hmove (move_comment_ne_grow hidle hinside))
        ⟨k, v, by rwa [List.append_assoc]⟩
    | whole k' hreads =>
      rw [← hreads] at hv
      cases (mem_only.1 hv).1

theorem grows_of_mem_wrecks (h : w ∈ wrecks) : Grows .initial w .malformed := by
  obtain ⟨u, c, rfl, hviable, hword, hstuck, hc⟩ := h
  cases begun_of_viable hviable with
  | growing m hreads hgrows =>
    exact hgrows.append (grows_single (move_of_stuck hreads hword hstuck hc))
  | comment m hreads hidle hinside =>
    exact absurd (move_of_stuck hreads hword hstuck hc) (move_comment_ne_grow hidle hinside)
  | whole k hreads => exact absurd (hreads.mem_iff.2 (mem_only.2 ⟨rfl, rfl⟩)) (hword k)

/-! ## Exactly the languages -/

/-- What is pending in the middle of a word has grown there, all of it or behind a question mark
out of place. -/
theorem grows_of_mem_language (h : w ∈ m.language) (hbusy : m.idle = false) :
    Grows .initial w m ∨ ∃ v, w = '?' :: v ∧ Grows .malformed v m := by
  by_cases hm : m = .malformed
  · subst hm
    have hstray : Leads .malformed (one isStray)∗ .malformed :=
      leads_many fun c hc => if_neg (by simpa [isStray] using hc)
    obtain ⟨a, ha | ha, b, hb, rfl⟩ := Language.mem_mul.1 h
    · exact .inl ((grows_of_mem_wrecks ha).append (hstray b hb))
    · obtain ⟨c, rfl, hc⟩ := ha
      obtain rfl := beq_iff_eq.1 hc
      exact .inr ⟨b, rfl, hstray b hb⟩
  · exact .inl (leads_language hbusy hm w h)

theorem mem_language_of_idle (hidle : m.idle = true) : w ∈ m.language ↔ w = [] := by
  cases m with
  | initial | blockComment star | lineComment => exact Language.mem_one w
  | _ => cases hidle

theorem nil_not_mem_language (hbusy : m.idle = false) : [] ∉ m.language := by
  intro h
  rcases grows_of_mem_language h hbusy with hgrows | ⟨v, hv, -⟩
  · exact hgrows.ne_nil hbusy rfl
  · cases hv

theorem newline_not_mem_language (h : w ∈ m.language) : '\n' ∉ w := by
  cases hbusy : m.idle with
  | true => simp [(mem_language_of_idle hbusy).1 h]
  | false =>
    rcases grows_of_mem_language h hbusy with hgrows | ⟨v, rfl, hgrows⟩
    · exact hgrows.newline_not_mem
    · simp [hgrows.newline_not_mem]

end Scan

end LoopAsm
