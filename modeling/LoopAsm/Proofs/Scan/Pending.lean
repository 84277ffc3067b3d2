/-
What can be pending in each mode, as a language: the beginnings of words that lead there from
between two words. A text grows if each of its characters joins the pending word; every text of a
language grows into its mode, so no language is larger than it has to be. Malformed words are
described by the words of the language alone: they are spoiled by the first character that no word
goes on with.
-/
import LoopAsm.Proofs.Scan.Pieces

namespace LoopAsm

open Computability Scan

variable {p : Char → Bool} {c : Char} {u v w : List Char} {l l' : Language Char}

namespace Lexicon

theorem mem_many : w ∈ (one p)∗ ↔ ∀ c ∈ w, p c = true := by
  induction w with
  | nil => simp [Language.nil_mem_kstar]
  | cons c w ih => rw [cons_mem_many, ih, List.forall_mem_cons]

theorem mem_plus : w ∈ plus (one p) ↔ w ≠ [] ∧ ∀ c ∈ w, p c = true := by
  cases w with
  | nil => simp [plus]
  | cons c w => simp [plus, mem_many]

end Lexicon

namespace Scan

open Lexicon

/-! ## What is pending -/

/-- The digits of a float in front of its exponent. -/
def mantissas : Language Char :=
  pointed + plus (one Char.isDigit)

/-- What a number looks like as far as it is read. -/
def NumberPart.language : NumberPart → Language Char
  | zero => chr '0'
  | decimal => one isNonzero * (one Char.isDigit)∗
  | octal => chr '0' * plus (one isOctDigit)
  | hexPrefix => chr '0' * one isHexMark
  | hex => chr '0' * one isHexMark * plus (one isHexDigit)
  | badOctal => {w | w ∈ chr '0' * (one Char.isDigit)∗ ∧ ('8' ∈ w ∨ '9' ∈ w)}
  | dot => chr '.'
  | fraction => pointed
  | exponent => mantissas * one isExponentMark
  | exponentSign => mantissas * one isExponentMark * one isSign
  | exponentDigits => mantissas * one isExponentMark * opt (one isSign) * plus (one Char.isDigit)

/-- A quoted literal up to where a character of its text may begin. -/
def Quote.opened : Quote → Language Char
  | string => chr '"' * (unit .string)∗
  | character => chr '\''

/-- What a quoted literal looks like as far as it is read. A string may close wherever a character
may begin, so it never waits for its closing quote alone; an escape of digits ends with its last
one. -/
def Quote.language (q : Quote) : QuotePart → Language Char
  | .body => q.opened
  | .escape => q.opened * chr '\\'
  | .octal n => {w | (1 ≤ n ∧ n ≤ 2) ∧ w ∈ q.opened * chr '\\' * one isOctDigit ^ n}
  | .unicode n => {w | n ≤ 3 ∧ w ∈ q.opened * chr '\\' * chr 'u' * one isHexDigit ^ n}
  | .closing =>
    match q with
    | string => 0
    | character => q.opened * unit q

/-- The operator characters read so far. -/
def Symbol.spelling : Symbol → List Char
  | plus => ['+']
  | minus => ['-']
  | star => ['*']
  | percent => ['%']
  | slash => ['/']
  | amp => ['&']
  | pipe => ['|']
  | caret => ['^']
  | bang => ['!']
  | less => ['<']
  | shl => ['<', '<']
  | greater => ['>']
  | shr => ['>', '>']
  | ushr => ['>', '>', '>']
  | eq => ['=']

/-- What some word begins with, but is none, and a character behind it that no word goes on with and
that is no delimiter. -/
def wrecks : Language Char :=
  {w | ∃ u c, w = u ++ [c] ∧ Viable u ∧ (∀ k : Category, u ∉ k.language) ∧ ¬ Viable w ∧
    isStray c = true}

/-- What can be pending in a mode. A question mark is malformed if another one waits for its
colon. -/
def Mode.language : Mode → Language Char
  | initial | blockComment _ | lineComment => 1
  | word => words
  | quoted q part => q.language part
  | number part => part.language
  | symbol s => {s.spelling}
  | malformed => (wrecks + chr '?') * (one isStray)∗

@[simp] theorem language_number (part : NumberPart) :
    (Mode.number part).language = part.language := rfl

@[simp] theorem language_quoted (q : Quote) (part : QuotePart) :
    (Mode.quoted q part).language = q.language part := rfl

@[simp] theorem mem_language_symbol {s : Symbol} :
    w ∈ (Mode.symbol s).language ↔ w = s.spelling := Iff.rfl

/-! ## Words that grow -/

variable {m m' m'' next : Mode}

/-- Each character of a text joins the pending word, which leads from one mode to another. -/
inductive Grows : Mode → List Char → Mode → Prop where
  | nil (m : Mode) : Grows m [] m
  | cons {m next m' : Mode} {c : Char} {w : List Char} (h : m.move c = .grow next)
      (more : Grows next w m') : Grows m (c :: w) m'

theorem grows_single (h : m.move c = .grow next) : Grows m [c] next :=
  .cons h (.nil next)

theorem Grows.append (h : Grows m w m') (h' : Grows m' v m'') : Grows m (w ++ v) m'' := by
  induction h with
  | nil m => exact h'
  | cons hmove more ih => exact .cons hmove (ih h')

/-- Something is pending in the middle of a word. -/
theorem Grows.ne_nil (h : Grows .initial w m) (hbusy : m.idle = false) : w ≠ [] := by
  rintro rfl
  cases h
  cases hbusy

/-- No newline joins a word. -/
theorem Grows.newline_not_mem (h : Grows m w m') : '\n' ∉ w := by
  induction h with
  | nil m => simp
  | @cons m next m' c w hmove more ih =>
    have hfits := move_fits m c
    rw [hmove] at hfits
    simp [ih, hfits.1.symm]

/-- What completes the words in the mode is what completes the words behind the text. -/
theorem Grows.reads (h : Grows m w m') (hu : Reads u m.residual) :
    Reads (u ++ w) m'.residual := by
  induction h generalizing u with
  | nil m => rwa [List.append_nil]
  | @cons m next m' c w hmove more ih =>
    have hreads := hu.move c
    rw [hmove] at hreads
    have hmore := ih hreads
    rwa [List.append_assoc] at hmore

/-- The texts of a language grow from one mode into another. -/
def Leads (m : Mode) (l : Language Char) (m' : Mode) : Prop :=
  ∀ w ∈ l, Grows m w m'

theorem leads_one (h : ∀ c, p c = true → m.move c = .grow m') : Leads m (one p) m' := by
  rintro _ ⟨c, rfl, hc⟩
  exact grows_single (h c hc)

theorem leads_chr (h : m.move c = .grow m') : Leads m (chr c) m' := by
  refine leads_one fun d hd => ?_
  rwa [beq_iff_eq.1 hd]

theorem Leads.mul (h : Leads m l m') (h' : Leads m' l' m'') : Leads m (l * l') m'' := by
  intro w hw
  obtain ⟨a, ha, b, hb, rfl⟩ := Language.mem_mul.1 hw
  exact (h a ha).append (h' b hb)

theorem Leads.add (h : Leads m l m') (h' : Leads m l' m') : Leads m (l + l') m' := by
  rintro w (hw | hw)
  · exact h w hw
  · exact h' w hw

theorem Leads.kstar (h : Leads m l m) : Leads m l∗ m := by
  intro w hw
  obtain ⟨pieces, rfl, hpieces⟩ := Language.mem_kstar.1 hw
  clear hw
  induction pieces with
  | nil => exact .nil m
  | cons piece pieces ih =>
    obtain ⟨hpiece, hrest⟩ := List.forall_mem_cons.1 hpieces
    exact (h piece hpiece).append (ih hrest)

theorem leads_many (h : ∀ c, p c = true → m.move c = .grow m) : Leads m (one p)∗ m :=
  (leads_one h).kstar

theorem leads_plus (h : ∀ c, p c = true → m.move c = .grow m')
    (h' : ∀ c, p c = true → m'.move c = .grow m') : Leads m (plus (one p)) m' :=
  (leads_one h).mul (leads_many h')

/-! ## Numbers are read to their ends -/

namespace NumberPart

theorem eq_eight_or_nine (hc : c.isDigit = true) (hoct : isOctDigit c = false) :
    c = '8' ∨ c = '9' := by
  simp only [Char.isDigit, Bool.and_eq_true, decide_eq_true_eq] at hc
  simp only [isOctDigit, Bool.and_eq_false_iff, decide_eq_false_iff_not] at hoct
  have hge : 48 ≤ c.val.toNat := hc.1
  have hle : c.val.toNat ≤ 57 := hc.2
  have hoct : ¬ 48 ≤ c.val.toNat ∨ ¬ c.val.toNat ≤ 55 := hoct
  have hval : c.val.toNat = 56 ∨ c.val.toNat = 57 := by omega
  rcases hval with h | h
  · exact .inl (Char.ext (UInt32.toNat_inj.1 h))
  · exact .inr (Char.ext (UInt32.toNat_inj.1 h))

theorem leads_badOctal : Leads (.number badOctal) (one Char.isDigit)∗ (.number badOctal) :=
  leads_many fun c hc => by simp [Mode.move, NumberPart.move, hc]

/-- A wrong digit behind a leading zero. -/
theorem grows_badOctal {part : NumberPart} (hpart : part = zero ∨ part = octal)
    (hw : ∀ c ∈ w, c.isDigit = true) (hbad : '8' ∈ w ∨ '9' ∈ w) :
    Grows (.number part) w (.number badOctal) := by
  induction w generalizing part with
  | nil => simp at hbad
  | cons c w ih =>
    obtain ⟨hc, hw⟩ := List.forall_mem_cons.1 hw
    cases hoct : isOctDigit c with
    | true =>
      have hmove : part.move c = .grow (.number octal) := by
        rcases hpart with rfl | rfl <;> simp [NumberPart.move, hoct]
      refine .cons hmove (ih (.inr rfl) hw ?_)
      -- This digit is not the wrong one, so the wrong one is still to come.
      have hne (d : Char) (hd : isOctDigit d = false) : d ≠ c := by
        rintro rfl
        rw [hoct] at hd
        cases hd
      simpa [hne '8' rfl, hne '9' rfl] using hbad
    | false =>
      have hmove : part.move c = .grow (.number badOctal) := by
        rcases hpart with rfl | rfl <;> simp [NumberPart.move, hoct, hc]
      exact .cons hmove (leads_badOctal w (mem_many.2 hw))

theorem leads_zero : Leads .initial (chr '0') (.number zero) :=
  leads_chr rfl

theorem leads_decimal : Leads .initial (one isNonzero * (one Char.isDigit)∗) (.number decimal) := by
  refine (leads_one fun c hc => ?_).mul (leads_many fun c hc => ?_)
  · exact congrArg Move.take (start_nonzero hc)
  · simp [Mode.move, NumberPart.move, hc]

theorem leads_fraction : Leads .initial pointed (.number fraction) := by
  have hdigit : ∀ c : Char, c.isDigit = true →
      (Mode.number fraction).move c = .grow (.number fraction) := by
    intro c hc
    simp [Mode.move, NumberPart.move, hc]
  have hwhole : Leads .initial ((chr '0' + one isNonzero * (one Char.isDigit)∗) * chr '.')
      (.number fraction) := by
    rw [add_mul]
    exact .add (leads_zero.mul (leads_chr rfl)) (leads_decimal.mul (leads_chr rfl))
  have hdot : Leads (.number dot) (plus (one Char.isDigit)) (.number fraction) :=
    leads_plus (fun c hc => by simp [Mode.move, NumberPart.move, hc]) hdigit
  exact .add (hwhole.mul (leads_many hdigit)) ((leads_chr rfl).mul hdot)

theorem leads_octal : Leads .initial (chr '0' * plus (one isOctDigit)) (.number octal) := by
  refine leads_zero.mul (leads_plus ?_ ?_) <;>
    · intro c hc
      simp [Mode.move, NumberPart.move, hc]

theorem grows_of_mem_badOctal (hw : w ∈ badOctal.language) :
    Grows .initial w (.number badOctal) := by
  obtain ⟨hdigits, hbad⟩ := hw
  obtain ⟨_, ⟨c, rfl, hc⟩, v, hv, rfl⟩ := Language.mem_mul.1 hdigits
  obtain rfl := beq_iff_eq.1 hc
  refine .cons rfl (grows_badOctal (.inl rfl) (mem_many.1 hv) ?_)
  simpa using hbad

/-- How far a number can be read that is digits and nothing else. -/
def wholes : List NumberPart :=
  [zero, decimal, octal, badOctal]

theorem mem_wholes {part : NumberPart} :
    part ∈ wholes ↔ part = zero ∨ part = decimal ∨ part = octal ∨ part = badOctal := by
  simp [wholes]

/-- Digits are such a number, whether they begin with a zero or not. -/
theorem exists_whole (h : w ∈ plus (one Char.isDigit)) : ∃ part ∈ wholes, w ∈ part.language := by
  obtain ⟨hne, hdigits⟩ := mem_plus.1 h
  cases w with
  | nil => exact absurd rfl hne
  | cons d w =>
    obtain ⟨hd, hw⟩ := List.forall_mem_cons.1 hdigits
    rcases isDigit_iff.1 hd with rfl | hd
    · by_cases hnil : w = []
      · subst hnil
        exact ⟨zero, by decide, cons_mem_chr.2 ⟨rfl, rfl⟩⟩
      · by_cases hoct : ∀ c ∈ w, isOctDigit c = true
        · exact ⟨octal, by decide, cons_mem_chr_mul.2 ⟨rfl, mem_plus.2 ⟨hnil, hoct⟩⟩⟩
        · refine ⟨badOctal, by decide, cons_mem_chr_mul.2 ⟨rfl, mem_many.2 hw⟩, ?_⟩
          push Not at hoct
          obtain ⟨c, hc, hbad⟩ := hoct
          rcases eq_eight_or_nine (hw c hc) (Bool.eq_false_of_not_eq_true hbad) with rfl | rfl
          · exact .inl (List.mem_cons_of_mem _ hc)
          · exact .inr (List.mem_cons_of_mem _ hc)
    · exact ⟨decimal, by decide, cons_mem_one_mul.2 ⟨hd, mem_many.2 hw⟩⟩

theorem leads_whole {part : NumberPart} (hpart : part ∈ wholes) :
    Leads .initial part.language (.number part) := by
  rcases mem_wholes.1 hpart with rfl | rfl | rfl | rfl
  · exact leads_zero
  · exact leads_decimal
  · exact leads_octal
  · exact fun w => grows_of_mem_badOctal

/-- An exponent may follow digits, with or without a point among them. -/
theorem leads_exponentMark {part : NumberPart} (hpart : part = fraction ∨ part ∈ wholes) :
    Leads (.number part) (one isExponentMark) (.number exponent) := by
  refine leads_one fun c hc => ?_
  show part.move c = .grow (.number exponent)
  rw [mem_wholes] at hpart
  rcases hpart with rfl | rfl | rfl | rfl | rfl <;> grind [NumberPart.move]

theorem leads_exponent : Leads .initial exponent.language (.number exponent) := by
  intro w hw
  obtain ⟨a, ha | ha, b, hb, rfl⟩ := Language.mem_mul.1 hw
  · exact (leads_fraction a ha).append (leads_exponentMark (.inl rfl) b hb)
  · obtain ⟨part, hpart, ha⟩ := exists_whole ha
    exact (leads_whole hpart a ha).append (leads_exponentMark (.inr hpart) b hb)

/-- Every number of a language leads to its part. -/
theorem leads_language (part : NumberPart) : Leads .initial part.language (.number part) := by
  have hmarked : Leads .initial (chr '0' * one isHexMark) (.number hexPrefix) :=
    leads_zero.mul (leads_one fun c hc => by
      rcases isHexMark_iff.1 hc with rfl | rfl <;> rfl)
  have hsign : Leads (.number exponent) (one isSign) (.number exponentSign) :=
    leads_one fun c hc => by
      rcases isSign_iff.1 hc with rfl | rfl <;> rfl
  have hdigits {part : NumberPart} (hpart : part = exponent ∨ part = exponentSign) :
      Leads (.number part) (plus (one Char.isDigit)) (.number exponentDigits) := by
    refine leads_plus (fun c hc => ?_) (fun c hc => ?_)
    · rcases hpart with rfl | rfl <;> simp [Mode.move, NumberPart.move, hc]
    · simp [Mode.move, NumberPart.move, hc]
  cases part with
  | zero | decimal | octal | badOctal => exact leads_whole (by decide)
  | hexPrefix => exact hmarked
  | hex =>
    refine hmarked.mul (leads_plus ?_ ?_) <;>
      · intro c hc
        simp [Mode.move, NumberPart.move, hc]
  | dot => exact leads_chr rfl
  | fraction => exact leads_fraction
  | exponent => exact leads_exponent
  | exponentSign => exact leads_exponent.mul hsign
  | exponentDigits =>
    have hplain := leads_exponent.mul (hdigits (.inl rfl))
    have hsigned := (leads_exponent.mul hsign).mul (hdigits (.inr rfl))
    rw [NumberPart.language, opt, mul_add, mul_one, add_mul]
    exact hplain.add hsigned

end NumberPart

/-! ## Quoted literals are read to their ends -/

namespace Quote

variable {q : Quote} {n : Nat}

/-- An escape of digits, up to one that is not its last. -/
theorem leads_digits (part : Nat → QuotePart) {last : Nat}
    (hpart : ∀ k < last, ∀ c, p c = true → q.move (part k) c = .grow (.quoted q (part (k + 1))))
    (hn : n ≤ last) : Leads (.quoted q (part 0)) (one p ^ n) (.quoted q (part n)) := by
  induction n with
  | zero =>
    intro w hw
    rw [(Language.mem_one w).1 hw]
    exact .nil _
  | succ n ih =>
    rw [pow_succ]
    exact (ih (by omega)).mul (leads_one (hpart n (by omega)))

/-- How far an escape is read behind some octal digits. -/
def octalPart : Nat → QuotePart
  | 0 => .escape
  | n + 1 => .octal (n + 1)

theorem leads_octal (hn : n ≤ 2) :
    Leads (.quoted q .escape) (one isOctDigit ^ n) (.quoted q (octalPart n)) := by
  refine leads_digits octalPart (fun k hk c hc => ?_) hn
  match k, hk with
  | 0, _ => simp [octalPart, Quote.move, hc]
  | 1, _ => simp [octalPart, Quote.move, hc]

theorem leads_unicode (hn : n ≤ 3) :
    Leads (.quoted q (.unicode 0)) (one isHexDigit ^ n) (.quoted q (.unicode n)) := by
  refine leads_digits .unicode (fun k hk c hc => ?_) hn
  simp [Quote.move, hc, Nat.not_le.2 hk]

theorem leads_escapes : Leads (.quoted q .escape) escapes (.quoted q q.afterEscape) := by
  have hsimple : Leads (.quoted q .escape) (one isSimpleEscape) (.quoted q q.afterEscape) :=
    leads_one fun c hc => by
      obtain ⟨hu, hoct⟩ := simpleEscape_marks hc
      simp [Mode.move, Quote.move, hu, hoct, hc]
  have hhex : Leads (.quoted q (.unicode 3)) (one isHexDigit) (.quoted q q.afterEscape) :=
    leads_one fun c hc => by simp [Mode.move, Quote.move, hc]
  have hoct : Leads (.quoted q (.octal 2)) (one isOctDigit) (.quoted q q.afterEscape) :=
    leads_one fun c hc => by simp [Mode.move, Quote.move, hc]
  have hunicode : Leads (.quoted q .escape) (chr 'u' * one isHexDigit ^ 4)
      (.quoted q q.afterEscape) := by
    rw [pow_succ]
    exact (leads_chr rfl).mul ((leads_unicode (by decide)).mul hhex)
  have hoctal : Leads (.quoted q .escape) (one isOctDigit ^ 3) (.quoted q q.afterEscape) := by
    rw [pow_succ]
    exact (leads_octal (by decide)).mul hoct
  exact (hsimple.add hunicode).add hoctal

theorem leads_unit : Leads (.quoted q .body) (unit q) (.quoted q q.afterEscape) := by
  refine .add (leads_one fun c hc => ?_) ((leads_chr ?_).mul leads_escapes)
  · cases q <;> simp_all [isRaw, Mode.move, Quote.move, Quote.afterEscape]
  · cases q <;> rfl

theorem leads_opened (q : Quote) : Leads .initial q.opened (.quoted q .body) := by
  cases q with
  | string => exact (leads_chr rfl).mul leads_unit.kstar
  | character => exact leads_chr rfl

/-- Every literal of a language leads to its part. -/
theorem leads_language (q : Quote) (part : QuotePart) :
    Leads .initial (q.language part) (.quoted q part) := by
  have hbackslash : Leads .initial (q.opened * chr '\\') (.quoted q .escape) :=
    q.leads_opened.mul (leads_chr (by cases q <;> rfl))
  cases part with
  | body => exact q.leads_opened
  | escape => exact hbackslash
  | octal n =>
    rintro w ⟨⟨hn, hle⟩, hw⟩
    obtain ⟨n, rfl⟩ := Nat.exists_eq_add_of_le' hn
    exact hbackslash.mul (leads_octal hle) w hw
  | unicode n =>
    rintro w ⟨hn, hw⟩
    exact (hbackslash.mul (leads_chr rfl)).mul (leads_unicode hn) w hw
  | closing =>
    cases q with
    | string => exact fun w hw => absurd hw (Language.notMem_zero w)
    | character => exact (leads_opened .character).mul leads_unit

end Quote

/-! ## All modes -/

theorem Symbol.grows_spelling (s : Symbol) : Grows .initial s.spelling (.symbol s) := by
  cases s with
  | shl | shr => exact .cons rfl (.cons rfl (.nil _))
  | ushr => exact .cons rfl (.cons rfl (.cons rfl (.nil _)))
  | _ => exact .cons rfl (.nil _)

/-- Every text that can be pending in the middle of a word leads to its mode. -/
theorem leads_language (hbusy : m.idle = false) (hm : m ≠ .malformed) :
    Leads .initial m.language m := by
  cases m with
  | word =>
    refine (leads_one fun c hc => ?_).mul (leads_many fun c hc => ?_)
    · exact congrArg Move.take (start_word hc)
    · exact if_pos hc
  | quoted q part => exact q.leads_language part
  | number part => exact part.leads_language
  | symbol s =>
    rintro w rfl
    exact s.grows_spelling
  | malformed => exact absurd rfl hm
  | initial | blockComment star | lineComment => cases hbusy

end Scan

end LoopAsm
