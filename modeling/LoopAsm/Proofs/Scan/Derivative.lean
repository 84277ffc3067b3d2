/-
Every move takes the derivative of what may follow in a mode by the character it reads, and a word
that is released is complete. The classes of characters that a mode tells apart do not meet, so
the order in which a move asks for them does not matter.
-/
import LoopAsm.Proofs.Scan.Residual
import LoopAsm.Text.Split

namespace LoopAsm.Scan

open Computability Lexicon

variable {c : Char} {v : List Char} {k : Category}

/-! ## Classes of characters -/

@[grind →] theorem isDigit_of_isOctDigit (h : isOctDigit c = true) : c.isDigit = true := by
  simp only [isOctDigit, Bool.and_eq_true, decide_eq_true_eq] at h
  simp only [Char.isDigit, Bool.and_eq_true, decide_eq_true_eq]
  exact ⟨h.1, Nat.le_trans h.2 (by decide)⟩

@[grind →] theorem isHexDigit_of_isDigit (h : c.isDigit = true) : isHexDigit c = true := by
  simp [isHexDigit, h]

@[grind =] theorem isHexMark_iff : isHexMark c = true ↔ c = 'x' ∨ c = 'X' := by
  simp [isHexMark]

@[grind =] theorem isSign_iff : isSign c = true ↔ c = '+' ∨ c = '-' := by
  simp [isSign]

@[grind →] theorem digit_marks (h : c.isDigit = true) : c ≠ '.' ∧ isHexMark c = false ∧
    isExponentMark c = false ∧ isLongSuffix c = false ∧ isFloatSuffix c = false ∧
    isSign c = false := by
  have hne (d : Char) (hd : d.isDigit = false) : c ≠ d := by
    rintro rfl
    rw [h] at hd
    cases hd
  simp [isHexMark, isExponentMark, isLongSuffix, isFloatSuffix, isSign, hne]

@[grind →] theorem hexMark_marks (h : isHexMark c = true) : c ≠ '.' ∧ isExponentMark c = false ∧
    isLongSuffix c = false ∧ isFloatSuffix c = false := by
  rcases isHexMark_iff.1 h with rfl | rfl <;> decide

@[grind →] theorem exponentMark_marks (h : isExponentMark c = true) :
    c ≠ '.' ∧ isLongSuffix c = false ∧ isFloatSuffix c = false := by
  simp only [isExponentMark, Bool.or_eq_true, beq_iff_eq] at h
  rcases h with rfl | rfl <;> decide

@[grind →] theorem longSuffix_marks (h : isLongSuffix c = true) :
    c ≠ '.' ∧ isFloatSuffix c = false ∧ isHexDigit c = false := by
  simp only [isLongSuffix, Bool.or_eq_true, beq_iff_eq] at h
  rcases h with rfl | rfl <;> decide

@[grind →] theorem floatSuffix_marks (h : isFloatSuffix c = true) : c ≠ '.' := by
  rintro rfl
  cases h

@[grind →] theorem simpleEscape_marks (h : isSimpleEscape c = true) :
    c ≠ 'u' ∧ isOctDigit c = false := by
  simp only [isSimpleEscape, List.contains_iff_mem, List.mem_cons, List.not_mem_nil, or_false] at h
  rcases h with rfl | rfl | rfl | rfl | rfl | rfl | rfl | rfl <;> decide

@[grind →] theorem octDigit_marks (h : isOctDigit c = true) : c ≠ 'u' := by
  rintro rfl
  cases h

/-! ## Moves -/

@[simp] theorem mem_only {k' : Category} : v ∈ only k k' ↔ v = [] ∧ k' = k := by
  unfold only
  split <;> simp_all

@[simp] theorem residual_grow (m : Mode) : (Move.grow m).residual k = m.residual k := rfl

@[simp] theorem residual_close (kind : Kind) :
    (Move.close kind).residual k = only (.ofKind kind) k := rfl

@[simp] theorem residual_comment (m : Mode) :
    (Move.take (.comment m)).residual k = m.residual k := rfl

@[simp] theorem residual_release (kind : Kind) : (Move.release kind).residual k = 0 := rfl

@[simp] theorem residual_spoil : (Move.spoil c).residual k = 0 := by
  unfold Move.spoil
  split <;> rfl

/-! ## Numbers -/

@[simp] theorem residual_number (part : NumberPart) :
    (Mode.number part).residual k = part.residual k := rfl

theorem cons_mem_wholeEnd : c :: v ∈ wholeEnd ↔ isFloatSuffix c = true ∧ v = [] ∨
    isExponentMark c = true ∧ v ∈ NumberPart.exponent.floatRest := by
  simp [-add_eq_sup, wholeEnd, exponents, NumberPart.floatRest, mul_assoc, Language.mem_add]

theorem cons_mem_floatEnd : c :: v ∈ floatEnd ↔ c :: v ∈ wholeEnd := by
  simp [-add_eq_sup, floatEnd, wholeEnd, Language.mem_add]

theorem cons_mem_intRest (part : NumberPart) : c :: v ∈ part.intRest ↔
    match part with
    | .zero => isOctDigit c = true ∧ v ∈ NumberPart.octal.intRest ∨
        isHexMark c = true ∧ v ∈ NumberPart.hexPrefix.intRest ∨ isLongSuffix c = true ∧ v = []
    | .decimal => c.isDigit = true ∧ v ∈ NumberPart.decimal.intRest ∨ isLongSuffix c = true ∧ v = []
    | .octal => isOctDigit c = true ∧ v ∈ NumberPart.octal.intRest ∨ isLongSuffix c = true ∧ v = []
    | .hexPrefix => isHexDigit c = true ∧ v ∈ NumberPart.hex.intRest
    | .hex => isHexDigit c = true ∧ v ∈ NumberPart.hex.intRest ∨ isLongSuffix c = true ∧ v = []
    | _ => False := by
  cases part <;>
    simp [-add_eq_sup, NumberPart.intRest, add_mul, mul_assoc, Language.mem_add, or_comm, or_assoc]

theorem cons_mem_floatRest (part : NumberPart) : c :: v ∈ part.floatRest ↔
    match part with
    | .zero => c = '.' ∧ v ∈ NumberPart.fraction.floatRest ∨
        c.isDigit = true ∧ v ∈ NumberPart.octal.floatRest ∨ c :: v ∈ wholeEnd
    | .decimal => c = '.' ∧ v ∈ NumberPart.fraction.floatRest ∨
        c.isDigit = true ∧ v ∈ NumberPart.decimal.floatRest ∨ c :: v ∈ wholeEnd
    | .octal | .badOctal => c.isDigit = true ∧ v ∈ NumberPart.octal.floatRest ∨ c :: v ∈ wholeEnd
    | .dot => c.isDigit = true ∧ v ∈ NumberPart.fraction.floatRest
    | .fraction => c.isDigit = true ∧ v ∈ NumberPart.fraction.floatRest ∨ c :: v ∈ wholeEnd
    | .exponent => c.isDigit = true ∧ v ∈ NumberPart.exponentDigits.floatRest ∨
        isSign c = true ∧ v ∈ NumberPart.exponentSign.floatRest
    | .exponentSign => c.isDigit = true ∧ v ∈ NumberPart.exponentDigits.floatRest
    | .exponentDigits => c.isDigit = true ∧ v ∈ NumberPart.exponentDigits.floatRest ∨
        isFloatSuffix c = true ∧ v = []
    | .hexPrefix | .hex => False := by
  cases part <;>
    simp [-add_eq_sup, NumberPart.floatRest, Language.mem_add, cons_mem_floatEnd, or_comm,
      or_left_comm, or_assoc]

theorem NumberPart.derivative_int (part : NumberPart) :
    c :: v ∈ part.intRest ↔ v ∈ (part.move c).residual .int := by
  rw [cons_mem_intRest]
  cases part <;> simp only [NumberPart.move] <;> repeat' split
  all_goals
    simp only [residual_grow, residual_close, residual_release, residual_spoil, residual_number,
      NumberPart.residual, NumberPart.intRest, mem_only, Category.ofKind, Language.notMem_zero]
      <;> grind

theorem NumberPart.derivative_float (part : NumberPart) :
    c :: v ∈ part.floatRest ↔ v ∈ (part.move c).residual .float := by
  -- Behind a leading zero, a wrong octal digit makes no difference to a float.
  have hbad : NumberPart.badOctal.floatRest = NumberPart.octal.floatRest := rfl
  have hhex : NumberPart.hex.floatRest = 0 := rfl
  have hprefix : NumberPart.hexPrefix.floatRest = 0 := rfl
  rw [cons_mem_floatRest]
  cases part <;> simp only [NumberPart.move, cons_mem_wholeEnd] <;> repeat' split
  all_goals
    simp only [residual_grow, residual_close, residual_release, residual_spoil, residual_number,
      NumberPart.residual, hbad, hhex, hprefix, mem_only, Category.ofKind, Language.notMem_zero]
      <;> grind

/-- Digits alone belong to no category but those of numbers. -/
theorem NumberPart.residual_other {part : NumberPart} (hpart : part ≠ dot) (hint : k ≠ .int)
    (hfloat : k ≠ .float) : part.residual k = 0 := by
  cases k <;> simp_all [NumberPart.residual]

theorem NumberPart.derivative (part : NumberPart) :
    c :: v ∈ part.residual k ↔ v ∈ (part.move c).residual k := by
  by_cases hint : k = .int
  · rw [hint]
    exact part.derivative_int
  by_cases hfloat : k = .float
  · rw [hfloat]
    exact part.derivative_float
  have hleft : c :: v ∉ part.residual k := by
    cases k <;> simp_all [NumberPart.residual]
    split <;> simp
  have hright : v ∉ (part.move c).residual k := by
    cases part <;> simp only [NumberPart.move] <;> repeat' split
    all_goals simp [NumberPart.residual_other, hint, hfloat, Category.ofKind]
  exact iff_of_false hleft hright

/-! ## Quoted literals -/

@[simp] theorem residual_quoted (q : Quote) (part : QuotePart) :
    (Mode.quoted q part).residual k = if k = q.category then q.residual part else 0 := rfl

@[simp] theorem ofKind_kind (q : Quote) : Category.ofKind q.kind = q.category := by
  cases q <;> rfl

theorem cons_mem_unit_mul (q : Quote) (l : Language Char) :
    c :: v ∈ unit q * l ↔ isRaw q c = true ∧ v ∈ l ∨ c = '\\' ∧ v ∈ escapes * l := by
  simp [-add_eq_sup, unit, add_mul, mul_assoc, Language.mem_add]

theorem cons_mem_escapes_mul (l : Language Char) :
    c :: v ∈ escapes * l ↔ isSimpleEscape c = true ∧ v ∈ l ∨
      c = 'u' ∧ v ∈ one isHexDigit ^ 4 * l ∨ isOctDigit c = true ∧ v ∈ one isOctDigit ^ 2 * l := by
  simp [-add_eq_sup, escapes, add_mul, mul_assoc, Language.mem_add, or_assoc]

theorem cons_mem_string : c :: v ∈ Quote.string.rest ↔
    c = '"' ∧ v = [] ∨ c :: v ∈ unit .string * Quote.string.rest := by
  rw [Quote.rest, mem_kstar_mul, cons_mem_chr]

@[simp] theorem residual_escape (q : Quote) : q.residual .escape = escapes * q.rest := rfl

@[simp] theorem residual_octal (q : Quote) (n : Nat) :
    q.residual (.octal n) = one isOctDigit ^ (2 - n + 1) * q.rest := rfl

@[simp] theorem residual_unicode (q : Quote) (n : Nat) :
    q.residual (.unicode n) = one isHexDigit ^ (3 - n + 1) * q.rest := rfl

@[simp] theorem residual_afterEscape (q : Quote) : q.residual q.afterEscape = q.rest := by
  cases q <;> rfl

/-- An escape of digits ends behind its last one. -/
theorem residual_digit {p : Char → Bool} {q : Quote} {part : QuotePart} {last n : Nat}
    (h : q.residual part = one p ^ (last - (n + 1) + 1) * q.rest) :
    q.residual (if last ≤ n then q.afterEscape else part) = one p ^ (last - n) * q.rest := by
  split
  · rename_i hn
    rw [residual_afterEscape, Nat.sub_eq_zero_of_le hn, pow_zero, one_mul]
  · rename_i hn
    rw [h, Nat.sub_add_eq, Nat.sub_add_cancel (by omega)]

theorem Quote.derivative_category (q : Quote) (part : QuotePart) :
    c :: v ∈ q.residual part ↔ v ∈ (q.move part c).residual q.category := by
  cases part with
  | body =>
    cases q with
    | string =>
      rw [Quote.residual, cons_mem_string, cons_mem_unit_mul]
      simp only [Quote.move]
      repeat' split
      all_goals simp_all [isRaw, Quote.residual]
    | character =>
      rw [Quote.residual, cons_mem_unit_mul]
      simp only [Quote.move]
      repeat' split
      all_goals simp_all [isRaw, Quote.residual, Quote.rest]
  | escape =>
    rw [residual_escape, cons_mem_escapes_mul]
    simp only [Quote.move]
    repeat' split
    all_goals
      simp only [residual_grow, residual_quoted, residual_octal, residual_unicode,
        residual_afterEscape, residual_spoil, if_true, Language.notMem_zero]
      grind
  | octal n =>
    rw [residual_octal, cons_mem_power_mul]
    simp only [Quote.move]
    split
    · rw [residual_grow, residual_quoted, if_pos rfl, residual_digit (residual_octal q (n + 1))]
      simp_all
    · simp_all
  | unicode n =>
    rw [residual_unicode, cons_mem_power_mul]
    simp only [Quote.move]
    split
    · rw [residual_grow, residual_quoted, if_pos rfl, residual_digit (residual_unicode q (n + 1))]
      simp_all
    · simp_all
  | closing =>
    cases q with
    | string => simp [Quote.residual, Quote.move]
    | character =>
      simp only [Quote.residual, Quote.rest, Quote.move]
      split <;> simp_all

theorem Quote.derivative (q : Quote) (part : QuotePart) :
    c :: v ∈ (Mode.quoted q part).residual k ↔ v ∈ (q.move part c).residual k := by
  rw [residual_quoted]
  split
  · rename_i h
    rw [h, q.derivative_category]
  · cases q <;> cases part <;> simp only [Quote.move] <;> repeat' split
    all_goals simp_all

/-! ## Operators -/

@[simp] theorem residual_symbol (s : Symbol) : (Mode.symbol s).residual k = s.residual k := rfl

theorem Symbol.derivative_fixed (s : Symbol) (kind : Kind) :
    c :: v ∈ s.residual (.fixed kind) ↔ v ∈ (s.move c).residual (.fixed kind) := by
  rw [Symbol.residual, mem_spelled]
  cases s <;> simp only [Symbol.move] <;> repeat' split
  all_goals simp_all [Symbol.residual, Symbol.endings, Category.ofKind, Mode.residual]

/-- Only a slash can become something else than an operator. -/
theorem Symbol.residual_other {s : Symbol} (hs : s ≠ slash) (hk : ∀ kind, k ≠ .fixed kind) :
    s.residual k = 0 := by
  cases k with
  | fixed kind => exact absurd rfl (hk kind)
  | _ => simp [Symbol.residual, hs]

theorem Symbol.derivative_slash (hk : ∀ kind, k ≠ .fixed kind) :
    c :: v ∈ slash.residual k ↔ v ∈ (slash.move c).residual k := by
  simp only [Symbol.move]
  cases k with
  | fixed kind => exact absurd rfl (hk kind)
  | _ =>
    repeat' split
    all_goals simp_all [Symbol.residual, Mode.residual, blockRest, Category.ofKind]

theorem Symbol.derivative (s : Symbol) :
    c :: v ∈ s.residual k ↔ v ∈ (s.move c).residual k := by
  by_cases hk : ∃ kind, k = .fixed kind
  · obtain ⟨kind, rfl⟩ := hk
    exact s.derivative_fixed kind
  replace hk : ∀ kind, k ≠ .fixed kind := not_exists.1 hk
  by_cases hs : s = slash
  · rw [hs]
    exact Symbol.derivative_slash hk
  have hleft : c :: v ∉ s.residual k := by
    simp [Symbol.residual_other hs hk]
  have hright : v ∉ (s.move c).residual k := by
    cases s <;> simp only [Symbol.move] <;> repeat' split
    all_goals simp [Symbol.residual_other, Category.ofKind, hk] at hs ⊢
  exact iff_of_false hleft hright

/-! ## Comments -/

theorem mem_blockRest_true : v ∈ blockRest true ↔ '*' :: v ∈ blockEnds := Iff.rfl

theorem mem_blockRest_false : v ∈ blockRest false ↔ v ∈ blockEnds := Iff.rfl

theorem derivative_blockComment (star : Bool) :
    c :: v ∈ (Mode.blockComment star).residual k ↔
      v ∈ ((Mode.blockComment star).move c).residual k := by
  simp only [Mode.move]
  by_cases hk : k = .blockComment
  · subst hk
    cases star <;> repeat' split
    all_goals
      simp_all [Move.residual, Take.residual, commentRest, Mode.residual, mem_blockRest_true,
        mem_blockRest_false, cons_mem_blockEnds]
  · repeat' split
    all_goals simp_all [Move.residual, Take.residual, commentRest, Mode.residual]

theorem cons_mem_lineEnds : c :: v ∈ lineEnds ↔ c = '\n' ∧ v = [] ∨ c ≠ '\n' ∧ v ∈ lineEnds := by
  simp [lineEnds, isInline]

theorem derivative_lineComment :
    c :: v ∈ Mode.lineComment.residual k ↔ v ∈ (Mode.lineComment.move c).residual k := by
  simp only [Mode.move]
  by_cases hk : k = .lineComment
  · split
    all_goals simp_all [Move.residual, Take.residual, commentRest, Mode.residual, cons_mem_lineEnds]
  · split
    all_goals simp_all [Move.residual, Take.residual, commentRest, Mode.residual]

/-! ## First characters -/

/-- The words with a fixed spelling that a first character leads to. -/
def Take.endings : Take → List (List Char × Kind)
  | grow (.symbol s) => s.endings
  | grow (.number .dot) => [([], .bracketOrDot)]
  | close kind => [([], kind)]
  | _ => []

/-- How the words with a fixed spelling go on behind `front`. -/
def behind (front : List Char) : List (List Char × Kind) :=
  Lexicon.fixed.filterMap fun (w, kind) => (Split.behind? front w).map (·, kind)

theorem mem_behind (front : List Char) {kind : Kind} :
    (v, kind) ∈ behind front ↔ (front ++ v, kind) ∈ Lexicon.fixed := by
  simp only [behind, List.mem_filterMap, Option.map_eq_some_iff, Prod.exists, Prod.mk.injEq,
    Split.behind?_eq_some_iff]
  constructor
  · rintro ⟨w, kind', h, _, rfl, rfl, rfl⟩
    exact h
  · intro h
    exact ⟨_, kind, h, v, rfl, rfl, rfl⟩

/-- The first characters of words with a fixed spelling. -/
def heads : List Char :=
  Lexicon.fixed.filterMap (·.1.head?)

theorem behind_head (h : c ∈ heads) : behind [c] = (start c).endings := by
  -- A check of the list itself: no search over all characters.
  have hall : heads.all (fun c => behind [c] = (start c).endings) = true := by decide
  exact of_decide_eq_true (List.all_eq_true.1 hall c h)

theorem endings_start (h : c ∉ heads) : (start c).endings = [] := by
  unfold start
  repeat' split
  all_goals first | rfl | exact absurd (by decide) h

theorem cons_mem_fixed {kind : Kind} :
    (c :: v, kind) ∈ Lexicon.fixed ↔ (v, kind) ∈ (start c).endings := by
  by_cases hc : c ∈ heads
  · rw [← behind_head hc, mem_behind]
    rfl
  · rw [endings_start hc]
    constructor
    · intro h
      have hmem : c ∈ heads := List.mem_filterMap.2 ⟨_, h, rfl⟩
      exact absurd hmem hc
    · intro h
      cases h

theorem isDigit_iff : c.isDigit = true ↔ c = '0' ∨ isNonzero c = true := by
  rw [isNonzero, Bool.and_eq_true, bne_iff_ne]
  constructor
  · intro h
    by_cases hc : c = '0'
    · exact .inl hc
    · exact .inr ⟨h, hc⟩
  · rintro (rfl | ⟨h, -⟩)
    · rfl
    · exact h

theorem cons_mem_ints : c :: v ∈ ints ↔ c = '0' ∧ v ∈ NumberPart.zero.intRest ∨
    isNonzero c = true ∧ v ∈ NumberPart.decimal.intRest := by
  simp only [ints, NumberPart.intRest, add_mul, mul_assoc, one_mul, plus_mul, Language.mem_add,
    cons_mem_chr_mul, cons_mem_one_mul]
  grind

theorem cons_mem_floats : c :: v ∈ floats ↔ c = '0' ∧ v ∈ NumberPart.zero.floatRest ∨
    isNonzero c = true ∧ v ∈ NumberPart.decimal.floatRest ∨
    c = '.' ∧ v ∈ NumberPart.dot.floatRest := by
  have hdigit := @isDigit_iff c
  simp only [floats, pointed, NumberPart.floatRest, floatEnd, wholeEnd, add_mul, mul_add, mul_assoc,
    plus_mul, Language.mem_add, cons_mem_chr_mul, cons_mem_one_mul]
  grind

theorem cons_mem_language : c :: v ∈ k.language ↔
    match k with
    | .word => isWordStart c = true ∧ v ∈ (one isWordPart)∗
    | .int => c = '0' ∧ v ∈ NumberPart.zero.intRest ∨
        isNonzero c = true ∧ v ∈ NumberPart.decimal.intRest
    | .float => c = '0' ∧ v ∈ NumberPart.zero.floatRest ∨
        isNonzero c = true ∧ v ∈ NumberPart.decimal.floatRest ∨
        c = '.' ∧ v ∈ NumberPart.dot.floatRest
    | .string => c = '"' ∧ v ∈ Quote.string.residual .body
    | .character => c = '\'' ∧ v ∈ Quote.character.residual .body
    | .fixed kind => (v, kind) ∈ (start c).endings
    | .blockComment => c = '/' ∧ v ∈ Symbol.slash.residual .blockComment
    | .lineComment => c = '/' ∧ v ∈ Symbol.slash.residual .lineComment
    | .question => c = '?' ∧ v = []
    | .colon => c = ':' ∧ v = [] := by
  cases k with
  | word => exact cons_mem_one_mul
  | int => exact cons_mem_ints
  | float => exact cons_mem_floats
  | string =>
    rw [Category.language, strings, mul_assoc]
    exact cons_mem_chr_mul
  | character =>
    rw [Category.language, characters, mul_assoc]
    exact cons_mem_chr_mul
  | fixed kind => exact cons_mem_fixed
  | blockComment =>
    rw [Category.language, mul_assoc]
    exact cons_mem_chr_mul
  | lineComment =>
    rw [Category.language, mul_assoc]
    exact cons_mem_chr_mul
  | question => exact cons_mem_chr
  | colon => exact cons_mem_chr

theorem isDigit_eq_false (h : isWordStart c = true) : c.isDigit = false := by
  rw [← Bool.not_eq_true]
  intro hdigit
  have hle : c.val.toNat ≤ 57 := by
    simp only [Char.isDigit, Bool.and_eq_true, decide_eq_true_eq] at hdigit
    exact hdigit.2
  change (decide (65 ≤ c.val ∧ c.val ≤ 90) ||
    (decide (97 ≤ c.val) && decide (c.val ≤ 122)) || c == '_' || c == '$') = true at h
  simp only [Bool.or_eq_true, Bool.and_eq_true, decide_eq_true_eq, beq_iff_eq] at h
  rcases h with ((⟨h, -⟩ | ⟨h, -⟩) | rfl) | rfl
  · have hge : 65 ≤ c.val.toNat := h
    omega
  · have hge : 97 ≤ c.val.toNat := h
    omega
  · cases hdigit
  · cases hdigit

theorem start_word (h : isWordStart c = true) : start c = .grow .word := if_pos h

theorem start_nonzero (h : isNonzero c = true) : start c = .grow (.number .decimal) := by
  have hdigit : c.isDigit = true := isDigit_iff.2 (.inr h)
  have hword : isWordStart c ≠ true := by
    intro hword
    rw [isDigit_eq_false hword] at hdigit
    cases hdigit
  have hzero : c ≠ '0' := by
    rintro rfl
    cases h
  unfold start
  rw [if_neg hword, if_neg hzero, if_pos hdigit]

/-- The other characters that lead to more than words with a fixed spelling. -/
def marks : List Char :=
  ['0', '.', '"', '\'', '/', '?', ':']

theorem start_marks : start '0' = .grow (.number .zero) ∧ start '.' = .grow (.number .dot) ∧
    start '"' = .grow (.quoted .string .body) ∧ start '\'' = .grow (.quoted .character .body) ∧
    start '/' = .grow (.symbol .slash) ∧ start '?' = .question ∧ start ':' = .colon := by
  decide

theorem start_other (hword : isWordStart c ≠ true) (hdigit : isNonzero c ≠ true)
    (hmark : c ∉ marks) : (∃ kind, start c = .close kind ∧ Category.ofKind kind = .fixed kind) ∨
      (∃ s, start c = .grow (.symbol s) ∧ s ≠ .slash) ∨ start c = .grow .malformed := by
  unfold start
  repeat' split
  all_goals simp_all [marks, Category.ofKind, isNonzero]

theorem derivative_marks (hmark : c ∈ marks) :
    c :: v ∈ k.language ↔ v ∈ (start c).residual k := by
  obtain ⟨h1, h2, h3, h4, h5, h6, h7⟩ := start_marks
  rw [cons_mem_language]
  simp only [marks, List.mem_cons, List.not_mem_nil, or_false] at hmark
  rcases hmark with rfl | rfl | rfl | rfl | rfl | rfl | rfl
  all_goals
    simp only [h1, h2, h3, h4, h5, h6, h7]
    cases k
  all_goals
    simp [Take.endings, Take.residual, Mode.residual, NumberPart.residual, NumberPart.intRest,
      Quote.category, Symbol.residual, isNonzero, isWordStart]

theorem derivative_start : c :: v ∈ k.language ↔ v ∈ (start c).residual k := by
  by_cases hmark : c ∈ marks
  · exact derivative_marks hmark
  have hne : ∀ d ∈ marks, c ≠ d := by
    rintro d hd rfl
    exact hmark hd
  simp only [marks, List.forall_mem_cons] at hne
  rw [cons_mem_language]
  by_cases hword : isWordStart c = true
  · have hdigit : isNonzero c = false := by
      rw [isNonzero, isDigit_eq_false hword, Bool.false_and]
    rw [start_word hword]
    cases k <;> simp [hword, hdigit, hne, Take.residual, Take.endings, Mode.residual]
  by_cases hdigit : isNonzero c = true
  · rw [start_nonzero hdigit]
    cases k <;>
      simp [hword, hdigit, hne, Take.residual, Take.endings, Mode.residual, NumberPart.residual]
  rcases start_other hword hdigit hmark with ⟨kind, hstart, hkind⟩ | ⟨s, hstart, hs⟩ | hstart
  · rw [hstart]
    cases k <;> simp [hword, hdigit, hne, Take.residual, Take.endings, hkind]
  · rw [hstart]
    cases k <;> simp [hword, hdigit, hne, Take.residual, Take.endings, Symbol.residual, hs]
  · rw [hstart]
    cases k <;> simp [hword, hdigit, hne, Take.residual, Take.endings, Mode.residual]

/-! ## All modes -/

/-- A move takes the derivative of what may follow. -/
theorem derivative (m : Mode) : c :: v ∈ m.residual k ↔ v ∈ (m.move c).residual k := by
  cases m with
  | initial => exact derivative_start
  | word =>
    simp only [Mode.move]
    split <;> by_cases hk : k = .word <;> simp_all [Mode.residual]
  | quoted q part => exact q.derivative part
  | number part => exact part.derivative
  | symbol s => exact s.derivative
  | blockComment star => exact derivative_blockComment star
  | lineComment => exact derivative_lineComment
  | malformed =>
    rw [Mode.move, residual_spoil]
    exact iff_of_false (Language.notMem_zero _) (Language.notMem_zero _)

end LoopAsm.Scan
