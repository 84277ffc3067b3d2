/-
What identifiers and integers look like. Both are written in letters, digits, underscores and dollar
signs only, and the first character tells them apart: an integer begins with a digit and an
identifier does not.
-/
import LoopAsm.Proofs.Scan.LongestMatch

namespace LoopAsm

open Computability Scan

namespace Lexicon

variable {p q : Char → Bool} {l l' : Language Char} {w : List Char}

/-! ## Languages over a class of characters -/

/-- All words are written in characters of a class. -/
def Over (p : Char → Bool) (l : Language Char) : Prop :=
  ∀ w ∈ l, ∀ c ∈ w, p c = true

theorem over_one (h : ∀ c, q c = true → p c = true) : Over p (one q) := by
  rintro w ⟨c, rfl, hc⟩ d hd
  rw [List.mem_singleton.1 hd]
  exact h c hc

theorem over_chr {c : Char} (h : p c = true) : Over p (chr c) := by
  refine over_one fun d hd => ?_
  rwa [beq_iff_eq.1 hd]

theorem over_add (h : Over p l) (h' : Over p l') : Over p (l + l') := by
  rintro w (hw | hw)
  · exact h w hw
  · exact h' w hw

theorem over_mul (h : Over p l) (h' : Over p l') : Over p (l * l') := by
  intro w hw c hc
  obtain ⟨a, ha, b, hb, rfl⟩ := Language.mem_mul.1 hw
  rcases List.mem_append.1 hc with hc | hc
  · exact h a ha c hc
  · exact h' b hb c hc

theorem over_kstar (h : Over p l) : Over p l∗ := by
  intro w hw c hc
  obtain ⟨pieces, rfl, hpieces⟩ := Language.mem_kstar.1 hw
  obtain ⟨piece, hpiece, hc⟩ := List.mem_flatten.1 hc
  exact h piece (hpieces piece hpiece) c hc

theorem over_plus (h : Over p l) : Over p (plus l) :=
  over_mul h (over_kstar h)

theorem over_opt (h : Over p l) : Over p (opt l) := by
  refine over_add (fun w hw c hc => ?_) h
  rw [(Language.mem_one w).1 hw] at hc
  cases hc

/-! ## Words and integers -/

theorem isWordPart_of_isDigit {c : Char} (h : c.isDigit = true) : isWordPart c = true := by
  rw [isWordPart, h, Bool.or_true]

theorem isWordPart_of_isAlpha {c : Char} (h : 'A' ≤ c ∧ c ≤ 'Z' ∨ 'a' ≤ c ∧ c ≤ 'z') :
    isWordPart c = true := by
  show ((decide (65 ≤ c.val ∧ c.val ≤ 90) || (decide (97 ≤ c.val) && decide (c.val ≤ 122))
    || c == '_' || c == '$') || c.isDigit) = true
  simp only [Bool.or_eq_true, Bool.and_eq_true, decide_eq_true_eq]
  exact .inl (.inl (.inl h))

theorem isWordPart_of_isHexDigit {c : Char} (h : isHexDigit c = true) : isWordPart c = true := by
  simp only [isHexDigit, Bool.or_eq_true, Bool.and_eq_true, decide_eq_true_eq] at h
  rcases h with (h | ⟨hge, hle⟩) | ⟨hge, hle⟩
  · exact isWordPart_of_isDigit h
  · refine isWordPart_of_isAlpha (.inr ⟨hge, Nat.le_trans hle ?_⟩)
    decide
  · refine isWordPart_of_isAlpha (.inl ⟨hge, Nat.le_trans hle ?_⟩)
    decide

theorem over_words : Over isWordPart words := by
  refine over_mul (over_one fun c hc => ?_) (over_kstar (over_one fun c => id))
  rw [isWordPart, hc, Bool.true_or]

theorem over_ints : Over isWordPart ints := by
  have hdigit : Over isWordPart (one Char.isDigit) := over_one fun c => isWordPart_of_isDigit
  have hnonzero : Over isWordPart (one isNonzero) :=
    over_one fun c hc => isWordPart_of_isDigit (isDigit_iff.2 (.inr hc))
  have hoct : Over isWordPart (one isOctDigit) :=
    over_one fun c hc => isWordPart_of_isDigit (isDigit_of_isOctDigit hc)
  have hhex : Over isWordPart (one isHexDigit) := over_one fun c => isWordPart_of_isHexDigit
  have hmark : Over isWordPart (one isHexMark) := by
    refine over_one fun c hc => ?_
    rcases isHexMark_iff.1 hc with rfl | rfl <;> decide
  have hlong : Over isWordPart (one isLongSuffix) := by
    refine over_one fun c hc => ?_
    simp only [isLongSuffix, Bool.or_eq_true, beq_iff_eq] at hc
    rcases hc with rfl | rfl <;> decide
  have hzero : Over isWordPart (chr '0') := over_chr (by decide)
  exact over_mul (over_add (over_add (over_add hzero (over_mul hnonzero (over_kstar hdigit)))
    (over_mul hzero (over_plus hoct))) (over_mul (over_mul hzero hmark) (over_plus hhex)))
    (over_opt hlong)

theorem exists_head_words (h : w ∈ words) : ∃ c v, w = c :: v ∧ c.isDigit = false := by
  obtain ⟨_, ⟨c, rfl, hc⟩, v, -, rfl⟩ := Language.mem_mul.1 h
  exact ⟨c, v, rfl, isDigit_eq_false hc⟩

theorem exists_head_ints (h : w ∈ ints) : ∃ c v, w = c :: v ∧ c.isDigit = true := by
  cases w with
  | nil => exact absurd h (nil_mem_language (k := .int))
  | cons c v =>
    rcases cons_mem_ints.1 h with ⟨rfl, -⟩ | ⟨hc, -⟩
    · exact ⟨'0', v, rfl, rfl⟩
    · exact ⟨c, v, rfl, isDigit_iff.2 (.inr hc)⟩

end Lexicon

/-! ## Tokens of a text -/

open Lexicon (words ints)

/-- An identifier is a word of letters, and an integer is one of the integers. -/
structure Token.Lexical (t : Token) : Prop where
  word : t.kind = .identifier → t.lexeme.toList ∈ words
  int : t.kind = .intLiteral → t.lexeme.toList ∈ ints

theorem lexical_of_category {k : Category} {ternary : Bool} {line : Nat} {w : List Char}
    (hw : w ∈ k.language) : ∀ t ∈ k.tokens ternary line w, t.Lexical := by
  intro t ht
  cases k with
  | word =>
    rw [List.mem_singleton.1 ht]
    refine ⟨fun _ => by rwa [String.toList_ofList], fun h => ?_⟩
    rcases Kind.ofWord_cases (String.ofList w) with hkind | hkind | hkind <;>
      · rw [hkind] at h
        cases h
  | int =>
    rw [List.mem_singleton.1 ht]
    exact ⟨nofun, fun _ => by rwa [String.toList_ofList]⟩
  | fixed kind =>
    have hfixed : ∀ entry ∈ Lexicon.fixed, entry.2 ≠ .identifier ∧ entry.2 ≠ .intLiteral := by
      decide
    rw [List.mem_singleton.1 ht]
    exact ⟨fun h => absurd h (hfixed _ hw).1, fun h => absurd h (hfixed _ hw).2⟩
  | colon =>
    dsimp only [Category.tokens] at ht
    split at ht <;>
      · rw [List.mem_singleton.1 ht]
        exact ⟨nofun, nofun⟩
  | float | string | character =>
    rw [List.mem_singleton.1 ht]
    exact ⟨nofun, nofun⟩
  | blockComment | lineComment | question => cases ht

theorem Lexed.lexical {ternary : Bool} {line : Nat} {text : List Char} {tokens : List Token}
    (h : Lexed ternary line text tokens) : ∀ t ∈ tokens, t.Lexical := by
  induction h with
  | done => exact fun t ht => nomatch ht
  | word hlong hw hk more ih =>
    intro t ht
    rcases List.mem_append.1 ht with ht | ht
    · exact lexical_of_category hw t ht
    · exact ih t ht
  | malformed hlong hw hopen more ih =>
    refine List.forall_mem_cons.2 ⟨⟨nofun, nofun⟩, ih⟩
  | openComment hlong hw hopen => exact fun t ht => nomatch ht

/-- The identifiers and integers of a text, as the parser reads them. -/
theorem lexical_of_scan {text : String} {t : Token} (h : t ∈ significant (scan text)) :
    t.Lexical :=
  (lexed_scan text).lexical t (List.mem_filter.1 h).1

end LoopAsm
