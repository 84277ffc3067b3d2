/-
What a move of the scanner can be, by the mode it is made in. A mode is idle if no word is
pending, and plain if the pending word can have no blank in it. A newline never joins a word, a
carriage return joins quoted literals and malformed words only, and a blank is a word of one
character.
-/
import LoopAsm.Scan.Mode

namespace LoopAsm.Scan

/-- Whether no word is pending in a mode. -/
def Mode.idle : Mode → Bool
  | initial | blockComment _ | lineComment => true
  | _ => false

/-- Whether the pending word is of letters, of digits or of operator characters. -/
def Mode.plain : Mode → Bool
  | word | number _ | symbol _ => true
  | _ => false

/-- The blanks. -/
def blanks : List Char :=
  [' ', '\t', '\r', '\n']

theorem mem_blanks {c : Char} : c ∈ blanks ↔ c = ' ' ∨ c = '\t' ∨ c = '\r' ∨ c = '\n' := by
  simp [blanks]

/-- The moves that a character can make in a mode. -/
def Move.Fits (m : Mode) (c : Char) : Move → Prop
  | .take (.grow next) => c ≠ '\n' ∧ next.idle = false ∧
      (next.plain = true → c ≠ '\r' ∧ (m = .initial ∨ m.plain = true))
  | .take (.close kind) => (kind = .whitespace ∧ m = .initial ∧ c ∈ blanks) ∨
      (kind ≠ .whitespace ∧ kind ≠ .malformed ∧ kind ≠ .identifier ∧ c ≠ '\n' ∧ c ≠ '\r')
  | .take (.drop next) => m.idle = true ∧ next.idle = true ∧ c ≠ '\n'
  | .take (.comment next) => m = .symbol .slash ∧ next.idle = true ∧ c ≠ '\n'
  | .take (.newline next) => m.idle = true ∧ next.idle = true ∧ c = '\n'
  | .take .question => m = .initial ∧ c = '?'
  | .take .colon => m = .initial ∧ c = ':'
  | .release kind => kind ≠ .whitespace ∧ m.idle = false ∧ (kind ≠ .malformed → m.plain = true)

instance (m : Mode) (c : Char) : (move : Move) → Decidable (move.Fits m c)
  | .take (.grow next) => inferInstanceAs (Decidable (_ ∧ _ ∧ (next.plain = true → _)))
  | .take (.close kind) => inferInstanceAs (Decidable ((kind = _ ∧ _ ∧ _) ∨ _))
  | .take (.drop next) => inferInstanceAs (Decidable (_ ∧ next.idle = true ∧ _))
  | .take (.comment next) => inferInstanceAs (Decidable (_ ∧ next.idle = true ∧ _))
  | .take (.newline next) => inferInstanceAs (Decidable (_ ∧ next.idle = true ∧ _))
  | .take .question => inferInstanceAs (Decidable (_ ∧ _))
  | .take .colon => inferInstanceAs (Decidable (_ ∧ _))
  | .release kind => inferInstanceAs (Decidable (kind ≠ _ ∧ _ ∧ _))

section

variable {m next : Mode} {c : Char} {kind : Kind}

@[simp] theorem fits_grow : (Move.grow next).Fits m c ↔ c ≠ '\n' ∧ next.idle = false ∧
    (next.plain = true → c ≠ '\r' ∧ (m = .initial ∨ m.plain = true)) := Iff.rfl

@[simp] theorem fits_close : (Move.close kind).Fits m c ↔
    (kind = .whitespace ∧ m = .initial ∧ c ∈ blanks) ∨
      (kind ≠ .whitespace ∧ kind ≠ .malformed ∧ kind ≠ .identifier ∧ c ≠ '\n' ∧ c ≠ '\r') :=
  Iff.rfl

@[simp] theorem fits_release : (Move.release kind).Fits m c ↔
    kind ≠ .whitespace ∧ m.idle = false ∧ (kind ≠ .malformed → m.plain = true) := Iff.rfl

theorem fits_spoil (hm : m.idle = false) :
    (Move.spoil c).Fits m c := by
  unfold Move.spoil
  split
  · exact ⟨by decide, hm, fun h => absurd rfl h⟩
  · rename_i h
    refine ⟨?_, rfl, fun h => by cases h⟩
    rintro rfl
    exact h rfl

end

/-
Below, the two characters that the moves are about come first: a mode evaluates there. For any
other character only the modes are left to compare.
-/

theorem fits_start (c : Char) : (Move.take (start c)).Fits .initial c := by
  by_cases hn : c = '\n'
  · subst hn; decide
  by_cases hr : c = '\r'
  · subst hr; decide
  unfold start
  repeat' split
  all_goals simp_all [Move.Fits, Mode.idle, Mode.plain, blanks]

theorem fits_quote (q : Quote) (part : QuotePart) (c : Char) :
    (q.move part c).Fits (.quoted q part) c := by
  have hspoil : (Move.spoil c).Fits (.quoted q part) c := fits_spoil rfl
  by_cases hn : c = '\n'
  · subst hn
    cases part with
    | body => exact ⟨by decide, rfl, fun h => absurd rfl h⟩
    | escape => exact hspoil
    | octal digits => exact hspoil
    | unicode digits => exact hspoil
    | closing => cases q <;> exact hspoil
  · cases q <;> cases part <;> simp only [Quote.move, Quote.afterEscape]
    all_goals repeat' split
    all_goals simp_all [Mode.idle, Mode.plain, Quote.kind]

theorem fits_number (part : NumberPart) (c : Char) : (part.move c).Fits (.number part) c := by
  have hspoil : (Move.spoil c).Fits (.number part) c := fits_spoil rfl
  by_cases hn : c = '\n'
  · subst hn; cases part <;> decide
  by_cases hr : c = '\r'
  · subst hr; cases part <;> decide
  cases part <;> simp only [NumberPart.move]
  all_goals repeat' split
  all_goals simp_all [Mode.idle, Mode.plain]

theorem fits_symbol (s : Symbol) (c : Char) : (s.move c).Fits (.symbol s) c := by
  by_cases hn : c = '\n'
  · subst hn; cases s <;> decide
  by_cases hr : c = '\r'
  · subst hr; cases s <;> decide
  cases s <;> simp only [Symbol.move]
  all_goals repeat' split
  all_goals simp_all [Move.Fits, Mode.idle, Mode.plain]

/-- Every move fits the mode it is made in. -/
theorem move_fits (m : Mode) (c : Char) : (m.move c).Fits m c := by
  cases m with
  | initial => exact fits_start c
  | word =>
    simp only [Mode.move]
    split
    · rename_i h
      refine ⟨?_, rfl, fun _ => ⟨?_, .inr rfl⟩⟩ <;> rintro rfl <;> revert h <;> decide
    · exact ⟨by decide, rfl, fun _ => rfl⟩
  | quoted q part => exact fits_quote q part c
  | number part => exact fits_number part c
  | symbol s => exact fits_symbol s c
  | blockComment star =>
    simp only [Mode.move]
    repeat' split
    all_goals simp_all [Move.Fits, Mode.idle]
  | lineComment =>
    simp only [Mode.move]
    split
    all_goals simp_all [Move.Fits, Mode.idle]
  | malformed => exact fits_spoil rfl

end LoopAsm.Scan
