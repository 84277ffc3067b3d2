/-
Damage to a line stays on it. The scanner looks at its counters only to copy them into records, so
from a place further down in a text it writes the same records with larger numbers. At the start of
a line nothing else is left of the text before than two answers: whether a block comment is open,
and whether a question mark waits for its colon. Texts that agree in these are forgotten alike.
-/
import LoopAsm.Proofs.Scan.Segments

namespace LoopAsm

open Scan

/-! ## Records further down -/

/-- A record behind a number of lines and of words. -/
def Record.displace (lines words : Nat) : Record → Record
  | token t => .token { t with line := lines + t.line }
  | line n count => .line (lines + n) count
  | total count => .total (words + count)

/-- Two records are the same but for the line that they are on, which differs by `lines`, and for
the grand total, which differs by `words`. -/
def Record.DisplacedBy (lines words : Int) : Record → Record → Prop
  | token t, token t' => t.spelling = t'.spelling ∧ (t.line : Int) - t'.line = lines
  | line n count, line n' count' => count = count' ∧ (n : Int) - n' = lines
  | total count, total count' => (count : Int) - count' = words
  | _, _ => False

theorem Record.displacedBy_displace (lines words lines' words' : Nat) (r : Record) :
    DisplacedBy (lines - lines') (words - words') (r.displace lines words)
      (r.displace lines' words') := by
  cases r with
  | token t =>
    refine ⟨rfl, ?_⟩
    dsimp only
    omega
  | line n count =>
    refine ⟨rfl, ?_⟩
    omega
  | total count =>
    show ((words + count : Nat) : Int) - (words' + count : Nat) = words - words'
    omega

namespace Scanner

variable {s : Scanner} {lines words : Nat}

/-- A scanner in the same state behind a number of lines and of words. -/
def displace (lines words : Nat) (s : Scanner) : Scanner :=
  { s with line := lines + s.line, words := words + s.words }

/-- What a step leads to, behind a number of lines and of words. -/
def displaced (lines words : Nat) (next : Scanner × List Record) : Scanner × List Record :=
  (next.1.displace lines words, next.2.map (Record.displace lines words))

theorem followedBy_displaced {a : Scanner × List Record} {f : Scanner → Scanner × List Record}
    (hf : ∀ s, f (s.displace lines words) = displaced lines words (f s)) :
    followedBy (displaced lines words a) f = displaced lines words (followedBy a f) := by
  simp [followedBy, displaced, hf]

/-! ## Steps -/

theorem emit_displace (s : Scanner) (kind : Kind) (lexeme : String) :
    (s.displace lines words).emit kind lexeme = displaced lines words (s.emit kind lexeme) := by
  unfold emit
  dsimp only
  generalize (if kind = .identifier then Kind.ofWord lexeme else kind) = actual
  by_cases h : actual = .whitespace ∧ lexeme = "\n"
  · rw [if_pos h, if_pos h]
    rfl
  · rw [if_neg h, if_neg h]
    rfl

theorem take_displace (s : Scanner) (t : Take) (c : Char) :
    (s.displace lines words).take t c = displaced lines words (s.take t c) := by
  cases t with
  | grow next => rfl
  | close kind => exact emit_displace s kind _
  | drop next => rfl
  | comment next => rfl
  | newline next => rfl
  | question =>
    unfold take
    dsimp only
    rw [show (s.displace lines words).ternary = s.ternary from rfl]
    by_cases h : s.ternary = true
    · rw [if_pos h, if_pos h]
      rfl
    · rw [if_neg h, if_neg h]
      rfl
  | colon =>
    unfold take
    dsimp only
    rw [show (s.displace lines words).ternary = s.ternary from rfl]
    by_cases h : s.ternary = true
    · rw [if_pos h, if_pos h]
      exact emit_displace { s with ternary := false } .ternaryColon "?:"
    · rw [if_neg h, if_neg h]
      exact emit_displace s .colon _

theorem feed_displace (s : Scanner) (c : Char) :
    (s.displace lines words).feed c = displaced lines words (s.feed c) := by
  unfold feed
  rw [show (s.displace lines words).mode = s.mode from rfl]
  cases s.mode.move c with
  | take t => exact take_displace s t c
  | release kind =>
    dsimp only
    rw [emit_displace]
    exact followedBy_displaced fun s => take_displace s _ c

/-! ## The rest of a text -/

/-- The records of the rest of a text, up to its end. -/
def scanRest (s : Scanner) (rest : List Char) : List Record :=
  (s.feedAll rest).2.toList ++ (s.feedAll rest).1.finish.2

theorem finish_displace (s : Scanner) :
    (s.displace lines words).finish = displaced lines words s.finish := by
  unfold finish
  rw [feed_displace]
  exact followedBy_displaced fun s => rfl

theorem scanRest_cons (s : Scanner) (c : Char) (rest : List Char) :
    s.scanRest (c :: rest) = (s.feed c).2 ++ (s.feed c).1.scanRest rest := by
  unfold scanRest feedAll
  rw [Transducer.run_cons]
  simp

theorem scanRest_displace (s : Scanner) (rest : List Char) :
    (s.displace lines words).scanRest rest =
      (s.scanRest rest).map (Record.displace lines words) := by
  induction rest generalizing s with
  | nil => simp [scanRest, feedAll, finish_displace, displaced]
  | cons c rest ih =>
    rw [scanRest_cons, scanRest_cons, feed_displace, List.map_append]
    exact congrArg _ (ih _)

/-! ## What is left of the text before -/

/-- What a scanner at the start of a line remembers of the text before. -/
def remembering (comment ternary : Bool) : Scanner :=
  { mode := if comment then .blockComment false else .initial, ternary }

theorem AtLineStart.eq_displace (h : s.AtLineStart) {lines : Nat} (hline : s.line = lines + 1) :
    s = (remembering s.mode.inBlockComment s.ternary).displace lines s.words := by
  obtain ⟨mode, pending, ternary, line, lineWords, words⟩ := s
  obtain ⟨hmode, rfl, rfl⟩ := h
  dsimp only at hline
  subst hline
  rcases hmode with rfl | rfl <;> rfl

theorem atLineStart_of_getLast? {text : List Char} (h : text.getLast? = some '\n') :
    (({} : Scanner).feedAll text).1.AtLineStart := by
  obtain ⟨front, rfl⟩ := List.getLast?_eq_some_iff.1 h
  exact atLineStart_feedAll front

/-- Behind whole lines, the records of the rest are those of a scanner that remembers two answers
and has not counted anything yet, further down. -/
theorem scanRest_eq {text : List Char} (h : text = [] ∨ text.getLast? = some '\n')
    (rest : List Char) :
    (({} : Scanner).feedAll text).1.scanRest rest =
      ((remembering (({} : Scanner).feedAll text).1.mode.inBlockComment
        (({} : Scanner).feedAll text).1.ternary).scanRest rest).map
          (Record.displace (text.count '\n')
            (tokensOf (({} : Scanner).feedAll text).2.toList).length) := by
  have haccounts : Accounts {} _ _ := accounts_feedAll (fun _ => rfl) text
  have hline := haccounts.line.trans (Nat.add_comm _ _)
  have hwords := haccounts.words.trans (Nat.zero_add _)
  dsimp only at hline hwords
  have hstart : (({} : Scanner).feedAll text).1.AtLineStart := by
    rcases h with rfl | h
    · exact ⟨.inl rfl, rfl, rfl⟩
    · exact atLineStart_of_getLast? h
  rw [← hwords, ← scanRest_displace, ← hstart.eq_displace hline]

end Scanner

/-- Behind two texts of whole lines that leave the same answers, whether a block comment is open
and whether a question mark waits for its colon, the same rest is scanned to the same records: the
numbers of lines differ by the lines of the two texts, the grand totals by their words. Behind any
newline the scanner is between two words or in a block comment, with nothing pending. -/
theorem scanRest_of_same_memory (text₁ text₂ rest : List Char)
    (h₁ : text₁ = [] ∨ text₁.getLast? = some '\n') (h₂ : text₂ = [] ∨ text₂.getLast? = some '\n')
    (hternary : (({} : Scanner).feedAll text₁).1.ternary = (({} : Scanner).feedAll text₂).1.ternary)
    (hcomment : (({} : Scanner).feedAll text₁).1.mode.inBlockComment =
      (({} : Scanner).feedAll text₂).1.mode.inBlockComment) :
    List.Forall₂
      (Record.DisplacedBy (text₁.count '\n' - text₂.count '\n')
        ((tokensOf (({} : Scanner).feedAll text₁).2.toList).length -
          (tokensOf (({} : Scanner).feedAll text₂).2.toList).length))
      ((({} : Scanner).feedAll text₁).1.scanRest rest)
      ((({} : Scanner).feedAll text₂).1.scanRest rest) ∧
    ∀ text : List Char, text.getLast? = some '\n' →
      ((({} : Scanner).feedAll text).1.mode = .initial ∨
        (({} : Scanner).feedAll text).1.mode = .blockComment false) ∧
      (({} : Scanner).feedAll text).1.pending = "" := by
  constructor
  · rw [Scanner.scanRest_eq h₁, Scanner.scanRest_eq h₂, hternary, hcomment,
      List.forall₂_map_left_iff, List.forall₂_map_right_iff, List.forall₂_same]
    intro r _
    exact r.displacedBy_displace _ _ _ _
  · intro text h
    have hstart := Scanner.atLineStart_of_getLast? h
    exact ⟨hstart.mode, hstart.pending⟩

/-- A comment and a conditional that are open behind an unclosed string and a number without
digits, and the same two behind nothing else. -/
theorem scanRest_behind_damage :
    let text₁ := "a ? \"b /* \n0x /* c\n".toList
    let text₂ := "?/*\n".toList
    let rest := "d */ e : 08 'f".toList
    text₁.getLast? = some '\n' ∧ text₂.getLast? = some '\n' ∧
    (({} : Scanner).feedAll text₁).1.ternary = (({} : Scanner).feedAll text₂).1.ternary ∧
    (({} : Scanner).feedAll text₁).1.mode.inBlockComment =
      (({} : Scanner).feedAll text₂).1.mode.inBlockComment ∧
    List.Forall₂ (Record.DisplacedBy 1 7) ((({} : Scanner).feedAll text₁).1.scanRest rest)
      ((({} : Scanner).feedAll text₂).1.scanRest rest) := by
  intro text₁ text₂ rest
  have h₁ : text₁.getLast? = some '\n' := by decide
  have h₂ : text₂.getLast? = some '\n' := by decide
  have hternary : (({} : Scanner).feedAll text₁).1.ternary =
      (({} : Scanner).feedAll text₂).1.ternary := by decide +kernel
  have hcomment : (({} : Scanner).feedAll text₁).1.mode.inBlockComment =
      (({} : Scanner).feedAll text₂).1.mode.inBlockComment := by decide +kernel
  have hlines : (text₁.count '\n' : Int) - text₂.count '\n' = 1 := by decide +kernel
  have hwords : ((tokensOf (({} : Scanner).feedAll text₁).2.toList).length : Int) -
      (tokensOf (({} : Scanner).feedAll text₂).2.toList).length = 7 := by decide +kernel
  obtain ⟨hrest, -⟩ :=
    scanRest_of_same_memory text₁ text₂ rest (.inr h₁) (.inr h₂) hternary hcomment
  rw [hlines, hwords] at hrest
  exact ⟨h₁, h₂, hternary, hcomment, hrest⟩

end LoopAsm
