/-
The lines of a scan. A newline closes one line whatever the scanner is in the middle of: the
pending word is recorded before it, and behind it nothing is pending and no word is counted. So
the records of a text are its lines in order, each with its words and their counter, as many as
the text has newlines and one more; the grand total follows.
-/
import LoopAsm.Proofs.Scan.Accounting
import LoopAsm.Proofs.Scan.LongestMatch
import Mathlib.Algebra.GroupWithZero.Nat

namespace LoopAsm

open Scan

/-! ## Behind a newline -/

namespace Scanner

variable {s : Scanner}

/-- A scanner at the start of a line: between two words or in a block comment. -/
structure AtLineStart (s : Scanner) : Prop where
  mode : s.mode = .initial ∨ s.mode = .blockComment false
  pending : s.pending = ""
  lineWords : s.lineWords = 0

/-- Between two words, a newline is a blank that closes its line. -/
theorem atLineStart_blank (hmode : s.mode = .initial) (hpending : s.pending = "") :
    (s.feed '\n').1.AtLineStart := by
  have hfeed : s.feed '\n' = s.emit .whitespace "\n" := by
    unfold feed
    rw [hmode, show "\n" = s.pending.push '\n' by rw [hpending]; rfl]
    rfl
  rw [hfeed]
  simp only [emit, reduceCtorEq, if_false, and_self, if_true]
  exact ⟨.inl rfl, rfl, rfl⟩

theorem atLineStart_feed (h : s.mode.idle = true → s.pending = "") :
    (s.feed '\n').1.AtLineStart := by
  have hfits := move_fits s.mode '\n'
  rcases move_at_newline s.mode with hmove | ⟨kind, hmove⟩ | hmove | hmove
  · rw [hmove] at hfits
    -- Only between two words does a newline close a word, the blank that it is.
    obtain ⟨-, hmode, -⟩ | ⟨-, -, -, hne, -⟩ := hfits
    · exact atLineStart_blank hmode (h (by rw [hmode]; rfl))
    · exact absurd rfl hne
  · rw [feed_release hmove]
    exact atLineStart_blank emit_mode emit_pending
  · rw [hmove] at hfits
    simp only [feed, hmove]
    exact ⟨.inl rfl, h hfits.1, rfl⟩
  · rw [hmove] at hfits
    simp only [feed, hmove]
    exact ⟨.inr rfl, h hfits.1, rfl⟩

/-- Every text that ends in a newline leaves the scanner at the start of a line. -/
theorem atLineStart_feedAll (text : List Char) :
    (({} : Scanner).feedAll (text ++ ['\n'])).1.AtLineStart := by
  have hidle := (accounts_feedAll (s := {}) (fun _ => rfl) text).idle
  unfold feedAll at hidle ⊢
  rw [Transducer.run_append, Transducer.run_cons, Transducer.run_nil]
  exact atLineStart_feed hidle

end Scanner

/-! ## Lines -/

/-- A word as a record on a line. -/
def wordRecord (line : Nat) (word : Kind × String) : Record :=
  .token ⟨word.1, word.2, line⟩

/-- The records of a line: its words, then their counter. -/
def lineRecords (words : List (Kind × String)) (line : Nat) : List Record :=
  words.map (wordRecord line) ++ [.line line words.length]

/-- The records of lines one after the other, numbered from `first` on. -/
def linesRecords (first : Nat) (lines : List (List (Kind × String))) : List Record :=
  (lines.zipIdx first).flatMap fun (words, line) => lineRecords words line

/-- A tally consists of lines: the first of them has `opened` in front, and the last one is open
to more words. -/
theorem Tallied.eq_lines {line words line' words' : Nat} {records : List Record}
    (h : Tallied line words records line' words') (opened : List (Kind × String))
    (hopened : opened.length = words) :
    ∃ (lines : List (List (Kind × String))) (last : List (Kind × String)),
      line + lines.length = line' ∧ last.length = words' ∧
      opened.map (wordRecord line) ++ records =
        linesRecords line lines ++ last.map (wordRecord line') := by
  induction h generalizing opened with
  | nil line words => exact ⟨[], opened, rfl, hopened, List.append_nil _⟩
  | token kind lexeme _ ih =>
    obtain ⟨lines, last, hlines, hlast, heq⟩ := ih (opened ++ [(kind, lexeme)]) (by simp [hopened])
    refine ⟨lines, last, hlines, hlast, ?_⟩
    rw [← heq]
    simp [wordRecord]
  | @line line words line' words' rest _ ih =>
    obtain ⟨lines, last, hlines, hlast, heq⟩ := ih [] rfl
    refine ⟨opened :: lines, last, ?_, hlast, ?_⟩
    · rw [List.length_cons]
      omega
    · rw [List.map_nil, List.nil_append] at heq
      rw [heq]
      simp [linesRecords, lineRecords, hopened]

theorem tokensOf_lineRecords (words : List (Kind × String)) (line : Nat) :
    (tokensOf (lineRecords words line)).length = words.length := by
  simp [lineRecords, tokensOf, List.filterMap_append, List.filterMap_map, wordRecord,
    Record.token?, Function.comp_def]

theorem tokensOf_linesRecords (first : Nat) (lines : List (List (Kind × String))) :
    (tokensOf (linesRecords first lines)).length = (lines.map List.length).sum := by
  induction lines generalizing first with
  | nil => rfl
  | cons words lines ih =>
    have hcons : linesRecords first (words :: lines) =
        lineRecords words first ++ linesRecords (first + 1) lines := by
      simp [linesRecords]
    rw [hcons, tokensOf_append, List.length_append, tokensOf_lineRecords, ih, List.map_cons,
      List.sum_cons]

/-- The records of a text are its lines, one more than it has newlines: line by line its words,
which bear the number of the line, and a counter with that number and the number of the words.
The grand total behind them is the number of all words. While the text is read, the scanner knows
its line, which is one more than the newlines so far, and the number of words recorded so far. -/
theorem scan_eq_lines (text : String) :
    (∃ lines : List (List (Kind × String)), lines.length = text.toList.count '\n' + 1 ∧
      scan text = linesRecords 1 lines ++ [.total (tokensOf (scan text)).length] ∧
      (tokensOf (scan text)).length = (lines.map List.length).sum) ∧
    ∀ n, (({} : Scanner).feedAll (text.toList.take n)).1.line =
        (text.toList.take n).count '\n' + 1 ∧
      (({} : Scanner).feedAll (text.toList.take n)).1.words =
        (tokensOf (({} : Scanner).feedAll (text.toList.take n)).2.toList).length := by
  constructor
  · have hend := Scanner.atLineStart_feedAll text.toList
    have haccounts : Scanner.Accounts {} _ _ :=
      Scanner.accounts_feedAll (fun _ => rfl) (text.toList ++ ['\n'])
    have hline := haccounts.line
    have hwords := haccounts.words
    obtain ⟨lines, last, hlines, hlast, heq⟩ := haccounts.tallied.eq_lines [] rfl
    -- Behind the last newline no word is left over.
    rw [hend.lineWords, List.length_eq_zero_iff] at hlast
    subst hlast
    rw [List.map_nil, List.map_nil, List.nil_append, List.append_nil] at heq
    dsimp only at hlines hline hwords heq
    rw [heq] at hwords
    have hscan : scan text = linesRecords 1 lines ++
        [.total (tokensOf (linesRecords 1 lines)).length] := by
      rw [scan_eq, heq, hwords, Nat.zero_add]
    have htokens : tokensOf (scan text) = tokensOf (linesRecords 1 lines) := by
      rw [hscan, tokensOf_append]
      exact List.append_nil _
    refine ⟨lines, ?_, ?_, ?_⟩
    · rw [List.count_append, List.count_singleton_self] at hline
      omega
    · rw [htokens, hscan]
    · rw [htokens, tokensOf_linesRecords]
  · intro n
    have haccounts : Scanner.Accounts {} _ _ :=
      Scanner.accounts_feedAll (fun _ => rfl) (text.toList.take n)
    exact ⟨haccounts.line.trans (Nat.add_comm _ _), haccounts.words.trans (Nat.zero_add _)⟩

end LoopAsm
