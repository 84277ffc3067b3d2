/-
Lines and words of a scan. Whatever the scanner records, it keeps a tally: a word bears the number
of the line it is on, and a line is closed with its number and the number of its words. The
scanner's counters agree with the records handed out and with the newlines read, character by
character, so that the last counters are those of the whole text.
-/
import LoopAsm.Proofs.Scan.Records
import LoopAsm.Scan.Pump

namespace LoopAsm

open Scan

/-! ## Tallies -/

/-- Records that keep a tally: they begin on a line with some words on it and lead to another. -/
inductive Tallied : Nat → Nat → List Record → Nat → Nat → Prop
  | nil (line words : Nat) : Tallied line words [] line words
  | token {line words line' words' : Nat} {rest : List Record} (kind : Kind) (lexeme : String)
      (h : Tallied line (words + 1) rest line' words') :
    Tallied line words (.token ⟨kind, lexeme, line⟩ :: rest) line' words'
  | line {line words line' words' : Nat} {rest : List Record}
      (h : Tallied (line + 1) 0 rest line' words') :
    Tallied line words (.line line words :: rest) line' words'

theorem Tallied.append {line words line' words' line'' words'' : Nat} {a b : List Record}
    (ha : Tallied line words a line' words') (hb : Tallied line' words' b line'' words'') :
    Tallied line words (a ++ b) line'' words'' := by
  induction ha with
  | nil => exact hb
  | token kind lexeme _ ih => exact .token kind lexeme (ih hb)
  | line _ ih => exact .line (ih hb)

/-- The summary of a tally knows the last line that was closed, and no grand total. -/
theorem Tallied.foldl_count {line words line' words' : Nat} {records : List Record}
    (h : Tallied line words records line' words') {s : Summary} (hs : s.lines + 1 = line) :
    (records.foldl Summary.count s).lines + 1 = line' := by
  induction h generalizing s with
  | nil => exact hs
  | token kind lexeme _ ih =>
    rw [List.foldl_cons]
    apply ih
    unfold Summary.count
    dsimp only
    split <;> exact hs
  | line _ ih =>
    rw [List.foldl_cons]
    apply ih
    rfl

theorem malformed_foldl_count (records : List Record) (s : Summary) :
    (records.foldl Summary.count s).malformed =
      s.malformed + (tokensOf records).countP (·.kind = .malformed) := by
  induction records generalizing s with
  | nil => rfl
  | cons r records ih =>
    rw [List.foldl_cons, ih]
    cases r with
    | token t =>
      by_cases ht : t.kind = .malformed
      · simp [Summary.count, ht, tokensOf, Record.token?, Nat.add_assoc, Nat.add_comm]
      · simp [Summary.count, ht, tokensOf, Record.token?]
    | line line words => rfl
    | total words => rfl

/-! ## One character -/

/-- How many newlines a character is. -/
def newlines (c : Char) : Nat :=
  if c = '\n' then 1 else 0

/-- A step of the scanner that reads `n` newlines. -/
structure Scanner.Accounts (s : Scanner) (n : Nat) (next : Scanner × List Record) : Prop where
  idle : next.1.mode.idle = true → next.1.pending = ""
  line : next.1.line = s.line + n
  words : next.1.words = s.words + (tokensOf next.2).length
  tallied : Tallied s.line s.lineWords next.2 next.1.line next.1.lineWords

namespace Scanner

variable {s : Scanner} {c : Char} {kind : Kind} {lexeme : String}

theorem Accounts.followedBy {n k : Nat} {a : Scanner × List Record}
    {f : Scanner → Scanner × List Record} (ha : Accounts s n a) (hf : Accounts a.1 k (f a.1)) :
    Accounts s (n + k) (followedBy a f) where
  idle := hf.idle
  line := by
    show (f a.1).1.line = _
    rw [hf.line, ha.line, Nat.add_assoc]
  words := by
    show (f a.1).1.words = s.words + (tokensOf (a.2 ++ (f a.1).2)).length
    rw [hf.words, ha.words, tokensOf_append, List.length_append, Nat.add_assoc]
  tallied := ha.tallied.append hf.tallied

theorem accounts_closeLine (h : s.mode.idle = true → s.pending = "") : Accounts s 1 s.closeLine :=
  ⟨h, rfl, rfl, .line (.nil _ _)⟩

/-- A step that records nothing. -/
theorem accounts_silent {s' : Scanner} (hidle : s'.mode.idle = true → s'.pending = "")
    (hline : s'.line = s.line) (hlineWords : s'.lineWords = s.lineWords)
    (hwords : s'.words = s.words) : Accounts s 0 (s', []) where
  idle := hidle
  line := hline
  words := hwords
  tallied := by
    dsimp only
    rw [hline, hlineWords]
    exact .nil _ _

theorem accounts_emit (s : Scanner) (kind : Kind) (lexeme : String) :
    Accounts s (if (if kind = .identifier then Kind.ofWord lexeme else kind) = .whitespace ∧
      lexeme = "\n" then 1 else 0) (s.emit kind lexeme) := by
  unfold emit
  dsimp only
  generalize (if kind = .identifier then Kind.ofWord lexeme else kind) = actual
  split
  · exact ⟨fun _ => rfl, rfl, rfl, .token actual lexeme (.line (.nil _ _))⟩
  · exact ⟨fun _ => rfl, rfl, rfl, .token actual lexeme (.nil _ _)⟩

theorem accounts_word (h : kind ≠ .whitespace) : Accounts s 0 (s.emit kind lexeme) := by
  have hemit := accounts_emit s kind lexeme
  rwa [if_neg fun hnewline => actual_ne_whitespace h hnewline.1] at hemit

/-- A blank is a word of one character, so that a newline closes its line. -/
theorem accounts_blank (s : Scanner) (c : Char) :
    Accounts s (newlines c) (s.emit .whitespace ("".push c)) := by
  have hemit := accounts_emit s .whitespace ("".push c)
  have hnewline : "".push c = "\n" ↔ c = '\n' := by
    rw [← String.toList_inj]
    simp
  simpa only [reduceCtorEq, if_false, true_and, hnewline, newlines] using hemit

theorem newlines_of_ne (h : c ≠ '\n') : newlines c = 0 :=
  if_neg h

theorem accounts_close (h : s.mode.idle = true → s.pending = "")
    (hk : (Move.close kind).Fits s.mode c) :
    Accounts s (newlines c) (s.emit kind (s.pending.push c)) := by
  rcases hk with ⟨rfl, hmode, -⟩ | ⟨hkind, -, -, hc, -⟩
  · rw [h (by rw [hmode]; rfl)]
    exact accounts_blank s c
  · rw [newlines_of_ne hc]
    exact accounts_word hkind

theorem accounts_take {t : Take} (h : s.mode.idle = true → s.pending = "")
    (ht : (Move.take t).Fits s.mode c) : Accounts s (newlines c) (s.take t c) := by
  cases t with
  | grow next =>
    rw [newlines_of_ne ht.1]
    refine accounts_silent (fun hidle => ?_) rfl rfl rfl
    rw [ht.2.1] at hidle
    cases hidle
  | close kind => exact accounts_close h ht
  | drop next =>
    obtain ⟨hmode, -, hc⟩ := ht
    rw [newlines_of_ne hc]
    exact accounts_silent (fun _ => h hmode) rfl rfl rfl
  | comment next =>
    rw [newlines_of_ne ht.2.2]
    exact accounts_silent (fun _ => rfl) rfl rfl rfl
  | newline next =>
    obtain ⟨hmode, -, rfl⟩ := ht
    obtain ⟨hidle, hline, hwords, htallied⟩ :=
      accounts_closeLine (s := { s with mode := next }) fun _ => h hmode
    exact ⟨hidle, hline, hwords, htallied⟩
  | question =>
    obtain ⟨hmode, rfl⟩ := ht
    unfold take
    dsimp only
    split
    · exact accounts_silent (fun hidle => nomatch hidle) rfl rfl rfl
    · exact accounts_silent (fun _ => h (by rw [hmode]; rfl)) rfl rfl rfl
  | colon =>
    obtain ⟨-, rfl⟩ := ht
    unfold take
    dsimp only
    split
    · obtain ⟨hidle, hline, hwords, htallied⟩ :=
        @accounts_word { s with ternary := false } .ternaryColon "?:" (by decide)
      exact ⟨hidle, hline, hwords, htallied⟩
    · exact accounts_word (by decide)

theorem accounts_feed (h : s.mode.idle = true → s.pending = "") (c : Char) :
    Accounts s (newlines c) (s.feed c) := by
  have hfits := move_fits s.mode c
  unfold feed
  split
  · rename_i t ht
    rw [ht] at hfits
    exact accounts_take h hfits
  · rename_i kind hk
    rw [hk] at hfits
    have hword : Accounts s 0 (s.emit kind s.pending) := accounts_word hfits.1
    have htake := accounts_take hword.idle (t := start c) (by rw [emit_mode]; exact fits_start c)
    exact Nat.zero_add (newlines c) ▸ hword.followedBy htake

/-! ## A whole text -/

theorem feedAll_cons (s : Scanner) (c : Char) (cs : List Char) :
    ((s.feedAll (c :: cs)).1, (s.feedAll (c :: cs)).2.toList) =
      followedBy (s.feed c) fun s => ((s.feedAll cs).1, (s.feedAll cs).2.toList) := by
  unfold feedAll
  rw [Transducer.run_cons]
  simp [followedBy]

theorem accounts_feedAll (h : s.mode.idle = true → s.pending = "") (cs : List Char) :
    Accounts s (cs.count '\n') ((s.feedAll cs).1, (s.feedAll cs).2.toList) := by
  induction cs generalizing s with
  | nil => exact accounts_silent h rfl rfl rfl
  | cons c cs ih =>
    have hfirst := accounts_feed h c
    have hcount : (c :: cs).count '\n' = newlines c + cs.count '\n' := by
      rw [List.count_cons, Nat.add_comm]
      simp [newlines]
    rw [feedAll_cons, hcount]
    exact hfirst.followedBy (ih hfirst.idle)

end Scanner

/-- The summary of a scan: as many lines as the text has newlines and one more, as many words as
there are tokens, and those of them that are malformed. -/
theorem foldl_count_scan (text : String) :
    (scan text).foldl Summary.count {} =
      ⟨text.toList.count '\n' + 1, (tokensOf (scan text)).length,
        (tokensOf (scan text)).countP (·.kind = .malformed)⟩ := by
  have haccounts : Scanner.Accounts {} _ _ :=
    Scanner.accounts_feedAll (fun _ => rfl) (text.toList ++ ['\n'])
  have hlines := haccounts.tallied.foldl_count (s := {}) rfl
  have hline := haccounts.line
  have hwords := haccounts.words
  rw [scan_eq]
  generalize ({} : Scanner).feedAll (text.toList ++ ['\n']) = done at *
  have htokens : tokensOf (done.2.toList ++ [.total done.1.words]) = tokensOf done.2.toList := by
    simp [tokensOf, Record.token?]
  have hmalformed := malformed_foldl_count done.2.toList {}
  rw [htokens, List.foldl_append]
  show ({ done.2.toList.foldl Summary.count {} with words := done.1.words } : Summary) = _
  rw [Summary.mk.injEq]
  refine ⟨?_, ?_, ?_⟩
  · rw [List.count_append, List.count_singleton_self] at hline
    dsimp only at hline hlines
    omega
  · exact hwords.trans (Nat.zero_add _)
  · exact hmalformed.trans (Nat.zero_add _)

end LoopAsm
