/-
A comment is a blank. Where a slash ends the pending word, so does a blank, and the word is of the
same class; behind it the scanner is between two words either way. A comment leads from there back
to between two words and records nothing but lines, as a blank does. What follows is scanned alike,
since two scanners that differ in their counters alone record the same words.
-/
import LoopAsm.Proofs.Scan.Accounting
import LoopAsm.Proofs.Scan.Spacing

namespace LoopAsm

open Scan

namespace Scanner

variable {s s' : Scanner} {t v : List Char} {c d : Char} {k : Category}

/-! ## Scanners that differ in their counters -/

/-- Two scanners in the middle of the same word. -/
structure Alike (s s' : Scanner) : Prop where
  mode : s.mode = s'.mode
  pending : s.pending = s'.pending
  ternary : s.ternary = s'.ternary

/-- Two steps lead to scanners that differ in their counters, and record the same words. -/
structure SameWords (a b : Scanner × List Record) : Prop where
  alike : a.1.Alike b.1
  words : wordsOf (tokensOf a.2) = wordsOf (tokensOf b.2)

theorem SameWords.followedBy {a b : Scanner × List Record} {f : Scanner → Scanner × List Record}
    (h : SameWords a b) (hf : ∀ {s s'}, Alike s s' → SameWords (f s) (f s')) :
    SameWords (followedBy a f) (followedBy b f) := by
  have hnext := hf h.alike
  refine ⟨hnext.alike, ?_⟩
  simp only [Scanner.followedBy, tokensOf_append, wordsOf_append, h.words, hnext.words]

theorem sameWords_silent (h : s.Alike s') : SameWords (s, []) (s', []) :=
  ⟨h, rfl⟩

theorem sameWords_emit (h : s.ternary = s'.ternary) (kind : Kind) (lexeme : String) :
    SameWords (s.emit kind lexeme) (s'.emit kind lexeme) := by
  refine ⟨⟨?_, ?_, ?_⟩, ?_⟩
  · rw [emit_mode, emit_mode]
  · rw [emit_pending, emit_pending]
  · rw [emit_ternary, emit_ternary, h]
  · rw [tokensOf_emit, tokensOf_emit, wordsOf_singleton, wordsOf_singleton]

theorem Alike.take (h : s.Alike s') (tk : Take) (c : Char) :
    SameWords (s.take tk c) (s'.take tk c) := by
  unfold Scanner.take
  cases tk with
  | grow next => exact sameWords_silent ⟨rfl, congrArg (·.push c) h.pending, h.ternary⟩
  | close kind =>
    rw [h.pending]
    exact sameWords_emit h.ternary kind _
  | drop next => exact sameWords_silent ⟨rfl, h.pending, h.ternary⟩
  | comment next => exact sameWords_silent ⟨rfl, rfl, h.ternary⟩
  | newline next => exact ⟨⟨rfl, h.pending, h.ternary⟩, rfl⟩
  | question =>
    dsimp only
    rw [h.ternary, h.pending]
    split
    · exact sameWords_silent ⟨rfl, rfl, rfl⟩
    · exact sameWords_silent ⟨rfl, rfl, rfl⟩
  | colon =>
    dsimp only
    rw [h.ternary, h.pending]
    split
    · apply sameWords_emit
      rfl
    · exact sameWords_emit h.ternary .colon _

theorem Alike.feed (h : s.Alike s') (c : Char) : SameWords (s.feed c) (s'.feed c) := by
  unfold Scanner.feed
  rw [h.mode]
  split
  · exact h.take _ c
  · rw [h.pending]
    exact (sameWords_emit h.ternary _ _).followedBy fun halike => halike.take _ c

/-- What follows is cut into the same words. -/
theorem Alike.wordsOf_tokens (h : s.Alike s') (t : List Char) :
    wordsOf (s.tokens t) = wordsOf (s'.tokens t) := by
  induction t generalizing s s' with
  | nil => rfl
  | cons c t ih =>
    have hstep := h.feed c
    rw [tokens_cons, tokens_cons, wordsOf_append, wordsOf_append, hstep.words, ih hstep.alike]

/-! ## Between two words -/

theorem tokens_append (s : Scanner) (t u : List Char) :
    s.tokens (t ++ u) = s.tokens t ++ (s.feedAll t).1.tokens u := by
  unfold tokens feedAll
  rw [Transducer.run_append]
  simp

/-- No word is pending, and no comment is open. -/
structure Between (s : Scanner) : Prop where
  mode : s.mode = .initial
  pending : s.pending = ""

theorem Between.alike (h : s.Between) (h' : s'.Between) (hternary : s.ternary = s'.ternary) :
    s.Alike s' :=
  ⟨h.mode.trans h'.mode.symm, h.pending.trans h'.pending.symm, hternary⟩

theorem between_emit (kind : Kind) (lexeme : String) : (s.emit kind lexeme).1.Between :=
  ⟨emit_mode, emit_pending⟩

/-- Between two words, a blank adds no word and leads to between two words again. -/
theorem Between.wordsOf_blank (h : s.Between) (hd : d ∈ blanks) (t : List Char) :
    wordsOf (s.tokens (d :: t)) = wordsOf (s.tokens t) := by
  have hfeed : s.feed d = s.emit .whitespace (s.pending.push d) := by
    unfold feed
    rw [h.mode]
    rcases mem_blanks.1 hd with rfl | rfl | rfl | rfl <;> rfl
  have hblank : wordsOf (tokensOf (s.emit .whitespace (s.pending.push d)).2) = [] := by
    rw [tokensOf_emit]
    rfl
  rw [tokens_cons, hfeed, wordsOf_append, hblank]
  exact ((between_emit _ _).alike h emit_ternary).wordsOf_tokens t

/-! ## Comments -/

/-- A character of a comment leads to another mode of it or to its end; no word is recorded. -/
theorem feed_of_comment (hidle : s.mode.idle = true) (hmode : s.mode ≠ .initial) (c : Char) :
    ∃ next ended, next.idle = true ∧ (s.feed c).1.mode = next ∧
      (s.feed c).1.pending = s.pending ∧ (s.feed c).1.ternary = s.ternary ∧
      tokensOf (s.feed c).2 = [] ∧
      ∀ k, (s.mode.move c).residual k = commentRest ended next k := by
  have hfits := move_fits s.mode c
  obtain ⟨next, hmove | hmove⟩ := comment_move hidle hmode c
  · rw [hmove] at hfits
    simp only [feed, hmove]
    exact ⟨next, .blockComment, hfits.2.1, rfl, rfl, rfl, rfl, fun k => rfl⟩
  · rw [hmove] at hfits
    simp only [feed, hmove]
    exact ⟨next, .lineComment, hfits.2.1, rfl, rfl, rfl, rfl, fun k => rfl⟩

/-- What completes a comment leads out of it, and no word is recorded on the way. -/
theorem tokens_of_comment (hidle : s.mode.idle = true) (hmode : s.mode ≠ .initial)
    (hpending : s.pending = "") (hv : v ∈ s.mode.residual k) :
    s.tokens v = [] ∧ (s.feedAll v).1.Between ∧ (s.feedAll v).1.ternary = s.ternary := by
  induction v generalizing s with
  | nil =>
    obtain ⟨next, hmove | hmove⟩ := comment_move hidle hmode '\n'
    · exact absurd (nil_mem_residual.1 hv) (not_completes hmove)
    · exact absurd (nil_mem_residual.1 hv) (not_completes hmove)
  | cons c v ih =>
    obtain ⟨next, ended, hidle', hnext, hpending', hternary, htokens, hresidual⟩ :=
      feed_of_comment hidle hmode c
    have hfeedAll : (s.feedAll (c :: v)).1 = ((s.feed c).1.feedAll v).1 := by
      unfold feedAll
      rw [Transducer.run_cons]
    rw [derivative, hresidual] at hv
    rw [tokens_cons, htokens, hfeedAll, ← hternary, List.nil_append]
    by_cases hended : next = .initial
    · rw [commentRest, if_pos hended] at hv
      obtain ⟨rfl, -⟩ := mem_only.1 hv
      exact ⟨rfl, ⟨hnext.trans hended, hpending'.trans hpending⟩, rfl⟩
    · rw [commentRest, if_neg hended] at hv
      rw [← hnext] at hidle' hended hv
      exact ih hidle' hended (hpending'.trans hpending) hv

/-- Between two words, a comment is as good as nothing. -/
theorem Between.wordsOf_comment (h : s.Between) {next : Mode}
    (hopen : (Mode.symbol .slash).move d = .take (.comment next)) (hv : v ∈ next.residual k)
    (t : List Char) : wordsOf (s.tokens ('/' :: d :: (v ++ t))) = wordsOf (s.tokens t) := by
  have hfits := move_fits (.symbol .slash) d
  rw [hopen] at hfits
  have hslash : s.feed '/' =
      ({ s with mode := .symbol .slash, pending := s.pending.push '/' }, []) := by
    unfold feed
    rw [h.mode]
    rfl
  have hfeed : (s.feed '/').1.feed d = ({ s with mode := next, pending := "" }, []) := by
    rw [hslash]
    simp only [feed, hopen]
    rfl
  have hnext : next ≠ .initial := by
    rintro rfl
    simp only [Mode.move, Symbol.move] at hopen
    repeat' split at hopen
    all_goals cases hopen
  obtain ⟨htokens, hbetween, hternary⟩ :=
    tokens_of_comment (s := { s with mode := next, pending := "" }) hfits.2.1 hnext rfl hv
  rw [tokens_cons, tokens_cons, hfeed, hslash, tokens_append, htokens]
  exact (hbetween.alike h hternary).wordsOf_tokens t

/-! ## The word before a comment -/

/-- Only between two words does a slash start a word without ending another. -/
theorem initial_of_slash {m : Mode} (h : m.move '/' = .grow (.symbol .slash)) : m = .initial := by
  cases m with
  | initial => rfl
  | word => cases h
  | quoted q part => cases q <;> cases part <;> cases h
  | number part => cases part <;> cases h
  | symbol sym => cases sym <;> cases h
  | blockComment star => cases star <;> cases h
  | lineComment => cases h
  | malformed => cases h

theorem initial_of_take_slash {tk : Take} (hmove : s.mode.move '/' = .take tk)
    (hslash : (s.feed '/').1.mode = .symbol .slash) : s.mode = .initial := by
  have hfits := move_fits s.mode '/'
  rw [hmove] at hfits
  rw [feed, hmove] at hslash
  cases tk with
  | grow next =>
    cases hslash
    exact initial_of_slash hmove
  | close kind => cases emit_mode.symm.trans hslash
  | drop next =>
    cases hslash
    cases hfits.2.1
  | comment next =>
    cases hslash
    cases hfits.2.1
  | newline next => cases hfits.2.2
  | question => exact hfits.1
  | colon => exact hfits.1

/-- Where a slash starts a word, the word before it is complete, and it ends before a blank in the
same way. -/
theorem exists_between_of_slash (hslash : (s.feed '/').1.mode = .symbol .slash)
    (hidle : s.mode.idle = true → s.pending = "") :
    ∃ s' out, Between s' ∧ ∀ c, c = '/' ∨ c ∈ blanks → ∀ t,
      s.tokens (c :: t) = out ++ s'.tokens (c :: t) := by
  have hstops := move_stops s.mode '/'
  cases hmove : s.mode.move '/' with
  | release kind =>
    rw [hmove] at hstops
    obtain ⟨hnewline, hdelimiter⟩ := hstops
    -- A slash is no delimiter, so the word before it is not malformed.
    have hkind : kind ≠ .malformed := fun hkind => absurd (hdelimiter hkind) (by decide)
    have hends (c : Char) (hc : c = '/' ∨ c ∈ blanks) : s.mode.move c = .release kind := by
      rcases hc with rfl | hc
      · exact hmove
      · exact move_blank hnewline hkind hc
    exact ⟨_, _, between_emit kind s.pending, fun c hc => tokens_release (hends c hc)⟩
  | take tk =>
    have hinitial := initial_of_take_slash hmove hslash
    exact ⟨s, [], ⟨hinitial, hidle (by rw [hinitial]; rfl)⟩, fun c _ t => rfl⟩

/-- Where a slash starts a word, a comment is read as any blank is. -/
theorem wordsOf_comment_eq_blank {next : Mode} {b : Char}
    (hslash : (s.feed '/').1.mode = .symbol .slash) (hidle : s.mode.idle = true → s.pending = "")
    (hopen : (Mode.symbol .slash).move d = .take (.comment next)) (hv : v ∈ next.residual k)
    (hb : b ∈ blanks) (t : List Char) :
    wordsOf (s.tokens ('/' :: d :: (v ++ t))) = wordsOf (s.tokens (b :: t)) := by
  obtain ⟨s', out, hbetween, hends⟩ := exists_between_of_slash hslash hidle
  rw [hends '/' (.inl rfl), hends b (.inr hb), wordsOf_append, wordsOf_append,
    hbetween.wordsOf_comment hopen hv, hbetween.wordsOf_blank hb]

end Scanner

/-! ## Texts -/

theorem mem_lineEnds {body : List Char} (h : '\n' ∉ body) : body ++ ['\n'] ∈ Lexicon.lineEnds := by
  induction body with
  | nil => exact cons_mem_lineEnds.2 (.inl ⟨rfl, rfl⟩)
  | cons c body ih =>
    rw [List.mem_cons, not_or] at h
    exact cons_mem_lineEnds.2 (.inr ⟨Ne.symm h.1, ih h.2⟩)

/-- A comment in a text can be exchanged for a blank. -/
theorem wordsOf_scan_comment {front rest comment blank : String} {d b : Char} {v : List Char}
    {next : Mode} {k : Category}
    (hslash : (({} : Scanner).feedAll (front ++ "/").toList).1.mode = .symbol .slash)
    (hcomment : comment.toList = '/' :: d :: v) (hblank : blank.toList = [b])
    (hopen : (Mode.symbol .slash).move d = .take (.comment next)) (hv : v ∈ next.residual k)
    (hb : b ∈ blanks) :
    wordsOf (tokensOf (scan (front ++ comment ++ rest))) =
      wordsOf (tokensOf (scan (front ++ blank ++ rest))) := by
  have hfeed : ((({} : Scanner).feedAll front.toList).1.feed '/').1.mode = .symbol .slash := by
    rw [String.toList_append, Scanner.feedAll, Transducer.run_append] at hslash
    exact hslash
  have hidle := (Scanner.accounts_feedAll (s := {}) (fun _ => rfl) front.toList).idle
  rw [tokensOf_scan, tokensOf_scan]
  simp only [String.toList_append, hcomment, hblank, List.append_assoc, List.cons_append,
    List.nil_append, Scanner.tokens_append, wordsOf_append]
  rw [Scanner.wordsOf_comment_eq_blank hfeed hidle hopen hv hb]

/-- A comment is a blank. Where a slash starts a word of its own, a block comment is read as a
space, and a line comment as the newline that ends it: the words are the same, malformed ones too,
and so is what is compiled from them. -/
theorem comment_reads_as_blank (front body rest : String)
    (h : (({} : Scanner).feedAll (front ++ "/").toList).1.mode = .symbol .slash) :
    (¬ ['*', '/'] <:+: body.toList →
      wordsOf (tokensOf (scan (front ++ ("/*" ++ body ++ "*/") ++ rest))) =
        wordsOf (tokensOf (scan (front ++ " " ++ rest))) ∧
      SameVerdict (compileText (front ++ ("/*" ++ body ++ "*/") ++ rest))
        (compileText (front ++ " " ++ rest))) ∧
    ('\n' ∉ body.toList →
      wordsOf (tokensOf (scan (front ++ ("//" ++ body ++ "\n") ++ rest))) =
        wordsOf (tokensOf (scan (front ++ "\n" ++ rest))) ∧
      SameVerdict (compileText (front ++ ("//" ++ body ++ "\n") ++ rest))
        (compileText (front ++ "\n" ++ rest))) := by
  constructor
  · intro hbody
    have hv : body.toList ++ ['*', '/'] ∈ (Mode.blockComment false).residual .blockComment :=
      ⟨body.toList, rfl, hbody⟩
    have hwords : wordsOf (tokensOf (scan (front ++ ("/*" ++ body ++ "*/") ++ rest))) =
        wordsOf (tokensOf (scan (front ++ " " ++ rest))) :=
      wordsOf_scan_comment h (d := '*') (by simp) rfl rfl hv (by decide)
    exact ⟨hwords, compileText_of_same_words hwords⟩
  · intro hbody
    have hv : body.toList ++ ['\n'] ∈ Mode.lineComment.residual .lineComment :=
      mem_lineEnds hbody
    have hwords : wordsOf (tokensOf (scan (front ++ ("//" ++ body ++ "\n") ++ rest))) =
        wordsOf (tokensOf (scan (front ++ "\n" ++ rest))) :=
      wordsOf_scan_comment h (d := '/') (by simp) rfl rfl hv (by decide)
    exact ⟨hwords, compileText_of_same_words hwords⟩

/-- A block comment with a line, a quote and asterisks in it behind a factor, and a line comment
with the end of another comment in it behind the question mark of a conditional. -/
theorem comment_reads_as_blank_behind_operators :
    (¬ ['*', '/'] <:+: "*\"\n/ '* ".toList ∧
      wordsOf (tokensOf (scan "x = y */**\"\n/ '* */z; @")) =
        wordsOf (tokensOf (scan "x = y * z; @")) ∧
      SameVerdict (compileText "x = y */**\"\n/ '* */z; @") (compileText "x = y * z; @")) ∧
    ('\n' ∉ "/* '*/ \"".toList ∧
      wordsOf (tokensOf (scan "c ? a>>///* '*/ \"\n>>0: b")) =
        wordsOf (tokensOf (scan "c ? a>>\n>>0: b")) ∧
      SameVerdict (compileText "c ? a>>///* '*/ \"\n>>0: b")
        (compileText "c ? a>>\n>>0: b")) := by
  have hblock : ¬ ['*', '/'] <:+: "*\"\n/ '* ".toList := by decide +kernel
  have hline : '\n' ∉ "/* '*/ \"".toList := by decide +kernel
  have htexts :
      "x = y *" ++ ("/*" ++ "*\"\n/ '* " ++ "*/") ++ "z; @" = "x = y */**\"\n/ '* */z; @" ∧
      "x = y *" ++ " " ++ "z; @" = "x = y * z; @" ∧
      "c ? a>>" ++ ("//" ++ "/* '*/ \"" ++ "\n") ++ ">>0: b" = "c ? a>>///* '*/ \"\n>>0: b" ∧
      "c ? a>>" ++ "\n" ++ ">>0: b" = "c ? a>>\n>>0: b" := by
    decide +kernel
  rw [← htexts.1, ← htexts.2.1, ← htexts.2.2.1, ← htexts.2.2.2]
  exact ⟨⟨hblock, (comment_reads_as_blank "x = y *" _ "z; @" (by decide +kernel)).1 hblock⟩,
    ⟨hline, (comment_reads_as_blank "c ? a>>" _ ">>0: b" (by decide +kernel)).2 hline⟩⟩

end LoopAsm
