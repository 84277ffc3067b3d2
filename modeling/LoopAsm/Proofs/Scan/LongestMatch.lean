/-
The scanner cuts a text by longest match. In the middle of a word the mode stands for all that can
complete it (`Reads`), so the first character that leaves nothing ends the longest piece that begins
a word; the pending word is complete, or it is malformed up to the next delimiter. The induction is
on the length of what is left of the text, from a state in the middle of any word (`Midway`).
-/
import LoopAsm.Proofs.Scan.Pieces
import LoopAsm.Proofs.Scan.Records

namespace LoopAsm

open Scan

variable {w rest t : List Char} {m : Mode} {c : Char} {ternary : Bool} {line : Nat} {kind : Kind}

/-! ## Runs -/

namespace Scanner

variable {s : Scanner} {lexeme : String}

/-- The tokens that a text adds. -/
def tokens (s : Scanner) (t : List Char) : List Token :=
  tokensOf (s.feedAll t).2.toList

/-- The text ends between two words, or in a block comment. -/
def Rests (s : Scanner) (t : List Char) : Prop :=
  (s.feedAll t).1.mode = .initial ∨ (s.feedAll t).1.mode.inBlockComment = true

theorem tokens_cons (s : Scanner) (c : Char) (t : List Char) :
    s.tokens (c :: t) = tokensOf (s.feed c).2 ++ (s.feed c).1.tokens t := by
  unfold tokens feedAll
  rw [Transducer.run_cons]
  simp

theorem rests_cons : s.Rests (c :: t) ↔ (s.feed c).1.Rests t := by
  unfold Rests feedAll
  rw [Transducer.run_cons]

/-- A released word is recorded, and the next one starts with the character. -/
theorem feed_release (h : s.mode.move c = .release kind) :
    s.feed c = followedBy (s.emit kind s.pending) (·.feed c) := by
  unfold feed
  rw [h]
  simp only [followedBy, emit_mode, Mode.move]

theorem tokens_release (h : s.mode.move c = .release kind) (t : List Char) :
    s.tokens (c :: t) =
      tokensOf (s.emit kind s.pending).2 ++ (s.emit kind s.pending).1.tokens (c :: t) := by
  rw [tokens_cons, tokens_cons, feed_release h]
  simp [followedBy]

theorem rests_release (h : s.mode.move c = .release kind) (hrests : s.Rests (c :: t)) :
    (s.emit kind s.pending).1.Rests (c :: t) := by
  rw [rests_cons, feed_release h] at hrests
  exact rests_cons.2 hrests

theorem tokensOf_emit : tokensOf (s.emit kind lexeme).2 =
    [⟨if kind = .identifier then Kind.ofWord lexeme else kind, lexeme, s.line⟩] := by
  unfold emit
  dsimp only
  repeat' split
  all_goals rfl

@[simp] theorem emit_ternary : (s.emit kind lexeme).1.ternary = s.ternary := by
  unfold emit
  dsimp only
  repeat' split
  all_goals rfl

@[simp] theorem emit_pending : (s.emit kind lexeme).1.pending = "" := by
  unfold emit
  dsimp only
  repeat' split
  all_goals rfl

theorem emit_line (h : kind ≠ .whitespace) : (s.emit kind lexeme).1.line = s.line := by
  unfold emit
  dsimp only
  rw [if_neg fun hnewline => actual_ne_whitespace h hnewline.1]

theorem emit_blank_line :
    (s.emit .whitespace lexeme).1.line = s.line + if lexeme = "\n" then 1 else 0 := by
  unfold emit
  simp only [reduceCtorEq, if_false, true_and]
  split <;> rfl

/-! ## In the middle of a word -/

/-- The state behind the beginning `w` of a word, on the line that the word started on. -/
structure Midway (s : Scanner) (w : List Char) (line : Nat) : Prop where
  reads : Reads w s.mode.residual
  live : s.mode.Live
  fresh : s.mode = .initial → w = []
  idle : s.mode.idle = true → s.pending = ""
  busy : s.mode.idle = false → s.pending = String.ofList w ∧ '\n' ∉ w
  lines : s.line = line + w.count '\n'

theorem midway_initial (hmode : s.mode = .initial) (hpending : s.pending = "") :
    s.Midway [] s.line := by
  refine ⟨?_, live_of_idle (by rw [hmode]; rfl), fun _ => rfl, fun _ => hpending, ?_, rfl⟩
  · rw [hmode]
    exact .initial
  · rw [hmode]
    intro h
    cases h

theorem midway_comment (hreads : Reads w s.mode.residual) (hidle : s.mode.idle = true)
    (hmode : s.mode ≠ .initial) (hpending : s.pending = "") (hline : s.line = line + w.count '\n') :
    s.Midway w line := by
  refine ⟨hreads, live_of_idle hidle, fun h => absurd h hmode, fun _ => hpending, ?_, hline⟩
  intro h
  rw [hidle] at h
  cases h

theorem midway_emit (hline : (s.emit kind lexeme).1.line = line) :
    (s.emit kind lexeme).1.Midway [] line := by
  rw [← hline]
  exact midway_initial emit_mode emit_pending

/-- A word is pending, or the next character starts one. -/
theorem Midway.pending_eq (h : s.Midway w line) (hmode : s.mode = .initial ∨ s.mode.idle = false) :
    s.pending = String.ofList w ∧ '\n' ∉ w := by
  rcases hmode with hmode | hbusy
  · rw [h.fresh hmode, h.idle (by rw [hmode]; rfl)]
    exact ⟨rfl, by simp⟩
  · exact h.busy hbusy

theorem Midway.line_eq (h : s.Midway w line) (hw : '\n' ∉ w) : s.line = line := by
  rw [h.lines, List.count_eq_zero_of_not_mem hw, Nat.add_zero]

theorem push_append {front : String} :
    front.push c ++ String.ofList w = front ++ String.ofList (c :: w) := by
  simp [← String.toList_inj]

theorem push_ofList : (String.ofList w).push c = String.ofList (w ++ [c]) := by
  simp

/-- A comment passes over what it reads. -/
theorem comment_move (hidle : m.idle = true) (hm : m ≠ .initial) (c : Char) :
    ∃ next, m.move c = .take (.drop next) ∨ m.move c = .take (.newline next) := by
  cases m with
  | initial => exact absurd rfl hm
  | blockComment star =>
    simp only [Mode.move]
    repeat' split
    all_goals simp
  | lineComment =>
    simp only [Mode.move]
    split <;> simp
  | _ => cases hidle

/-- The opening of a comment leads into it. -/
theorem ne_initial_of_comment {next : Mode} (hmove : m.move c = .take (.comment next)) :
    next ≠ .initial := by
  have hfits := move_fits m c
  rw [hmove] at hfits
  rw [hfits.1] at hmove
  rintro rfl
  simp only [Mode.move, Symbol.move] at hmove
  repeat' split at hmove
  all_goals cases hmove

/-- A character that is not passed over belongs to a word. -/
theorem Midway.pending_of_move {move : Move} (h : s.Midway w line) (hmove : s.mode.move c = move)
    (hdrop : ∀ next, move ≠ .take (.drop next)) (hnewline : ∀ next, move ≠ .take (.newline next)) :
    s.pending = String.ofList w ∧ '\n' ∉ w := by
  by_cases hidle : s.mode.idle = true
  · by_cases hmode : s.mode = .initial
    · exact h.pending_eq (.inl hmode)
    · obtain ⟨next, hcomment | hcomment⟩ := comment_move hidle hmode c
      · exact absurd (hmove.symm.trans hcomment) (hdrop next)
      · exact absurd (hmove.symm.trans hcomment) (hnewline next)
  · exact h.pending_eq (.inr (Bool.eq_false_of_not_eq_true hidle))

/-- Where nothing completes the word behind the next character, it ends. -/
theorem Midway.longest (h : s.Midway w line) (hstuck : ∀ k, (s.mode.move c).residual k = 0)
    (t : List Char) : Longest (w ++ c :: t) w (c :: t) := by
  refine h.reads.longest (exists_mem_residual h.live) ?_
  rintro _ _ ⟨⟩ k v hv
  rw [derivative, hstuck] at hv
  exact Language.notMem_zero v hv

theorem Midway.misplaced (h : s.Midway w line)
    (hmode : s.mode = .initial ∨ s.mode.move '\n' = .release .malformed) : Misplaced ternary w :=
  .inl (h.reads.not_word hmode)

theorem midway_grow {next : Mode} (h : s.Midway w line) (hmove : s.mode.move c = .grow next)
    (hnext : next ≠ .malformed) :
    Midway { s with mode := next, pending := s.pending.push c } (w ++ [c]) line := by
  have hfits := move_fits s.mode c
  rw [hmove] at hfits
  obtain ⟨hc, hbusy, -⟩ := hfits
  obtain ⟨hpending, hw⟩ := h.pending_of_move hmove (by simp) (by simp)
  have hreads := h.reads.move c
  rw [hmove] at hreads
  refine ⟨hreads, live_of_grow hmove hnext, ?_, ?_, ?_, ?_⟩
  · intro hinitial
    rw [show next = .initial from hinitial] at hbusy
    cases hbusy
  · intro hidle
    rw [show next.idle = true from hidle] at hbusy
    cases hbusy
  · intro _
    rw [hpending, push_ofList]
    exact ⟨rfl, by simp [hw, hc.symm]⟩
  · show s.line = line + (w ++ [c]).count '\n'
    rw [h.line_eq hw, List.count_eq_zero_of_not_mem (by simp [hw, hc.symm])]
    rfl

/-! ## Words -/

/-- What the rest of a text comes to, from the middle of any word. -/
def Agrees (t : List Char) : Prop :=
  ∀ (s : Scanner) (w : List Char) (line : Nat), s.Midway w line → s.Rests t →
    Lexed s.ternary line (w ++ t) (s.tokens t)

theorem tokens_ofKind : (Category.ofKind kind).tokens ternary line w =
    [⟨if kind = .identifier then Kind.ofWord (String.ofList w) else kind,
      String.ofList w, line⟩] := by
  cases kind <;> rfl

theorem waits_ofKind : (Category.ofKind kind).waits ternary = ternary := by
  cases kind <;> rfl

/-- A recorded word. -/
theorem lexed_emit {tokens : List Token} (hlong : Longest (w ++ rest) w rest)
    (hw : w ∈ (Category.ofKind kind).language) (hline : s.line = line)
    (more : Lexed s.ternary (line + w.count '\n') rest tokens) :
    Lexed s.ternary line (w ++ rest) (tokensOf (s.emit kind (String.ofList w)).2 ++ tokens) := by
  have hk : ¬ (Category.ofKind kind = .question ∧ s.ternary = true) := by
    rintro ⟨hk, -⟩
    cases kind <;> cases hk
  rw [← @waits_ofKind s.ternary kind] at more
  have hlexed := Lexed.word hlong hw hk more
  rw [tokens_ofKind] at hlexed
  rw [tokensOf_emit, hline]
  exact hlexed

theorem lexed_close (ih : Agrees t) (h : s.Midway w line) (hmove : s.mode.move c = .close kind)
    (hrests : (s.emit kind (s.pending.push c)).1.Rests t) :
    Lexed s.ternary line (w ++ c :: t) (tokensOf (s.emit kind (s.pending.push c)).2 ++
      (s.emit kind (s.pending.push c)).1.tokens t) := by
  have hfits := move_fits s.mode c
  rw [hmove] at hfits
  obtain ⟨hpending, hw⟩ := h.pending_of_move hmove (by simp) (by simp)
  have hreads := h.reads.move c
  rw [hmove] at hreads
  obtain ⟨hlong, hword⟩ := Reads.longest_only hreads t
  rw [hpending, push_ofList] at hrests ⊢
  have hline : (s.emit kind (String.ofList (w ++ [c]))).1.line = line + (w ++ [c]).count '\n' := by
    rcases hfits with ⟨rfl, hmode, hc⟩ | ⟨hkind, -, -, hc, -⟩
    · rw [emit_blank_line, h.line_eq hw, h.fresh hmode]
      rcases mem_blanks.1 hc with rfl | rfl | rfl | rfl <;> rfl
    · rw [emit_line hkind, h.line_eq hw, List.count_eq_zero_of_not_mem (by simp [hw, hc.symm])]
      rfl
  have hmore := ih _ _ _ (midway_emit hline) hrests
  rw [emit_ternary] at hmore
  have hlexed := lexed_emit hlong hword (h.line_eq hw) hmore
  rwa [List.append_assoc] at hlexed

/-! ## Comments -/

/-- A pending slash opens a comment. -/
theorem midway_slash {next : Mode} (h : s.Midway w line)
    (hmove : s.mode.move c = .take (.comment next)) :
    Midway { s with mode := next, pending := "" } (w ++ [c]) line := by
  have hfits := move_fits s.mode c
  have hreads := h.reads.move c
  rw [hmove] at hfits hreads
  obtain ⟨-, hidle, hc⟩ := hfits
  refine midway_comment hreads hidle (ne_initial_of_comment hmove) rfl ?_
  show s.line = line + (w ++ [c]).count '\n'
  rw [h.lines]
  simp [hc]

/-- A comment that goes on or ends. -/
theorem lexed_comment {ended : Category} {next : Mode} (ih : Agrees t)
    (hreads : Reads w (commentRest ended next))
    (hended : ended = .blockComment ∨ ended = .lineComment) (hmode : s.mode = next)
    (hidle : next.idle = true) (hpending : s.pending = "")
    (hline : s.line = line + w.count '\n') (hrests : s.Rests t) :
    Lexed s.ternary line (w ++ t) (s.tokens t) := by
  rcases hreads.comment with ⟨hnext, hreads⟩ | ⟨hnext, hreads⟩
  · obtain ⟨hlong, hw⟩ := hreads.longest_only t
    have hmore := ih s [] s.line (midway_initial (hmode.trans hnext) hpending) hrests
    rw [hline] at hmore
    rcases hended with rfl | rfl
    · exact Lexed.word hlong hw (by simp) hmore
    · exact Lexed.word hlong hw (by simp) hmore
  · rw [← hmode] at hreads hidle hnext
    exact ih s w line (midway_comment hreads hidle hnext hpending hline) hrests

/-! ## Malformed words -/

/-- `Agrees`, for all texts up to a length. -/
def AgreesWithin (n : Nat) : Prop :=
  ∀ t : List Char, t.length ≤ n → Agrees t

/-- A malformed word is recorded at the next delimiter. -/
theorem tokens_malformed (hmode : s.mode = .malformed) (hrests : s.Rests t) :
    ∃ s' : Scanner, s'.Midway [] s.line ∧ s'.ternary = s.ternary ∧
      s'.Rests (t.dropWhile isStray) ∧
      s.tokens t =
        ⟨.malformed, s.pending ++ String.ofList (t.takeWhile isStray), s.line⟩ ::
          s'.tokens (t.dropWhile isStray) := by
  induction t generalizing s with
  | nil =>
    rcases hrests with h | h
    · rw [show s.mode = .initial from h] at hmode
      cases hmode
    · rw [show s.feedAll [] = (s, #[]) from rfl, hmode] at h
      cases h
  | cons c t ih =>
    by_cases hc : isDelimiter c = true
    · have hmove : s.mode.move c = .release .malformed := by
        rw [hmode]
        exact if_pos hc
      have hmid : (s.emit .malformed s.pending).1.Midway [] s.line :=
        midway_emit (emit_line (by decide))
      refine ⟨(s.emit .malformed s.pending).1, hmid, emit_ternary, ?_, ?_⟩
      · simpa [isStray, hc] using rests_release hmove hrests
      · rw [tokens_release hmove, tokensOf_emit]
        simp [isStray, hc]
    · have hmove : s.mode.move c = .grow .malformed := by
        rw [hmode]
        exact if_neg hc
      have hfeed : s.feed c = ({ s with mode := .malformed, pending := s.pending.push c }, []) := by
        unfold feed
        rw [hmove]
        rfl
      rw [rests_cons, hfeed] at hrests
      obtain ⟨s', hmid, hternary, hrests', htokens⟩ := ih rfl hrests
      refine ⟨s', hmid, hternary, ?_, ?_⟩
      · simpa [isStray, hc] using hrests'
      · rw [tokens_cons, hfeed, htokens]
        simp [isStray, hc, tokensOf, push_append]

/-- What cannot become a word runs on to the next delimiter. -/
theorem lexed_malformed (ih : AgreesWithin t.length)
    (hlong : Longest (w ++ rest) w rest) (hw : Misplaced s.ternary w) (hopen : ¬ LeftOpen w rest)
    (hmode : s.mode = .malformed)
    (htake : s.pending ++ String.ofList (t.takeWhile isStray) =
      String.ofList (w ++ rest.takeWhile isStray))
    (hdrop : rest.dropWhile isStray = t.dropWhile isStray)
    (hrests : s.Rests t) : Lexed s.ternary s.line (w ++ rest) (s.tokens t) := by
  obtain ⟨s', hmid, hternary, hrests', htokens⟩ := tokens_malformed hmode hrests
  have hlength := (List.dropWhile_suffix (l := t) isStray).length_le
  have hmore := ih _ hlength s' [] s.line hmid hrests'
  rw [hternary, List.nil_append, ← hdrop] at hmore
  rw [htokens, htake, ← hdrop]
  exact .malformed hlong hw hopen hmore

theorem lexed_spoil (ih : AgreesWithin t.length) (h : s.Midway w line)
    (hmove : s.mode.move c = .grow .malformed)
    (hrests : Rests { s with mode := .malformed, pending := s.pending.push c } t) :
    Lexed s.ternary line (w ++ c :: t)
      (tokens { s with mode := .malformed, pending := s.pending.push c } t) := by
  obtain ⟨hpending, hw⟩ := h.pending_of_move hmove (by simp) (by simp)
  have hstops := move_stops s.mode c
  rw [hmove] at hstops
  obtain ⟨hc, hmode⟩ := hstops
  have hlong := h.longest (c := c) (fun k => by rw [hmove]; rfl) t
  have htake : s.pending.push c ++ String.ofList (t.takeWhile isStray) =
      String.ofList (w ++ (c :: t).takeWhile isStray) := by
    have hstray : isStray c = true := by simp [isStray, hc]
    rw [push_append, hpending, ← String.ofList_append, List.takeWhile_cons_of_pos hstray]
  rw [← h.line_eq hw]
  exact lexed_malformed (s := { s with mode := .malformed, pending := s.pending.push c }) ih hlong
    (h.misplaced hmode) (fun hopen => by cases hopen.1) rfl htake (by simp [isStray, hc]) hrests

/-! ## Conditionals -/

/-- A question mark waits for its colon, unless one does already. -/
theorem lexed_question (ih : AgreesWithin t.length) (hpending : s.pending = "")
    (hrests : (s.take .question '?').1.Rests t) :
    Lexed s.ternary s.line ('?' :: t) ((s.take .question '?').1.tokens t) := by
  have hreads : Reads ['?'] (only .question) := Reads.initial.move '?'
  obtain ⟨hlong, hw⟩ := hreads.longest_only t
  unfold take at hrests ⊢
  dsimp only at hrests ⊢
  split at hrests
  · rename_i hternary
    rw [if_pos hternary]
    have hopen : ¬ LeftOpen ['?'] t := by
      rintro ⟨-, v, hv⟩
      rw [← hreads] at hv
      cases (mem_only.1 hv).2
    exact lexed_malformed (s := { s with mode := .malformed, pending := s.pending.push '?' }) ih
      hlong (.inr ⟨hw, hternary⟩) hopen rfl (by simp [hpending]) rfl hrests
  · rename_i hternary
    rw [if_neg hternary]
    have hmore := ih t (Nat.le_refl _) _ [] s.line
      (midway_initial (s := { s with mode := .initial, ternary := true }) rfl hpending) hrests
    exact Lexed.word hlong hw (fun h => hternary h.2) hmore

/-- A colon is the second half of a conditional operator if a question mark waits for it. -/
theorem lexed_colon (ih : Agrees t) (hpending : s.pending = "")
    (hrests : (s.take .colon ':').1.Rests t) :
    Lexed s.ternary s.line (':' :: t)
      (tokensOf (s.take .colon ':').2 ++ (s.take .colon ':').1.tokens t) := by
  have hreads : Reads [':'] (only .colon) := Reads.initial.move ':'
  obtain ⟨hlong, hw⟩ := hreads.longest_only t
  unfold take at hrests ⊢
  dsimp only at hrests ⊢
  split at hrests
  · rename_i hternary
    rw [if_pos hternary, tokensOf_emit, hternary]
    have hmore := ih _ _ _ (midway_emit (emit_line (by decide))) hrests
    exact Lexed.word hlong hw (by simp) hmore
  · rename_i hternary
    rw [hpending] at hrests ⊢
    rw [if_neg hternary, tokensOf_emit]
    have hmore := ih _ _ _ (midway_emit (emit_line (by decide))) hrests
    rw [emit_ternary] at hmore
    rw [Bool.eq_false_of_not_eq_true hternary] at hmore ⊢
    exact Lexed.word hlong hw (by simp) hmore

/-! ## Steps -/

theorem lexed_take {tk : Take} (ih : AgreesWithin t.length) (h : s.Midway w line)
    (hmove : s.mode.move c = .take tk) (hrests : s.Rests (c :: t)) :
    Lexed s.ternary line (w ++ c :: t) (s.tokens (c :: t)) := by
  have hfeed : s.feed c = s.take tk c := by
    unfold feed
    rw [hmove]
  have hfits := move_fits s.mode c
  have hreads := h.reads.move c
  rw [hmove] at hfits hreads
  rw [rests_cons, hfeed] at hrests
  rw [tokens_cons, hfeed]
  have iht : Agrees t := ih t (Nat.le_refl _)
  have happend : w ++ c :: t = (w ++ [c]) ++ t := by simp
  -- A word that goes on is left to the induction; one that ends here is cut off.
  cases tk with
  | grow next =>
    by_cases hnext : next = .malformed
    · subst hnext
      exact lexed_spoil ih h hmove hrests
    · rw [happend]
      exact iht _ _ _ (midway_grow h hmove hnext) hrests
  | close kind => exact lexed_close iht h hmove hrests
  | drop next =>
    obtain ⟨hidle, hnext, hc⟩ := hfits
    rw [happend]
    refine lexed_comment (s := { s with mode := next }) iht hreads (.inl rfl) rfl hnext
      (h.idle hidle) ?_ hrests
    show s.line = line + (w ++ [c]).count '\n'
    rw [h.lines]
    simp [hc]
  | comment next =>
    rw [happend]
    exact iht _ _ _ (midway_slash h hmove) hrests
  | newline next =>
    obtain ⟨hidle, hnext, rfl⟩ := hfits
    rw [happend]
    refine lexed_comment (s := { s with mode := next, line := s.line + 1, lineWords := 0 }) iht
      hreads (.inr rfl) rfl hnext (h.idle hidle) ?_ hrests
    show s.line + 1 = line + (w ++ ['\n']).count '\n'
    rw [h.lines]
    simp [Nat.add_assoc]
  | question =>
    obtain ⟨hmode, rfl⟩ := hfits
    obtain rfl := h.fresh hmode
    have hlexed := lexed_question ih (h.idle (by rw [hmode]; rfl)) hrests
    rw [h.line_eq (by simp)] at hlexed
    have hnone : tokensOf (s.take .question '?').2 = [] := by
      unfold take
      dsimp only
      split <;> rfl
    rw [hnone]
    exact hlexed
  | colon =>
    obtain ⟨hmode, rfl⟩ := hfits
    obtain rfl := h.fresh hmode
    have hlexed := lexed_colon iht (h.idle (by rw [hmode]; rfl)) hrests
    rw [h.line_eq (by simp)] at hlexed
    exact hlexed

/-- A released word, and what starts behind it. -/
theorem lexed_release (ih : AgreesWithin t.length) (h : s.Midway w line)
    (hmove : s.mode.move c = .release kind) (hrests : s.Rests (c :: t)) :
    Lexed s.ternary line (w ++ c :: t) (s.tokens (c :: t)) := by
  have hfits := move_fits s.mode c
  have hstops := move_stops s.mode c
  rw [hmove] at hfits hstops
  obtain ⟨hblank, hbusy, -⟩ := hfits
  obtain ⟨hnewline, hdelim⟩ := hstops
  obtain ⟨hpending, hw⟩ := h.busy hbusy
  have hlong := h.longest (c := c) (fun k => by rw [hmove]; rfl) t
  have hrests' := rests_release hmove hrests
  -- The character starts the next word: no shorter text, but a state that takes it.
  have hmore : Lexed s.ternary line (c :: t) ((s.emit kind s.pending).1.tokens (c :: t)) := by
    have hline : (s.emit kind s.pending).1.line = line :=
      (emit_line hblank).trans (h.line_eq hw)
    have hlexed := lexed_take ih (midway_emit hline) (by rw [emit_mode]; rfl) hrests'
    rwa [emit_ternary] at hlexed
  rw [tokens_release hmove]
  by_cases hkind : kind = .malformed
  · subst hkind
    have hlexed : Lexed s.ternary line (w ++ c :: t) (⟨.malformed, String.ofList
        (w ++ (c :: t).takeWhile isStray), line⟩ :: _) :=
      .malformed hlong (h.misplaced (.inr hnewline)) (fun hopen => by cases hopen.1)
        (by rw [List.dropWhile_cons_of_neg (by simp [isStray, hdelim rfl])]; exact hmore)
    rw [List.takeWhile_cons_of_neg (by simp [isStray, hdelim rfl]), List.append_nil, ← hpending,
      ← h.line_eq hw] at hlexed
    rw [tokensOf_emit, ← h.line_eq hw]
    exact hlexed
  · have hword : w ∈ (Category.ofKind kind).language := by
      rw [h.reads.mem_iff, nil_mem_residual, completes_iff hnewline]
      exact ⟨hkind, rfl⟩
    rw [hpending] at hmore ⊢
    refine lexed_emit hlong hword (h.line_eq hw) ?_
    rw [List.count_eq_zero_of_not_mem hw]
    exact hmore

/-! ## Whole texts -/

/-- A text can end in a block comment only. -/
theorem agrees_nil : Agrees [] := by
  intro s w line h hrests
  rcases hrests with hmode | hcomment
  · obtain rfl := h.fresh hmode
    exact .done
  · obtain ⟨star, hmode⟩ : ∃ star, s.mode = .blockComment star := by
      revert hcomment
      show s.mode.inBlockComment = true → _
      cases s.mode <;> simp [Mode.inBlockComment]
    have hlong : Longest (w ++ []) w [] :=
      h.reads.longest (exists_mem_residual h.live) fun c rest' hrest => by cases hrest
    have hw : ∀ k : Category, w ∉ k.language := by
      intro k hk
      rw [h.reads.mem_iff, nil_mem_residual, hmode] at hk
      exact not_completes rfl hk
    have hopen : LeftOpen w [] := by
      obtain ⟨v, hv⟩ := exists_mem_blockRest star
      refine ⟨rfl, v, (h.reads .blockComment v).1 ?_⟩
      rw [hmode]
      exact hv
    rw [List.append_nil] at hlong ⊢
    exact .openComment hlong hw hopen

/-- From the middle of any word, the scanner cuts the rest of a text by longest match. -/
theorem agrees (t : List Char) : Agrees t := by
  induction hn : t.length using Nat.strong_induction_on generalizing t with
  | _ n ih =>
    cases t with
    | nil => exact agrees_nil
    | cons c t =>
      rw [List.length_cons] at hn
      have hshorter : AgreesWithin t.length :=
        fun t' ht' => ih t'.length (by omega) t' rfl
      intro s w line h hrests
      cases hmove : s.mode.move c with
      | take tk => exact lexed_take hshorter h hmove hrests
      | release kind => exact lexed_release hshorter h hmove hrests

theorem move_at_newline (m : Mode) : m.move '\n' = .close .whitespace ∨
    (∃ kind, m.move '\n' = .release kind) ∨ m.move '\n' = .take (.newline .initial) ∨
    m.move '\n' = .take (.newline (.blockComment false)) := by
  cases m with
  | initial => exact .inl rfl
  | word => exact .inr (.inl ⟨_, rfl⟩)
  | quoted q part => exact .inr (.inl ⟨_, quote_newline q part⟩)
  | number part => cases part <;> exact .inr (.inl ⟨_, rfl⟩)
  | symbol s => cases s <;> exact .inr (.inl ⟨_, rfl⟩)
  | blockComment star => exact .inr (.inr (.inr rfl))
  | lineComment => exact .inr (.inr (.inl rfl))
  | malformed => exact .inr (.inl ⟨_, rfl⟩)

/-- A newline ends every word. -/
theorem rests_newline (s : Scanner) : s.Rests ['\n'] := by
  show (s.feed '\n').1.mode = .initial ∨ (s.feed '\n').1.mode.inBlockComment = true
  rcases move_at_newline s.mode with h | ⟨kind, h⟩ | h | h
  · unfold feed
    rw [h]
    exact .inl emit_mode
  · unfold feed
    rw [h]
    exact .inl emit_mode
  · unfold feed
    rw [h]
    exact .inl rfl
  · unfold feed
    rw [h]
    exact .inr rfl

theorem rests_append (s : Scanner) (t : List Char) : s.Rests (t ++ ['\n']) := by
  induction t generalizing s with
  | nil => exact rests_newline s
  | cons c t ih => exact rests_cons.2 (ih _)

end Scanner

theorem tokensOf_scan (text : String) :
    tokensOf (scan text) = ({} : Scanner).tokens (text.toList ++ ['\n']) := by
  rw [scan_eq, tokensOf_append]
  exact List.append_nil _

/-- The scanner cuts a text by longest match, with one newline at the end. -/
theorem lexed_scan (text : String) :
    Lexed false 1 (text.toList ++ ['\n']) (tokensOf (scan text)) := by
  rw [tokensOf_scan]
  exact Scanner.agrees _ {} [] 1 (Scanner.midway_initial rfl rfl) (Scanner.rests_append _ _)

/-- The scanner cuts every text by longest match: its tokens are the only ones that the words of
the language allow, read from the front with one newline at the end. -/
theorem lexed_iff_scan (text : String) (tokens : List Token) :
    Lexed false 1 (text.toList ++ ['\n']) tokens ↔ tokens = tokensOf (scan text) := by
  constructor
  · intro h
    exact h.unique (lexed_scan text)
  · rintro rfl
    exact lexed_scan text

/-- Of three plus signs the first two are one word, and no word begins with `0x.`. -/
example : (tokensOf (scan "a+++0x.")).map Token.spelling =
    [(.identifier, "a"), (.unaryOrIncDec, "++"), (.addSub, "+"), (.malformed, "0x"),
      (.bracketOrDot, "."), (.whitespace, "\n")] := by
  decide

end LoopAsm
