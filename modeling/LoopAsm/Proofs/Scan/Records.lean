/-
The records of a scan survive the token stream. While a text is scanned, no newline is pending,
no carriage return outside quoted literals and malformed words, and something is pending exactly
where the mode says so; each word that is recorded is on the line behind the last line counter.
Words and lines are counted against the characters read so far, which keeps all counters within
their bound.
-/
import LoopAsm.Proofs.Scan.Moves
import LoopAsm.Proofs.Wire.RoundTrip
import LoopAsm.Scan.Scanner
import Mathlib.Algebra.Group.Nat.Defs

namespace LoopAsm

open Scan Wire
open Numeral (counterLimit)

/-! ## The state between two characters -/

/-- The words that are pending in a mode. -/
def Scan.Mode.load (m : Mode) : Nat :=
  if m.idle then 0 else 1

/-- What holds of a scanner behind `n` characters. -/
structure Scanner.Sound (n : Nat) (s : Scanner) : Prop where
  noNewline : '\n' ∉ s.pending.toList
  noReturn : s.mode.plain = true → '\r' ∉ s.pending.toList
  idle : s.mode.idle = true → s.pending = ""
  busy : s.mode.idle = false → s.pending ≠ ""
  words : s.words + s.mode.load ≤ n
  lineWords : s.lineWords ≤ s.words
  line : s.line + s.mode.load ≤ n + 1

/-- What the scanner did at a step survives, and the step leads to a sound state. -/
structure Scanner.Goes (n : Nat) (s : Scanner) (next : Scanner × List Record) : Prop where
  sound : next.1.Sound n
  faithful : FaithfulAll s.line next.2 next.1.line

namespace Scanner

variable {s : Scanner} {n : Nat} {c : Char} {kind : Kind} {lexeme : String}

@[simp] theorem emit_mode : (s.emit kind lexeme).1.mode = .initial := by
  unfold emit
  dsimp only
  repeat' split
  all_goals rfl

/-- Between two words, only the counters matter. -/
theorem sound_idle (hmode : s.mode.idle = true) (hpending : s.pending = "")
    (hwords : s.words ≤ n) (hlineWords : s.lineWords ≤ s.words) (hline : s.line ≤ n + 1) :
    s.Sound n := by
  have hload : s.mode.load = 0 := if_pos hmode
  refine ⟨by simp [hpending], by simp [hpending], fun _ => hpending, ?_, ?_, hlineWords, ?_⟩
  · intro h
    rw [hmode] at h
    cases h
  · omega
  · omega

theorem goes_closeLine (h : s.Sound n) (hmode : s.mode.idle = true) (hn : n + 2 < counterLimit) :
    Goes (n + 1) s s.closeLine := by
  have hwords := h.words
  have hlineWords := h.lineWords
  have hline := h.line
  have hafter : Decoder.lineAfter s.line (.line s.line s.lineWords) = s.line + 1 :=
    Nat.mod_eq_of_lt (by omega)
  refine ⟨sound_idle hmode (h.idle hmode) ?_ (Nat.zero_le _) ?_, .cons ⟨?_, ?_⟩ ?_⟩
  · show s.words ≤ n + 1
    omega
  · show s.line + 1 ≤ n + 1 + 1
    omega
  · omega
  · omega
  · rw [hafter]
    exact .nil _

theorem goes_emit (hwords : s.words < n) (hlineWords : s.lineWords ≤ s.words)
    (hline : s.line ≤ n) (hn : n + 1 < counterLimit)
    (h : Survives s.line ⟨if kind = .identifier then Kind.ofWord lexeme else kind, lexeme, s.line⟩) :
    Goes n s (s.emit kind lexeme) := by
  unfold emit
  dsimp only
  generalize (if kind = .identifier then Kind.ofWord lexeme else kind) = actual at h
  split
  · have hafter : Decoder.lineAfter s.line (.line s.line (s.lineWords + 1)) = s.line + 1 :=
      Nat.mod_eq_of_lt (by omega)
    refine ⟨sound_idle rfl rfl hwords (Nat.zero_le _) (Nat.succ_le_succ hline), ?_⟩
    refine .cons h (.cons (show s.line < counterLimit ∧ s.lineWords + 1 < counterLimit by omega) ?_)
    show FaithfulAll (Decoder.lineAfter s.line (.line s.line (s.lineWords + 1))) [] (s.line + 1)
    rw [hafter]
    exact .nil _
  · exact ⟨sound_idle rfl rfl hwords (Nat.succ_le_succ hlineWords) (Nat.le_succ_of_le hline),
      .cons h (.nil _)⟩

/-! ## Words that are recorded -/

/-- No word of letters is a blank. -/
theorem actual_ne_whitespace (h : kind ≠ .whitespace) :
    (if kind = .identifier then Kind.ofWord lexeme else kind) ≠ .whitespace := by
  split
  · rcases Kind.ofWord_cases lexeme with hw | hw | hw <;> rw [hw] <;> decide
  · exact h

theorem survives_blank (hc : c ∈ blanks) (line : Nat) :
    Survives line ⟨.whitespace, "".push c, line⟩ := by
  refine ⟨by simp, fun h => absurd rfl h, fun h => absurd rfl h, fun _ => ?_, fun _ => rfl, ?_⟩
  · have hescape : unescape (escape [c]) = [c] := by
      rcases mem_blanks.1 hc with rfl | rfl | rfl | rfl <;> decide
    simpa using hescape
  · intro h
    cases h

theorem survives_word (hempty : lexeme ≠ "") (hnewline : '\n' ∉ lexeme.toList)
    (hreturn : kind ≠ .malformed → lexeme.toList.getLast? ≠ some '\r') (hkind : kind ≠ .whitespace)
    {line : Nat} (hline : line < counterLimit) : Survives line ⟨kind, lexeme, line⟩ :=
  ⟨hempty, fun _ => hnewline, fun _ => hreturn, fun h => absurd h hkind, fun _ => rfl,
    fun _ => hline⟩

/-! ## Steps -/

theorem goes_grow {next : Mode} (h : s.Sound n) (hc : c ≠ '\n') (hnext : next.idle = false)
    (hplain : next.plain = true → c ≠ '\r' ∧ (s.mode = .initial ∨ s.mode.plain = true)) :
    Goes (n + 1) s ({ s with mode := next, pending := s.pending.push c }, []) := by
  have hwords := h.words
  have hline := h.line
  have hload : next.load = 1 := by simp [Mode.load, hnext]
  have hreturn : next.plain = true → '\r' ∉ (s.pending.push c).toList := by
    intro hp
    obtain ⟨hc, hmode | hmode⟩ := hplain hp
    · simp [h.idle (by rw [hmode]; rfl), hc.symm]
    · simp [h.noReturn hmode, hc.symm]
  refine ⟨⟨?_, hreturn, ?_, ?_, ?_, h.lineWords, ?_⟩, .nil _⟩
  · simp [h.noNewline, hc.symm]
  · intro hidle
    rw [hnext] at hidle
    cases hidle
  · simp
  · show s.words + next.load ≤ n + 1
    omega
  · show s.line + next.load ≤ n + 1 + 1
    omega

theorem goes_close (h : s.Sound n) (hk : (Move.close kind).Fits s.mode c)
    (hn : n + 2 < counterLimit) : Goes (n + 1) s (s.emit kind (s.pending.push c)) := by
  have hwords := h.words
  have hline := h.line
  refine goes_emit (by omega) h.lineWords (by omega) hn ?_
  rcases hk with ⟨rfl, hmode, hc⟩ | ⟨hkind, -, hident, hc, hr⟩
  · rw [if_neg (by decide), h.idle (by rw [hmode]; rfl)]
    exact survives_blank hc _
  · rw [if_neg hident]
    exact survives_word (by simp) (by simp [h.noNewline, hc.symm]) (by simp [hr]) hkind (by omega)

theorem goes_take {t : Take} (h : s.Sound n) (ht : (Move.take t).Fits s.mode c)
    (hn : n + 2 < counterLimit) : Goes (n + 1) s (s.take t c) := by
  have hwords : s.words ≤ n := Nat.le_of_add_right_le h.words
  have hline : s.line ≤ n + 1 := Nat.le_of_add_right_le h.line
  cases t with
  | grow next => exact goes_grow h ht.1 ht.2.1 ht.2.2
  | close kind => exact goes_close h ht hn
  | drop next =>
    obtain ⟨hmode, hnext, -⟩ := ht
    exact ⟨sound_idle hnext (h.idle hmode) (Nat.le_succ_of_le hwords) h.lineWords
      (Nat.le_succ_of_le hline), .nil _⟩
  | comment next =>
    exact ⟨sound_idle ht.2.1 rfl (Nat.le_succ_of_le hwords) h.lineWords (Nat.le_succ_of_le hline),
      .nil _⟩
  | newline next =>
    obtain ⟨hmode, hnext, -⟩ := ht
    have hsound : Sound n { s with mode := next } :=
      sound_idle hnext (h.idle hmode) hwords h.lineWords hline
    obtain ⟨hsound', hfaithful⟩ := goes_closeLine hsound hnext hn
    exact ⟨hsound', hfaithful⟩
  | question =>
    obtain ⟨hmode, rfl⟩ := ht
    have hidle : s.mode.idle = true := by rw [hmode]; rfl
    unfold take
    dsimp only
    split
    · exact goes_grow h (by decide) rfl (by intro hp; cases hp)
    · exact ⟨sound_idle rfl (h.idle hidle) (Nat.le_succ_of_le hwords) h.lineWords
        (Nat.le_succ_of_le hline), .nil _⟩
  | colon =>
    obtain ⟨-, rfl⟩ := ht
    unfold take
    dsimp only
    split
    · have hsurvives : Survives s.line ⟨.ternaryColon, "?:", s.line⟩ :=
        survives_word (by decide) (by decide) (by decide) (by decide) (by omega)
      obtain ⟨hsound, hfaithful⟩ : Goes (n + 1) { s with ternary := false }
          (emit { s with ternary := false } .ternaryColon "?:") :=
        goes_emit (Nat.lt_succ_of_le hwords) h.lineWords hline hn hsurvives
      exact ⟨hsound, hfaithful⟩
    · exact goes_close h (.inr (by decide)) hn

theorem goes_feed (h : s.Sound n) (c : Char) (hn : n + 2 < counterLimit) :
    Goes (n + 1) s (s.feed c) := by
  have hfits := move_fits s.mode c
  unfold feed
  split
  · rename_i t ht
    rw [ht] at hfits
    exact goes_take h hfits hn
  · rename_i kind hk
    rw [hk] at hfits
    obtain ⟨hkind, hbusy, hplain⟩ := hfits
    have hwords := h.words
    have hline := h.line
    rw [Mode.load, if_neg (by rw [hbusy]; decide)] at hwords hline
    have hword : Survives s.line
        ⟨if kind = .identifier then Kind.ofWord s.pending else kind, s.pending, s.line⟩ := by
      refine survives_word (h.busy hbusy) h.noNewline ?_ (actual_ne_whitespace hkind) (by omega)
      intro hmal hlast
      have hmode : s.mode.plain = true := hplain fun hkind' => hmal (by rw [hkind']; rfl)
      exact h.noReturn hmode (List.mem_of_getLast? hlast)
    have hemit := goes_emit hwords h.lineWords (by omega) (by omega) hword
    have htake := goes_take hemit.sound (by rw [emit_mode]; exact fits_start c) hn
    exact ⟨htake.sound, hemit.faithful.append htake.faithful⟩

theorem goes_feedAll (h : s.Sound n) (cs : List Char) (hn : n + cs.length + 1 < counterLimit) :
    (s.feedAll cs).1.Sound (n + cs.length) ∧
      FaithfulAll s.line (s.feedAll cs).2.toList (s.feedAll cs).1.line := by
  induction cs generalizing s n with
  | nil => exact ⟨h, .nil _⟩
  | cons c cs ih =>
    rw [List.length_cons] at hn
    have hstep := goes_feed h c (by omega)
    obtain ⟨hsound, hfaithful⟩ := ih hstep.sound (by omega)
    unfold feedAll at hsound hfaithful ⊢
    rw [Transducer.run_cons, List.length_cons]
    refine ⟨by rw [Nat.add_comm cs.length 1, ← Nat.add_assoc]; exact hsound, ?_⟩
    simpa using hstep.faithful.append hfaithful

end Scanner

/-- The end of a text acts as one more newline, and the grand total follows. -/
theorem scan_eq (text : String) :
    scan text = (({} : Scanner).feedAll (text.toList ++ ['\n'])).2.toList ++
      [.total (({} : Scanner).feedAll (text.toList ++ ['\n'])).1.words] := by
  unfold scan Scanner.feedAll
  rw [Transducer.run_append, Transducer.run_cons, Transducer.run_nil]
  simp [Scanner.finish, Scanner.followedBy]

theorem faithful_scan (text : String) (h : text.length < 2 ^ 63) :
    ∃ line, FaithfulAll 1 (scan text) line := by
  have hstart : ({} : Scanner).Sound 0 :=
    Scanner.sound_idle rfl rfl (Nat.le_refl 0) (Nat.le_refl 0) (Nat.le_refl 1)
  have hlength : (text.toList ++ ['\n']).length = text.length + 1 := by
    simp [String.length_toList]
  have hlimit : 0 + (text.toList ++ ['\n']).length + 1 < counterLimit := by
    rw [hlength, counterLimit]
    omega
  obtain ⟨hsound, hfaithful⟩ := Scanner.goes_feedAll hstart _ hlimit
  have hwords : (({} : Scanner).feedAll (text.toList ++ ['\n'])).1.words < counterLimit := by
    have := hsound.words
    omega
  rw [scan_eq]
  exact ⟨_, hfaithful.append (.cons hwords (.nil _))⟩

/-- Every scan survives the token stream: written and read back, it is the same list of records.
A text has fewer than `2 ^ 63` characters, so that the counters of the stream are large enough
for it. -/
theorem decode_encodeAll_scan (text : String) (h : text.length < 2 ^ 63) :
    Wire.decode (Wire.encodeAll (scan text)) = .ok (scan text) := by
  obtain ⟨line, hfaithful⟩ := faithful_scan text h
  exact Wire.decode_encodeAll hfaithful

/-- Blanks of all sorts, a malformed word that looks like a written one, conditionals and an
unclosed comment. -/
theorem decode_encodeAll_scan_oddities :
    "x\t= a ? ? 3 : '\r';\r\n\"b at line 7\n0x at line \x00 /* c".length < 2 ^ 63 ∧
    Wire.decode (Wire.encodeAll (scan "x\t= a ? ? 3 : '\r';\r\n\"b at line 7\n0x at line \x00 /* c")) =
      .ok (scan "x\t= a ? ? 3 : '\r';\r\n\"b at line 7\n0x at line \x00 /* c") :=
  ⟨by decide, decode_encodeAll_scan _ (by decide)⟩

end LoopAsm
