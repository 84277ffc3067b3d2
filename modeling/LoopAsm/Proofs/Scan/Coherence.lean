/-
The states that a scanner reaches, whatever it is fed. What is pending belongs to the language of
the mode: each step keeps this, by the move that it makes, and so does every run of calls. Nothing
more can be said, for each text of a language is pending behind some text. No word is recorded that
is empty or has a newline in it, and no character is looked at more than twice.
-/
import LoopAsm.Proofs.Scan.Growth
import LoopAsm.Proofs.Scan.Interleaving

namespace LoopAsm

open Scan

/-! ## Turns -/

namespace Scanner

variable {s : Scanner} {c : Char} {n : Nat} {kind : Kind} {t : Take}
  {next : Scanner × List Record}

/-- A character is read in turns, each by the move of the mode as it is then: a word that is
released is recorded and the character is looked at once more. The number is that of the turns. -/
inductive Turns (c : Char) : Scanner → Nat → Scanner × List Record → Prop where
  | last {s : Scanner} {t : Take} (h : s.mode.move c = .take t) : Turns c s 1 (s.take t c)
  | again {s : Scanner} {kind : Kind} {n : Nat} {next : Scanner × List Record}
      (h : s.mode.move c = .release kind) (more : Turns c (s.emit kind s.pending).1 n next) :
      Turns c s (n + 1) (next.1, (s.emit kind s.pending).2 ++ next.2)

theorem turns_take (h : s.mode.move c = .take t) :
    Turns c s n next ↔ n = 1 ∧ next = s.take t c := by
  constructor
  · intro hturns
    cases hturns with
    | last h' =>
      rw [h] at h'
      cases h'
      exact ⟨rfl, rfl⟩
    | again h' more =>
      rw [h] at h'
      cases h'
  · rintro ⟨rfl, rfl⟩
    exact .last h

/-- Behind a released word the character is taken, since every character starts something. -/
theorem turns_release (h : s.mode.move c = .release kind) :
    Turns c s n next ↔ n = 2 ∧ next = followedBy (s.emit kind s.pending) (·.take (start c) c) := by
  have hstart : (s.emit kind s.pending).1.mode.move c = .take (start c) := by
    rw [emit_mode]
    rfl
  constructor
  · intro hturns
    cases hturns with
    | last h' =>
      rw [h] at h'
      cases h'
    | again h' more =>
      rw [h] at h'
      cases h'
      obtain ⟨rfl, rfl⟩ := (turns_take hstart).1 more
      exact ⟨rfl, rfl⟩
  · rintro ⟨rfl, rfl⟩
    exact .again h (.last hstart)

/-- Whatever the state and the character, one turn is enough or two are. -/
theorem exists_turns (s : Scanner) (c : Char) :
    ∃ n, (n = 1 ∨ n = 2) ∧ ∀ k next, Turns c s k next ↔ k = n ∧ next = s.feed c := by
  unfold feed
  cases hmove : s.mode.move c with
  | take t => exact ⟨1, .inl rfl, fun k next => turns_take hmove⟩
  | release kind => exact ⟨2, .inr rfl, fun k next => turns_release hmove⟩

end Scanner

/-! ## What a step keeps -/

/-- A token with a lexeme; a newline stands alone, as a blank. -/
structure Token.Presentable (t : Token) : Prop where
  nonempty : t.lexeme ≠ ""
  newline : '\n' ∈ t.lexeme.toList → t.kind = .whitespace ∧ t.lexeme = "\n"

namespace Scanner

variable {s : Scanner} {c : Char} {kind : Kind} {t : Take} {lexeme : String}
  {a : Scanner × List Record} {f : Scanner → Scanner × List Record}

/-- What is pending belongs to the language of the mode. -/
def Fitting (s : Scanner) : Prop :=
  s.pending.toList ∈ s.mode.language

/-- A step leads to a fitting state and records presentable tokens. -/
structure Keeps (next : Scanner × List Record) : Prop where
  fitting : next.1.Fitting
  tokens : ∀ t ∈ tokensOf next.2, t.Presentable

theorem Keeps.followedBy (ha : Keeps a) (hf : Keeps (f a.1)) : Keeps (followedBy a f) := by
  refine ⟨hf.fitting, fun t ht => ?_⟩
  simp only [Scanner.followedBy, tokensOf_append, List.mem_append] at ht
  rcases ht with ht | ht
  · exact ha.tokens t ht
  · exact hf.tokens t ht

theorem fitting_idle (hmode : s.mode.idle = true) (hpending : s.pending = "") : s.Fitting := by
  rw [Fitting, mem_language_of_idle hmode, hpending]
  rfl

theorem Fitting.pending_eq (h : s.Fitting) (hmode : s.mode.idle = true) : s.pending = "" :=
  String.toList_eq_nil_iff.1 ((mem_language_of_idle hmode).1 h)

theorem keeps_silent (h : s.Fitting) : Keeps (s, []) :=
  ⟨h, fun _ ht => nomatch ht⟩

theorem keeps_emit (hempty : lexeme ≠ "")
    (hnewline : '\n' ∈ lexeme.toList → kind = .whitespace ∧ lexeme = "\n") :
    Keeps (s.emit kind lexeme) := by
  refine ⟨fitting_idle (by rw [emit_mode]; rfl) emit_pending, fun t ht => ?_⟩
  rw [tokensOf_emit] at ht
  rw [List.mem_singleton.1 ht]
  refine ⟨hempty, fun hmem => ?_⟩
  obtain ⟨hkind, hlexeme⟩ := hnewline hmem
  rw [hkind]
  exact ⟨rfl, hlexeme⟩

theorem keeps_grow {next : Mode} (h : s.Fitting) (hmove : s.mode.move c = .grow next) :
    Keeps ({ s with mode := next, pending := s.pending.push c }, []) := by
  refine keeps_silent ?_
  show (s.pending.push c).toList ∈ next.language
  rw [String.toList_push]
  by_cases hnext : next = .malformed
  · subst hnext
    exact concat_mem_malformed h hmove
  · exact concat_mem_language h hmove hnext

theorem keeps_close (h : s.Fitting) (hfits : (Move.close kind).Fits s.mode c) :
    Keeps (s.emit kind (s.pending.push c)) := by
  refine keeps_emit (by simp) fun hmem => ?_
  rcases hfits with ⟨rfl, hmode, -⟩ | ⟨-, -, -, hc, -⟩
  · rw [h.pending_eq (by rw [hmode]; rfl)] at hmem ⊢
    obtain rfl : '\n' = c := by simpa using hmem
    exact ⟨rfl, rfl⟩
  · simp [newline_not_mem_language h, hc.symm] at hmem

theorem keeps_take (h : s.Fitting) (hmove : s.mode.move c = .take t) : Keeps (s.take t c) := by
  have hfits := move_fits s.mode c
  rw [hmove] at hfits
  cases t with
  | grow next => exact keeps_grow h hmove
  | close kind => exact keeps_close h hfits
  | drop next => exact keeps_silent (fitting_idle hfits.2.1 (h.pending_eq hfits.1))
  | comment next => exact keeps_silent (fitting_idle hfits.2.1 rfl)
  | newline next =>
    exact ⟨fitting_idle hfits.2.1 (h.pending_eq hfits.1), fun _ ht => nomatch ht⟩
  | question =>
    obtain ⟨hmode, rfl⟩ := hfits
    have hpending : s.pending = "" := h.pending_eq (by rw [hmode]; rfl)
    unfold take
    dsimp only
    split
    · refine keeps_silent ?_
      show (s.pending.push '?').toList ∈ Mode.malformed.language
      rw [hpending, String.toList_push]
      exact Lexicon.mem_mul_many (.inr (Lexicon.cons_mem_chr.2 ⟨rfl, rfl⟩))
    · exact keeps_silent (fitting_idle rfl hpending)
  | colon =>
    obtain ⟨-, rfl⟩ := hfits
    unfold take
    dsimp only
    split
    · exact keeps_emit (by decide) (by decide)
    · exact keeps_close h (.inr (by decide))

theorem keeps_feed (h : s.Fitting) (c : Char) : Keeps (s.feed c) := by
  have hfits := move_fits s.mode c
  unfold feed
  cases hmove : s.mode.move c with
  | take t => exact keeps_take h hmove
  | release kind =>
    rw [hmove] at hfits
    have hempty : s.pending ≠ "" := by
      intro hnil
      rw [Fitting, hnil] at h
      exact nil_not_mem_language hfits.2.1 h
    have hemit : Keeps (s.emit kind s.pending) :=
      keeps_emit hempty fun hmem => absurd hmem (newline_not_mem_language h)
    -- The second turn starts between two words, where every character is taken.
    refine hemit.followedBy (keeps_take hemit.fitting ?_)
    rw [emit_mode]
    rfl

theorem keeps_feedAll (h : s.Fitting) (cs : List Char) :
    Keeps ((s.feedAll cs).1, (s.feedAll cs).2.toList) := by
  induction cs generalizing s with
  | nil => exact keeps_silent h
  | cons c cs ih =>
    have hstep := keeps_feed h c
    rw [feedAll_cons]
    exact hstep.followedBy (ih hstep.fitting)

theorem keeps_finish (h : s.Fitting) : Keeps s.finish :=
  (keeps_feed h '\n').followedBy ⟨fitting_idle rfl rfl, fun _ ht => nomatch ht⟩

/-! ## States that are reached -/

/-- The form of a state between two characters. -/
structure Coherent (s : Scanner) : Prop where
  /-- What is pending belongs to the language of the mode. -/
  pending : s.pending.toList ∈ s.mode.language
  /-- Nothing is pending exactly between two words and in comments. -/
  empty : s.pending = "" ↔
    s.mode = .initial ∨ s.mode = .lineComment ∨ ∃ star, s.mode = .blockComment star
  /-- A string never waits for its closing quote alone. -/
  closing : s.mode ≠ .quoted .string .closing
  /-- Octal digits are counted from one to two. -/
  octal : ∀ q n, s.mode = .quoted q (.octal n) → 1 ≤ n ∧ n ≤ 2
  /-- Hexadecimal digits are counted up to three. -/
  unicode : ∀ q n, s.mode = .quoted q (.unicode n) → n ≤ 3

theorem idle_iff {m : Mode} :
    m.idle = true ↔ m = .initial ∨ m = .lineComment ∨ ∃ star, m = .blockComment star := by
  cases m <;> simp [Mode.idle]

theorem Fitting.coherent (h : s.Fitting) : s.Coherent where
  pending := h
  empty := by
    rw [← idle_iff]
    constructor
    · intro hnil
      by_contra hidle
      rw [Fitting, hnil] at h
      exact nil_not_mem_language (Bool.eq_false_of_not_eq_true hidle) h
    · exact h.pending_eq
  closing := by
    intro hmode
    rw [Fitting, hmode] at h
    exact Language.notMem_zero _ h
  octal q n hmode := by
    rw [Fitting, hmode] at h
    exact h.1
  unicode q n hmode := by
    rw [Fitting, hmode] at h
    exact h.1

theorem feedAll_cons_state (s : Scanner) (c : Char) (cs : List Char) :
    (s.feedAll (c :: cs)).1 = ((s.feed c).1.feedAll cs).1 := by
  have h := congrArg Prod.fst (feedAll_cons s c cs)
  exact h

theorem feedAll_of_grows {m m' : Mode} {w : List Char} (h : Grows m w m') (hmode : s.mode = m) :
    (s.feedAll w).1 = { s with mode := m', pending := s.pending ++ String.ofList w } := by
  induction h generalizing s with
  | nil m =>
    subst hmode
    simp [feedAll]
  | @cons m next m' c w hmove more ih =>
    have hfeed : s.feed c = ({ s with mode := next, pending := s.pending.push c }, []) := by
      unfold feed
      rw [hmode, hmove]
      rfl
    rw [feedAll_cons_state, hfeed, ih rfl]
    simp [push_append]

/-- Every text of the language of a mode is pending there behind some text. -/
theorem exists_feedAll {m : Mode} {w : List Char} (h : w ∈ m.language) :
    ∃ text, (({} : Scanner).feedAll text).1.mode = m ∧
      (({} : Scanner).feedAll text).1.pending = String.ofList w := by
  cases hidle : m.idle with
  | true =>
    obtain rfl := (mem_language_of_idle hidle).1 h
    rcases idle_iff.1 hidle with rfl | rfl | ⟨star, rfl⟩
    · exact ⟨[], rfl, rfl⟩
    · exact ⟨['/', '/'], rfl, rfl⟩
    · cases star with
      | false => exact ⟨['/', '*'], rfl, rfl⟩
      | true => exact ⟨['/', '*', '*'], rfl, rfl⟩
  | false =>
    rcases grows_of_mem_language h hidle with hgrows | ⟨v, rfl, hgrows⟩
    · refine ⟨w, ?_⟩
      rw [feedAll_of_grows hgrows rfl]
      simp
    · -- Behind a question mark that waits for its colon, another one is malformed.
      refine ⟨'?' :: '?' :: v, ?_⟩
      rw [feedAll_cons_state, feedAll_cons_state, feedAll_of_grows hgrows rfl]
      refine ⟨rfl, ?_⟩
      show "?" ++ String.ofList v = String.ofList ('?' :: v)
      simp

end Scanner

namespace ScanQueue

variable {q : ScanQueue}

/-- The scanner is in a fitting state, and presentable tokens wait. -/
structure Kept (q : ScanQueue) : Prop where
  fitting : q.scanner.Fitting
  tokens : ∀ t ∈ tokensOf q.ready, t.Presentable

theorem Kept.call (h : q.Kept) (x : Call) :
    (q.call x).2.Kept ∧ ∀ t ∈ tokensOf (q.call x).1, t.Presentable := by
  have hnone : ∀ t ∈ tokensOf [], t.Presentable := fun _ ht => nomatch ht
  have hready {records : List Record} (hrecords : ∀ t ∈ tokensOf records, t.Presentable) :
      ∀ t ∈ tokensOf (q.ready ++ records), t.Presentable := by
    intro t ht
    rw [tokensOf_append] at ht
    exact (List.mem_append.1 ht).elim (h.tokens t) (hrecords t)
  cases x with
  | feed text =>
    have hfeed := Scanner.keeps_feedAll h.fitting text
    exact ⟨⟨hfeed.fitting, hready hfeed.tokens⟩, hnone⟩
  | finish =>
    refine ⟨?_, hnone⟩
    show q.finish.Kept
    unfold finish
    split
    · exact h
    · have hfinish := Scanner.keeps_finish h.fitting
      exact ⟨hfinish.fitting, hready hfinish.tokens⟩
  | pop =>
    have htokens := h.tokens
    unfold ScanQueue.call pop
    cases hq : q.ready with
    | nil => exact ⟨h, hnone⟩
    | cons r ready =>
      rw [hq, ← List.singleton_append, tokensOf_append] at htokens
      obtain ⟨hfirst, hrest⟩ := List.forall_mem_append.1 htokens
      exact ⟨⟨h.fitting, hrest⟩, hfirst⟩
  | drain => exact ⟨⟨h.fitting, hnone⟩, h.tokens⟩

/-- Calls in any order. -/
theorem Kept.make (h : q.Kept) (calls : List Call) :
    (q.make calls).2.Kept ∧ ∀ t ∈ tokensOf (q.make calls).1, t.Presentable := by
  induction calls generalizing q with
  | nil => exact ⟨h, fun _ ht => nomatch ht⟩
  | cons x calls ih =>
    obtain ⟨hnext, hout⟩ := h.call x
    obtain ⟨hlast, hmore⟩ := ih hnext
    refine ⟨hlast, fun t ht => ?_⟩
    rw [ScanQueue.make, tokensOf_append] at ht
    exact (List.mem_append.1 ht).elim (hout t) (hmore t)

end ScanQueue

open ScanQueue in
/-- Whatever calls are made, a scanner is left in a coherent state, and the tokens that it has
handed out or that still wait are presentable. What is pending in a mode is exactly the language of
the mode. From every state, reached or not, and for every character, the turns end, with the first
one or the second. -/
theorem scanner_stays_coherent :
    (∀ calls : List Call, (({} : ScanQueue).make calls).2.scanner.Coherent ∧
      ∀ t ∈ tokensOf ((({} : ScanQueue).make calls).1 ++ (({} : ScanQueue).make calls).2.ready),
        t.Presentable) ∧
    (∀ (m : Mode) (w : List Char), w ∈ m.language ↔
      ∃ text, (({} : Scanner).feedAll text).1.mode = m ∧
        (({} : Scanner).feedAll text).1.pending = String.ofList w) ∧
    ∀ (s : Scanner) (c : Char), ∃ n, (n = 1 ∨ n = 2) ∧
      ∀ k next, s.Turns c k next ↔ k = n ∧ next = s.feed c := by
  have hstart : ({} : ScanQueue).Kept :=
    ⟨Scanner.fitting_idle rfl rfl, fun _ ht => nomatch ht⟩
  refine ⟨fun calls => ?_, fun m w => ⟨Scanner.exists_feedAll, ?_⟩, Scanner.exists_turns⟩
  · obtain ⟨hkept, hout⟩ := hstart.make calls
    refine ⟨hkept.fitting.coherent, fun t ht => ?_⟩
    rw [tokensOf_append] at ht
    exact (List.mem_append.1 ht).elim (hout t) (hkept.tokens t)
  · rintro ⟨text, rfl, hpending⟩
    have hfitting := (Scanner.keeps_feedAll hstart.fitting text).fitting
    rwa [Scanner.Fitting, hpending, String.toList_ofList] at hfitting

open ScanQueue in
theorem scanner_stays_coherent_in_escape :
    let calls : List Call := [.feed "a\n'\\u00a".toList, .pop]
    let made := ({} : ScanQueue).make calls
    made.2.scanner.mode = .quoted .character (.unicode 3) ∧
      made.2.scanner.Coherent ∧
      (tokensOf (made.1 ++ made.2.ready)).map Token.spelling =
        [(.identifier, "a"), (.whitespace, "\n")] ∧
      ∀ t ∈ tokensOf (made.1 ++ made.2.ready), t.Presentable := by
  intro calls made
  obtain ⟨hcoherent, htokens⟩ := scanner_stays_coherent.1 calls
  exact ⟨by decide, hcoherent, by decide, htokens⟩

end LoopAsm
