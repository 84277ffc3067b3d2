/-
Errors in the grammar point at the first impossible token. The tokens before it are whole
statements and then the beginning of one; no statement begins with these and the token that was
found, and where none was found the text ends in the middle of a statement.

A reader takes a word only where some statement goes on with it (`Read.statement_error`). It gives
up on a word by looking no further than that word (`Read.statement_narrow`), so it would give up on
every text that goes on with it; and the text of a statement is not given up on.
-/
import LoopAsm.Proofs.Grammar.Acceptance
import LoopAsm.Proofs.Grammar.Failure
import LoopAsm.Proofs.Grammar.Uniform
import LoopAsm.Scan.Scanner

namespace LoopAsm

/-! ## Beginnings of sentences -/

/-- Some sentence begins with these words. -/
def BeginsSentence (words : List Terminal) : Prop :=
  ∃ sentence ∈ statementGrammar.language, words <+: sentence

theorem Terminal.exists_word (t : Terminal) : ∃ word, ofWord word = t := by
  cases t with
  | identifier => exact ⟨(.identifier, ""), rfl⟩
  | int => exact ⟨(.intLiteral, ""), rfl⟩
  | other => exact ⟨(.comma, ","), by decide⟩
  | _ => exact ⟨_, (Terminal.ofWord_eq_iff rfl).2 rfl⟩

theorem Terminal.exists_words (ts : List Terminal) :
    ∃ words : Spelling, words.map ofWord = ts := by
  induction ts with
  | nil => exact ⟨[], rfl⟩
  | cons t ts ih =>
    obtain ⟨word, hword⟩ := t.exists_word
    obtain ⟨words, hwords⟩ := ih
    exact ⟨word :: words, by rw [List.map_cons, hword, hwords]⟩

/-- Words begin a sentence if some statement is spelled with them in front. -/
theorem beginsSentence_iff {words : Spelling} :
    BeginsSentence (words.map Terminal.ofWord) ↔ ∃ st : Statement, words <+: st.spelling := by
  constructor
  · rintro ⟨_, hmem, rest, rfl⟩
    obtain ⟨more, rfl⟩ := Terminal.exists_words rest
    rw [← List.map_append] at hmem
    obtain ⟨st, hst⟩ := mem_language_iff_statement.1 hmem
    exact ⟨st, more, hst.symm⟩
  · rintro ⟨st, h⟩
    exact ⟨_, mem_language_iff_statement.2 ⟨st, rfl⟩, h.map Terminal.ofWord⟩

/-! ## Texts of statements -/

/-- No word of a statement is passed over. -/
theorem Statement.not_mem_spelling (st : Statement) {word : Kind × String}
    (h : word.1 = .whitespace ∨ word.1 = .malformed) : word ∉ st.spelling := by
  have hkind : word.1 ∉ Assignment.kinds := by rcases h with h | h <;> rw [h] <;> decide
  have hfixed {kind : Kind} {text : String} (hne : kind ≠ .whitespace ∧ kind ≠ .malformed) :
      word ≠ (kind, text) := by
    rintro rfl
    exact h.elim hne.1 hne.2
  cases st with
  | assignment a => simp [spelling, a.not_mem_spelling hkind, hfixed]
  | loop left op right body =>
    have hop : word ∉ op.spelling := by
      cases op <;> exact fun h => hfixed (by decide) (List.mem_singleton.1 h)
    simp [spelling, left.not_mem_spelling hkind, right.not_mem_spelling hkind,
      body.not_mem_spelling hkind, hop, hfixed]

/-- A reader can have any words ahead that are not passed over. -/
theorem exists_ahead {words : Spelling}
    (h : ∀ word ∈ words, word.1 ≠ .whitespace ∧ word.1 ≠ .malformed) :
    ∃ r : Reading, r.ahead = words := by
  let tokens : List Token := words.map fun word => ⟨word.1, word.2, 1⟩
  have hsignificant : ∀ t ∈ tokens, t.isSignificant = true := by
    intro t ht
    obtain ⟨word, hword, rfl⟩ := List.mem_map.1 ht
    simpa [Token.isSignificant, Kind.isTrivia] using h word hword
  refine ⟨{ cursor := { unread := tokens.map .token } }, ?_⟩
  show (significant (tokens.map .token)).map Token.spelling = words
  rw [significant_tokens hsignificant, List.map_map]
  exact List.map_id words

theorem Statement.exists_ahead (st : Statement) : ∃ r : Reading, r.ahead = st.spelling := by
  refine LoopAsm.exists_ahead fun word hword => ?_
  constructor <;> intro h
  · exact st.not_mem_spelling (.inl h) hword
  · exact st.not_mem_spelling (.inr h) hword

/-- What was found behind `taken` is the first token that no statement goes on with, or the text
ends in the middle of a statement. -/
def Stuck (taken rest : List Token) : Option Token → Prop
  | some t => rest.head? = some t ∧ ¬ BeginsSentence ((taken ++ [t]).map Token.terminal)
  | none => rest = [] ∧ taken ≠ [] ∧ taken.map Token.terminal ∉ statementGrammar.language

/-! ## One statement -/

namespace Read

variable {r r' : Reading} {e : Expected}

/-- Where a statement could not be read, the words that were taken begin a statement, and with the
word behind them they do not. -/
theorem statement_error_impossible (h : statement r = .error e r') :
    ∃ taken, r.ahead = taken ++ r'.ahead ∧ (∃ st : Statement, taken <+: st.spelling) ∧
      ∀ st : Statement, ∀ rest, st.spelling = taken ++ rest → rest.head? ≠ r'.ahead.head? := by
  obtain ⟨taken, asked, ht, hsame⟩ := statement_narrow r
  rw [h] at ht hsame
  obtain ⟨st, taken', asked', ht', hprefix, -⟩ := statement_error h
  have htaken : taken' = taken := List.append_cancel_right (ht'.ahead.symm.trans ht.ahead)
  refine ⟨taken, ht.ahead, ⟨st, htaken ▸ hprefix⟩, fun st' rest hst' hhead => ?_⟩
  -- A text of the statement `st'` would be given up on as well, and it is not.
  obtain ⟨s, hs⟩ := st'.exists_ahead
  obtain ⟨hverdict, -⟩ := hsame s rest (hs.trans hst') hhead
  obtain ⟨s', hread, -⟩ := statement_reads st' (hs.trans (List.append_nil _).symm)
  rw [hread] at hverdict
  cases hverdict

end Read

namespace Validator

variable {v v' : Validator}

/-- The tokens that were taken are spelled as the words that were. -/
theorem taken_of_ahead {r : Reading} {words : Spelling}
    (hahead : v.cursor.ahead = words ++ r.ahead) (hr : r.Within v.cursor.upcoming) :
    ∃ taken, v.cursor.upcoming = taken ++ r.cursor.upcoming ∧
      taken.map Token.spelling = words := by
  obtain ⟨taken, htaken⟩ := hr.cursor
  refine ⟨taken, htaken.symm, ?_⟩
  rw [Cursor.ahead, ← htaken, List.map_append] at hahead
  exact List.append_cancel_right hahead

theorem taken_of_statement (h : v.statement = (.ok .statement, v')) :
    ∃ (st : Statement) (taken : List Token), v.cursor.upcoming = taken ++ v'.cursor.upcoming ∧
      taken.map Token.spelling = st.spelling ∧ v'.statements = v.statements + 1 := by
  obtain ⟨r, hr, hcursor, hcount⟩ := read_of_statement h
  obtain ⟨st, ht⟩ := Read.statement_ok hr
  obtain ⟨taken, htaken, hspell⟩ :=
    taken_of_ahead ht.ahead (Read.statement_confined.ok v.cursor.within hr)
  exact ⟨st, taken, hcursor ▸ htaken, hspell, hcount⟩

/-- Where a call fails, the tokens ahead begin a statement up to the token that is reported, and
not with it. -/
theorem stuck_of_error {e : Error} (h : v.statement = (.error e, v')) :
    ∃ taken rest, v.cursor.upcoming = taken ++ rest ∧
      e = .grammar (v.statements + 1) rest.head? ∧ BeginsSentence (taken.map Token.terminal) ∧
      Stuck taken rest rest.head? := by
  obtain ⟨x, r, hr, rfl⟩ := read_of_error h
  obtain ⟨words, hahead, hbegins, himpossible⟩ := Read.statement_error_impossible hr
  obtain ⟨taken, htaken, rfl⟩ :=
    taken_of_ahead hahead (Read.statement_confined.error v.cursor.within hr)
  have hterminal (tokens : List Token) :
      tokens.map Token.terminal = (tokens.map Token.spelling).map Terminal.ofWord := by
    rw [List.map_map]
    rfl
  refine ⟨taken, r.cursor.upcoming, htaken, by rw [Cursor.peek_eq_head?], ?_, ?_⟩
  · rw [hterminal]
    exact beginsSentence_iff.2 hbegins
  cases hrest : r.cursor.upcoming with
  | cons t rest =>
    have hhead : r.ahead.head? = some t.spelling := by
      rw [Reading.ahead, Cursor.ahead, hrest]
      rfl
    refine ⟨rfl, ?_⟩
    rw [hterminal, beginsSentence_iff]
    rintro ⟨st, more, hst⟩
    rw [List.map_append, List.append_assoc] at hst
    exact himpossible st _ hst.symm hhead.symm
  | nil =>
    have hend : r.ahead = [] := by
      rw [Reading.ahead, Cursor.ahead, hrest]
      rfl
    refine ⟨rfl, ?_, ?_⟩
    · rintro rfl
      -- With no token ahead there is no statement, and that is no fault.
      obtain ⟨s, hstops, -⟩ := Read.statement_stops (r := { cursor := v.cursor })
        (hahead.trans hend)
      rw [hr] at hstops
      cases hstops
    · rw [hterminal, mem_language_iff_statement]
      rintro ⟨st, hst⟩
      exact himpossible st [] (by rw [hst, List.append_nil]) (by rw [hend])

theorem run_error {k : Nat} {found : Option Token} (h : v.run.1 = .error (.grammar k found)) :
    ∃ n before taken rest, k = v.statements + n + 1 ∧
      v.cursor.upcoming = before ++ taken ++ rest ∧
      before.map Token.terminal ∈ statementGrammar.language ^ n ∧
      BeginsSentence (taken.map Token.terminal) ∧ Stuck taken rest found := by
  fun_induction Validator.run v with
  | case1 v v' hs ih =>
    obtain ⟨st, first, hfirst, hspell, hcount⟩ := taken_of_statement hs
    obtain ⟨n, before, taken, rest, rfl, hup, hbefore, hbegins, hstuck⟩ := ih h
    refine ⟨n + 1, first ++ before, taken, rest, by omega, ?_, ?_, hbegins, hstuck⟩
    · rw [hfirst, hup]
      simp
    · rw [List.map_append, pow_succ']
      refine Language.mem_mul.2 ⟨_, ?_, _, hbefore, rfl⟩
      have hsentence := mem_language_iff_statement.2 ⟨st, hspell.symm⟩
      rwa [List.map_map] at hsentence
  | case2 => cases h
  | case3 v e v' hs =>
    obtain ⟨taken, rest, hup, rfl, hbegins, hstuck⟩ := stuck_of_error hs
    cases h
    exact ⟨0, [], taken, rest, rfl, hup, Language.nil_mem_one, hbegins, hstuck⟩

end Validator

/-- An error in the grammar points at the first impossible token: before it are whole statements,
one fewer than the number that is reported, and the beginning of one more. -/
theorem validate_stops_at_impossible {records : List Record} {k : Nat} {found : Option Token}
    (h : validate records = .error (.grammar k found)) :
    ∃ n before taken rest, k = n + 1 ∧ significant records = before ++ taken ++ rest ∧
      before.map Token.terminal ∈ statementGrammar.language ^ n ∧
      BeginsSentence (taken.map Token.terminal) ∧ Stuck taken rest found := by
  obtain ⟨n, before, taken, rest, hk, hup, hbefore, hbegins, hstuck⟩ := Validator.run_error h
  refine ⟨n, before, taken, rest, ?_, hup, hbefore, hbegins, hstuck⟩
  rw [hk]
  exact congrArg (· + 1) (Nat.zero_add n)

/-- A product behind a loop has no second value, and a loop behind an assignment has no end. -/
theorem validate_stops_at_missing_value :
    validate (scan "while (i < n) s = s - 2 * i;\nx = 1 + 2 * ;") =
      .error (.grammar 2 (some ⟨.semicolon, ";", 2⟩)) ∧
    (∃ n before taken rest, 2 = n + 1 ∧
      significant (scan "while (i < n) s = s - 2 * i;\nx = 1 + 2 * ;") = before ++ taken ++ rest ∧
      before.map Token.terminal ∈ statementGrammar.language ^ n ∧
      BeginsSentence (taken.map Token.terminal) ∧ Stuck taken rest (some ⟨.semicolon, ";", 2⟩)) ∧
    validate (scan "x = 1; while (a > b) a = a - b") = .error (.grammar 2 none) ∧
    ∃ n before taken rest, 2 = n + 1 ∧
      significant (scan "x = 1; while (a > b) a = a - b") = before ++ taken ++ rest ∧
      before.map Token.terminal ∈ statementGrammar.language ^ n ∧
      BeginsSentence (taken.map Token.terminal) ∧ Stuck taken rest none := by
  have hvalue : validate (scan "while (i < n) s = s - 2 * i;\nx = 1 + 2 * ;") =
      .error (.grammar 2 (some ⟨.semicolon, ";", 2⟩)) := by decide +kernel
  have hend : validate (scan "x = 1; while (a > b) a = a - b") = .error (.grammar 2 none) := by
    decide +kernel
  exact ⟨hvalue, validate_stops_at_impossible hvalue, hend, validate_stops_at_impossible hend⟩

end LoopAsm
