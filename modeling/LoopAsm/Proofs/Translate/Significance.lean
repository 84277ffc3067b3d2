/-
Checking and translating depend on the words of a record list alone: on the class and the spelling
of its significant tokens, in order. Blanks, malformed words, counters and the lines that tokens are
on may differ in any way. Two readers with the same words ahead come to the same outcome and ask for
the same actions, so two runs go side by side, statement by statement. Only a report of a token that
does not fit tells the two lists apart, by the line of that token.
-/
import LoopAsm.Proofs.Grammar.Acceptance
import LoopAsm.Proofs.Grammar.Uniform
import LoopAsm.Proofs.Translate.Agreement

namespace LoopAsm

/-- Two outcomes are the same up to the place of a token: the same value, or a fault of the grammar
in the same statement, with a token of the same class and spelling or with none. -/
inductive SameVerdict {α : Type} : Except Error α → Except Error α → Prop
  | ok (a : α) : SameVerdict (.ok a) (.ok a)
  | grammar (k : Nat) {found found' : Option Token}
      (h : found.map Token.spelling = found'.map Token.spelling) :
    SameVerdict (.error (.grammar k found)) (.error (.grammar k found'))

theorem Cursor.alike_of_ahead {c c' : Cursor} (h : c.ahead = c'.ahead) :
    Reading.Alike { cursor := c } { cursor := c' } :=
  ⟨h, rfl⟩

/-- The next token is spelled as the first word ahead. -/
theorem Cursor.map_spelling_peek (c : Cursor) : c.peek.1.map Token.spelling = c.ahead.head? := by
  rw [Cursor.peek_eq_head?, Cursor.ahead, List.head?_map]

/-! ## Two validators -/

namespace Validator

variable {v v' w : Validator}

/-- Two validators have the same words ahead and have begun as many statements. -/
structure Alike (v v' : Validator) : Prop where
  ahead : v.cursor.ahead = v'.cursor.ahead
  statements : v.statements = v'.statements

theorem Alike.statement_ok (h : v.Alike v') {o : Outcome} (hs : v.statement = (.ok o, w)) :
    ∃ w', v'.statement = (.ok o, w') ∧ w.Alike w' := by
  unfold statement at hs ⊢
  cases hr : Read.statement { cursor := v.cursor } with
  | error e r =>
    rw [hr] at hs
    cases hs
  | ok more r =>
    obtain ⟨r', hr', halike⟩ := Read.statement_uniform.ok (Cursor.alike_of_ahead h.ahead) hr
    rw [hr] at hs
    rw [hr']
    cases more with
    | true =>
      cases hs
      exact ⟨_, rfl, halike.ahead, congrArg (· + 1) h.statements⟩
    | false =>
      cases hs
      exact ⟨_, rfl, halike.ahead, h.statements⟩

theorem Alike.statement_error (h : v.Alike v') {e : Error} (hs : v.statement = (.error e, w)) :
    ∃ k found found' w', e = .grammar k found ∧
      v'.statement = (.error (.grammar k found'), w') ∧
      found.map Token.spelling = found'.map Token.spelling := by
  obtain ⟨x, r, hr, rfl⟩ := read_of_error hs
  obtain ⟨r', hr', halike⟩ := Read.statement_uniform.error (Cursor.alike_of_ahead h.ahead) hr
  have hfound : r.cursor.peek.1.map Token.spelling = r'.cursor.peek.1.map Token.spelling := by
    rw [Cursor.map_spelling_peek, Cursor.map_spelling_peek]
    exact congrArg List.head? halike.ahead
  unfold statement
  rw [hr', h.statements]
  exact ⟨_, _, _, _, rfl, rfl, hfound⟩

/-- Two runs side by side. -/
theorem Alike.run (h : v.Alike v') : SameVerdict v.run.1 v'.run.1 := by
  fun_induction Validator.run v generalizing v' with
  | case1 v w hs ih =>
    obtain ⟨w', hs', hw⟩ := h.statement_ok hs
    rw [run_of_statement hs']
    exact ih hw
  | case2 v w hs =>
    obtain ⟨w', hs', hw⟩ := h.statement_ok hs
    rw [Validator.run]
    split <;> rename_i h' <;> rw [hs'] at h' <;> cases h'
    dsimp only
    rw [hw.statements]
    exact .ok _
  | case3 v e w hs =>
    obtain ⟨k, found, found', w', rfl, hs', hfound⟩ := h.statement_error hs
    rw [Validator.run]
    split <;> rename_i h' <;> rw [hs'] at h' <;> cases h'
    exact .grammar k hfound

end Validator

/-! ## Two translators -/

namespace Translator

variable {t t' : Translator}

/-- Two translators have the same words ahead and have generated the same code. -/
structure Alike (t t' : Translator) : Prop where
  ahead : t.cursor.ahead = t'.cursor.ahead
  generator : t.generator = t'.generator

/-- Steps that ask for the same actions have the same outcome. -/
theorem follow_of_actions {steps steps' : List Step} (hg : t.generator = t'.generator)
    (h : steps.filterMap Step.action? = steps'.filterMap Step.action?) :
    ∃ verdict u u', t.follow steps = (verdict, u) ∧ t'.follow steps' = (verdict, u') ∧
      u.generator = u'.generator := by
  have hf := follow_actions t steps
  have hf' := follow_actions t' steps'
  rw [← h, ← hg] at hf'
  refine ⟨(t.follow steps).1, (t.follow steps).2, (t'.follow steps').2, rfl, Prod.ext ?_ rfl, ?_⟩
  · split at hf <;> rename_i hx <;> rw [hx] at hf' <;> exact hf'.1.trans hf.1.symm
  · split at hf <;> rename_i hx <;> rw [hx] at hf' <;> exact hf.2.trans hf'.2.symm

/-- One call in two places with the same words ahead. -/
theorem Alike.statement (h : t.Alike t') :
    t.statement.1 = t'.statement.1 ∧ t.statement.2.generator = t'.statement.2.generator ∧
      (t.statement.1 = .ok .statement → t.statement.2.Alike t'.statement.2) := by
  unfold Translator.statement
  cases hr : Read.statement { cursor := t.cursor } with
  | ok more r =>
    obtain ⟨r', hr', halike⟩ := Read.statement_uniform.ok (Cursor.alike_of_ahead h.ahead) hr
    obtain ⟨verdict, u, u', hf, hf', hu⟩ := follow_of_actions h.generator halike.actions
    rw [hr']
    dsimp only
    rw [hf, hf']
    cases verdict with
    | ok _ => exact ⟨rfl, hu, fun _ => ⟨halike.ahead, hu⟩⟩
    | error e => exact ⟨rfl, hu, fun hok => by cases hok⟩
  | error expected r =>
    obtain ⟨r', hr', halike⟩ := Read.statement_uniform.error (Cursor.alike_of_ahead h.ahead) hr
    obtain ⟨verdict, u, u', hf, hf', hu⟩ := follow_of_actions h.generator halike.actions
    rw [hr']
    dsimp only
    rw [hf, hf']
    cases verdict with
    | ok _ => exact ⟨rfl, hu, fun hok => by cases hok⟩
    | error e => exact ⟨rfl, hu, fun hok => by cases hok⟩

/-- Two runs side by side. -/
theorem Alike.run (h : t.Alike t') (count : Nat) : (t.run count).1 = (t'.run count).1 := by
  fun_induction Translator.run t count generalizing t' with
  | case1 t count u hs ih =>
    obtain ⟨hverdict, -, halike⟩ := h.statement
    rw [hs] at hverdict halike
    rw [ih (halike rfl)]
    conv_rhs => rw [Translator.run]
    split <;> rename_i h' <;> rw [h'] at hverdict <;> cases hverdict
    rw [h']
  | case2 t count u hs =>
    obtain ⟨hverdict, hgenerator, -⟩ := h.statement
    rw [hs] at hverdict hgenerator
    rw [Translator.run]
    split <;> rename_i h' <;> rw [h'] at hverdict hgenerator <;> cases hverdict
    exact congrArg (fun g : Generator => Except.ok g.code) hgenerator
  | case3 t count e u hs =>
    obtain ⟨hverdict, -, -⟩ := h.statement
    rw [hs] at hverdict
    rw [Translator.run]
    split <;> rename_i h' <;> rw [h'] at hverdict <;> cases hverdict
    rfl

end Translator

/-! ## Two record lists -/

/-- Record lists with the same words are checked and translated alike. The same number of
statements is accepted, or a token of the same class and spelling does not fit in the same
statement. With the same capacity, the same code is translated or the same error found; and the
same code is compiled, or the same error found up to the line of the token that does not fit. -/
theorem parse_of_same_words (first second : List Record)
    (h : (significant first).map Token.spelling = (significant second).map Token.spelling) :
    SameVerdict (validate first) (validate second) ∧
    ∀ capacity, translate first capacity = translate second capacity ∧
      (compile first capacity = compile second capacity ∨
        SameVerdict (compile first capacity) (compile second capacity)) := by
  have hvalidators : Validator.Alike (.ofRecords first) (.ofRecords second) := ⟨h, rfl⟩
  have hverdict : SameVerdict (validate first) (validate second) := hvalidators.run
  refine ⟨hverdict, fun capacity => ?_⟩
  have htranslators :
      Translator.Alike (.ofRecords first capacity) (.ofRecords second capacity) := ⟨h, rfl⟩
  have htranslate : translate first capacity = translate second capacity := htranslators.run 0
  refine ⟨htranslate, ?_⟩
  rw [compile_eq, compile_eq]
  generalize validate first = verdict, validate second = verdict' at hverdict
  cases hverdict with
  | ok n => exact .inl htranslate
  | grammar k hfound => exact .inr (.grammar k hfound)

/-- The same words on one line and on several, with malformed words between them: a sum that is
accepted, and a product behind it that misses a value. -/
theorem parse_of_same_words_spread :
    (significant (scan "x=y+1;")).map Token.spelling =
      (significant (scan "x = @@ y\n+ /* one */ 1;\t#")).map Token.spelling ∧
    SameVerdict (validate (scan "x=y+1;")) (validate (scan "x = @@ y\n+ /* one */ 1;\t#")) ∧
    (∀ capacity, translate (scan "x=y+1;") capacity =
      translate (scan "x = @@ y\n+ /* one */ 1;\t#") capacity) ∧
    (significant (scan "x=1;y=x*;")).map Token.spelling =
      (significant (scan "x = @@ 1;\ny = x * ;\n#")).map Token.spelling ∧
    SameVerdict (validate (scan "x=1;y=x*;")) (validate (scan "x = @@ 1;\ny = x * ;\n#")) ∧
    ∀ capacity, compile (scan "x=1;y=x*;") capacity =
        compile (scan "x = @@ 1;\ny = x * ;\n#") capacity ∨
      SameVerdict (compile (scan "x=1;y=x*;") capacity)
        (compile (scan "x = @@ 1;\ny = x * ;\n#") capacity) := by
  have hsum : (significant (scan "x=y+1;")).map Token.spelling =
      (significant (scan "x = @@ y\n+ /* one */ 1;\t#")).map Token.spelling := by decide +kernel
  have hproduct : (significant (scan "x=1;y=x*;")).map Token.spelling =
      (significant (scan "x = @@ 1;\ny = x * ;\n#")).map Token.spelling := by decide +kernel
  obtain ⟨haccepted, hcode⟩ := parse_of_same_words _ _ hsum
  obtain ⟨hrejected, hcompiled⟩ := parse_of_same_words _ _ hproduct
  exact ⟨hsum, haccepted, fun c => (hcode c).1, hproduct, hrejected, fun c => (hcompiled c).2⟩

/-- A list of records may be rejected with another error than one that has the same words: the
errors name the token that does not fit with its line. -/
theorem compile_of_same_words_ne :
    (significant (scan "x = ;")).map Token.spelling =
      (significant (scan "\nx = ;")).map Token.spelling ∧
    compile (scan "x = ;") defaultCapacity = .error (.grammar 1 (some ⟨.semicolon, ";", 1⟩)) ∧
    compile (scan "\nx = ;") defaultCapacity = .error (.grammar 1 (some ⟨.semicolon, ";", 2⟩)) ∧
    compile (scan "x = ;") defaultCapacity ≠ compile (scan "\nx = ;") defaultCapacity := by
  decide +kernel

end LoopAsm
