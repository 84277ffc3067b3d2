/-
Going on after an error. A failed statement may leave operands, operators, registers in use,
counted labels and a token in the slot behind. A later statement is never mixed up with what is
left: it is translated only if nothing waits and no register is in use, and then to the code that
a new translator writes for the same tokens, with its labels counted on. Over all statements,
failed ones included, no label is defined twice.

What holds of a translator between two calls, whatever the calls returned, is `Settled`.
-/
import LoopAsm.Proofs.Grammar.Places
import LoopAsm.Proofs.Translate.Agreement
import LoopAsm.Proofs.Translate.Labels

namespace LoopAsm

/-! ## What a statement asks for -/

/-- What was read of a statement, to its end or not, asks for an orderly list of actions. -/
theorem Read.statement_orderly (c : Cursor) :
    match Read.statement { cursor := c } with
    | .ok _ r => Orderly false r.actions
    | .error _ r => Orderly false r.actions := by
  have hasks := Read.statement_asks c
  cases h : Read.statement { cursor := c } <;>
    · rw [h] at hasks
      obtain ⟨st, rest, hrest⟩ := hasks
      exact Orderly.of_append (hrest ▸ st.orderly)

namespace Translator

variable {t : Translator} {c : Nat} {tokens : List Token}

/-! ## Between two calls -/

/-- What holds of a translator between two calls: the tokens ahead are an end of `tokens`, and the
labels are in order. -/
structure Settled (t : Translator) (tokens : List Token) (c : Nat) : Prop where
  upcoming : t.cursor.upcoming <:+ tokens
  numbered : t.generator.Numbered c false

theorem settled_ofRecords (records : List Record) (capacity : Nat) :
    (ofRecords records capacity).Settled (significant records) capacity where
  upcoming := List.suffix_rfl
  numbered := ⟨rfl, rfl, List.nodup_nil, by simp [ofRecords, Generator.empty, definedLabels],
    fun h => nomatch h⟩

theorem cursor_perform (t : Translator) (a : Action) : (t.perform a).2.cursor = t.cursor := by
  unfold perform
  dsimp only
  split <;> rfl

/-- A translator that follows steps stands at the place of one of them in the end. -/
theorem cursor_follow {P : Cursor → Prop} {steps : List Step} (ht : P t.cursor)
    (hsteps : ∀ a place, Step.act a place ∈ steps → P place) :
    P (t.follow steps).2.cursor := by
  induction steps generalizing t with
  | nil => exact ht
  | cons step steps ih =>
    have hrest := fun a place h => hsteps a place (List.mem_cons_of_mem _ h)
    cases step with
    | skip word => exact ih ht hrest
    | act a place =>
      have hplace : P ({ t with cursor := place }.perform a).2.cursor := by
        rw [cursor_perform]
        exact hsteps a place List.mem_cons_self
      unfold follow
      split <;> rename_i hp <;> rw [hp] at hplace
      · exact ih hplace hrest
      · exact hplace

/-- One call, whatever it returns, keeps what the moves of the reader keep. A token that stands
for a missing punctuation is lost to the reader. -/
theorem cursor_statement {P : Cursor → Prop} (hP : Cursor.Lasting P)
    (hdiscard : ∀ c, P c → P c.discard) (ht : P t.cursor) : P t.statement.2.cursor := by
  have hread := Read.statement_keeps hP { cursor := t.cursor } (Cursor.everywhere ht)
  have hfollow (r : Reading) (hr : r.Everywhere P) : P (t.follow r.steps.toList).2.cursor :=
    cursor_follow ht (by simpa using hr.places)
  unfold statement
  cases hr : Read.statement { cursor := t.cursor } with
  | ok more r =>
    rw [hr] at hread
    have hplace := hfollow r hread
    dsimp only
    split <;> rename_i hf <;> rw [hf] at hplace
    · exact hread.cursor
    · exact hplace
  | error e r =>
    rw [hr] at hread
    have hplace := hfollow r hread
    dsimp only
    split <;> rename_i hf <;> rw [hf] at hplace
    · cases e with
      | punctuation p => exact hdiscard _ hread.cursor
      | _ => exact hread.cursor
    · exact hplace

theorem generator_follow (t : Translator) (steps : List Step) :
    (t.follow steps).2.generator =
      Generate.final (Generate.actions (steps.filterMap Step.action?)) t.generator := by
  have h := follow_actions t steps
  unfold Generate.final
  split at h <;> rename_i hx <;> rw [hx] <;> exact h.2

theorem numbered_follow (ht : t.generator.Numbered c false) {r : Reading}
    (ho : Orderly false r.actions) : (t.follow r.steps.toList).2.generator.Numbered c false := by
  rw [generator_follow]
  exact Generate.numbered_actions ho ht

theorem numbered_statement (ht : t.generator.Numbered c false) :
    t.statement.2.generator.Numbered c false := by
  have horderly := Read.statement_orderly t.cursor
  unfold statement
  cases hr : Read.statement { cursor := t.cursor } <;>
    · rw [hr] at horderly
      have hfollow := numbered_follow ht horderly
      dsimp only
      split <;> rename_i hf <;> rw [hf] at hfollow <;> exact hfollow

/-- One call, whatever it returns. -/
theorem settled_statement (ht : t.Settled tokens c) : t.statement.2.Settled tokens c where
  upcoming := cursor_statement (Cursor.lasting_upcoming tokens)
    (fun _ h => (List.suffix_append _ _).trans h) ht.upcoming
  numbered := numbered_statement ht.numbered

/-- What each call keeps, whatever it returns, any number of calls keeps. -/
theorem after_keeps {P : Translator → Prop} (hstep : ∀ {t : Translator}, P t → P t.statement.2)
    (calls : Nat) (ht : P t) : P (t.after calls) := by
  induction calls generalizing t with
  | zero => exact ht
  | succ calls ih => exact ih (hstep ht)

theorem settled_after (calls : Nat) (ht : t.Settled tokens c) :
    (t.after calls).Settled tokens c :=
  after_keeps (P := fun t => t.Settled tokens c) settled_statement calls ht

/-! ## A statement that was translated -/

/-- A statement that was translated was read, and its actions were carried out to the end. -/
theorem read_of_statement {t' : Translator} (h : t.statement = (.ok .statement, t')) :
    ∃ r, Read.statement { cursor := t.cursor } = .ok true r ∧ t'.cursor = r.cursor ∧
      Generate.actions (r.steps.toList.filterMap Step.action?) t.generator =
        .ok () t'.generator := by
  unfold statement at h
  split at h
  · rename_i more r hr
    have hf := follow_actions t r.steps.toList
    split at h
    · rename_i t₁ hfollow
      rw [hfollow] at hf
      cases more with
      | false => cases h
      | true =>
        cases h
        refine ⟨r, hr, rfl, ?_⟩
        split at hf
        · rename_i g hx
          rw [hx]
          exact congrArg _ hf.2.symm
        · cases hf.1
    · cases h
  · split at h <;> cases h

/-- A new translator at the words of a statement, with nothing behind them, translates it if it
has the room. -/
theorem statement_alone (st : Statement) {records : List Record} {g : Generator}
    (hspell : (significant records).map Token.spelling = st.spelling)
    (hg : Generate.actions st.actions (Generator.empty c) = .ok () g) :
    ∃ t', (ofRecords records c).statement = (.ok .statement, t') ∧ t'.cursor.upcoming = [] ∧
      t'.generator = g := by
  have hahead : Reading.ahead { cursor := (ofRecords records c).cursor } = st.spelling ++ [] := by
    rw [List.append_nil]
    exact hspell
  obtain ⟨r, hx, ht⟩ := Read.statement_reads st hahead
  have hacts : r.steps.toList.filterMap Step.action? = st.actions := ht.actions
  obtain ⟨t', hf, hg'⟩ := follow_of_ok (t := ofRecords records c) (hacts ▸ hg)
  refine ⟨{ t' with cursor := r.cursor }, ?_, List.map_eq_nil_iff.1 (ht.rest hahead), hg'⟩
  unfold statement
  rw [hx]
  dsimp only
  rw [hf]
  rfl

/-- Where nothing waits and no register is in use, a generator goes on as a new one begins. -/
theorem echoes_empty (ht : t.generator.Numbered c false) (hopd : t.generator.operands.items = [])
    (hopr : t.generator.operators.items = []) (hreg : t.generator.registers = {}) :
    Generator.Echoes t.code t.generator.loops t.generator.branches t.generator (.empty c) where
  operands := Stack.ext hopd ht.operandRoom
  operators := Stack.ext hopr ht.operatorRoom
  registers := hreg
  loops := rfl
  branches := rfl
  code := by simp [code, Generator.empty]

end Translator

/-- Whatever failed before: a statement is translated only where nothing waits on the stacks and
no register is in use, and it is translated as by a new translator of the same capacity that is
given the tokens taken, up to the numbers of the labels. At no time is a label defined twice. -/
theorem statement_unaffected_by_failures (records : List Record) (capacity calls : Nat) :
    let t := (Translator.ofRecords records capacity).after calls
    (definedLabels t.code).Nodup ∧
    ∀ t', t.statement = (.ok .statement, t') →
      t.generator.operands.items = [] ∧ t.generator.operators.items = [] ∧
      t.generator.registers = {} ∧
      ∃ taken alone, t.cursor.upcoming = taken ++ t'.cursor.upcoming ∧
        (Translator.ofRecords (taken.map .token) capacity).statement = (.ok .statement, alone) ∧
        alone.cursor.upcoming = [] ∧
        t'.code = t.code ++
          alone.code.map (Instr.shift t.generator.loops t.generator.branches) := by
  intro t
  have ht : t.Settled (significant records) capacity :=
    Translator.settled_after calls (Translator.settled_ofRecords records capacity)
  refine ⟨ht.numbered.nodup, fun t' h => ?_⟩
  obtain ⟨r, hr, hcursor, hactions⟩ := Translator.read_of_statement h
  obtain ⟨st, htook⟩ := Read.statement_ok hr
  have hacts : r.steps.toList.filterMap Step.action? = st.actions := htook.actions
  rw [hacts] at hactions
  obtain ⟨hopd, hopr, hreg⟩ := Generate.empty_of_actions hactions
  -- The tokens taken are those ahead less those still ahead.
  have hstart : Reading.Within { cursor := t.cursor } t.cursor.upcoming :=
    ⟨List.suffix_rfl, by simp⟩
  obtain ⟨taken, htaken⟩ := (Read.statement_confined.ok hstart hr).cursor
  have hsignificant : significant (taken.map Record.token) = taken := by
    refine significant_tokens fun token hmem => isSignificant_of_mem (ht.upcoming.subset ?_)
    rw [← htaken]
    exact List.mem_append_left _ hmem
  have hspell : (significant (taken.map Record.token)).map Token.spelling = st.spelling := by
    have hahead := htook.ahead
    simp only [Reading.ahead, Cursor.ahead] at hahead
    rw [← htaken, List.map_append] at hahead
    rw [hsignificant]
    exact List.append_cancel_right hahead
  obtain ⟨g, hg, hecho⟩ := Generate.echoed_statement st _ _ _ _ _ _ _
    (Translator.echoes_empty ht.numbered hopd hopr hreg) hactions
  obtain ⟨alone, halone, hrest, hgen⟩ := Translator.statement_alone st hspell hg
  refine ⟨hopd, hopr, hreg, taken, alone, ?_, halone, hrest, ?_⟩
  · rw [hcursor, htaken]
  · subst hgen
    exact hecho.code

/-- A loop that breaks off behind its first word has used up a number, so that the labels of the
loop behind it are `begin_2`, `true_1` and `false_1`. -/
theorem loop_unaffected_by_broken_loop :
    let t := (Translator.ofRecords (scan "while x while (a < b) c = d * 2;") 3).after 1
    t.statement.1 = .ok .statement ∧ (definedLabels t.statement.2.code).Nodup ∧
      t.generator.operands.items = [] ∧ t.generator.registers = {} ∧
      ∃ taken alone, t.cursor.upcoming = taken ++ t.statement.2.cursor.upcoming ∧
        (Translator.ofRecords (taken.map .token) 3).statement = (.ok .statement, alone) ∧
        t.statement.2.code = #[.label (.begin 1)] ++ alone.code.map (Instr.shift 1 0) := by
  intro t
  have hstatement : t.statement.1 = .ok .statement := by decide +kernel
  have hcode : t.code = #[.label (.begin 1)] := by decide +kernel
  have hloops : t.generator.loops = 1 := by decide +kernel
  have hbranches : t.generator.branches = 0 := by decide +kernel
  obtain ⟨-, hclean⟩ := statement_unaffected_by_failures _ 3 1
  obtain ⟨hnodup, -⟩ :=
    statement_unaffected_by_failures (scan "while x while (a < b) c = d * 2;") 3 2
  obtain ⟨hopd, -, hreg, taken, alone, htaken, halone, -, happended⟩ :=
    hclean t.statement.2 (Prod.ext hstatement rfl)
  rw [hcode, hloops, hbranches] at happended
  exact ⟨hstatement, hnodup, hopd, hreg, taken, alone, htaken, halone, happended⟩

end LoopAsm
