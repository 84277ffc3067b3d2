/-
Translation keeps the meaning of a program: the code halts with the same values of the variables
as the statements, and if the statements do not halt, neither does the code.

A run of the machine is determined by its start, so a state that is reached halts if and only if
the start does. What is left is one turn of a loop, which leads back to its first label or past
its last one; the loop then halts with the statement by induction on the number of machine steps
in the one direction, and on the derivation of the statement's run in the other.
-/
import LoopAsm.Proofs.Grammar.Acceptance
import LoopAsm.Proofs.Meaning.Straight
import LoopAsm.Proofs.Translate.Labels

namespace LoopAsm

variable {m : Arithmetic} {code pre post : List Instr} {s s' : MachineState} {after : Store}
  {k n : Nat}

/-! ## Halting -/

variable (m) in
/-- A machine runs off the end of its code after `k` steps, with the variables at given values. -/
inductive HaltsIn (code : List Instr) (after : Store) : Nat → MachineState → Prop where
  | done {s : MachineState} (hpos : s.position = code.length) (hstore : s.store = after) :
      HaltsIn code after 0 s
  | step {k : Nat} {s s' : MachineState} (h : s.step m code = some s')
      (rest : HaltsIn code after k s') : HaltsIn code after (k + 1) s

variable (m) in
/-- A machine runs off the end of its code, with the variables at given values. -/
def Halts (code : List Instr) (s : MachineState) (after : Store) : Prop :=
  ∃ k, HaltsIn m code after k s

theorem HaltsIn.of_step (hs : s.step m code = some s') (h : HaltsIn m code after k s) :
    ∃ j, j < k ∧ HaltsIn m code after j s' := by
  cases h with
  | done hpos => simp [MachineState.step, hpos] at hs
  | step hs' rest =>
    rw [hs] at hs'
    cases hs'
    exact ⟨_, Nat.lt_succ_self _, rest⟩

theorem HaltsIn.of_reaches (hr : Reaches m code s s') (h : HaltsIn m code after k s) :
    ∃ j, j ≤ k ∧ HaltsIn m code after j s' := by
  induction hr generalizing k with
  | refl => exact ⟨k, Nat.le_refl k, h⟩
  | step hs _ ih =>
    obtain ⟨j, hj, h'⟩ := h.of_step hs
    obtain ⟨i, hi, h''⟩ := ih h'
    exact ⟨i, by omega, h''⟩

theorem Reaches.halts (hr : Reaches m code s s') (h : Halts m code s' after) :
    Halts m code s after := by
  induction hr with
  | refl => exact h
  | step hs _ ih =>
    obtain ⟨k, h'⟩ := ih h
    exact ⟨k + 1, .step hs h'⟩

theorem Reaches.halts_iff (hr : Reaches m code s s') :
    Halts m code s after ↔ Halts m code s' after := by
  refine ⟨fun ⟨_, h⟩ => ?_, hr.halts⟩
  obtain ⟨j, -, h'⟩ := h.of_reaches hr
  exact ⟨j, h'⟩

theorem halts_at_end (h : s.position = code.length) : Halts m code s after ↔ s.store = after := by
  refine ⟨fun ⟨_, hk⟩ => ?_, fun hs => ⟨0, .done h hs⟩⟩
  cases hk with
  | done _ hs => exact hs
  | step hs => simp [MachineState.step, h] at hs

theorem HaltsIn.reaches (h : HaltsIn m code after k s) :
    ∃ s', Reaches m code s s' ∧ s'.position = code.length ∧ s'.store = after := by
  induction h with
  | done hpos hstore => exact ⟨_, .refl _, hpos, hstore⟩
  | step hs _ ih =>
    obtain ⟨s', hr, hend⟩ := ih
    exact ⟨s', .step hs hr, hend⟩

theorem codeRuns_iff_halts {registers : Register → Int} {before : Store} :
    CodeRuns m code registers before after ↔
      Halts m code ⟨registers, before, (0, 0), 0⟩ after :=
  ⟨fun ⟨_, hr, hpos, hstore⟩ => hr.halts ⟨0, .done hpos hstore⟩, fun ⟨_, h⟩ => h.reaches⟩

/-! ## Labels -/

/-- The number of the loop that a label belongs to. -/
def Label.number : Label → Nat
  | begin n | body n | exit n => n

/-- Every label of some code belongs to one of the first `n` loops. -/
def LabelsUpTo (n : Nat) (code : List Instr) : Prop :=
  ∀ l, .label l ∈ code → l.number ≤ n

theorem LabelsUpTo.not_mem (h : LabelsUpTo n pre) {l : Label} (hl : n < l.number) :
    .label l ∉ pre :=
  fun hmem => Nat.not_le.2 hl (h l hmem)

theorem label_not_mem_assignment (l : Label) (a : Assignment) : .label l ∉ a.code := by
  intro h
  cases labelFree_assignment a _ h

theorem labelsUpTo_statement (st : Statement) (h : LabelsUpTo n pre) :
    LabelsUpTo (n + st.loops) (pre ++ st.code (n + 1)) := by
  intro l hl
  rcases List.mem_append.1 hl with hl | hl
  · exact Nat.le_trans (h l hl) (Nat.le_add_right _ _)
  · cases st with
    | assignment a => exact absurd hl (label_not_mem_assignment l a)
    | loop left op right body =>
      simp [Statement.code, conditionCode, label_not_mem_assignment] at hl
      rcases hl with rfl | rfl | rfl <;> exact Nat.le_refl _

/-- A jump finds the first instruction that is the label it names. -/
theorem idxOf?_append_cons {i : Instr} (h : i ∉ pre) :
    (pre ++ i :: post).idxOf? i = some pre.length := by
  induction pre with
  | nil => simp [List.idxOf?_cons]
  | cons j pre ih =>
    rw [List.mem_cons, not_or] at h
    simp [List.idxOf?_cons, ih h.2, Ne.symm h.1]

/-! ## One turn of a loop -/

theorem holds_inside (op : Comparison) (x y : Int) :
    (Generate.inside op).holds (x, y) = op.holds x y := by
  cases op <;> rfl

theorem holds_past (op : Comparison) (x y : Int) :
    (Generate.past op).holds (x, y) = !op.holds x y := by
  cases op with
  | less => exact (decide_eq_decide.2 not_lt.symm).trans (decide_not ..)
  | greater => exact (decide_eq_decide.2 not_lt.symm).trans (decide_not ..)

theorem step_of_getElem? {i : Instr} (h : code[s.position]? = some i) :
    s.step m code = i.run m code s := by
  rw [MachineState.step, h]
  rfl

theorem jump_taken {c : Condition} {l : Label} (h : code[s.position]? = some (.jump c l))
    (htaken : c.holds s.compared = true) (htarget : code = pre ++ .label l :: post)
    (hl : .label l ∉ pre) : s.step m code = some { s with position := pre.length } := by
  have hidx : code.idxOf? (.label l) = some pre.length := by
    rw [htarget]
    exact idxOf?_append_cons hl
  rw [step_of_getElem? h, Instr.run, if_pos htaken, hidx]
  rfl

theorem jump_passed {c : Condition} {l : Label} (h : code[s.position]? = some (.jump c l))
    (hnot : c.holds s.compared = false) : s.step m code = some s.advance := by
  rw [step_of_getElem? h, Instr.run, if_neg (by rw [hnot]; decide)]

theorem label_passed {l : Label} (h : code[s.position]? = some (.label l)) :
    s.step m code = some s.advance :=
  step_of_getElem? h

/-- Behind a jump that is taken, the label it names is passed. -/
theorem jump_lands {c : Condition} {l : Label} (h : code[s.position]? = some (.jump c l))
    (htaken : c.holds s.compared = true) (htarget : code = pre ++ .label l :: post)
    (hl : .label l ∉ pre) : Reaches m code s { s with position := pre.length + 1 } := by
  have hlabel : code[pre.length]? = some (.label l) := by simp [htarget]
  exact .step (jump_taken h htaken htarget hl) (.step (label_passed hlabel) (.refl _))

section

variable {left right : Value} {op : Comparison} {body : Assignment}
  (hcode : code = pre ++ ((Statement.loop left op right body).code (n + 1) ++ post))
  (hpos : s.position = pre.length)

include hcode in
theorem loop_fetch {j : Nat} {i : Instr}
    (h : ((Statement.loop left op right body).code (n + 1))[j]? = some i) :
    code[pre.length + j]? = some i := by
  obtain ⟨hj, -⟩ := List.getElem?_eq_some_iff.1 h
  rw [hcode, List.getElem?_append_right (by omega), Nat.add_sub_cancel_left,
    List.getElem?_append_left hj, h]

include hcode hpos in
/-- Up to its first jump, a loop compares the two sides of its condition. -/
theorem loop_compares :
    s.step m code = some s.advance ∧ ∃ s', Reaches m code s.advance s' ∧
      s'.position = pre.length + 2 ∧ s'.store = s.store ∧
      s'.compared = (left.eval m s.store, right.eval m s.store) := by
  have h₀ : code[s.position]? = some (.label (.begin (n + 1))) := by
    rw [hpos]; exact loop_fetch hcode (j := 0) rfl
  have h₁ : code[s.advance.position]? = some (.cmp left.operand right.operand) := by
    rw [show s.advance.position = pre.length + 1 by rw [← hpos]; rfl]
    exact loop_fetch hcode rfl
  refine ⟨step_of_getElem? h₀, _, .step (step_of_getElem? h₁) (.refl _), ?_, rfl, ?_⟩
  · simp [MachineState.advance, hpos]
  · simp [MachineState.advance, value_operand]

include hcode hpos in
theorem loop_exits (hlabels : LabelsUpTo n pre)
    (h : op.holds (left.eval m s.store) (right.eval m s.store) = false) :
    ∃ s', Reaches m code s s' ∧
      s'.position = (pre ++ (Statement.loop left op right body).code (n + 1)).length ∧
      s'.store = s.store := by
  obtain ⟨h₀, s₂, hr, hpos₂, hstore, hcompared⟩ := loop_compares (m := m) hcode hpos
  have htarget : code = (pre ++ conditionCode (n + 1) left op right ++ .label (.body (n + 1)) ::
      (body.code ++ [.jump .always (.begin (n + 1))])) ++ .label (.exit (n + 1)) :: post := by
    simp [hcode, Statement.code]
  have hfresh := hlabels.not_mem (l := .exit (n + 1)) (Nat.lt_succ_self n)
  -- The first jump is passed and the second one taken.
  have h₂ : s₂.step m code = some s₂.advance :=
    jump_passed (by rw [hpos₂]; exact loop_fetch hcode rfl) (by rw [hcompared, holds_inside, h])
  have hfetch : code[s₂.advance.position]? = some (.jump (Generate.past op) (.exit (n + 1))) := by
    rw [show s₂.advance.position = pre.length + 3 by rw [MachineState.advance, hpos₂]]
    exact loop_fetch hcode rfl
  have hland := jump_lands (m := m) hfetch
    (by rw [show s₂.advance.compared = _ from hcompared, holds_past, h]; rfl) htarget
    (by simp [hfresh, label_not_mem_assignment, conditionCode])
  refine ⟨_, .step h₀ (hr.trans m (.step h₂ hland)), ?_, hstore⟩
  simp [Statement.code]
  omega

include hcode hpos in
/-- A turn takes at least one step, so that steps count turns. -/
theorem loop_turns (hlabels : LabelsUpTo n pre)
    (h : op.holds (left.eval m s.store) (right.eval m s.store) = true) :
    s.step m code = some s.advance ∧ ∃ s', Reaches m code s.advance s' ∧
      s'.position = pre.length ∧ s'.store = body.run m s.store := by
  obtain ⟨h₀, s₂, hr, hpos₂, hstore, hcompared⟩ := loop_compares (m := m) hcode hpos
  have htarget : code = (pre ++ conditionCode (n + 1) left op right) ++ .label (.body (n + 1)) ::
      (body.code ++ .jump .always (.begin (n + 1)) :: .label (.exit (n + 1)) :: post) := by
    simp [hcode, Statement.code]
  have hstart : code = pre ++ .label (.begin (n + 1)) ::
      (((Statement.loop left op right body).code (n + 1)).tail ++ post) := by
    simp [hcode, Statement.code, conditionCode]
  have hland := jump_lands (m := m) (by rw [hpos₂]; exact loop_fetch hcode rfl)
    (by rw [hcompared, holds_inside, h]) htarget
    (by simp [hlabels.not_mem (l := .body (n + 1)) (Nat.lt_succ_self n), conditionCode])
  obtain ⟨s₄, hthrough, hstore₄⟩ := through_assignment (m := m) body
    { s₂ with position := (pre ++ conditionCode (n + 1) left op right).length + 1 }
  obtain ⟨hr₄, hpos₄⟩ := hthrough
    (pre ++ conditionCode (n + 1) left op right ++ [.label (.body (n + 1))])
    (.jump .always (.begin (n + 1)) :: .label (.exit (n + 1)) :: post)
    (by simp [Nat.add_assoc])
  rw [List.append_assoc _ [_], List.singleton_append, ← htarget] at hr₄
  have hfetch : code[s₄.position]? = some (.jump .always (.begin (n + 1))) := by
    rw [hpos₄, htarget]
    simp
  have hback := jump_taken (m := m) hfetch rfl hstart (hlabels.not_mem (Nat.lt_succ_self n))
  refine ⟨h₀, _, hr.trans m (hland.trans m (hr₄.trans m (.step hback (.refl _)))), rfl, ?_⟩
  exact hstore₄.trans (congrArg (body.run m) hstore)

include hcode in
/-- A loop that halts in `k` steps, or whatever follows it does, has come to its end before. -/
theorem loop_runs_of_haltsIn (hlabels : LabelsUpTo n pre) (hpos : s.position = pre.length)
    (h : HaltsIn m code after k s) :
    ∃ s', (Statement.loop left op right body).Runs m s.store s'.store ∧
      s'.position = (pre ++ (Statement.loop left op right body).code (n + 1)).length ∧
      Halts m code s' after := by
  -- On the number of steps that are left: each turn of the loop uses up some of them.
  induction k using Nat.strongRecOn generalizing s with
  | ind k ih =>
    cases hcond : op.holds (left.eval m s.store) (right.eval m s.store) with
    | false =>
      obtain ⟨s', hr, hpos', hstore⟩ := loop_exits hcode hpos hlabels hcond
      exact ⟨s', by rw [hstore]; exact .loopExit hcond, hpos', hr.halts_iff.1 ⟨k, h⟩⟩
    | true =>
      obtain ⟨h₀, s₁, hr, hpos₁, hstore⟩ := loop_turns hcode hpos hlabels hcond
      obtain ⟨j, hj, h₁⟩ := h.of_step h₀
      obtain ⟨i, hi, h₂⟩ := h₁.of_reaches hr
      obtain ⟨s', hruns, hend⟩ := ih i (by omega) hpos₁ h₂
      rw [hstore] at hruns
      exact ⟨s', .loopBody hcond hruns, hend⟩

include hcode in
theorem reaches_of_loop_runs (hlabels : LabelsUpTo n pre) {before : Store}
    (h : (Statement.loop left op right body).Runs m before after) (hpos : s.position = pre.length)
    (hstore : s.store = before) :
    ∃ s', Reaches m code s s' ∧
      s'.position = (pre ++ (Statement.loop left op right body).code (n + 1)).length ∧
      s'.store = after := by
  -- The derivation has one `loopBody` for each turn, about the same loop.
  generalize hst : Statement.loop left op right body = st at h
  induction h generalizing s with
  | assignment => cases hst
  | loopExit hcond =>
    cases hst
    subst hstore
    exact loop_exits hcode hpos hlabels hcond
  | loopBody hcond _ ih =>
    cases hst
    subst hstore
    obtain ⟨h₀, s₁, hr, hpos₁, hstore₁⟩ := loop_turns hcode hpos hlabels hcond
    obtain ⟨s', hr', hend⟩ := ih hpos₁ hstore₁ rfl
    exact ⟨s', .step h₀ (hr.trans m hr'), hend⟩

end

/-! ## Programs -/

section

variable {st : Statement} (hcode : code = pre ++ (st.code (n + 1) ++ post))
  (hlabels : LabelsUpTo n pre) (hpos : s.position = pre.length)

include hcode hlabels hpos

/-- Code that halts has carried out the statement it starts with. -/
theorem statement_runs_of_halts (h : Halts m code s after) :
    ∃ s', st.Runs m s.store s'.store ∧ s'.position = (pre ++ st.code (n + 1)).length ∧
      Halts m code s' after := by
  cases st with
  | assignment a =>
    obtain ⟨s', hthrough, hstore⟩ := through_assignment (m := m) a s
    obtain ⟨hr, hpos'⟩ := hthrough pre post hpos
    rw [hcode] at h ⊢
    exact ⟨s', by rw [hstore]; exact .assignment a s.store, hpos', hr.halts_iff.1 h⟩
  | loop left op right body =>
    obtain ⟨k, h⟩ := h
    exact loop_runs_of_haltsIn hcode hlabels hpos h

/-- A statement that comes to an end is carried out by the code it is translated to. -/
theorem reaches_of_statement_runs (h : st.Runs m s.store after) :
    ∃ s', Reaches m code s s' ∧ s'.position = (pre ++ st.code (n + 1)).length ∧
      s'.store = after := by
  cases st with
  | assignment a =>
    obtain ⟨s', hthrough, hstore⟩ := through_assignment (m := m) a s
    obtain ⟨hr, hpos'⟩ := hthrough pre post hpos
    rw [hcode]
    cases h
    exact ⟨s', hr, hpos', hstore⟩
  | loop left op right body => exact reaches_of_loop_runs hcode hlabels h hpos rfl

end

theorem halts_iff_programRuns (program : List Statement) (hcode : code = pre ++ programCode n program)
    (hlabels : LabelsUpTo n pre) (hpos : s.position = pre.length) :
    Halts m code s after ↔ ProgramRuns m program s.store after := by
  induction program generalizing pre n s with
  | nil =>
    rw [programCode, List.append_nil] at hcode
    rw [halts_at_end (by rw [hpos, hcode])]
    exact ⟨fun h => h ▸ .nil s.store, fun h => by cases h; rfl⟩
  | cons st program ih =>
    have hrest : code = (pre ++ st.code (n + 1)) ++ programCode (n + st.loops) program := by
      rw [hcode, programCode, List.append_assoc]
    have hlabels' := labelsUpTo_statement st hlabels
    constructor
    · intro h
      obtain ⟨s', hruns, hpos', h'⟩ := statement_runs_of_halts hcode hlabels hpos h
      exact .cons hruns ((ih hrest hlabels' hpos').1 h')
    · rintro (_ | ⟨hfirst, hmore⟩)
      obtain ⟨s', hr, hpos', rfl⟩ := reaches_of_statement_runs hcode hlabels hpos hfirst
      exact hr.halts ((ih hrest hlabels' hpos').2 hmore)

/-- Translation keeps the meaning: a record list that the validator accepts is translated, with
room for three operands, to code that halts with given values of the variables if and only if the
statements it spells do. This holds for every meaning of integers and operations and from every
content of the registers. -/
theorem translate_preserves_meaning (records : List Record) (n capacity : Nat)
    (hvalid : validate records = .ok n) (hcapacity : 3 ≤ capacity) :
    (∃ program : List Statement, program.length = n ∧
      program.flatMap Statement.spelling = (significant records).map Token.spelling) ∧
    ∃ code, translate records capacity = .ok code ∧ ∀ program : List Statement,
      program.flatMap Statement.spelling = (significant records).map Token.spelling →
      ∀ (m : Arithmetic) (registers : Register → Int) (before after : Store),
        CodeRuns m code.toList registers before after ↔ ProgramRuns m program before after := by
  obtain ⟨program, hlength, hspell⟩ := validate_eq_ok_iff.1 hvalid
  have htranslate {p : List Statement}
      (h : p.flatMap Statement.spelling = (significant records).map Token.spelling) :=
    translate_eq_programCode h fun st _ => Nat.le_trans st.depth_le hcapacity
  refine ⟨⟨program, hlength, hspell⟩, _, htranslate hspell, ?_⟩
  intro p hp m registers before after
  -- Another list of statements with the same spelling has the same code.
  have hsame : (programCode 0 program).toArray = (programCode 0 p).toArray :=
    Except.ok.inj ((htranslate hspell).symm.trans (htranslate hp))
  rw [hsame, codeRuns_iff_halts]
  exact halts_iff_programRuns p (List.nil_append _).symm (fun _ h => nomatch h) rfl

/-- Words as tokens of one line. -/
def Spelling.records (words : Spelling) : List Record :=
  words.map fun (kind, lexeme) => .token ⟨kind, lexeme, 1⟩

/-- `while (i < n) s = s - 2 * i / 3 + 4 * i;` -/
def weighting : Statement :=
  .loop (.var "i") .less (.var "n")
    ⟨"s", ⟨.var "s", []⟩, [(.minus, ⟨.int "2", [(.times, .var "i"), (.dividedBy, .int "3")]⟩),
      (.plus, ⟨.int "4", [(.times, .var "i")]⟩)]⟩

theorem weighting_keeps_meaning :
    validate (Spelling.records weighting.spelling) = .ok 1 ∧ 3 ≤ 3 ∧
    ∃ code, translate (Spelling.records weighting.spelling) 3 = .ok code ∧
      ∀ (m : Arithmetic) (registers : Register → Int) (before after : Store),
        CodeRuns m code.toList registers before after ↔
          ProgramRuns m [weighting] before after := by
  have hvalid : validate (Spelling.records weighting.spelling) = .ok 1 :=
    validate_eq_ok_iff.2 ⟨[weighting], rfl, rfl⟩
  obtain ⟨-, code, htranslate, hmeaning⟩ := translate_preserves_meaning _ 1 3 hvalid (Nat.le_refl 3)
  exact ⟨hvalid, Nat.le_refl 3, code, htranslate, hmeaning [weighting] rfl⟩

end LoopAsm
