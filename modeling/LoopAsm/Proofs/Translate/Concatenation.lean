/-
Translation goes statement by statement. Between two statements nothing is kept but the count of
statements and of loops: no token waits in a way that matters, the stacks and the registers are
empty. So a record list behind whole statements is checked and translated as it is alone, with its
statements and its labels counted on.
-/
import LoopAsm.Proofs.Grammar.Acceptance
import LoopAsm.Proofs.Grammar.Uniform
import LoopAsm.Proofs.Translate.Agreement
import LoopAsm.Proofs.Translate.Labels
import Mathlib.Algebra.GroupWithZero.Nat

namespace LoopAsm

namespace Validator

variable {v v' w : Validator} {n : Nat}

theorem alike_of_upcoming (h : v.cursor.upcoming = v'.cursor.upcoming) :
    Reading.Alike { cursor := v.cursor } { cursor := v'.cursor } :=
  ⟨congrArg (List.map Token.spelling) h, rfl⟩

/-! ## One statement -/

/-- With the same tokens ahead, one more statement is found in both places or in none. -/
theorem statement_of_upcoming (h : v.cursor.upcoming = v'.cursor.upcoming) {o : Outcome}
    (hs : v.statement = (.ok o, w)) :
    ∃ w', v'.statement = (.ok o, w') ∧ w.cursor.upcoming = w'.cursor.upcoming ∧
      w'.statements + v.statements = v'.statements + w.statements := by
  unfold statement at hs ⊢
  cases hr : Read.statement { cursor := v.cursor } with
  | error e r =>
    rw [hr] at hs
    cases hs
  | ok more r =>
    obtain ⟨r', hr', halike⟩ := Read.statement_uniform.ok (alike_of_upcoming h) hr
    have hup : r.cursor.upcoming = r'.cursor.upcoming :=
      halike.upcoming_eq (Read.statement_confined.ok v.cursor.within hr)
        (h ▸ Read.statement_confined.ok v'.cursor.within hr')
    rw [hr] at hs
    rw [hr']
    cases more with
    | true =>
      cases hs
      exact ⟨_, rfl, hup, Nat.add_right_comm v'.statements 1 v.statements⟩
    | false =>
      cases hs
      exact ⟨_, rfl, hup, rfl⟩

/-- With the same tokens ahead, the same token does not fit. -/
theorem error_of_upcoming (h : v.cursor.upcoming = v'.cursor.upcoming) {e : Error}
    (hs : v.statement = (.error e, w)) :
    ∃ found w', e = .grammar (v.statements + 1) found ∧
      v'.statement = (.error (.grammar (v'.statements + 1) found), w') := by
  obtain ⟨x, r, hr, rfl⟩ := read_of_error hs
  obtain ⟨r', hr', halike⟩ := Read.statement_uniform.error (alike_of_upcoming h) hr
  have hup : r.cursor.upcoming = r'.cursor.upcoming :=
    halike.upcoming_eq (Read.statement_confined.error v.cursor.within hr)
      (h ▸ Read.statement_confined.error v'.cursor.within hr')
  have hfound : r.cursor.peek.1 = r'.cursor.peek.1 := by
    rw [Cursor.peek_eq_head?, Cursor.peek_eq_head?, hup]
  unfold statement
  rw [hr']
  exact ⟨_, _, rfl, by rw [hfound]⟩

/-! ## All statements -/

/-- A verdict that counts on from `n` statements. -/
def countOn (n : Nat) : Except Error Nat → Except Error Nat
  | .ok m => .ok (n + m)
  | .error (.grammar k found) => .error (.grammar (n + k) found)
  | .error e => .error e

/-- The verdict depends on the tokens ahead and on the statements before. -/
theorem run_of_upcoming (h : v.cursor.upcoming = v'.cursor.upcoming)
    (hn : v'.statements = n + v.statements) : v'.run.1 = countOn n v.run.1 := by
  fun_induction Validator.run v generalizing v' with
  | case1 v w hs ih =>
    obtain ⟨w', hs', hup, hcount⟩ := statement_of_upcoming h hs
    rw [run_of_statement hs']
    exact ih hup (by omega)
  | case2 v w hs =>
    obtain ⟨w', hs', -, hcount⟩ := statement_of_upcoming h hs
    have hcount' : w'.statements = n + w.statements := by omega
    rw [run]
    split <;> rename_i h' <;> rw [hs'] at h' <;> cases h'
    exact congrArg Except.ok hcount'
  | case3 v e w hs =>
    obtain ⟨found, w', rfl, hs'⟩ := error_of_upcoming h hs
    rw [run]
    split <;> rename_i h' <;> rw [hs'] at h' <;> cases h'
    rw [hn]
    rfl

/-- Statements that are spelled out are checked one after the other, and what is behind them is
still ahead then. -/
theorem run_behind (program : List Statement) {tail : Spelling}
    (h : v.cursor.ahead = program.flatMap Statement.spelling ++ tail) :
    ∃ w : Validator, v.run = w.run ∧ w.cursor.upcoming <:+ v.cursor.upcoming ∧
      w.cursor.ahead = tail ∧ w.statements = v.statements + program.length := by
  induction program generalizing v with
  | nil => exact ⟨v, rfl, List.suffix_rfl, h, rfl⟩
  | cons st program ih =>
    rw [List.flatMap_cons, List.append_assoc] at h
    obtain ⟨w, hs, hahead, hcount⟩ := statement_reads st h
    obtain ⟨r, hr, hcursor, -⟩ := read_of_statement hs
    have hsuffix : w.cursor.upcoming <:+ v.cursor.upcoming := by
      rw [hcursor]
      exact (Read.statement_confined.ok v.cursor.within hr).cursor
    obtain ⟨w', hrun, hsuffix', hahead', hcount'⟩ := ih hahead
    refine ⟨w', (run_of_statement hs).trans hrun, hsuffix'.trans hsuffix, hahead', ?_⟩
    rw [hcount', hcount, List.length_cons]
    omega

end Validator

/-- Behind whole statements, a record list is checked as it is alone. -/
theorem validate_append {first second : List Record} {n : Nat} (h : validate first = .ok n) :
    validate (first ++ second) = Validator.countOn n (validate second) := by
  obtain ⟨program, hlength, hspell⟩ := validate_eq_ok_iff.1 h
  have hahead : (Validator.ofRecords (first ++ second)).cursor.ahead =
      program.flatMap Statement.spelling ++ (significant second).map Token.spelling := by
    rw [hspell, ← List.map_append, ← significant_append]
    rfl
  obtain ⟨w, hrun, hsuffix, hrest, hcount⟩ := Validator.run_behind program hahead
  have hup : (Validator.ofRecords second).cursor.upcoming = w.cursor.upcoming := by
    refine eq_of_suffix_of_spelling (significant (first ++ second)) ?_ hsuffix hrest.symm
    rw [significant_append]
    exact List.suffix_append _ _
  rw [validate, hrun]
  exact Validator.run_of_upcoming hup (by rw [hcount, hlength]; exact Nat.add_comm 0 n)

/-! ## Labels counted on -/

theorem LabelFree.map_shift {code : List Instr} (h : LabelFree code) (loops branches : Nat) :
    code.map (Instr.shift loops branches) = code :=
  (List.map_congr_left fun i hi => Instr.shift_of_label? (h i hi) loops branches).trans code.map_id

/-- The code of a statement depends on the number of its loop by its labels only. -/
theorem Statement.map_shift_code (st : Statement) (n m : Nat) :
    (st.code m).map (Instr.shift n n) = st.code (n + m) := by
  cases st with
  | assignment a => exact (labelFree_assignment a).map_shift n n
  | loop left op right body =>
    simp only [code, conditionCode, List.map_append, List.map_cons, List.map_nil,
      (labelFree_assignment body).map_shift, Instr.shift, Label.shift]

theorem map_shift_programCode (program : List Statement) (n m : Nat) :
    (programCode m program).map (Instr.shift n n) = programCode (n + m) program := by
  induction program generalizing m with
  | nil => rfl
  | cons st program ih =>
    rw [programCode, programCode, List.map_append, st.map_shift_code, ih, Nat.add_assoc,
      Nat.add_assoc]

theorem programCode_append (p q : List Statement) (n : Nat) :
    programCode n (p ++ q) =
      programCode n p ++ programCode (n + (p.map Statement.loops).sum) q := by
  induction p generalizing n with
  | nil => rfl
  | cons st p ih =>
    rw [List.cons_append, programCode, programCode, ih, List.map_cons, List.sum_cons,
      List.append_assoc, Nat.add_assoc]

/-! ## Loops of a record list -/

/-- The words that open a loop. Where the records spell statements, these are as many as the
loops among them. -/
def whileWords (records : List Record) : Nat :=
  (significant records).countP Token.isWhile

/-- A loop has one word that opens it, and an assignment has none. -/
theorem Statement.count_while (st : Statement) :
    st.spelling.count (.keyword, "while") = st.loops := by
  have hkind : (Kind.keyword, "while").1 ∉ Assignment.kinds := by decide
  cases st with
  | assignment a =>
    simp [spelling, loops, List.count_eq_zero_of_not_mem (a.not_mem_spelling hkind)]
  | loop left op right body =>
    have hop : (.keyword, "while") ∉ op.spelling := by cases op <;> simp [Comparison.spelling]
    simp [spelling, loops, List.count_eq_zero_of_not_mem (body.not_mem_spelling hkind),
      List.count_eq_zero_of_not_mem (left.not_mem_spelling hkind),
      List.count_eq_zero_of_not_mem (right.not_mem_spelling hkind),
      List.count_eq_zero_of_not_mem hop]

theorem whileWords_eq {records : List Record} {program : List Statement}
    (h : program.flatMap Statement.spelling = (significant records).map Token.spelling) :
    whileWords records = (program.map Statement.loops).sum := by
  calc whileWords records
      = ((significant records).map Token.spelling).count (.keyword, "while") := by
        rw [whileWords, List.count, List.countP_map]
        refine List.countP_congr fun t _ => ?_
        rw [Token.isWhile_iff, Function.comp_apply, beq_iff_eq]
    _ = (program.flatMap Statement.spelling).count (.keyword, "while") := by rw [h]
    _ = (program.map Statement.loops).sum := by
        rw [List.count_flatMap]
        exact congrArg List.sum (List.map_congr_left fun st _ => st.count_while)

/-! ## Two record lists -/

/-- The code of records behind others is their own, with the labels counted on. -/
theorem translate_of_spellings {first second : List Record} {p q : List Statement} {capacity : Nat}
    (hp : p.flatMap Statement.spelling = (significant first).map Token.spelling)
    (hq : q.flatMap Statement.spelling = (significant second).map Token.spelling)
    (hcapacity : 3 ≤ capacity) :
    ∃ before behind, translate first capacity = .ok before ∧
      translate second capacity = .ok behind ∧
      translate (first ++ second) capacity =
        .ok (before ++ behind.map (Instr.shift (whileWords first) (whileWords first))) := by
  have hroom (st : Statement) : st.depth ≤ capacity := st.depth_le.trans hcapacity
  have hpq : (p ++ q).flatMap Statement.spelling =
      (significant (first ++ second)).map Token.spelling := by
    rw [List.flatMap_append, hp, hq, significant_append, List.map_append]
  refine ⟨_, _, translate_eq_programCode hp fun st _ => hroom st,
    translate_eq_programCode hq fun st _ => hroom st, ?_⟩
  rw [translate_eq_programCode hpq fun st _ => hroom st, programCode_append, whileWords_eq hp,
    List.map_toArray, map_shift_programCode, List.append_toArray, Nat.zero_add, Nat.add_zero]

/-- Translation goes statement by statement. Behind records that are whole statements, records
are checked as they are alone, with their statements counted on; where they fail, the same token
does not fit. With room for three operands, the code of both is the code of the one and then of
the other, whose labels are counted on by the loops before. -/
theorem translate_append (first second : List Record) {n : Nat} (h : validate first = .ok n) :
    (∀ m, validate second = .ok m →
      validate (first ++ second) = .ok (n + m) ∧
      ∀ capacity, 3 ≤ capacity → ∃ before behind, translate first capacity = .ok before ∧
        translate second capacity = .ok behind ∧
        translate (first ++ second) capacity =
          .ok (before ++ behind.map (Instr.shift (whileWords first) (whileWords first)))) ∧
    ∀ k found, validate second = .error (.grammar k found) →
      validate (first ++ second) = .error (.grammar (n + k) found) := by
  constructor
  · intro m hm
    obtain ⟨p, -, hp⟩ := validate_eq_ok_iff.1 h
    obtain ⟨q, -, hq⟩ := validate_eq_ok_iff.1 hm
    constructor
    · rw [validate_append h, hm, Validator.countOn]
    · intro capacity hcapacity
      exact translate_of_spellings hp hq hcapacity
  · intro k found hk
    rw [validate_append h, hk, Validator.countOn]

/-- A loop, with a loop and an assignment behind it, or a product without its second value. -/
theorem translate_append_loops :
    validate (scan "while (i < n) s = s - 2 * i;\n") = .ok 1 ∧
    validate (scan "while (a > 1) b = b * 2 + c; d = b;") = .ok 2 ∧ 3 ≤ 3 ∧
    validate (scan "x = 1; y = 2 *;") = .error (.grammar 2 (some ⟨.semicolon, ";", 1⟩)) ∧
    whileWords (scan "while (i < n) s = s - 2 * i;\n") = 1 ∧
    validate (scan "while (i < n) s = s - 2 * i;\n" ++
      scan "while (a > 1) b = b * 2 + c; d = b;") = .ok 3 ∧
    (∃ before behind, translate (scan "while (i < n) s = s - 2 * i;\n") 3 = .ok before ∧
      translate (scan "while (a > 1) b = b * 2 + c; d = b;") 3 = .ok behind ∧
      translate (scan "while (i < n) s = s - 2 * i;\n" ++
        scan "while (a > 1) b = b * 2 + c; d = b;") 3 =
          .ok (before ++ behind.map (Instr.shift 1 1))) ∧
    validate (scan "while (i < n) s = s - 2 * i;\n" ++ scan "x = 1; y = 2 *;") =
      .error (.grammar 3 (some ⟨.semicolon, ";", 1⟩)) := by
  have hfirst : validate (scan "while (i < n) s = s - 2 * i;\n") = .ok 1 := by decide +kernel
  have hsecond : validate (scan "while (a > 1) b = b * 2 + c; d = b;") = .ok 2 := by decide +kernel
  have hbroken : validate (scan "x = 1; y = 2 *;") =
      .error (.grammar 2 (some ⟨.semicolon, ";", 1⟩)) := by decide +kernel
  have hloops : whileWords (scan "while (i < n) s = s - 2 * i;\n") = 1 := by decide +kernel
  obtain ⟨hvalid, hcode⟩ := (translate_append _ _ hfirst).1 2 hsecond
  have hcode := hcode 3 (Nat.le_refl 3)
  rw [hloops] at hcode
  exact ⟨hfirst, hsecond, Nat.le_refl 3, hbroken, hloops, hvalid, hcode,
    (translate_append _ _ hfirst).2 2 _ hbroken⟩

end LoopAsm
