/-
The validator accepts exactly the grammar: a record list is accepted with `n` statements if and
only if its significant tokens are `n` sentences one after the other, and no other number of
sentences fits them.
-/
import LoopAsm.Grammar.Validator
import LoopAsm.Proofs.Grammar.Derivation
import LoopAsm.Proofs.Grammar.Parse

namespace LoopAsm

/-- The terminal that a token stands for. -/
def Token.terminal (t : Token) : Terminal :=
  Terminal.ofWord t.spelling

namespace Validator

/-! ## One statement -/

variable {v v' : Validator}

theorem read_of_statement (h : v.statement = (.ok .statement, v')) :
    ∃ r, Read.statement { cursor := v.cursor } = .ok true r ∧ v'.cursor = r.cursor ∧
      v'.statements = v.statements + 1 := by
  unfold statement at h
  split at h
  · cases h
  · rename_i r hr
    cases h
    exact ⟨r, hr, rfl, rfl⟩
  · cases h

theorem read_of_end (h : v.statement = (.ok .endOfInput, v')) :
    ∃ r, Read.statement { cursor := v.cursor } = .ok false r ∧ v'.statements = v.statements := by
  unfold statement at h
  split at h
  · rename_i r hr
    cases h
    exact ⟨r, hr, rfl⟩
  · cases h
  · cases h

theorem read_of_error {e : Error} (h : v.statement = (.error e, v')) :
    ∃ x r, Read.statement { cursor := v.cursor } = .error x r ∧
      e = .grammar (v.statements + 1) r.cursor.peek.1 := by
  unfold statement at h
  split at h
  · cases h
  · cases h
  · rename_i x r hr
    cases h
    exact ⟨x, r, hr, rfl⟩

theorem statement_ok (h : v.statement = (.ok .statement, v')) :
    ∃ st : Statement, v.cursor.ahead = st.spelling ++ v'.cursor.ahead ∧
      v'.statements = v.statements + 1 := by
  obtain ⟨r, hr, hcursor, hcount⟩ := read_of_statement h
  obtain ⟨st, ht⟩ := Read.statement_ok hr
  exact ⟨st, hcursor ▸ ht.ahead, hcount⟩

theorem statement_end (h : v.statement = (.ok .endOfInput, v')) :
    v.cursor.ahead = [] ∧ v'.statements = v.statements := by
  obtain ⟨r, hr, hcount⟩ := read_of_end h
  exact ⟨(Read.statement_end hr).1, hcount⟩

theorem statement_reads {v : Validator} (st : Statement) {tail : Spelling}
    (h : v.cursor.ahead = st.spelling ++ tail) :
    ∃ v', v.statement = (.ok .statement, v') ∧ v'.cursor.ahead = tail ∧
      v'.statements = v.statements + 1 := by
  obtain ⟨r', hx, ht⟩ := Read.statement_reads (r := { cursor := v.cursor }) st h
  unfold statement
  rw [hx]
  exact ⟨_, rfl, ht.rest h, rfl⟩

theorem statement_stops {v : Validator} (h : v.cursor.ahead = []) :
    ∃ v', v.statement = (.ok .endOfInput, v') ∧ v'.statements = v.statements := by
  obtain ⟨r', hx, -⟩ := Read.statement_stops (r := { cursor := v.cursor }) h
  unfold statement
  rw [hx]
  exact ⟨_, rfl, rfl⟩

/-! ## All statements -/

theorem run_of_statement {v v' : Validator} (h : v.statement = (.ok .statement, v')) :
    v.run = v'.run := by
  rw [run]
  split <;> rename_i h' <;> rw [h] at h' <;> cases h'
  rfl

theorem run_ok {v : Validator} {n : Nat} (h : v.run.1 = .ok n) :
    ∃ program : List Statement, program.flatMap Statement.spelling = v.cursor.ahead ∧
      n = v.statements + program.length := by
  fun_induction Validator.run v with
  | case1 v v' hs ih =>
    obtain ⟨st, hahead, hcount⟩ := statement_ok hs
    obtain ⟨program, hprogram, rfl⟩ := ih h
    refine ⟨st :: program, ?_, ?_⟩
    · rw [List.flatMap_cons, hprogram, hahead]
    · rw [hcount, List.length_cons]; omega
  | case2 v v' hs =>
    cases h
    obtain ⟨hahead, hcount⟩ := statement_end hs
    exact ⟨[], hahead.symm, hcount⟩
  | case3 => cases h

theorem run_reads {v : Validator} (program : List Statement)
    (h : v.cursor.ahead = program.flatMap Statement.spelling) :
    v.run.1 = .ok (v.statements + program.length) := by
  induction program generalizing v with
  | nil =>
    obtain ⟨v', hs, hcount⟩ := statement_stops h
    rw [run]
    split <;> rename_i h' <;> rw [hs] at h' <;> cases h'
    rw [hcount]; rfl
  | cons st program ih =>
    obtain ⟨v', hs, hahead, hcount⟩ := statement_reads st h
    rw [run_of_statement hs, ih hahead, hcount, List.length_cons, Nat.add_right_comm, Nat.add_assoc]

end Validator

/-- A record list is accepted if its significant tokens spell statements, as many as it counts. -/
theorem validate_eq_ok_iff {records : List Record} {n : Nat} :
    validate records = .ok n ↔ ∃ program : List Statement, program.length = n ∧
      program.flatMap Statement.spelling = (significant records).map Token.spelling := by
  constructor
  · intro h
    obtain ⟨program, hp, hn⟩ := Validator.run_ok h
    exact ⟨program, by simpa [Validator.ofRecords] using hn.symm, hp⟩
  · rintro ⟨program, rfl, hp⟩
    have := Validator.run_reads (v := .ofRecords records) program hp.symm
    simpa [validate, Validator.ofRecords] using this

/-- The validator accepts exactly the grammar: it counts `n` statements if and only if the
significant tokens are `n` sentences in a row, and they are for one `n` at most. -/
theorem validate_accepts_grammar (records : List Record) (n : Nat) :
    (validate records = .ok n ↔
      (significant records).map Token.terminal ∈ statementGrammar.language ^ n) ∧
    ∀ m, (significant records).map Token.terminal ∈ statementGrammar.language ^ n →
      (significant records).map Token.terminal ∈ statementGrammar.language ^ m → m = n := by
  have hiff : ∀ k, validate records = .ok k ↔
      (significant records).map Token.terminal ∈ statementGrammar.language ^ k := by
    intro k
    rw [validate_eq_ok_iff, ← mem_language_pow_iff, List.map_map]
    rfl
  refine ⟨hiff n, fun m hn hm => ?_⟩
  rw [← hiff] at hn hm
  rw [hn] at hm
  cases hm
  rfl

end LoopAsm
