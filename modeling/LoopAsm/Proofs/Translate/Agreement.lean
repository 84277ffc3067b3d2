/-
The translator does not need the validator before it: it accepts the same record lists and counts
the same statements, and a record list that the validator rejects is rejected for a token that
does not fit or is missing, never for lack of room or of registers.

Both read with one reader, so they stand at the same place between two statements. A statement
that was read asks for the actions of a tree, and one that was broken off for a beginning of them;
with room for three operands both are carried out to their end.
-/
import LoopAsm.Compile
import LoopAsm.Proofs.Grammar.Acceptance
import LoopAsm.Proofs.Grammar.Failure
import LoopAsm.Proofs.Translate.Emission

namespace LoopAsm

/-- The faults of a token that does not fit or is missing. -/
def SyncFault.ofTokens : List SyncFault :=
  [.unexpectedToken, .expectedTarget, .expectedOperand, .expectedComparison]

theorem Expected.fault_mem (e : Expected) : e.fault ∈ SyncFault.ofTokens := by
  cases e <;> simp [fault, SyncFault.ofTokens]

/-- Nothing waits and no register is in use, as between two statements. -/
def Generator.Idle (g : Generator) (c : Nat) : Prop :=
  ∃ n code, g.Shows ⟨c, [], [], {}, n, n, code⟩

theorem Generate.actions_of_prefix {as bs : List Action} (h : as <+: bs) {g g' : Generator}
    (hg : actions bs g = .ok () g') : ∃ g'', actions as g = .ok () g'' := by
  obtain ⟨rest, rfl⟩ := h
  rw [actions_append] at hg
  obtain ⟨_, g'', hx, -⟩ := bind_eq_ok hg
  exact ⟨g'', hx⟩

namespace Translator

variable {t : Translator} {c : Nat}

/-! ## Calls one after the other -/

/-- The translator after a number of calls for one more statement, whatever they return. -/
def after : Nat → Translator → Translator
  | 0, t => t
  | n + 1, t => t.statement.2.after n

theorem after_succ (t : Translator) (calls : Nat) :
    t.after (calls + 1) = (t.after calls).statement.2 := by
  induction calls generalizing t with
  | zero => rfl
  | succ calls ih => exact ih t.statement.2

/-- The translator finds `n` statements and then the end of the input. -/
def Counts (t : Translator) (n : Nat) : Prop :=
  (∀ i < n, (t.after i).statement.1 = .ok .statement) ∧ (t.after n).statement.1 = .ok .endOfInput

theorem counts_succ {t' : Translator} {n : Nat} (h : t.statement = (.ok .statement, t'))
    (hn : t'.Counts n) : t.Counts (n + 1) := by
  have hafter (i : Nat) : t.after (i + 1) = t'.after i := by rw [after, h]
  refine ⟨fun i hi => ?_, by rw [hafter]; exact hn.2⟩
  cases i with
  | zero => rw [after, h]
  | succ i =>
    rw [hafter]
    exact hn.1 i (by omega)

/-! ## One statement -/

theorem idle_ofRecords (records : List Record) (capacity : Nat) :
    (ofRecords records capacity).generator.Idle capacity :=
  ⟨0, [], rfl, rfl, rfl, rfl, rfl, rfl, rfl, rfl⟩

/-- A statement that was read is translated, and the translator is where the reader is. -/
theorem statement_of_read {r : Reading} {more : Bool} (hc : 3 ≤ c) (hg : t.generator.Idle c)
    (h : Read.statement { cursor := t.cursor } = .ok more r) :
    ∃ t', t.statement = (.ok (if more then .statement else .endOfInput), t') ∧
      t'.cursor = r.cursor ∧ t'.generator.Idle c := by
  obtain ⟨n, code, hg⟩ := hg
  obtain ⟨t', hf, hidle⟩ : ∃ t', t.follow r.steps.toList = (.ok (), t') ∧ t'.generator.Idle c := by
    cases more with
    | true =>
      obtain ⟨st, ht⟩ := Read.statement_ok h
      have hacts : r.steps.toList.filterMap Step.action? = st.actions := ht.actions
      obtain ⟨t', hf, hg'⟩ := follow_ok hg
        (hacts ▸ Generate.generates_statement st (Nat.le_trans st.depth_le hc))
      exact ⟨t', hf, _, _, hg'⟩
    | false =>
      have hacts : r.steps.toList.filterMap Step.action? = [] := (Read.statement_end h).2.actions
      have hnone : Generate.actions (r.steps.toList.filterMap Step.action?) t.generator =
          .ok () t.generator := by rw [hacts]; rfl
      obtain ⟨t', hf, hg'⟩ := follow_of_ok hnone
      exact ⟨t', hf, n, code, hg' ▸ hg⟩
  unfold statement
  rw [h]
  dsimp only
  rw [hf]
  exact ⟨_, rfl, rfl, hidle⟩

/-- A statement that could not be read fails for the token that is missing: what it asked for up
to there is a beginning of what some statement asks for. -/
theorem statement_of_broken {r : Reading} {e : Expected} (hc : 3 ≤ c) (hg : t.generator.Idle c)
    (h : Read.statement { cursor := t.cursor } = .error e r) :
    ∃ t', t.statement = (.error (.outOfSync e.fault), t') := by
  obtain ⟨n, code, hg⟩ := hg
  obtain ⟨st, taken, asked, ht, -, hasked⟩ := Read.statement_error h
  obtain ⟨g, hst, -⟩ :=
    Generate.generates_statement st (Nat.le_trans st.depth_le hc) t.generator hg
  obtain ⟨g', hx⟩ := Generate.actions_of_prefix hasked hst
  have hacts : r.steps.toList.filterMap Step.action? = asked := ht.actions
  obtain ⟨t', hf, -⟩ := follow_of_ok (hacts ▸ hx)
  unfold statement
  rw [h]
  dsimp only
  rw [hf]
  exact ⟨_, rfl⟩

/-! ## All statements -/

/-- From the same place, the validator and the translator come to the same verdict. -/
theorem run_agrees {v : Validator} (hcursor : t.cursor = v.cursor) (hg : t.generator.Idle c)
    (hc : 3 ≤ c) (count : Nat) :
    match v.run.1 with
    | .ok n => ∃ m code, n = v.statements + m ∧ t.Counts m ∧ (t.run count).1 = .ok code ∧
        (t.run count).2.log.back? = some (.translated (count + m) code.size)
    | .error e => (∃ k found, e = .grammar k found) ∧
        ∃ fault ∈ SyncFault.ofTokens, (t.run count).1 = .error (.outOfSync fault) := by
  fun_induction Validator.run v generalizing t count with
  | case1 v v' hv ih =>
    obtain ⟨r, hr, hcursor', hstatements⟩ := Validator.read_of_statement hv
    obtain ⟨t', hs, ht', hg'⟩ := statement_of_read hc hg (hcursor ▸ hr)
    have hrun : t.run count = t'.run (count + 1) := by
      rw [run]
      split <;> rename_i h' <;> rw [hs] at h' <;> cases h'
      rfl
    have hrest := ih (ht'.trans hcursor'.symm) hg' (count + 1)
    rw [hrun]
    split at hrest
    · obtain ⟨m, code, hm, hcounts, hcode, hlog⟩ := hrest
      refine ⟨m + 1, code, by omega, counts_succ hs hcounts, hcode, ?_⟩
      rw [hlog, Nat.add_right_comm, Nat.add_assoc]
    · exact hrest
  | case2 v v' hv =>
    obtain ⟨r, hr, hstatements⟩ := Validator.read_of_end hv
    obtain ⟨t', hs, -, -⟩ := statement_of_read hc hg (hcursor ▸ hr)
    have hrun : t.run count =
        (.ok t'.code, { t' with log := t'.log.push (.translated count t'.code.size) }) := by
      rw [run]
      split <;> rename_i h' <;> rw [hs] at h' <;> cases h'
      rfl
    rw [hrun]
    have hend : (t.after 0).statement.1 = .ok .endOfInput := by
      rw [after, hs]
      rfl
    exact ⟨0, t'.code, hstatements, ⟨fun i hi => absurd hi (Nat.not_lt_zero i), hend⟩, rfl, by simp⟩
  | case3 v e v' hv =>
    obtain ⟨x, r, hr, rfl⟩ := Validator.read_of_error hv
    obtain ⟨t', hs⟩ := statement_of_broken hc hg (hcursor ▸ hr)
    have hrun : (t.run count).1 = .error (.outOfSync x.fault) := by
      rw [run]
      split <;> rename_i h' <;> rw [hs] at h' <;> cases h'
      rfl
    exact ⟨⟨_, _, rfl⟩, x.fault, x.fault_mem, hrun⟩

end Translator

/-- The verdicts on a whole record list. -/
theorem translate_verdict (records : List Record) (capacity : Nat) (hcapacity : 3 ≤ capacity) :
    match validate records with
    | .ok n => (Translator.ofRecords records capacity).Counts n ∧
        ∃ code, translate records capacity = .ok code ∧
          ((Translator.ofRecords records capacity).run 0).2.log.back? =
            some (.translated n code.size)
    | .error e => (∃ k found, e = .grammar k found) ∧
        ∃ fault ∈ SyncFault.ofTokens, translate records capacity = .error (.outOfSync fault) := by
  have hagree := Translator.run_agrees (t := .ofRecords records capacity)
    (v := .ofRecords records) rfl (Translator.idle_ofRecords records capacity) hcapacity 0
  cases hv : validate records with
  | ok n =>
    rw [show (Validator.ofRecords records).run.1 = .ok n from hv] at hagree
    obtain ⟨m, code, hn, hcounts, hcode, hlog⟩ := hagree
    obtain rfl : n = m := hn.trans (Nat.zero_add m)
    rw [Nat.zero_add] at hlog
    exact ⟨hcounts, code, hcode, hlog⟩
  | error e =>
    rw [show (Validator.ofRecords records).run.1 = .error e from hv] at hagree
    exact hagree

/-- A compilation fails only for its grammar. -/
theorem grammar_of_compile {records : List Record} {e : Error}
    (h : compile records defaultCapacity = .error e) :
    validate records = .error e ∧ ∃ k found, e = .grammar k found := by
  have hverdict := translate_verdict records defaultCapacity (by decide)
  rw [compile_eq] at h
  cases hv : validate records with
  | ok n =>
    rw [hv] at h hverdict
    obtain ⟨-, code, hcode, -⟩ := hverdict
    rw [hcode] at h
    cases h
  | error e' =>
    rw [hv] at h hverdict
    cases h
    exact ⟨rfl, hverdict.1⟩

/-- The translator agrees with the validator, with room for three operands or more: it accepts
the same record lists, finds and reports the same number of statements, and where the validator
reports a fault in the grammar it fails for a token that does not fit or is missing. It fails for
nothing else, so a compilation fails only for its grammar. -/
theorem translate_agrees_with_validate (records : List Record) (capacity : Nat)
    (hcapacity : 3 ≤ capacity) :
    ((∃ code, translate records capacity = .ok code) ↔ ∃ n, validate records = .ok n) ∧
    (∀ n, validate records = .ok n → (Translator.ofRecords records capacity).Counts n ∧
      ∃ code, translate records capacity = .ok code ∧
        ((Translator.ofRecords records capacity).run 0).2.log.back? =
          some (.translated n code.size)) ∧
    (∀ e, validate records = .error e → (∃ k found, e = .grammar k found) ∧
      ∃ fault ∈ SyncFault.ofTokens, translate records capacity = .error (.outOfSync fault)) ∧
    (∀ e, translate records capacity = .error e →
      ∃ fault ∈ SyncFault.ofTokens, e = .outOfSync fault) ∧
    ∀ e, compile records defaultCapacity = .error e →
      validate records = .error e ∧ ∃ k found, e = .grammar k found := by
  have hverdict := translate_verdict records capacity hcapacity
  cases hv : validate records with
  | ok n =>
    rw [hv] at hverdict
    obtain ⟨hcounts, code, hcode, hlog⟩ := hverdict
    refine ⟨⟨fun _ => ⟨n, rfl⟩, fun _ => ⟨code, hcode⟩⟩, ?_, ?_, ?_, ?_⟩
    · rintro _ ⟨⟩
      exact ⟨hcounts, code, hcode, hlog⟩
    · intro e he
      cases he
    · intro e he
      rw [hcode] at he
      cases he
    · intro e he
      exact hv ▸ grammar_of_compile he
  | error e =>
    rw [hv] at hverdict
    obtain ⟨hgrammar, fault, hfault, hfails⟩ := hverdict
    refine ⟨⟨?_, ?_⟩, ?_, ?_, ?_, ?_⟩
    · rintro ⟨code, hcode⟩
      rw [hfails] at hcode
      cases hcode
    · rintro ⟨n, hn⟩
      cases hn
    · intro n hn
      cases hn
    · rintro _ ⟨⟩
      exact ⟨hgrammar, fault, hfault, hfails⟩
    · intro e' he'
      rw [hfails] at he'
      cases he'
      exact ⟨fault, hfault, rfl⟩
    · intro e' he'
      exact hv ▸ grammar_of_compile he'

/-- A loop that is translated, and one with a product behind it that is broken off while three
operands wait. -/
theorem translate_agrees_on_broken_product :
    3 ≤ 3 ∧ validate (scan "while (i < n) s = s - 2 * i;") = .ok 1 ∧
    (Translator.ofRecords (scan "while (i < n) s = s - 2 * i;") 3).Counts 1 ∧
    validate (scan "while (i < n) s = s - 2 * i; x = 1 + 2 * ;") =
      .error (.grammar 2 (some ⟨.semicolon, ";", 1⟩)) ∧
    ∃ fault ∈ SyncFault.ofTokens,
      translate (scan "while (i < n) s = s - 2 * i; x = 1 + 2 * ;") 3 =
        .error (.outOfSync fault) := by
  have haccepted : validate (scan "while (i < n) s = s - 2 * i;") = .ok 1 := by decide +kernel
  have hrejected : validate (scan "while (i < n) s = s - 2 * i; x = 1 + 2 * ;") =
      .error (.grammar 2 (some ⟨.semicolon, ";", 1⟩)) := by decide +kernel
  obtain ⟨-, hcounts, -⟩ := translate_agrees_with_validate _ 3 (Nat.le_refl 3)
  obtain ⟨-, -, hfails, -⟩ := translate_agrees_with_validate _ 3 (Nat.le_refl 3)
  exact ⟨Nat.le_refl 3, haccepted, (hcounts 1 haccepted).1, hrejected, (hfails _ hrejected).2⟩

end LoopAsm
