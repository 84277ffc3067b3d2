/-
What a command leaves on the disk. A command that fails has changed nothing, and one that succeeds
has changed its output at most: whatever can fail comes before the output is created, and a scan
does not fail. The commands are run on any disk that does what its operations are for, so that it
does not matter which names lead to one file, which files can be opened and where new ones can be
made.
-/
import LoopAsm.Proofs.Command.TwoSteps

namespace LoopAsm

open Utf8 (Byte)

/-! ## Disks -/

/-- From `s` to `s'` the file of a name was given new bytes, under each of its names, and all other
files are as they were. -/
def Overwrites {σ : Type} (look : σ → String → Option (List Byte)) (Same : String → String → Prop)
    (s s' : σ) (name : String) (bytes : List Byte) : Prop :=
  ∀ other, (Same other name → look s' other = some bytes) ∧
    (¬ Same other name → look s' other = look s other)

/-- A disk whose operations do what they are for. A file may refuse to be opened or created, which
changes nothing; a file that is open is read, and one that was created is written. -/
structure Volume (σ : Type) where
  disk : Disk (StateM σ)
  /-- The bytes of the file that a name leads to, if it leads to one. -/
  look : σ → String → Option (List Byte)
  /-- The names that lead to one file. -/
  Same : String → String → Prop
  same_refl : ∀ name, Same name name
  opens : ∀ s name, (∃ e, (disk.openFile name).run s = (.error e, s)) ∨
    (disk.openFile name).run s = (.ok (), s) ∧ (look s name).isSome
  creates : ∀ s name, (∃ e, (disk.createFile name).run s = (.error e, s)) ∨
    ∃ s', (disk.createFile name).run s = (.ok (), s') ∧ Overwrites look Same s s' name []
  reads : ∀ s name bytes, look s name = some bytes → (disk.readFile name).run s = (bytes, s)
  writes : ∀ s name bytes, (look s name).isSome →
    ∃ s', (disk.writeFile name bytes).run s = ((), s') ∧ Overwrites look Same s s' name bytes

theorem Files.overwrites_put (files : Files) (name : String) (bytes : List Byte) :
    Overwrites Files.get? Eq files (files.put name bytes) name bytes := by
  intro other
  constructor
  · rintro rfl
    exact get?_put_self files other bytes
  · intro hne
    exact get?_put_of_ne hne files bytes

/-- Files in memory, where every name leads to a file of its own. -/
def Files.volume : Volume Files where
  disk := Files.disk
  look := Files.get?
  Same := Eq
  same_refl _ := rfl
  opens files name := by
    cases h : files.get? name with
    | none => exact .inl ⟨.notFound, by simp [disk, h, StateT.run]⟩
    | some bytes => exact .inr ⟨run_openFile h, rfl⟩
  creates files name := by
    cases h : files.canCreate name with
    | false => exact .inl ⟨.notFound, by simp [disk, h, StateT.run]⟩
    | true => exact .inr ⟨files.put name [], run_createFile h, overwrites_put files name []⟩
  reads _ _ _ h := run_readFile h
  writes files name bytes _ := ⟨files.put name bytes, rfl, overwrites_put files name bytes⟩

namespace Volume

variable {σ : Type} (v : Volume σ) (s : σ)

/-- Only the file of the given name, if there is one, may have other bytes in `s'`. -/
def ChangesAtMost (s' : σ) (output : Option String) : Prop :=
  ∀ name, v.look s' name ≠ v.look s name → ∃ written ∈ output, v.Same name written

variable {v s} {s₁ s₂ : σ} {output : String} {bytes : List Byte}

theorem changesAtMost_of_overwrites (h : Overwrites v.look v.Same s s₁ output [])
    (h' : Overwrites v.look v.Same s₁ s₂ output bytes) : v.ChangesAtMost s s₂ (some output) := by
  intro name hne
  by_cases hsame : v.Same name output
  · exact ⟨output, rfl, hsame⟩
  · rw [(h' name).2 hsame, (h name).2 hsame] at hne
    exact absurd rfl hne

/-- A file that was there is there after another one, or itself, was emptied. -/
theorem exists_look_of_overwrites {source : String} (hfound : (v.look s source).isSome)
    (h : Overwrites v.look v.Same s s₁ output bytes) : ∃ kept, v.look s₁ source = some kept := by
  by_cases hsame : v.Same source output
  · exact ⟨bytes, (h source).1 hsame⟩
  · rw [(h source).2 hsame]
    exact Option.isSome_iff_exists.1 hfound

theorem run_load (v : Volume σ) (s : σ) (name : String) :
    (∃ e, (Command.load v.disk name).run s = (.error (.io e), s)) ∨
      ∃ bytes, v.look s name = some bytes ∧ (Command.load v.disk name).run s = (.ok bytes, s) := by
  rcases v.opens s name with ⟨e, hopen⟩ | ⟨hopen, hfound⟩
  · refine .inl ⟨e, ?_⟩
    rw [Command.load, run_bind hopen]
    rfl
  · obtain ⟨bytes, hbytes⟩ := Option.isSome_iff_exists.1 hfound
    refine .inr ⟨bytes, hbytes, ?_⟩
    rw [Command.load, run_bind hopen]
    dsimp only
    rw [run_bind (v.reads s name bytes hbytes)]
    rfl

end Volume

/-! ## Commands -/

namespace Command

variable {σ : Type}

/-- What an argument list asks for: `lex S [O]`, `parse [T [O]]`, `run S` or `tokens S`, with a
name for each file that is left out. -/
inductive Asks : List String → Command → Prop
  | lex (source : String) (output : Option String) :
    Asks ("lex" :: source :: output.toList) (.lex source (output.getD "scanner_output"))
  | parse (names : List String) (h : names.length ≤ 2) :
    Asks ("parse" :: names) (.parse (names.getD 0 "scanner_output") (names.getD 1 "parser_output"))
  | run (source : String) : Asks ["run", source] (.run source)
  | tokens (source : String) : Asks ["tokens", source] (.tokens source)

/-- The file that a command writes. -/
def output? : Command → Option String
  | lex _ output => some output
  | parse _ output => some output
  | run _ => none
  | tokens _ => none

/-- The bytes of code as it is written, a line for each instruction. -/
def codeBytes (code : Array Instr) : List Byte :=
  code.toList.flatMap fun i => Utf8.encode (i.text ++ "\n")

theorem ofArgs?_eq_some_iff {args : List String} {c : Command} :
    ofArgs? args = some c ↔ Asks args c := by
  constructor
  · intro h
    unfold ofArgs? at h
    split at h <;> cases h
    · exact .lex _ none
    · exact .lex _ (some _)
    · exact .parse [] (Nat.zero_le 2)
    · exact .parse [_] (Nat.le_succ 1)
    · exact .parse [_, _] (Nat.le_refl 2)
    · exact .run _
    · exact .tokens _
  · intro h
    cases h with
    | lex source output => cases output <;> rfl
    | parse names h =>
      match names, h with
      | [], _ => rfl
      | [_], _ => rfl
      | [_, _], _ => rfl
    | run source => rfl
    | tokens source => rfl

theorem ofArgs?_eq_none_iff {args : List String} :
    ofArgs? args = none ↔ ∀ c, ¬ Asks args c := by
  simp only [← ofArgs?_eq_some_iff, Option.eq_none_iff_forall_ne_some, ne_eq]

theorem execute_lex (v : Volume σ) (s : σ) (source output : String) :
    (∃ log e, (execute v.disk (.lex source output)).run s = (.failure log e, s)) ∨
      ∃ log s', (execute v.disk (.lex source output)).run s = (.quiet log, s') ∧
        v.ChangesAtMost s s' (some output) := by
  rcases v.opens s source with ⟨e, hopen⟩ | ⟨hopen, hfound⟩
  · refine .inl ⟨[.scanning source output], .io e, ?_⟩
    rw [execute, run_bind hopen]
    rfl
  rcases v.creates s output with ⟨e, hcreate⟩ | ⟨s₁, hcreate, hempty⟩
  · refine .inl ⟨[.scanning source output], .io e, ?_⟩
    rw [execute, run_bind hopen]
    dsimp only
    rw [run_bind hcreate]
    rfl
  -- From here on nothing fails: the source is still there, and scanning takes any bytes.
  obtain ⟨kept, hkept⟩ := Volume.exists_look_of_overwrites hfound hempty
  obtain ⟨summary, p, hscan, -⟩ := tokenStream_eq kept
  have hcreated : (v.look s₁ output).isSome := by rw [(hempty output).1 (v.same_refl output)]; rfl
  obtain ⟨s₂, hwrite, hfull⟩ := v.writes s₁ output p.sink.written.toList hcreated
  refine .inr ⟨[.scanning source output] ++ p.log.toList ++
    [.streamWritten summary.lines summary.words summary.malformed], s₂, ?_,
    Volume.changesAtMost_of_overwrites hempty hfull⟩
  rw [execute, run_bind hopen]
  dsimp only
  rw [run_bind hcreate]
  dsimp only
  rw [run_bind (v.reads s₁ source kept hkept), hscan]
  dsimp only
  rw [run_bind hwrite]
  rfl

theorem execute_parse (v : Volume σ) (s : σ) (stream output : String) :
    (∃ log e, (execute v.disk (.parse stream output)).run s = (.failure log e, s)) ∨
      ∃ log s' bytes code, (execute v.disk (.parse stream output)).run s = (.quiet log, s') ∧
        v.look s stream = some bytes ∧ codeOf bytes = .ok code ∧
        v.look s' output = some (codeBytes code) ∧ v.ChangesAtMost s s' (some output) := by
  rcases v.run_load s stream with ⟨e, hload⟩ | ⟨bytes, hbytes, hload⟩
  · refine .inl ⟨[.parsing stream output], .io e, ?_⟩
    rw [execute, run_bind hload]
    rfl
  have hcode := streamCode_fst bytes
  rcases hreported : streamCode bytes with ⟨e | code, log⟩ <;> rw [hreported] at hcode
  · refine .inl ⟨[.parsing stream output] ++ log, e, ?_⟩
    rw [execute, run_bind hload]
    dsimp only
    rw [hreported]
    rfl
  · rcases v.creates s output with ⟨e, hcreate⟩ | ⟨s₁, hcreate, hempty⟩
    · refine .inl ⟨[.parsing stream output] ++ log, .io e, ?_⟩
      rw [execute, run_bind hload]
      dsimp only
      rw [hreported]
      dsimp only
      rw [run_bind hcreate]
      rfl
    obtain ⟨sink, hlines, -, hwritten⟩ :=
      Sink.writeLines_of_limit (s := {}) rfl (code.toList.map Instr.text)
    have hbytes' : sink.written.toList = codeBytes code := by
      rw [hwritten, codeBytes, List.flatMap_map]
      rfl
    have hcreated : (v.look s₁ output).isSome := by
      rw [(hempty output).1 (v.same_refl output)]
      rfl
    obtain ⟨s₂, hwrite, hfull⟩ := v.writes s₁ output sink.written.toList hcreated
    refine .inr ⟨[.parsing stream output] ++ log ++ [.codeWritten code.size], s₂, bytes, code, ?_,
      hbytes, hcode.symm, ?_, Volume.changesAtMost_of_overwrites hempty hfull⟩
    · rw [execute, run_bind hload]
      dsimp only
      rw [hreported]
      dsimp only
      rw [run_bind hcreate, hlines]
      dsimp only
      rw [run_bind hwrite]
      rfl
    · rw [← hbytes']
      exact (hfull output).1 (v.same_refl output)

/-- A command without an output only prints. -/
theorem execute_printing (v : Volume σ) (s : σ) {c : Command} (h : c.output? = none) :
    (∃ log e, (execute v.disk c).run s = (.failure log e, s)) ∨
      ∃ report, (execute v.disk c).run s = (report, s) ∧ report.code = 0 := by
  cases c with
  | lex source output | parse stream output => cases h
  | run source =>
    rcases v.run_load s source with ⟨e, hload⟩ | ⟨bytes, -, hload⟩
    · exact .inl ⟨_, .io e, by rw [execute, run_bind hload]; rfl⟩
    rw [execute, run_bind hload]
    rcases Except.ok bytes >>= textOf with e | text
    · exact .inl ⟨_, e, rfl⟩
    dsimp only
    rcases sourceCode text with ⟨e | code, log⟩
    · exact .inl ⟨_, e, rfl⟩
    · exact .inr ⟨_, rfl, rfl⟩
  | tokens source =>
    rcases v.run_load s source with ⟨e, hload⟩ | ⟨bytes, -, hload⟩
    · exact .inl ⟨_, .io e, by rw [execute, run_bind hload]; rfl⟩
    rw [execute, run_bind hload]
    rcases Except.ok bytes >>= textOf with e | text
    · exact .inl ⟨_, e, rfl⟩
    · exact .inr ⟨_, rfl, rfl⟩

/-- A command fails and changes nothing, or succeeds and changes its output at most. -/
theorem execute_cases (v : Volume σ) (s : σ) (c : Command) :
    (∃ log e, (execute v.disk c).run s = (.failure log e, s)) ∨
      ∃ report s', (execute v.disk c).run s = (report, s') ∧ report.code = 0 ∧
        v.ChangesAtMost s s' c.output? ∧
        ∀ stream output, c = .parse stream output → ∃ bytes code, v.look s stream = some bytes ∧
          codeOf bytes = .ok code ∧ v.look s' output = some (codeBytes code) := by
  have printing := @execute_printing σ v s c
  cases c with
  | lex source output =>
    rcases execute_lex v s source output with h | ⟨log, s', hrun, hchanges⟩
    · exact .inl h
    · refine .inr ⟨_, s', hrun, rfl, hchanges, ?_⟩
      rintro _ _ ⟨⟩
  | parse stream output =>
    rcases execute_parse v s stream output with
      h | ⟨log, s', bytes, code, hrun, hbytes, hcode, hwritten, hchanges⟩
    · exact .inl h
    · refine .inr ⟨_, s', hrun, rfl, hchanges, ?_⟩
      rintro _ _ ⟨⟩
      exact ⟨bytes, code, hbytes, hcode, hwritten⟩
  | run source | tokens source =>
    rcases printing rfl with h | ⟨report, hrun, hcode⟩
    · exact .inl h
    · refine .inr ⟨report, s, hrun, hcode, fun _ h => absurd rfl h, ?_⟩
      rintro _ _ ⟨⟩

end Command

/-- Commands do all or nothing, on any disk. A run that does not exit with zero leaves the disk as
it was. A run that does was asked for something, and changes the output of that at most; where it
was asked to translate a token stream, the output holds the code of what the stream held before,
even if both are one file. The exit code is 64 exactly for arguments that ask for nothing. -/
theorem dispatch_all_or_nothing {σ : Type} (v : Volume σ) (args : List String) (s : σ) :
    ∃ report s', (Command.dispatch v.disk args).run s = (report, s') ∧
      (report.code ≠ 0 → s' = s) ∧
      (report.code = 0 → ∃ c, Command.Asks args c ∧ v.ChangesAtMost s s' c.output? ∧
        ∀ stream output, c = .parse stream output → ∃ bytes code, v.look s stream = some bytes ∧
          Command.codeOf bytes = .ok code ∧ v.look s' output = some (Command.codeBytes code)) ∧
      (report.code = 64 ↔ ∀ c, ¬ Command.Asks args c) := by
  rw [Command.dispatch, ← Command.ofArgs?_eq_none_iff]
  cases hargs : Command.ofArgs? args with
  | none =>
    refine ⟨.misuse, s, rfl, fun _ => rfl, ?_, iff_of_true rfl rfl⟩
    rintro ⟨⟩
  | some c =>
    dsimp only
    rcases Command.execute_cases v s c with
      ⟨log, e, hrun⟩ | ⟨report, s', hrun, hcode, hchanges, hparse⟩
    · refine ⟨.failure log e, s, hrun, fun _ => rfl, ?_, ?_⟩
      · rintro ⟨⟩
      · exact iff_of_false nofun nofun
    · refine ⟨report, s', hrun, fun h => absurd hcode h, fun _ => ?_, ?_⟩
      · exact ⟨c, Command.ofArgs?_eq_some_iff.1 hargs, hchanges, hparse⟩
      · rw [hcode]
        exact iff_of_false nofun nofun

/-- A token stream that is its own output is read before it is written, and a source that is missing
does not cost a file that is there. -/
theorem dispatch_all_or_nothing_in_place :
    let files : Files := ⟨[("loop", Utf8.encode "0x104\tx\n0x110\t=\n0x107\t1\n0x122\t;\n")]⟩
    (∃ report files', runOnFiles ["parse", "loop", "loop"] files = (report, files') ∧
      report.code = 0 ∧ files'.get? "loop" = some (Utf8.encode "\tmov\tx, 1\n")) ∧
    ∃ report, runOnFiles ["lex", "missing", "loop"] files = (report, files) ∧ report.code = 1 := by
  intro files
  constructor
  · obtain ⟨report, files', hrun, -, hdone, -⟩ :=
      dispatch_all_or_nothing Files.volume ["parse", "loop", "loop"] files
    have hcode : (runOnFiles ["parse", "loop", "loop"] files).1.code = 0 := by decide +kernel
    have hrun : runOnFiles ["parse", "loop", "loop"] files = (report, files') := hrun
    rw [hrun] at hcode
    obtain ⟨c, hasks, -, hparse⟩ := hdone hcode
    obtain rfl := Option.some.inj (Command.ofArgs?_eq_some_iff.2 hasks)
    obtain ⟨bytes, code, hbytes, hof, hwritten⟩ := hparse _ _ rfl
    have hexpected : (files.get? "loop").map Command.codeOf =
        some (.ok #[.mov (.ident "x") (.int "1")]) := by decide +kernel
    rw [show files.get? "loop" = some bytes from hbytes, Option.map_some, hof] at hexpected
    cases hexpected
    exact ⟨report, files', hrun, hcode, hwritten⟩
  · obtain ⟨report, files', hrun, hfailed, -⟩ :=
      dispatch_all_or_nothing Files.volume ["lex", "missing", "loop"] files
    have hcode : (runOnFiles ["lex", "missing", "loop"] files).1.code = 1 := by decide +kernel
    rw [show runOnFiles ["lex", "missing", "loop"] files = (report, files') from hrun] at hcode ⊢
    obtain rfl := hfailed (by rw [hcode]; decide)
    exact ⟨report, rfl, hcode⟩

end LoopAsm
