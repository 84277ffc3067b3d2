/-
The commands together. Scanning a source into a token stream and then translating the stream comes
to the same as translating the source at once: the stream holds the scan of the source, and it is
read back without a loss. The two ways differ only in how they print, and so only where there is
nothing to print.
-/
import LoopAsm.Command.Run
import LoopAsm.Proofs.Scan.Chunks
import LoopAsm.Proofs.Scan.Records
import LoopAsm.Proofs.Translate.Agreement

namespace LoopAsm

open Utf8 (Byte)

/-! ## Files -/

namespace Files

theorem lookup_overwrite (entries : List (String × List Byte)) (name other : String)
    (bytes : List Byte) :
    (entries.map fun (key, old) => (key, if key = name then bytes else old)).lookup other =
      if other = name then (entries.lookup other).map fun _ => bytes else entries.lookup other := by
  induction entries with
  | nil => simp
  | cons entry entries ih =>
    obtain ⟨key, old⟩ := entry
    rw [List.map_cons, List.lookup_cons, List.lookup_cons, ih]
    by_cases hkey : other = key
    · subst hkey
      by_cases hname : other = name <;> simp [hname]
    · simp [beq_eq_false_iff_ne.2 hkey]

/-- A file that is given new bytes has them, and all others keep theirs. -/
theorem get?_put (fs : Files) (name other : String) (bytes : List Byte) :
    (fs.put name bytes).get? other = if other = name then some bytes else fs.get? other := by
  unfold put
  split
  · rename_i hsome
    rw [get?, lookup_overwrite]
    by_cases hother : other = name
    · subst hother
      obtain ⟨old, hold⟩ := Option.isSome_iff_exists.1 hsome
      simp [show fs.entries.lookup other = some old from hold]
    · simp [hother, get?]
  · rename_i hnone
    rw [get?, List.lookup_append]
    by_cases hother : other = name
    · subst hother
      have hnew : fs.entries.lookup other = none := Option.not_isSome_iff_eq_none.1 hnone
      simp [hnew]
    · simp [hother, get?, List.lookup_cons, beq_eq_false_iff_ne.2 hother]

@[simp] theorem get?_put_self (fs : Files) (name : String) (bytes : List Byte) :
    (fs.put name bytes).get? name = some bytes := by
  rw [get?_put, if_pos rfl]

theorem get?_put_of_ne {name other : String} (h : other ≠ name) (fs : Files) (bytes : List Byte) :
    (fs.put name bytes).get? other = fs.get? other := by
  rw [get?_put, if_neg h]

/-- No directory goes away when a file is written. -/
theorem canCreate_put {fs : Files} {name : String} (h : fs.canCreate name = true) (other : String)
    (bytes : List Byte) : (fs.put other bytes).canCreate name = true := by
  unfold canCreate at h ⊢
  cases hdir : directory? name with
  | none => simpa [hdir] using h
  | some dir =>
    simp only [hdir, Bool.and_eq_true] at h ⊢
    refine ⟨h.1, ?_⟩
    unfold put
    split
    · rw [List.any_map]
      exact h.2
    · rw [List.any_append, h.2, Bool.true_or]

end Files

/-! ## Lines of bytes -/

theorem Split.lines_append {α : Type} [DecidableEq α] {newline : α} {xs : List α}
    (h : newline ∉ xs) (hne : xs ≠ []) (rest : List α) :
    lines newline (xs ++ rest) =
      match lines newline rest with
      | [] => [xs]
      | l :: ls => (xs ++ l) :: ls := by
  induction xs with
  | nil => exact absurd rfl hne
  | cons x xs ih =>
    rw [List.mem_cons, not_or] at h
    rw [List.cons_append, lines_cons, if_neg (Ne.symm h.1)]
    cases xs with
    | nil => cases hrest : lines newline rest <;> simp [hrest, prepend]
    | cons y xs =>
      rw [ih h.2 (List.cons_ne_nil y xs)]
      cases lines newline rest <;> rfl

namespace Utf8

/-- A byte below 0x80 stands for itself wherever it is. -/
theorem WellFormed.eq_of_mem {bytes : List Byte} {v : Nat} (h : WellFormed bytes v) {x : Byte}
    (hx : x.toNat < 0x80) (hmem : x ∈ bytes) : v = x.toNat := by
  cases h with
  | one ha =>
    rw [List.mem_singleton] at hmem
    rw [hmem]
  | two ha hb =>
    rw [width_eq_two] at ha
    rw [isSecond_iff] at hb
    simp only [List.mem_cons, List.not_mem_nil, or_false] at hmem
    rcases hmem with rfl | rfl <;> omega
  | three ha hb hc =>
    rw [width_eq_three] at ha
    rw [isSecond_iff] at hb
    rw [isTail_iff] at hc
    simp only [List.mem_cons, List.not_mem_nil, or_false] at hmem
    rcases hmem with rfl | rfl | rfl <;> omega
  | four ha hb hc hd =>
    rw [width_eq_four] at ha
    rw [isSecond_iff] at hb
    rw [isTail_iff] at hc hd
    simp only [List.mem_cons, List.not_mem_nil, or_false] at hmem
    rcases hmem with rfl | rfl | rfl | rfl <;> omega

theorem newline_not_mem_encode {c : Char} (h : c ≠ '\n') :
    (10 : Byte) ∉ String.utf8EncodeChar c := by
  intro hmem
  have hvalue : c.toNat = 10 := (wellFormed_encode c).eq_of_mem (by decide) hmem
  apply h
  rw [← Char.ofNat_toNat c, hvalue]

/-- A text has the same lines as its bytes. -/
theorem lines_encode (cs : List Char) :
    Split.lines 10 (cs.flatMap String.utf8EncodeChar) =
      (Split.lines '\n' cs).map fun l => l.flatMap String.utf8EncodeChar := by
  induction cs with
  | nil => rfl
  | cons c cs ih =>
    rw [List.flatMap_cons, Split.lines_cons]
    by_cases hc : c = '\n'
    · subst hc
      have hnewline : String.utf8EncodeChar '\n' = [10] := by decide
      simp [hnewline, ih]
    · have hnewline := newline_not_mem_encode hc
      rw [if_neg hc, Split.lines_append hnewline String.utf8EncodeChar_ne_nil, ih]
      cases Split.lines '\n' cs <;> simp [Split.prepend]

end Utf8

theorem Wire.byteLines_encode (text : String) : byteLines (Utf8.encode text) = textLines text := by
  have hline (l : List Char) :
      Utf8.decode? (l.flatMap String.utf8EncodeChar) = some (String.ofList l) := by
    simpa [Utf8.encode] using Utf8.decode?_encode (String.ofList l)
  rw [byteLines, textLines, Utf8.encode, Utf8.lines_encode, List.map_map]
  simp [hline]

/-- A stream may be read as bytes or as a text. -/
theorem Wire.decodeBytes_encode (text : String) : decodeBytes (Utf8.encode text) = decode text := by
  rw [decodeBytes, byteLines_encode, decode]

/-! ## Printing -/

/-- Code that is printed at once has the same bytes as code that is written line by line. -/
theorem encode_listing {code : List Instr} (h : code ≠ []) :
    Utf8.encode (listing code ++ "\n") =
      (code.map Instr.text).flatMap fun line => Utf8.encode (line ++ "\n") := by
  induction code with
  | nil => exact absurd rfl h
  | cons instr code ih =>
    cases code with
    | nil => simp [listing, Utf8.encode]
    | cons next code =>
      rw [List.map_cons, List.flatMap_cons, ← ih (List.cons_ne_nil next code)]
      simp [listing, Utf8.encode, String.intercalate_cons_cons]

namespace Command

/-! ## The parts of a command -/

/-- The token stream of any bytes is the scan of the text that they stand for. -/
theorem tokenStream_eq (bytes : List Byte) :
    ∃ summary p, tokenStream bytes = (.ok summary, p) ∧
      p.sink.written.toList = Utf8.encode (Wire.encodeAll (scan (Utf8.decodeLossy bytes))) := by
  have hpatient : Source.Patient ⟨bytes, []⟩ := by
    intro reply hreply
    cases hreply
  obtain ⟨p, hrun, hwritten⟩ := Pump.Behind.run Pump.behind_start Pump.defaultBuffer hpatient
  rw [List.nil_append] at hrun hwritten
  exact ⟨_, p, hrun, hwritten⟩

theorem tokenStream_encode (text : String) :
    ∃ summary p, tokenStream (Utf8.encode text) = (.ok summary, p) ∧
      p.sink.written.toList = Utf8.encode (Wire.encodeAll (scan text)) := by
  simpa only [Utf8.decodeLossy_encode] using tokenStream_eq (Utf8.encode text)

/-- The code of a token stream is that of the records that were scanned. -/
theorem streamCode_scan {text : String} (h : text.length < 2 ^ 63) :
    streamCode (Utf8.encode (Wire.encodeAll (scan text))) = compileReported (scan text) := by
  obtain ⟨line, hfaithful⟩ := faithful_scan text h
  rw [streamCode, Wire.decodeBytes_encode, Wire.decode_encodeAll hfaithful]

theorem textOf_encode (text : String) : textOf (Utf8.encode text) = .ok text := by
  rw [textOf, Utf8.decode?_encode]

end Command

/-! ## The commands -/

/-- A program with a state goes on where its first part has ended. -/
theorem run_bind {σ α β : Type} {x : StateM σ α} {s s' : σ} {a : α} (h : x.run s = (a, s'))
    (f : α → StateM σ β) : (x >>= f).run s = (f a).run s' := by
  rw [StateT.run_bind, h]
  rfl

namespace Files

variable {files : Files} {name : String} {bytes : List Byte}

theorem run_openFile (h : files.get? name = some bytes) :
    (disk.openFile name).run files = (.ok (), files) := by
  simp [disk, h, StateT.run]

theorem run_createFile (h : files.canCreate name = true) :
    (disk.createFile name).run files = (.ok (), files.put name []) := by
  simp [disk, h, StateT.run]

theorem run_readFile (h : files.get? name = some bytes) :
    (disk.readFile name).run files = (bytes, files) := by
  simp [disk, h, StateT.run]

theorem run_load (h : files.get? name = some bytes) :
    (Command.load disk name).run files = (.ok bytes, files) := by
  rw [Command.load, run_bind (run_openFile h)]
  dsimp only
  rw [run_bind (run_readFile h)]
  rfl

end Files

variable {files : Files} {source stream output text : String}

/-- Scanning a text leaves its records behind. -/
theorem runOnFiles_lex (hsource : files.get? source = some (Utf8.encode text))
    (hstream : files.canCreate stream = true) (hne : source ≠ stream) :
    ∃ log, runOnFiles ["lex", source, stream] files =
      (.quiet log,
        (files.put stream []).put stream (Utf8.encode (Wire.encodeAll (scan text)))) := by
  -- The source is read once the stream is created, and is none the less what it was.
  have hkept : (files.put stream []).get? source = some (Utf8.encode text) := by
    rw [Files.get?_put_of_ne hne, hsource]
  obtain ⟨summary, p, hscan, hwritten⟩ := Command.tokenStream_encode text
  refine ⟨.scanning source stream :: p.log.toList ++
    [.streamWritten summary.lines summary.words summary.malformed], ?_⟩
  change (Command.execute Files.disk (.lex source stream)).run files = _
  rw [Command.execute, run_bind (Files.run_openFile hsource)]
  dsimp only
  rw [run_bind (Files.run_createFile hstream)]
  dsimp only
  rw [run_bind (Files.run_readFile hkept), hscan, ← hwritten]
  rfl

/-- Translating the records of a text writes its code, or changes no file. -/
theorem runOnFiles_parse (hlength : text.length < 2 ^ 63)
    (hstream : files.get? stream = some (Utf8.encode (Wire.encodeAll (scan text))))
    (houtput : files.canCreate output = true) :
    runOnFiles ["parse", stream, output] files =
      match Command.compileReported (scan text) with
      | (.error e, log) => (.failure (.parsing stream output :: log) e, files)
      | (.ok code, log) =>
        (.quiet (.parsing stream output :: log ++ [.codeWritten code.size]),
          (files.put output []).put output
            ((code.toList.map Instr.text).flatMap fun line => Utf8.encode (line ++ "\n"))) := by
  change (Command.execute Files.disk (.parse stream output)).run files = _
  rw [Command.execute, run_bind (Files.run_load hstream)]
  dsimp only
  rw [Command.streamCode_scan hlength]
  rcases Command.compileReported (scan text) with ⟨e | code, log⟩
  · rfl
  · obtain ⟨sink, hlines, -, hwritten⟩ :=
      Sink.writeLines_of_limit (s := {}) rfl (code.toList.map Instr.text)
    dsimp only
    rw [run_bind (Files.run_createFile houtput), hlines]
    rw [List.nil_append] at hwritten
    rw [← hwritten]
    rfl

/-- Translating a text prints its code, behind the log. -/
theorem runOnFiles_run (hsource : files.get? source = some (Utf8.encode text)) :
    runOnFiles ["run", source] files =
      match Command.sourceCode text with
      | (.error e, log) => (.failure log e, files)
      | (.ok code, log) => (.printing log (listing code.toList ++ "\n"), files) := by
  change (Command.execute Files.disk (.run source)).run files = _
  rw [Command.execute, run_bind (Files.run_load hsource)]
  have htext : (Except.ok (Utf8.encode text) >>= Command.textOf) = .ok text :=
    Command.textOf_encode text
  rw [htext]
  dsimp only
  rcases Command.sourceCode text with ⟨e | code, log⟩ <;> rfl

/-- Scanning into a token stream and translating the stream agrees with translating at once. Both
exit alike. If they succeed, the output file holds what the other way prints, apart from the newline
that is printed where there is no instruction; under any logger this is what is on the standard
output behind the log, and it is all of it if the logger is off. If they fail, it is for the same
fault in the grammar, which both report, and translating the stream changes no file. -/
theorem parse_of_lex_agrees_with_run (files : Files) (source stream output text : String)
    (hlength : text.length < 2 ^ 63) (hsource : files.get? source = some (Utf8.encode text))
    (hne : [source, stream, output].Nodup) (hstream : files.canCreate stream = true)
    (houtput : files.canCreate output = true) :
    ∃ once lexing lexed twice done, runOnFiles ["run", source] files = (once, files) ∧
      runOnFiles ["lex", source, stream] files = (.quiet lexing, lexed) ∧
      runOnFiles ["parse", stream, output] lexed = (twice, done) ∧ twice.code = once.code ∧
      (once.code = 0 ∧ (∃ (code : Array Instr) (log : List Event), compileText text = .ok code ∧
          (∀ logger : Logger,
            once.shown logger = Output.shown logger 0 (log.map .logged) ++ once.stdout ∧
            (logger.threshold = none → once.shown logger = once.stdout)) ∧
          if code = #[] then done.get? output = some [] ∧ once.stdout = "\n"
          else done.get? output = some (Utf8.encode once.stdout)) ∨
        once.code = 1 ∧ (∃ k found onceLog twiceLog,
            once = .failure onceLog (.grammar k found) ∧
            twice = .failure twiceLog (.grammar k found)) ∧
          twice.stderr = once.stderr ∧ done = lexed ∧ done.get? output = files.get? output) := by
  obtain ⟨hss, hso⟩ : source ≠ stream ∧ output ≠ stream := by
    simp only [List.nodup_cons, List.mem_cons, List.not_mem_nil, or_false, not_or] at hne
    exact ⟨hne.1.1, Ne.symm hne.2.1⟩
  obtain ⟨lexing, hlex⟩ := runOnFiles_lex hsource hstream hss
  have hrun := runOnFiles_run hsource
  have hparse := @runOnFiles_parse _ stream output text hlength
    (Files.get?_put_self (files.put stream []) stream _)
    (Files.canCreate_put (Files.canCreate_put houtput stream []) stream _)
  have hcode := Command.compileReported_fst (scan text)
  rw [Command.sourceCode] at hrun
  rcases hreported : Command.compileReported (scan text) with ⟨e | code, log⟩ <;>
    rw [hreported] at hrun hparse hcode
  · have herror : compileText text = .error e := hcode.symm
    obtain ⟨-, k, found, rfl⟩ := grammar_of_compile herror
    refine ⟨_, lexing, _, _, _, hrun, hlex, hparse, rfl, .inr ⟨rfl, ?_, rfl, rfl, ?_⟩⟩
    · exact ⟨k, found, _, _, rfl, rfl⟩
    · rw [Files.get?_put_of_ne hso, Files.get?_put_of_ne hso]
  · refine ⟨_, lexing, _, _, _, hrun, hlex, hparse, rfl,
      .inl ⟨rfl, code, scanEvents text ++ log, hcode.symm, fun logger => ?_, ?_⟩⟩
    · rw [Report.stdout_printing]
      refine ⟨Report.shown_printing _ _ logger, fun hoff => ?_⟩
      rw [Report.shown_of_off hoff, Report.stdout_printing]
    · rw [Report.stdout_printing, Files.get?_put_self]
      -- Without an instruction there is no line to write, while a listing ends with a newline.
      split
      · rename_i hempty
        subst hempty
        exact ⟨rfl, rfl⟩
      · rename_i hempty
        rw [← encode_listing (by simpa using hempty)]

/-- A loop-free program that compiles, a text without an instruction, and a comparison where the
second statement should be. -/
theorem parse_of_lex_agrees_on_samples :
    let files (text : String) : Files := ⟨[("Loop.java", Utf8.encode text)]⟩
    let debugging : Logger := ⟨some .debug, fun _ e => e.line ++ "\n"⟩
    (∃ once lexing lexed twice done,
      runOnFiles ["run", "Loop.java"] (files "x = 1 ;") = (once, files "x = 1 ;") ∧
      runOnFiles ["lex", "Loop.java", "loop.tokens"] (files "x = 1 ;") = (.quiet lexing, lexed) ∧
      runOnFiles ["parse", "loop.tokens", "loop.asm"] lexed = (twice, done) ∧
      done.get? "loop.asm" = some (Utf8.encode "\tmov\tx, 1\n") ∧
      once.shown .off = "\tmov\tx, 1\n" ∧
      once.shown debugging = "DEBUG grammar check passed, 1 statements\nDEBUG translating 1 " ++
        "statements\nDEBUG translated 1 statements into 1 instructions\n\tmov\tx, 1\n") ∧
    (∃ once lexing lexed twice done,
      runOnFiles ["run", "Loop.java"] (files "// x") = (once, files "// x") ∧
      runOnFiles ["lex", "Loop.java", "loop.tokens"] (files "// x") = (.quiet lexing, lexed) ∧
      runOnFiles ["parse", "loop.tokens", "loop.asm"] lexed = (twice, done) ∧
      done.get? "loop.asm" = some [] ∧ once.stdout = "\n") ∧
    ∃ lexing lexed twice,
      runOnFiles ["lex", "Loop.java", "loop.tokens"] (files "x = 1 ;\nx <= 1 ;") =
        (.quiet lexing, lexed) ∧
      runOnFiles ["parse", "loop.tokens", "loop.asm"] lexed = (twice, lexed) ∧
      twice.stderr = "Error: Grammar \x7b statement: 2, found: Some(Token \x7b kind: Compare, " ++
        "lexeme: \"<=\", line: 2 \x7d) \x7d\n" ∧
      lexed.get? "loop.asm" = none := by
  intro files debugging
  have agrees (text : String) (hlength : text.length < 2 ^ 63) :=
    parse_of_lex_agrees_with_run (files text) "Loop.java" "loop.tokens" "loop.asm" text hlength
      (by rfl) (by decide) (by rfl) (by rfl)
  have first {text : String} {once : Report} {kept : Files}
      (h : runOnFiles ["run", "Loop.java"] (files text) = (once, kept)) :
      once = (runOnFiles ["run", "Loop.java"] (files text)).1 := by rw [h]
  refine ⟨?_, ?_, ?_⟩
  · obtain ⟨once, lexing, lexed, twice, done, hrun, hlex, hparse, -, hcases⟩ :=
      agrees "x = 1 ;" (by decide)
    have honce := first hrun
    have hstdout : once.stdout = "\tmov\tx, 1\n" := by rw [honce]; decide +kernel
    obtain ⟨-, code, log, hcode, hshown, hdone⟩ | ⟨hfailed, -⟩ := hcases
    · have hsize : code ≠ #[] := by
        rintro rfl
        exact absurd hcode (by decide +kernel)
      rw [if_neg hsize, hstdout] at hdone
      refine ⟨once, lexing, lexed, twice, done, hrun, hlex, hparse, hdone, ?_, ?_⟩
      · rw [(hshown .off).2 rfl, hstdout]
      · rw [honce]
        decide +kernel
    · exact absurd hfailed (by rw [honce]; decide +kernel)
  · obtain ⟨once, lexing, lexed, twice, done, hrun, hlex, hparse, -, hcases⟩ :=
      agrees "// x" (by decide)
    have honce := first hrun
    obtain ⟨-, code, log, hcode, -, hdone⟩ | ⟨hfailed, -⟩ := hcases
    · have hempty : code = #[] := by
        have hnone : compileText "// x" = .ok #[] := by decide +kernel
        simpa using hcode.symm.trans hnone
      rw [if_pos hempty] at hdone
      exact ⟨once, lexing, lexed, twice, done, hrun, hlex, hparse, hdone.1, hdone.2⟩
    · exact absurd hfailed (by rw [honce]; decide +kernel)
  · obtain ⟨once, lexing, lexed, twice, done, hrun, hlex, hparse, -, hcases⟩ :=
      agrees "x = 1 ;\nx <= 1 ;" (by decide)
    have honce := first hrun
    obtain ⟨hsucceeded, -⟩ | ⟨-, -, hstderr, rfl, hmissing⟩ := hcases
    · exact absurd hsucceeded (by rw [honce]; decide +kernel)
    · refine ⟨lexing, done, twice, hlex, hparse, ?_, hmissing.trans (by decide +kernel)⟩
      rw [hstderr, honce]
      decide +kernel

end LoopAsm
