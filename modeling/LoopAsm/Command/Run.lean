/-
The command line: which argument lists are commands, and what each command reads, writes, reports
and prints. A command that fails prints its error last and leaves every file as it was.
-/
import LoopAsm.Command.Disk
import LoopAsm.Compile
import LoopAsm.Scan.Pump
import LoopAsm.Scan.Table
import LoopAsm.Wire.Decoder

namespace LoopAsm

/-- The version of the program. -/
def version : String := "0.1.0"

/-! ## Arguments -/

/-- A request of the user. -/
inductive Command where
  /-- Scan a source file into a token stream. -/
  | lex (source output : String)
  /-- Translate a token stream. -/
  | parse (stream output : String)
  /-- Translate a source file and print the code. -/
  | run (source : String)
  /-- Print the tokens of a source file. -/
  | tokens (source : String)
  deriving DecidableEq, Repr, Inhabited

namespace Command

/-- Where a token stream goes, and is looked for, unless a name is given. -/
def defaultTokens : String := "scanner_output"

/-- Where code goes unless a name is given. -/
def defaultCode : String := "parser_output"

/-- The command of an argument list. -/
def ofArgs? : List String → Option Command
  | ["lex", source] => some (lex source defaultTokens)
  | ["lex", source, output] => some (lex source output)
  | ["parse"] => some (parse defaultTokens defaultCode)
  | ["parse", stream] => some (parse stream defaultCode)
  | ["parse", stream, output] => some (parse stream output)
  | ["run", source] => some (run source)
  | ["tokens", source] => some (tokens source)
  | _ => none

/-- How to use the program. -/
def usage : String :=
"
usage: jparse CMD [FILE...]

commands:
    lex     Scan a source file into a token stream
    parse   Check and translate a token stream into assembly
    run     Scan, check and translate a source file, print the assembly
    tokens  Print the tokens of a source file

examples:
    jparse lex Loop.java
    jparse lex Loop.java loop.tokens
    jparse parse
    jparse parse loop.tokens loop.asm
    jparse run Loop.java
"

end Command

/-! ## Reports -/

/-- What a run of the program leaves behind, files apart. -/
structure Report where
  code : Nat := 0
  /-- What goes to the standard output: the log of the run, and what it prints. -/
  output : List Output := []
  stderr : String := ""
  deriving DecidableEq, Repr, Inhabited

namespace Report

/-- The report of a run that only reports, and succeeds. -/
def quiet (log : List Event) : Report where
  output := log.map .logged

/-- The report of a run that prints a text in the end. -/
def printing (log : List Event) (text : String) : Report where
  output := log.map .logged ++ [.printed text]

/-- The report of a failure. -/
def failure (log : List Event) (e : Error) : Report where
  code := 1
  output := log.map .logged
  stderr := "Error: " ++ e.inspect ++ "\n"

/-- The report of arguments that are no command. -/
def misuse : Report where
  code := 64
  output := [.printed ("jparse v" ++ version ++ "\n" ++ Command.usage ++ "\n")]

/-- What the run prints, its log apart. -/
def stdout (r : Report) : String :=
  Output.printedText r.output

/-- All that is on the standard output under a logger, which writes there as well. -/
def shown (r : Report) (l : Logger) : String :=
  Output.shown l 0 r.output

/-- With the logger off, the standard output is what the run prints. -/
theorem shown_of_off {l : Logger} (h : l.threshold = none) (r : Report) : r.shown l = r.stdout :=
  Output.shown_of_off h 0 r.output

@[simp] theorem stdout_printing (log : List Event) (text : String) :
    (printing log text).stdout = text :=
  Output.printedText_logged_printed log text

/-- What is printed in the end stands behind the log. -/
theorem shown_printing (log : List Event) (text : String) (l : Logger) :
    (printing log text).shown l = Output.shown l 0 (log.map .logged) ++ text := by
  obtain ⟨count, happend⟩ := Output.shown_append l 0 (log.map .logged) [.printed text]
  rw [shown, printing, happend, Output.shown, Output.shown, String.append_empty]

end Report

/-! ## Commands -/

namespace Command

variable {m : Type → Type} [Monad m]

/-- Scans a source into a token stream. -/
def tokenStream (source : List Utf8.Byte) : Except Error Summary × Pump :=
  ({} : Pump).run Pump.defaultBuffer { bytes := source }

/-- The code of records, and what is reported on the way; a failure is reported as well. -/
def compileReported (records : List Record) : Except Error (Array Instr) × List Event :=
  match compileLogged records defaultCapacity with
  | (.ok code, log) => (.ok code, log)
  | (.error e, log) => (.error e, log ++ [.programRejected e])

/-- The code of a token stream, and what is reported on the way. -/
def streamCode (stream : List Utf8.Byte) : Except Error (Array Instr) × List Event :=
  match Wire.decodeBytes stream with
  | .ok records => compileReported records
  | .error e => (.error e, [.streamRejected e])

/-- The code of a source text, and what is reported on the way. -/
def sourceCode (text : String) : Except Error (Array Instr) × List Event :=
  let (result, log) := compileReported (scan text)
  (result, scanEvents text ++ log)

/-- The code of a token stream. -/
def codeOf (stream : List Utf8.Byte) : Except Error (Array Instr) := do
  compile (← Wire.decodeBytes stream) defaultCapacity

theorem compileReported_fst (records : List Record) :
    (compileReported records).1 = compile records defaultCapacity := by
  unfold compileReported compile
  rcases compileLogged records defaultCapacity with ⟨_ | _, _⟩ <;> rfl

theorem streamCode_fst (stream : List Utf8.Byte) : (streamCode stream).1 = codeOf stream := by
  unfold streamCode codeOf
  cases Wire.decodeBytes stream with
  | error e => rfl
  | ok records => exact compileReported_fst records

/-- The text of a source, which has to be UTF-8. -/
def textOf (source : List Utf8.Byte) : Except Error String :=
  match Utf8.decode? source with
  | some text => .ok text
  | none => .error (.io .invalidUtf8)

/-- Reads a file that may be missing. -/
def load (disk : Disk m) (name : String) : m (Except Error (List Utf8.Byte)) := do
  match ← disk.openFile name with
  | .error e => return .error (.io e)
  | .ok () => return .ok (← disk.readFile name)

/-- Runs a command. -/
def execute (disk : Disk m) : Command → m Report
  | lex source output => do
    let log := [.scanning source output]
    match ← disk.openFile source with
    | .error e => return .failure log (.io e)
    | .ok () =>
      match ← disk.createFile output with
      | .error e => return .failure log (.io e)
      | .ok () =>
        -- Reading comes after creating: a source that is its own output is empty by then.
        let (result, p) := tokenStream (← disk.readFile source)
        disk.writeFile output p.sink.written.toList
        let log := log ++ p.log.toList
        match result with
        | .error e => return .failure log e
        | .ok s => return .quiet (log ++ [.streamWritten s.lines s.words s.malformed])
  | parse stream output => do
    let log := [.parsing stream output]
    match ← load disk stream with
    | .error e => return .failure log e
    | .ok bytes =>
      let (result, events) := streamCode bytes
      let log := log ++ events
      match result with
      | .error e => return .failure log e
      | .ok code =>
        match ← disk.createFile output with
        | .error e => return .failure log (.io e)
        | .ok () =>
          let (result, sink) := ({} : Sink).writeLines (code.toList.map Instr.text)
          disk.writeFile output sink.written.toList
          match result with
          | .error e => return .failure log e
          | .ok () => return .quiet (log ++ [.codeWritten code.size])
  | run source => do
    match (← load disk source) >>= textOf with
    | .error e => return .failure [] e
    | .ok text =>
      match sourceCode text with
      | (.error e, log) => return .failure log e
      | (.ok code, log) => return .printing log (listing code.toList ++ "\n")
  | tokens source => do
    match (← load disk source) >>= textOf with
    | .error e => return .failure [] e
    | .ok text => return { output := Table.output text }

/-- Runs the program on an argument list. -/
def dispatch (disk : Disk m) (args : List String) : m Report :=
  match ofArgs? args with
  | none => pure .misuse
  | some command => command.execute disk

end Command

/-- Runs the program on files in memory. -/
def runOnFiles (args : List String) (files : Files) : Report × Files :=
  (Command.dispatch Files.disk args).run files

end LoopAsm
