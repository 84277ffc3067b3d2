import LoopAsm.Transducer
import LoopAsm.Token.Kind
import LoopAsm.Token.Word
import LoopAsm.Token.Basic
import LoopAsm.Text.Numeral
import LoopAsm.Text.Split
import LoopAsm.Text.Hidden
import LoopAsm.Text.Quoted
import LoopAsm.Text.Utf8
import LoopAsm.Error
import LoopAsm.Machine.Register
import LoopAsm.Machine.Stack
import LoopAsm.Machine.Instr
import LoopAsm.Log
import LoopAsm.Scan.Mode
import LoopAsm.Scan.Scanner
import LoopAsm.Scan.Queue
import LoopAsm.Scan.Lexer
import LoopAsm.Scan.Pump
import LoopAsm.Scan.Table
import LoopAsm.Wire.Line
import LoopAsm.Wire.Decoder
import LoopAsm.Wire.Sink
import LoopAsm.Grammar.Cursor
import LoopAsm.Grammar.Word
import LoopAsm.Grammar.Tree
import LoopAsm.Grammar.Script
import LoopAsm.Grammar.Reading
import LoopAsm.Grammar.Validator
import LoopAsm.Translate.Generator
import LoopAsm.Translate.Translator
import LoopAsm.Compile
import LoopAsm.Command.Disk
import LoopAsm.Command.Run
import LoopAsm.Main
import LoopAsm.Meaning.Program
import LoopAsm.Meaning.Machine
import LoopAsm.Proofs.Grammar.Parse
import LoopAsm.Proofs.Grammar.Failure
import LoopAsm.Proofs.Grammar.Places
import LoopAsm.Proofs.Grammar.Productions
import LoopAsm.Proofs.Grammar.Derivation
import LoopAsm.Proofs.Grammar.Acceptance
import LoopAsm.Proofs.Translate.Code
import LoopAsm.Proofs.Translate.Emission
import LoopAsm.Proofs.Translate.Agreement
import LoopAsm.Proofs.Translate.Ownership
import LoopAsm.Proofs.Translate.Labels
import LoopAsm.Proofs.Translate.Recovery
import LoopAsm.Proofs.Meaning.Straight
import LoopAsm.Proofs.Meaning.Preservation
import LoopAsm.Proofs.Wire.RoundTrip
import LoopAsm.Proofs.Text.Lossy
import LoopAsm.Proofs.Scan.Moves
import LoopAsm.Proofs.Scan.Records
import LoopAsm.Proofs.Scan.Accounting
import LoopAsm.Proofs.Scan.Chunks
import LoopAsm.Proofs.Scan.Lexicon
import LoopAsm.Proofs.Scan.Pieces
import LoopAsm.Proofs.Scan.Residual
import LoopAsm.Proofs.Scan.Derivative
import LoopAsm.Proofs.Scan.Complete
import LoopAsm.Proofs.Scan.LongestMatch
import LoopAsm.Proofs.Command.TwoSteps
import LoopAsm.Proofs.Command.Atomicity
import LoopAsm.Proofs.Scan.Displacement
import LoopAsm.Proofs.Wire.Survival
import LoopAsm.Proofs.Grammar.Uniform
import LoopAsm.Proofs.Translate.Concatenation
import LoopAsm.Proofs.Grammar.Viable
import LoopAsm.Proofs.Translate.Room
import LoopAsm.Proofs.Translate.Pressure
import LoopAsm.Proofs.Translate.OnePass
import LoopAsm.Proofs.Translate.Slot
import LoopAsm.Proofs.Translate.InStep
import LoopAsm.Proofs.Scan.Lexemes
import LoopAsm.Proofs.Translate.Listing
import LoopAsm.Proofs.Translate.Jumps
import LoopAsm.Proofs.Translate.Significance
import LoopAsm.Proofs.Wire.Format
import LoopAsm.Proofs.Wire.Positions
import LoopAsm.Proofs.Translate.Counters
import LoopAsm.Proofs.Scan.Interleaving
import LoopAsm.Proofs.Scan.Spacing
import LoopAsm.Proofs.Scan.Comments
import LoopAsm.Proofs.Scan.Interruption
import LoopAsm.Proofs.Scan.Pending
import LoopAsm.Proofs.Scan.Growth
import LoopAsm.Proofs.Scan.Coherence
