/-
The instructions of the target machine and their text. A label stands at the margin, every other
instruction behind a tab.
-/
import LoopAsm.Machine.Register
import LoopAsm.Text.Numeral
import LoopAsm.Token.Basic

namespace LoopAsm

open Numeral (decimal)

/-- Where an instruction takes a value from. -/
inductive Operand where
  | register (r : Register)
  /-- A variable, by name. -/
  | ident (name : String)
  /-- An integer, spelled as in the source. -/
  | int (text : String)
  deriving DecidableEq, Repr, Inhabited

namespace Operand

/-- The operand that a token names: an integer by itself, all else a variable. -/
def ofToken (t : Token) : Operand :=
  if t.kind = .intLiteral then int t.lexeme else ident t.lexeme

/-- The register of a register operand. -/
def register? : Operand → Option Register
  | register r => some r
  | _ => none

/-- Whether the operand is an integer by itself. -/
def isImmediate : Operand → Bool
  | int _ => true
  | _ => false

/-- The text of an operand. -/
def text : Operand → String
  | register r => r.name
  | ident name => name
  | int text => text

end Operand

/-- A place in the code. The three places of a loop bear its number. -/
inductive Label where
  /-- Before the condition. -/
  | begin (n : Nat)
  /-- Before the body, where the condition is true. -/
  | body (n : Nat)
  /-- Behind the loop, where the condition is false. -/
  | exit (n : Nat)
  deriving DecidableEq, Repr, Inhabited

/-- The text of a label. -/
def Label.text : Label → String
  | begin n => "begin_" ++ decimal n
  | body n => "true_" ++ decimal n
  | exit n => "false_" ++ decimal n

/-- When a jump is taken, by the last comparison. -/
inductive Condition where
  | less
  | greaterOrEqual
  | greater
  | lessOrEqual
  | always
  deriving DecidableEq, Repr, Inhabited

/-- The mnemonic of a jump. -/
def Condition.mnemonic : Condition → String
  | less => "jl"
  | greaterOrEqual => "jge"
  | greater => "jg"
  | lessOrEqual => "jle"
  | always => "jmp"

/-- A machine instruction. -/
inductive Instr where
  | label (l : Label)
  | mov (dst src : Operand)
  | add (dst : Register) (src : Operand)
  | sub (dst : Register) (src : Operand)
  /-- Multiplies the accumulator. -/
  | mul (src : Operand)
  /-- Divides the accumulator. -/
  | div (src : Operand)
  | cmp (left right : Operand)
  | jump (condition : Condition) (target : Label)
  deriving DecidableEq, Repr, Inhabited

namespace Instr

/-- The text of an instruction with one operand. -/
def unary (mnemonic operand : String) : String :=
  "\t" ++ mnemonic ++ "\t" ++ operand

/-- The text of an instruction with two operands. -/
def binary (mnemonic left right : String) : String :=
  unary mnemonic (left ++ ", " ++ right)

/-- The text of an instruction. -/
def text : Instr → String
  | label l => l.text ++ ":"
  | mov dst src => binary "mov" dst.text src.text
  | add dst src => binary "add" dst.name src.text
  | sub dst src => binary "sub" dst.name src.text
  | mul src => unary "mul" src.text
  | div src => unary "div" src.text
  | cmp left right => binary "cmp" left.text right.text
  | jump condition target => unary condition.mnemonic target.text

end Instr

/-- Code as one text: an instruction a line, with no newline behind the last one. -/
def listing (code : List Instr) : String :=
  String.intercalate "\n" (code.map Instr.text)

end LoopAsm
