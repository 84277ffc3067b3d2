/-
The words of the grammar: which tokens are values, operators and punctuation. A word is known by
its class and its spelling; where it stands plays no part.
-/
import LoopAsm.Machine.Instr

namespace LoopAsm

/-! ## Operators -/

/-- An operator of a condition. -/
inductive Comparison where
  | less
  | greater
  deriving DecidableEq, Repr, Inhabited

/-- An operator between two terms. -/
inductive AddOp where
  | plus
  | minus
  deriving DecidableEq, Repr, Inhabited

/-- An operator between two values. -/
inductive MulOp where
  | times
  | dividedBy
  deriving DecidableEq, Repr, Inhabited

/-- An operator of the grammar. -/
inductive Operator where
  | comparison (op : Comparison)
  | additive (op : AddOp)
  | multiplicative (op : MulOp)
  deriving DecidableEq, Repr, Inhabited

/-- The comparison that a token stands for. -/
def Comparison.ofToken? (t : Token) : Option Comparison :=
  if t.is .compare "<" then some less
  else if t.is .compare ">" then some greater
  else none

/-- The additive operator that a token stands for. -/
def AddOp.ofToken? (t : Token) : Option AddOp :=
  if t.is .addSub "+" then some plus
  else if t.is .addSub "-" then some minus
  else none

/-- The multiplicative operator that a token stands for. -/
def MulOp.ofToken? (t : Token) : Option MulOp :=
  if t.is .mulDiv "*" then some times
  else if t.is .mulDiv "/" then some dividedBy
  else none

/-! ## Values and names -/

/-- The value that a token stands for: a variable or an integer. -/
def Operand.ofToken? (t : Token) : Option Operand :=
  if t.kind = .identifier ∨ t.kind = .intLiteral then some (Operand.ofToken t) else none

/-- The name of the variable that a token stands for. -/
def variableName? (t : Token) : Option String :=
  if t.kind = .identifier then some t.lexeme else none

/-! ## Fixed words -/

/-- The tokens that stand for themselves. -/
inductive Punctuation where
  | openParen
  | closeParen
  | equals
  | semicolon
  deriving DecidableEq, Repr, Inhabited

/-- Whether a token is a given punctuation. -/
def Punctuation.isToken (p : Punctuation) (t : Token) : Bool :=
  match p with
  | openParen => t.is .bracketOrDot "("
  | closeParen => t.is .bracketOrDot ")"
  | equals => t.is .assign "="
  | semicolon => t.is .semicolon ";"

/-- Whether a token opens a loop. -/
def Token.isWhile (t : Token) : Bool :=
  t.is .keyword "while"

end LoopAsm
