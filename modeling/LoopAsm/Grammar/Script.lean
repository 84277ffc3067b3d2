/-
What reading a statement asks of a translator, in the order of the tokens. The grammar is

    S → while ( E ) A ; | A ;      E → V O V      A → IDENT = C
    C → T { (+|-) T }              T → V { (*|/) V }
    V → IDENT | INT                O → < | >

and every production that a translator has to act on is an `Action`: operands and operators come
as they stand in the text, and an operation follows its second operand.
-/
import LoopAsm.Grammar.Cursor
import LoopAsm.Grammar.Word

namespace LoopAsm

/-- What the grammar asks for where a token does not fit. -/
inductive Expected where
  | target
  | operand
  | comparison
  | punctuation (p : Punctuation)
  deriving DecidableEq, Repr, Inhabited

/-- Something for a translator to do. -/
inductive Action where
  /-- A loop begins. -/
  | loopBegin
  /-- A value was read. -/
  | operand (o : Operand)
  /-- An operator was read. -/
  | operator (op : Operator)
  /-- Both sides of a comparison were read. -/
  | compare
  /-- The condition is complete, and the body of the loop follows. -/
  | branch
  /-- Both sides of an additive operator were read. -/
  | add
  /-- Both sides of a multiplicative operator were read. -/
  | multiply
  /-- The value of an assignment was read. -/
  | assign (target : String)
  /-- The body of a loop is complete. -/
  | loopEnd
  /-- The statement is complete. -/
  | finish
  deriving DecidableEq, Repr, Inhabited

/-- A step of reading a statement. -/
inductive Step where
  /-- A malformed word was passed over. -/
  | skip (t : Token)
  /-- Something has to be done, with the reader at a given place. -/
  | act (a : Action) (place : Cursor)
  deriving DecidableEq, Repr, Inhabited

/-- The actions among steps. -/
def Step.action? : Step → Option Action
  | act a _ => some a
  | skip _ => none

/-- The malformed words among steps. -/
def Step.skipped? : Step → Option Token
  | skip t => some t
  | act .. => none

end LoopAsm
