/-
Tokens, and the records of a scan: its tokens in order, a counter behind each line and a grand
total behind the last one.
-/
import LoopAsm.Token.Kind

namespace LoopAsm

/-- A word of the source text with its class and the line that it ends on. -/
structure Token where
  kind : Kind
  lexeme : String
  line : Nat
  deriving DecidableEq, Repr, Inhabited

/-- Whether a token is of the given class and spelling. -/
def Token.is (t : Token) (kind : Kind) (lexeme : String) : Bool :=
  t.kind == kind && t.lexeme == lexeme

/-- A token apart from its place. -/
def Token.spelling (t : Token) : Kind × String :=
  (t.kind, t.lexeme)

/-- Whether the parser reads a token; it passes over blanks and malformed words. -/
def Token.isSignificant (t : Token) : Bool :=
  !t.kind.isTrivia && t.kind != .malformed

/-- One entry of a token stream. -/
inductive Record where
  | token (t : Token)
  /-- A line of the source ended, with this many words on it. -/
  | line (line words : Nat)
  /-- The source ended, with this many words in all. -/
  | total (words : Nat)
  deriving DecidableEq, Repr, Inhabited

namespace Record

/-- The token of a token entry. -/
def token? : Record → Option Token
  | token t => some t
  | _ => none

end Record

/-- The tokens of a record list. -/
def tokensOf (records : List Record) : List Token :=
  records.filterMap Record.token?

/-- The tokens of a record list that the parser reads. -/
def significant (records : List Record) : List Token :=
  (tokensOf records).filter Token.isSignificant

@[simp] theorem tokensOf_append (a b : List Record) :
    tokensOf (a ++ b) = tokensOf a ++ tokensOf b := by
  simp [tokensOf]

@[simp] theorem significant_append (a b : List Record) :
    significant (a ++ b) = significant a ++ significant b := by
  simp [significant]

theorem Token.is_iff {t : Token} {kind : Kind} {lexeme : String} :
    t.is kind lexeme = true ↔ t.kind = kind ∧ t.lexeme = lexeme := by
  simp [Token.is]

end LoopAsm
