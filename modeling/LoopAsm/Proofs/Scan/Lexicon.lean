/-
The words of the language, as regular languages, and what it means to cut a text into them: at
each place the longest piece is taken that begins some word. `Lexed` is this reading of a text; it
knows nothing of modes and looks at whole pieces of the text at a time.
-/
import LoopAsm.Scan.Mode
import LoopAsm.Token.Basic
import Mathlib.Computability.Language

namespace LoopAsm

open Computability

namespace Lexicon

open Scan

/-! ## Building blocks -/

/-- The words of one character of a class. -/
def one (p : Char → Bool) : Language Char :=
  {w | ∃ c, w = [c] ∧ p c = true}

/-- A single character. -/
def chr (c : Char) : Language Char :=
  one (· == c)

/-- A word that may be missing. -/
def opt (l : Language Char) : Language Char :=
  1 + l

/-- At least one word. -/
def plus (l : Language Char) : Language Char :=
  l * l∗

/-- A decimal digit other than zero. -/
def isNonzero (c : Char) : Bool :=
  c.isDigit && c != '0'

/-- The letter behind the zero of a hexadecimal number. -/
def isHexMark (c : Char) : Bool :=
  c == 'x' || c == 'X'

/-- The sign of an exponent. -/
def isSign (c : Char) : Bool :=
  c == '+' || c == '-'

/-- A character that stands for itself in a literal. -/
def isRaw (q : Quote) (c : Char) : Bool :=
  match q with
  | .string => c != '\\' && c != '\n' && c != '"'
  -- A raw quote may be the one character of the literal.
  | .character => c != '\\' && c != '\n'

/-- Any character but a newline. -/
def isInline (c : Char) : Bool :=
  c != '\n'

/-! ## Words -/

/-- Letters, digits, underscores and dollar signs, with no digit in front. -/
def words : Language Char :=
  one isWordStart * (one isWordPart)∗

/-- Decimal, octal and hexadecimal integers. -/
def ints : Language Char :=
  (chr '0' + one isNonzero * (one Char.isDigit)∗ + chr '0' * plus (one isOctDigit)
    + chr '0' * one isHexMark * plus (one isHexDigit)) * opt (one isLongSuffix)

/-- Digits around a point. -/
def pointed : Language Char :=
  (chr '0' + one isNonzero * (one Char.isDigit)∗) * chr '.' * (one Char.isDigit)∗
    + chr '.' * plus (one Char.isDigit)

/-- The end of a float from its exponent on. -/
def exponents : Language Char :=
  one isExponentMark * opt (one isSign) * plus (one Char.isDigit) * opt (one isFloatSuffix)

/-- Floats: digits without a point need an exponent or a suffix. -/
def floats : Language Char :=
  pointed * opt (one isFloatSuffix) + plus (one Char.isDigit) * one isFloatSuffix
    + (pointed + plus (one Char.isDigit)) * exponents

/-- What may stand behind a backslash. -/
def escapes : Language Char :=
  one isSimpleEscape + chr 'u' * one isHexDigit ^ 4 + one isOctDigit ^ 3

/-- A character inside a literal. -/
def unit (q : Quote) : Language Char :=
  one (isRaw q) + chr '\\' * escapes

/-- Strings. -/
def strings : Language Char :=
  chr '"' * (unit .string)∗ * chr '"'

/-- Literals of one character. -/
def characters : Language Char :=
  chr '\'' * unit .character * chr '\''

/-- What may stand behind the opening of a block comment: everything up to its first end. -/
def blockEnds : Language Char :=
  {w | ∃ b, w = b ++ ['*', '/'] ∧ ¬ ['*', '/'] <:+: b}

/-- What may stand behind the opening of a line comment; the newline belongs to it. -/
def lineEnds : Language Char :=
  (one isInline)∗ * chr '\n'

/-- The words of a class in a table of spellings. -/
def spelled (table : List (List Char × Kind)) (kind : Kind) : Language Char :=
  {w | (w, kind) ∈ table}

/-- Words with a fixed spelling. -/
def fixed : List (List Char × Kind) :=
  [ ([' '], .whitespace), (['\t'], .whitespace), (['\r'], .whitespace), (['\n'], .whitespace),
    (['('], .bracketOrDot), ([')'], .bracketOrDot), (['['], .bracketOrDot), ([']'], .bracketOrDot),
    (['.'], .bracketOrDot), (['\x7b'], .bigBracket), (['\x7d'], .bigBracket), ([','], .comma),
    ([';'], .semicolon), (['~'], .unaryOrIncDec), (['!'], .unaryOrIncDec),
    (['+', '+'], .unaryOrIncDec), (['-', '-'], .unaryOrIncDec), (['+'], .addSub), (['-'], .addSub),
    (['*'], .mulDiv), (['/'], .mulDiv), (['%'], .mulDiv), (['<', '<'], .shift),
    (['>', '>'], .shift), (['>', '>', '>'], .shift), (['<'], .compare), (['>'], .compare),
    (['<', '='], .compare), (['>', '='], .compare), (['=', '='], .equality),
    (['!', '='], .equality), (['&'], .bitAnd), (['^'], .xor), (['|'], .bitOr),
    (['&', '&'], .logicAnd), (['|', '|'], .logicOr), (['='], .assign), (['+', '='], .assign),
    (['-', '='], .assign), (['*', '='], .assign), (['/', '='], .assign), (['%', '='], .assign),
    (['&', '='], .assign), (['|', '='], .assign), (['^', '='], .assign),
    (['<', '<', '='], .assign), (['>', '>', '='], .assign), (['>', '>', '>', '='], .assign) ]

end Lexicon

/-- What a word can be. -/
inductive Category where
  /-- A word of letters, whose class depends on its spelling. -/
  | word
  | int
  | float
  | string
  | character
  /-- A word with a fixed spelling, of a given class. -/
  | fixed (kind : Kind)
  | blockComment
  | lineComment
  /-- The first half of a conditional operator. -/
  | question
  /-- The second half of a conditional operator, or a colon by itself. -/
  | colon
  deriving DecidableEq, Repr, Inhabited

namespace Category

open Lexicon

/-- The words of a category. -/
def language : Category → Language Char
  | word => words
  | int => ints
  | float => floats
  | string => strings
  | character => characters
  | fixed kind => spelled Lexicon.fixed kind
  | blockComment => chr '/' * chr '*' * blockEnds
  | lineComment => chr '/' * chr '/' * lineEnds
  | question => chr '?'
  | colon => chr ':'

/-- The tokens that a word stands for, given whether a question mark waits for its colon. -/
def tokens (ternary : Bool) (line : Nat) (w : List Char) : Category → List Token
  | word => [⟨Kind.ofWord (String.ofList w), String.ofList w, line⟩]
  | int => [⟨.intLiteral, String.ofList w, line⟩]
  | float => [⟨.floatLiteral, String.ofList w, line⟩]
  | string => [⟨.stringLiteral, String.ofList w, line⟩]
  | character => [⟨.charLiteral, String.ofList w, line⟩]
  | fixed kind => [⟨kind, String.ofList w, line⟩]
  | blockComment | lineComment | question => []
  | colon => if ternary then [⟨.ternaryColon, "?:", line⟩] else [⟨.colon, String.ofList w, line⟩]

/-- Whether a question mark waits for its colon behind a word. -/
def waits (ternary : Bool) : Category → Bool
  | question => true
  | colon => false
  | _ => ternary

end Category

/-! ## The longest match -/

/-- Some word begins like this. -/
def Viable (w : List Char) : Prop :=
  ∃ (k : Category) (v : List Char), w ++ v ∈ k.language

/-- A text begins with `w`, which some word begins with, and with nothing longer of that sort. -/
structure Longest (text w rest : List Char) : Prop where
  split : text = w ++ rest
  viable : Viable w
  longest : ∀ u, u <+: text → Viable u → u.length ≤ w.length

/-- Not a word at its place: not a word at all, or a second question mark before the colon. -/
def Misplaced (ternary : Bool) (w : List Char) : Prop :=
  (∀ k : Category, w ∉ k.language) ∨ w ∈ Category.question.language ∧ ternary = true

/-- A character that a malformed word takes in. -/
def isStray (c : Char) : Bool :=
  !isDelimiter c

/-- The beginning of a block comment that the text leaves open. -/
def LeftOpen (w rest : List Char) : Prop :=
  rest = [] ∧ ∃ v, w ++ v ∈ Category.blockComment.language

/-- A text, read from the line it starts on and with or without a question mark that waits for
its colon, is cut into tokens by longest match. -/
inductive Lexed : Bool → Nat → List Char → List Token → Prop where
  | done {ternary : Bool} {line : Nat} : Lexed ternary line [] []
  /-- A word, which stands for a token or for none. Conditionals do not nest. -/
  | word {ternary : Bool} {line : Nat} {text w rest : List Char} {k : Category}
      {tokens : List Token} (hlong : Longest text w rest) (hw : w ∈ k.language)
      (hk : ¬ (k = .question ∧ ternary = true))
      (more : Lexed (k.waits ternary) (line + w.count '\n') rest tokens) :
      Lexed ternary line text (k.tokens ternary line w ++ tokens)
  /-- No word at its place: it is malformed up to the next delimiter. -/
  | malformed {ternary : Bool} {line : Nat} {text w rest : List Char} {tokens : List Token}
      (hlong : Longest text w rest) (hw : Misplaced ternary w) (hopen : ¬ LeftOpen w rest)
      (more : Lexed ternary line (rest.dropWhile isStray) tokens) :
      Lexed ternary line text
        (⟨.malformed, String.ofList (w ++ rest.takeWhile isStray), line⟩ :: tokens)
  /-- A block comment that the text leaves open. -/
  | openComment {ternary : Bool} {line : Nat} {text : List Char} (hlong : Longest text text [])
      (hw : ∀ k : Category, text ∉ k.language) (hopen : LeftOpen text []) :
      Lexed ternary line text []

end LoopAsm
