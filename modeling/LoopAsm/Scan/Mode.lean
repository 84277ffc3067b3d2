/-
The control of the scanner. A `Mode` says what the characters read so far can still become, and
`Mode.move` says what the next character does: it is taken into the pending word, passed over,
or it shows that the pending word ended just before it. A character that ends a word starts the
next one, and `start` takes every character, so no character is looked at more than twice.
-/
import LoopAsm.Token.Word

namespace LoopAsm.Scan

/-! ## Modes -/

/-- The two quoted literals. -/
inductive Quote where
  | string
  | character
  deriving DecidableEq, Repr, Inhabited

/-- How far a quoted literal has been read. -/
inductive QuotePart where
  /-- Ready for the next character of the text. -/
  | body
  /-- Behind a backslash. -/
  | escape
  /-- Behind a backslash and this many octal digits. -/
  | octal (digits : Nat)
  /-- Behind a backslash, the letter u and this many hexadecimal digits. -/
  | unicode (digits : Nat)
  /-- The text is complete and the closing quote has to follow. -/
  | closing
  deriving DecidableEq, Repr, Inhabited

/-- How far a number has been read. -/
inductive NumberPart where
  | zero
  | decimal
  | octal
  | hexPrefix
  | hex
  /-- A leading zero with an 8 or a 9 behind it: no integer, but still the start of a float. -/
  | badOctal
  /-- A lone point, which may turn out to be no number at all. -/
  | dot
  | fraction
  | exponent
  | exponentSign
  | exponentDigits
  deriving DecidableEq, Repr, Inhabited

/-- The operator characters read so far, where more of them may follow. -/
inductive Symbol where
  | plus
  | minus
  | star
  | percent
  | slash
  | amp
  | pipe
  | caret
  | bang
  | less
  | shl
  | greater
  | shr
  | ushr
  | eq
  deriving DecidableEq, Repr, Inhabited

/-- What the scanner is in the middle of. -/
inductive Mode where
  /-- Between two words. -/
  | initial
  | word
  | quoted (quote : Quote) (part : QuotePart)
  | number (part : NumberPart)
  | symbol (symbol : Symbol)
  /-- In a block comment, with `star` telling whether an asterisk was just read. -/
  | blockComment (star : Bool)
  | lineComment
  | malformed
  deriving DecidableEq, Repr, Inhabited

/-- Whether the mode is inside a block comment. -/
def Mode.inBlockComment : Mode → Bool
  | .blockComment _ => true
  | _ => false

/-! ## Moves -/

/-- What becomes of a character that is taken. -/
inductive Take where
  /-- It joins the pending word. -/
  | grow (next : Mode)
  /-- It joins the pending word and completes it. -/
  | close (kind : Kind)
  /-- It is passed over. -/
  | drop (next : Mode)
  /-- The pending slash opens a comment and is no word. -/
  | comment (next : Mode)
  /-- It ends the line without being a word itself. -/
  | newline (next : Mode)
  /-- It is a question mark, which makes the next colon a conditional operator. -/
  | question
  /-- It is a colon, alone or the second half of a conditional operator. -/
  | colon
  deriving DecidableEq, Repr, Inhabited

/-- What the next character does in a mode. -/
inductive Move where
  | take (take : Take)
  /-- The pending word is complete, of this class, and the character starts the next one. -/
  | release (kind : Kind)
  deriving DecidableEq, Repr, Inhabited

namespace Move

/-- The character joins the pending word. -/
abbrev grow (next : Mode) : Move := .take (.grow next)

/-- The character completes the pending word. -/
abbrev close (kind : Kind) : Move := .take (.close kind)

/-- The pending word can no longer be well formed: it runs up to the next delimiter. -/
def spoil (c : Char) : Move :=
  if isDelimiter c then .release .malformed else .grow .malformed

end Move

/-! ## Character classes of literals -/

/-- An octal digit. -/
def isOctDigit (c : Char) : Bool :=
  '0' ≤ c && c ≤ '7'

/-- A hexadecimal digit of either case. -/
def isHexDigit (c : Char) : Bool :=
  c.isDigit || ('a' ≤ c && c ≤ 'f') || ('A' ≤ c && c ≤ 'F')

/-- The letter before the exponent of a float. -/
def isExponentMark (c : Char) : Bool :=
  c == 'e' || c == 'E'

/-- The letter behind a long integer. -/
def isLongSuffix (c : Char) : Bool :=
  c == 'l' || c == 'L'

/-- The letter behind a float. -/
def isFloatSuffix (c : Char) : Bool :=
  c == 'f' || c == 'F' || c == 'd' || c == 'D'

/-- The characters that may follow a backslash by themselves. -/
def isSimpleEscape (c : Char) : Bool :=
  ['\\', '\'', '"', 'r', 'n', 'f', 't', 'b'].contains c

/-! ## The first character of a word -/

/-- What a character does between two words. -/
def start (c : Char) : Take :=
  if isWordStart c then .grow .word
  else if c = '0' then .grow (.number .zero)
  else if c.isDigit then .grow (.number .decimal)
  else
    match c with
    | '.' => .grow (.number .dot)
    | '"' => .grow (.quoted .string .body)
    | '\'' => .grow (.quoted .character .body)
    | '(' | ')' | '[' | ']' => .close .bracketOrDot
    | '\x7b' | '\x7d' => .close .bigBracket
    | ',' => .close .comma
    | ';' => .close .semicolon
    | '~' => .close .unaryOrIncDec
    | ' ' | '\t' | '\r' | '\n' => .close .whitespace
    | '+' => .grow (.symbol .plus)
    | '-' => .grow (.symbol .minus)
    | '*' => .grow (.symbol .star)
    | '%' => .grow (.symbol .percent)
    | '/' => .grow (.symbol .slash)
    | '&' => .grow (.symbol .amp)
    | '|' => .grow (.symbol .pipe)
    | '^' => .grow (.symbol .caret)
    | '!' => .grow (.symbol .bang)
    | '<' => .grow (.symbol .less)
    | '>' => .grow (.symbol .greater)
    | '=' => .grow (.symbol .eq)
    | '?' => .question
    | ':' => .colon
    | _ => .grow .malformed

/-! ## The characters behind it -/

namespace Quote

/-- The class of the complete literal. -/
def kind : Quote → Kind
  | string => .stringLiteral
  | character => .charLiteral

/-- Where a literal stands once an escape in it is complete. -/
def afterEscape : Quote → QuotePart
  | string => .body
  | character => .closing

/-- Moves inside a quoted literal. A newline breaks it off, and so does an escape that the
language does not have. -/
def move (q : Quote) (part : QuotePart) (c : Char) : Move :=
  match part with
  | .body =>
    if c = '\\' then .grow (.quoted q .escape)
    else if c = '\n' then .release .malformed
    else
      match q with
      | string => if c = '"' then .close q.kind else .grow (.quoted q .body)
      -- A raw quote may be the one character of the literal.
      | character => .grow (.quoted q .closing)
  | .escape =>
    if isOctDigit c then .grow (.quoted q (.octal 1))
    else if c = 'u' then .grow (.quoted q (.unicode 0))
    else if isSimpleEscape c then .grow (.quoted q q.afterEscape)
    else .spoil c
  | .octal n =>
    if isOctDigit c then .grow (.quoted q (if 2 ≤ n then q.afterEscape else .octal (n + 1)))
    else .spoil c
  | .unicode n =>
    if isHexDigit c then .grow (.quoted q (if 3 ≤ n then q.afterEscape else .unicode (n + 1)))
    else .spoil c
  | .closing =>
    match q with
    -- A string closes in its body: nothing leads it here.
    | string => .spoil c
    | character => if c = '\'' then .close q.kind else .spoil c

end Quote

/-- Moves inside a number. -/
def NumberPart.move (part : NumberPart) (c : Char) : Move :=
  match part with
  | zero =>
    if isOctDigit c then .grow (.number octal)
    else if c.isDigit then .grow (.number badOctal)
    else if c = 'x' ∨ c = 'X' then .grow (.number hexPrefix)
    else if c = '.' then .grow (.number fraction)
    else if isExponentMark c then .grow (.number exponent)
    else if isLongSuffix c then .close .intLiteral
    else if isFloatSuffix c then .close .floatLiteral
    else .release .intLiteral
  | decimal =>
    if c.isDigit then .grow (.number decimal)
    else if c = '.' then .grow (.number fraction)
    else if isExponentMark c then .grow (.number exponent)
    else if isLongSuffix c then .close .intLiteral
    else if isFloatSuffix c then .close .floatLiteral
    else .release .intLiteral
  | octal =>
    if isOctDigit c then .grow (.number octal)
    else if c.isDigit then .grow (.number badOctal)
    else if isExponentMark c then .grow (.number exponent)
    else if isLongSuffix c then .close .intLiteral
    else if isFloatSuffix c then .close .floatLiteral
    else .release .intLiteral
  | hexPrefix => if isHexDigit c then .grow (.number hex) else .spoil c
  | hex =>
    if isHexDigit c then .grow (.number hex)
    else if isLongSuffix c then .close .intLiteral
    else .release .intLiteral
  | badOctal =>
    if c.isDigit then .grow (.number badOctal)
    else if isExponentMark c then .grow (.number exponent)
    else if isFloatSuffix c then .close .floatLiteral
    else .spoil c
  | dot => if c.isDigit then .grow (.number fraction) else .release .bracketOrDot
  | fraction =>
    if c.isDigit then .grow (.number fraction)
    else if isExponentMark c then .grow (.number exponent)
    else if isFloatSuffix c then .close .floatLiteral
    else .release .floatLiteral
  | exponent =>
    if c.isDigit then .grow (.number exponentDigits)
    else if c = '+' ∨ c = '-' then .grow (.number exponentSign)
    else .spoil c
  | exponentSign => if c.isDigit then .grow (.number exponentDigits) else .spoil c
  | exponentDigits =>
    if c.isDigit then .grow (.number exponentDigits)
    else if isFloatSuffix c then .close .floatLiteral
    else .release .floatLiteral

/-- Moves behind an operator character. The longest operator wins. -/
def Symbol.move (s : Symbol) (c : Char) : Move :=
  match s with
  | plus =>
    if c = '=' then .close .assign
    else if c = '+' then .close .unaryOrIncDec
    else .release .addSub
  | minus =>
    if c = '=' then .close .assign
    else if c = '-' then .close .unaryOrIncDec
    else .release .addSub
  | star | percent => if c = '=' then .close .assign else .release .mulDiv
  | slash =>
    if c = '=' then .close .assign
    else if c = '*' then .take (.comment (.blockComment false))
    else if c = '/' then .take (.comment .lineComment)
    else .release .mulDiv
  | amp =>
    if c = '=' then .close .assign
    else if c = '&' then .close .logicAnd
    else .release .bitAnd
  | pipe =>
    if c = '=' then .close .assign
    else if c = '|' then .close .logicOr
    else .release .bitOr
  | caret => if c = '=' then .close .assign else .release .xor
  | bang => if c = '=' then .close .equality else .release .unaryOrIncDec
  | less =>
    if c = '=' then .close .compare
    else if c = '<' then .grow (.symbol shl)
    else .release .compare
  | shl => if c = '=' then .close .assign else .release .shift
  | greater =>
    if c = '=' then .close .compare
    else if c = '>' then .grow (.symbol shr)
    else .release .compare
  | shr =>
    if c = '=' then .close .assign
    else if c = '>' then .grow (.symbol ushr)
    else .release .shift
  | ushr => if c = '=' then .close .assign else .release .shift
  | eq => if c = '=' then .close .equality else .release .assign

namespace Mode

/-- What the next character does. -/
def move (m : Mode) (c : Char) : Move :=
  match m with
  | initial => .take (start c)
  | word => if isWordPart c then .grow word else .release .identifier
  | quoted q part => q.move part c
  | number part => part.move c
  | symbol s => s.move c
  | blockComment star =>
    if c = '\n' then .take (.newline (blockComment false))
    else if c = '*' then .take (.drop (blockComment true))
    else if star = true ∧ c = '/' then .take (.drop initial)
    else .take (.drop (blockComment false))
  | lineComment =>
    if c = '\n' then .take (.newline initial) else .take (.drop lineComment)
  | malformed => .spoil c

end Mode

end LoopAsm.Scan
