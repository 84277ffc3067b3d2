/-
The reserved words of the language and the class of a word: a reserved word is a keyword, the
two truth values are literals, and every other word is an identifier.
-/
import LoopAsm.Token.Kind

namespace LoopAsm

/-- The reserved words, in alphabetical order. -/
def keywords : List String :=
  ["abstract", "boolean", "break", "byte", "case", "catch", "char", "class", "const", "continue",
   "default", "do", "double", "else", "extends", "final", "finally", "float", "for", "goto", "if",
   "implements", "import", "instanceof", "int", "interface", "long", "native", "new", "null",
   "package", "private", "protected", "public", "return", "short", "static", "super", "switch",
   "synchronized", "this", "throw", "throws", "transient", "try", "void", "volatile", "while"]

/-- The class of a word. -/
def Kind.ofWord (word : String) : Kind :=
  if word = "true" ∨ word = "false" then .booleanLiteral
  else if word ∈ keywords then .keyword
  else .identifier

/-- A letter of the Latin alphabet, an underscore or a dollar sign starts a word. -/
def isWordStart (c : Char) : Bool :=
  c.isAlpha || c == '_' || c == '$'

/-- A word goes on with what may start one and with digits. -/
def isWordPart (c : Char) : Bool :=
  isWordStart c || c.isDigit

/-- The characters that end a malformed word. -/
def isDelimiter (c : Char) : Bool :=
  [' ', '\t', '\r', '\n', '\x7b', '\x7d', '[', ']', '(', ')', ',', '.', ';'].contains c

theorem Kind.ofWord_cases (word : String) :
    Kind.ofWord word = .booleanLiteral ∨ Kind.ofWord word = .keyword ∨
      Kind.ofWord word = .identifier := by
  unfold Kind.ofWord
  split
  · exact .inl rfl
  · split
    · exact .inr (.inl rfl)
    · exact .inr (.inr rfl)

end LoopAsm
