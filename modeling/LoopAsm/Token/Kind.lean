/-
The token classes of the language and the numbers that stand for them in a token stream.
`Kind.tag` numbers the classes, `Kind.ofTag?` finds the class of a number, and the two are
inverse to each other; the numbers between them that belong to no class are reserved.
-/

namespace LoopAsm

/-- The class of a token. -/
inductive Kind where
  | malformed
  | whitespace
  | keyword
  | identifier
  | booleanLiteral
  | charLiteral
  | intLiteral
  | floatLiteral
  | stringLiteral
  | assign
  | ternaryColon
  | logicOr
  | logicAnd
  | bitOr
  | xor
  | bitAnd
  | equality
  | compare
  | shift
  | addSub
  | mulDiv
  | unaryOrIncDec
  | bracketOrDot
  | comma
  | bigBracket
  | semicolon
  | colon
  deriving DecidableEq, Repr, Inhabited

namespace Kind

/-- Every class, by ascending number. -/
def all : List Kind :=
  [malformed, whitespace, keyword, identifier, booleanLiteral, charLiteral, intLiteral,
   floatLiteral, stringLiteral, assign, ternaryColon, logicOr, logicAnd, bitOr, xor, bitAnd,
   equality, compare, shift, addSub, mulDiv, unaryOrIncDec, bracketOrDot, comma, bigBracket,
   semicolon, colon]

/-- The number that stands for a class in a token stream. -/
def tag : Kind → Nat
  | malformed => 0x101
  | whitespace => 0x102
  | keyword => 0x103
  | identifier => 0x104
  | booleanLiteral => 0x105
  | charLiteral => 0x106
  | intLiteral => 0x107
  | floatLiteral => 0x108
  | stringLiteral => 0x109
  | assign => 0x110
  | ternaryColon => 0x111
  | logicOr => 0x112
  | logicAnd => 0x113
  | bitOr => 0x114
  | xor => 0x115
  | bitAnd => 0x116
  | equality => 0x117
  | compare => 0x118
  | shift => 0x119
  | addSub => 0x11a
  | mulDiv => 0x11b
  | unaryOrIncDec => 0x11c
  | bracketOrDot => 0x11d
  | comma => 0x120
  | bigBracket => 0x121
  | semicolon => 0x122
  | colon => 0x123

/-- The least number that can stand for a class. -/
def minTag : Nat := 0x101

/-- The greatest number that can stand for a class. -/
def maxTag : Nat := 0x123

/-- The class that a number stands for; a reserved number stands for none. -/
def ofTag? (n : Nat) : Option Kind :=
  all.find? (·.tag == n)

/-- The name of a class, as logs and the token table show it. -/
def name : Kind → String
  | malformed => "Malformed"
  | whitespace => "Whitespace"
  | keyword => "Keyword"
  | identifier => "Identifier"
  | booleanLiteral => "BooleanLiteral"
  | charLiteral => "CharLiteral"
  | intLiteral => "IntLiteral"
  | floatLiteral => "FloatLiteral"
  | stringLiteral => "StringLiteral"
  | assign => "Assign"
  | ternaryColon => "TernaryColon"
  | logicOr => "LogicOr"
  | logicAnd => "LogicAnd"
  | bitOr => "BitOr"
  | xor => "Xor"
  | bitAnd => "BitAnd"
  | equality => "Equality"
  | compare => "Compare"
  | shift => "Shift"
  | addSub => "AddSub"
  | mulDiv => "MulDiv"
  | unaryOrIncDec => "UnaryOrIncDec"
  | bracketOrDot => "BracketOrDot"
  | comma => "Comma"
  | bigBracket => "BigBracket"
  | semicolon => "Semicolon"
  | colon => "Colon"

/-- The class of a given name. -/
def ofName? (s : String) : Option Kind :=
  all.find? (·.name == s)

/-- What a class is called in an error message. -/
def description : Kind → String
  | malformed => "malformed word"
  | whitespace => "whitespace"
  | keyword => "keyword"
  | identifier => "identifier"
  | booleanLiteral => "boolean literal"
  | charLiteral => "char literal"
  | intLiteral => "integer literal"
  | floatLiteral => "float literal"
  | stringLiteral => "string literal"
  | assign => "assignment"
  | ternaryColon => "conditional operator"
  | logicOr => "logical or"
  | logicAnd => "logical and"
  | bitOr => "bitwise or"
  | xor => "bitwise xor"
  | bitAnd => "bitwise and"
  | equality => "equality operator"
  | compare => "comparison operator"
  | shift => "shift operator"
  | addSub => "additive operator"
  | mulDiv => "multiplicative operator"
  | unaryOrIncDec => "unary operator"
  | bracketOrDot => "bracket"
  | comma => "comma"
  | bigBracket => "brace"
  | semicolon => "semicolon"
  | colon => "colon"

/-- Blanks separate tokens and mean nothing by themselves. -/
def isTrivia (k : Kind) : Bool :=
  k == whitespace

/-! ## Classes and their numbers -/

theorem mem_all (k : Kind) : k ∈ all := by
  cases k <;> decide

@[simp] theorem ofTag?_tag (k : Kind) : ofTag? k.tag = some k := by
  cases k <;> decide

theorem tag_injective {k l : Kind} (h : k.tag = l.tag) : k = l := by
  have := congrArg ofTag? h
  simpa using this

theorem ofTag?_eq_some_iff {n : Nat} {k : Kind} : ofTag? n = some k ↔ k.tag = n := by
  constructor
  · intro h
    simpa using List.find?_some h
  · rintro rfl
    exact ofTag?_tag k

theorem minTag_le_tag (k : Kind) : minTag ≤ k.tag := by
  cases k <;> decide

theorem tag_le_maxTag (k : Kind) : k.tag ≤ maxTag := by
  cases k <;> decide

@[simp] theorem isTrivia_iff (k : Kind) : k.isTrivia = true ↔ k = whitespace := by
  simp [isTrivia]

end Kind

end LoopAsm
