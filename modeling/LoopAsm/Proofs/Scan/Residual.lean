/-
What may still follow in each mode, as a language: the words that complete the pending one. A move
takes the derivative of this language by the character it reads, so that a mode stands for all
that the text read so far has decided.
-/
import LoopAsm.Proofs.Scan.Lexicon
import LoopAsm.Proofs.Scan.Moves

namespace LoopAsm

open Computability Scan

namespace Lexicon

variable {p : Char → Bool} {c d : Char} {v : List Char} {l k : Language Char}

/-! ## Membership, one character at a time -/

@[simp] theorem cons_mem_one : c :: v ∈ one p ↔ p c = true ∧ v = [] := by
  constructor
  · rintro ⟨d, h, hd⟩
    cases h
    exact ⟨hd, rfl⟩
  · rintro ⟨h, rfl⟩
    exact ⟨c, rfl, h⟩

@[simp] theorem nil_mem_one : [] ∉ one p := by
  rintro ⟨d, h, -⟩
  cases h

@[simp] theorem cons_mem_one_mul : c :: v ∈ one p * l ↔ p c = true ∧ v ∈ l := by
  rw [Language.mem_mul]
  constructor
  · rintro ⟨_, ⟨d, rfl, hd⟩, b, hb, h⟩
    cases h
    exact ⟨hd, hb⟩
  · rintro ⟨hc, hv⟩
    exact ⟨[c], ⟨c, rfl, hc⟩, v, hv, rfl⟩

@[simp] theorem nil_mem_one_mul : [] ∉ one p * l := by
  rw [Language.mem_mul]
  rintro ⟨_, ⟨d, rfl, -⟩, b, -, h⟩
  cases h

@[simp] theorem cons_mem_chr : d :: v ∈ chr c ↔ d = c ∧ v = [] := by
  simp [chr]

@[simp] theorem nil_mem_chr : [] ∉ chr c :=
  nil_mem_one

@[simp] theorem cons_mem_chr_mul : d :: v ∈ chr c * l ↔ d = c ∧ v ∈ l := by
  simp [chr]

@[simp] theorem nil_mem_chr_mul : [] ∉ chr c * l :=
  nil_mem_one_mul

theorem mem_kstar_mul (k l : Language Char) : v ∈ k∗ * l ↔ v ∈ l ∨ v ∈ k * (k∗ * l) := by
  rw [← mul_assoc, ← Language.mem_add, ← Language.one_add_self_mul_kstar_eq_kstar k, add_mul,
    one_mul, Language.one_add_self_mul_kstar_eq_kstar]

@[simp] theorem cons_mem_many_mul :
    c :: v ∈ (one p)∗ * l ↔ c :: v ∈ l ∨ p c = true ∧ v ∈ (one p)∗ * l := by
  rw [mem_kstar_mul, cons_mem_one_mul]

@[simp] theorem nil_mem_many_mul : [] ∈ (one p)∗ * l ↔ [] ∈ l := by
  rw [mem_kstar_mul]
  simp

@[simp] theorem cons_mem_many : c :: v ∈ (one p)∗ ↔ p c = true ∧ v ∈ (one p)∗ := by
  have := cons_mem_many_mul (p := p) (c := c) (v := v) (l := 1)
  simpa using this

@[simp] theorem mem_opt : v ∈ opt l ↔ v = [] ∨ v ∈ l := Iff.rfl

@[simp] theorem mem_opt_mul : v ∈ opt k * l ↔ v ∈ l ∨ v ∈ k * l := by
  rw [opt, add_mul, one_mul, Language.mem_add]

@[simp] theorem plus_mul : plus k * l = k * (k∗ * l) :=
  mul_assoc ..

@[simp] theorem cons_mem_power_mul (n : Nat) :
    c :: v ∈ one p ^ (n + 1) * l ↔ p c = true ∧ v ∈ one p ^ n * l := by
  rw [pow_succ', mul_assoc, cons_mem_one_mul]

@[simp] theorem nil_mem_power_mul (n : Nat) : [] ∉ one p ^ (n + 1) * l := by
  rw [pow_succ', mul_assoc]
  exact nil_mem_one_mul

@[simp] theorem mem_spelled {table : List (List Char × Kind)} {kind : Kind} :
    v ∈ spelled table kind ↔ (v, kind) ∈ table := Iff.rfl

theorem cons_mem_blockEnds :
    c :: v ∈ blockEnds ↔
      c = '*' ∧ v = ['/'] ∨ v ∈ blockEnds ∧ ¬ (c = '*' ∧ v.head? = some '/') := by
  constructor
  · rintro ⟨b, h, hb⟩
    cases b with
    | nil => cases h; exact .inl ⟨rfl, rfl⟩
    | cons d b =>
      cases h
      rw [List.infix_cons_iff, not_or] at hb
      refine .inr ⟨⟨b, rfl, hb.2⟩, ?_⟩
      rintro ⟨rfl, hhead⟩
      cases b with
      | nil => cases hhead
      | cons e b =>
        cases hhead
        exact hb.1 (by simp)
  · rintro (⟨rfl, rfl⟩ | ⟨⟨b, rfl, hb⟩, hhead⟩)
    · exact ⟨[], rfl, by simp⟩
    · refine ⟨c :: b, rfl, ?_⟩
      rw [List.infix_cons_iff, not_or]
      refine ⟨?_, hb⟩
      rintro ⟨t, ht⟩
      cases ht
      exact hhead ⟨rfl, rfl⟩

@[simp] theorem nil_mem_blockEnds : [] ∉ blockEnds := by
  rintro ⟨b, h, -⟩
  simp at h

end Lexicon

/-! ## What may follow -/

namespace Scan

open Lexicon

/-- The end of a float behind the digits of its fraction. -/
def floatEnd : Language Char :=
  opt (one isFloatSuffix) + exponents

/-- The end of a float without a point, behind its digits. -/
def wholeEnd : Language Char :=
  one isFloatSuffix + exponents

/-- How a number can go on as an integer. -/
def NumberPart.intRest : NumberPart → Language Char
  | zero => (1 + plus (one isOctDigit) + one isHexMark * plus (one isHexDigit))
      * opt (one isLongSuffix)
  | decimal => (one Char.isDigit)∗ * opt (one isLongSuffix)
  | octal => (one isOctDigit)∗ * opt (one isLongSuffix)
  | hexPrefix => plus (one isHexDigit) * opt (one isLongSuffix)
  | hex => (one isHexDigit)∗ * opt (one isLongSuffix)
  | _ => 0

/-- How a number can go on as a float. -/
def NumberPart.floatRest : NumberPart → Language Char
  | zero => chr '.' * ((one Char.isDigit)∗ * floatEnd) + (one Char.isDigit)∗ * wholeEnd
  | decimal => (one Char.isDigit)∗ * (chr '.' * ((one Char.isDigit)∗ * floatEnd) + wholeEnd)
  | octal | badOctal => (one Char.isDigit)∗ * wholeEnd
  | dot => one Char.isDigit * ((one Char.isDigit)∗ * floatEnd)
  | fraction => (one Char.isDigit)∗ * floatEnd
  | exponent => opt (one isSign) * (plus (one Char.isDigit) * opt (one isFloatSuffix))
  | exponentSign => plus (one Char.isDigit) * opt (one isFloatSuffix)
  | exponentDigits => (one Char.isDigit)∗ * opt (one isFloatSuffix)
  | hexPrefix | hex => 0

/-- The category of a quoted literal. -/
def Quote.category : Quote → Category
  | string => .string
  | character => .character

/-- How a quoted literal goes on behind one of its characters. -/
def Quote.rest : Quote → Language Char
  | string => (unit .string)∗ * chr '"'
  | character => chr '\''

/-- How a quoted literal goes on. -/
def Quote.residual (q : Quote) : QuotePart → Language Char
  | .body =>
    match q with
    | string => q.rest
    | character => unit .character * q.rest
  | .escape => escapes * q.rest
  | .octal n => one isOctDigit ^ (2 - n + 1) * q.rest
  | .unicode n => one isHexDigit ^ (3 - n + 1) * q.rest
  | .closing =>
    match q with
    | string => 0
    | character => q.rest

/-- How an operator can go on, and its class then. -/
def Symbol.endings : Symbol → List (List Char × Kind)
  | plus => [(['+'], .unaryOrIncDec), ([], .addSub), (['='], .assign)]
  | minus => [(['-'], .unaryOrIncDec), ([], .addSub), (['='], .assign)]
  | star | percent | slash => [([], .mulDiv), (['='], .assign)]
  | amp => [([], .bitAnd), (['&'], .logicAnd), (['='], .assign)]
  | pipe => [([], .bitOr), (['|'], .logicOr), (['='], .assign)]
  | caret => [([], .xor), (['='], .assign)]
  | bang => [([], .unaryOrIncDec), (['='], .equality)]
  | less => [(['<'], .shift), ([], .compare), (['='], .compare), (['<', '='], .assign)]
  | greater =>
    [ (['>'], .shift), (['>', '>'], .shift), ([], .compare), (['='], .compare),
      (['>', '='], .assign), (['>', '>', '='], .assign) ]
  | shr => [([], .shift), (['>'], .shift), (['='], .assign), (['>', '='], .assign)]
  | shl | ushr => [([], .shift), (['='], .assign)]
  | eq => [(['='], .equality), ([], .assign)]

/-- How a number can go on, in every category; a lone point is a word by itself. -/
def NumberPart.residual (part : NumberPart) : Category → Language Char
  | .int => part.intRest
  | .float => part.floatRest
  | .fixed kind => if part = dot then spelled [([], .bracketOrDot)] kind else 0
  | _ => 0

/-- How an operator can go on, or become the opening of a comment. -/
def Symbol.residual (s : Symbol) : Category → Language Char
  | .fixed kind => spelled s.endings kind
  | .blockComment => if s = slash then chr '*' * blockEnds else 0
  | .lineComment => if s = slash then chr '/' * lineEnds else 0
  | _ => 0

/-- How a block comment goes on, behind an asterisk or not. -/
def blockRest (star : Bool) : Language Char :=
  if star then {v | '*' :: v ∈ blockEnds} else blockEnds

/-- The words that complete the pending one. -/
def Mode.residual (m : Mode) (k : Category) : Language Char :=
  match m with
  | initial => k.language
  | word => if k = .word then (one isWordPart)∗ else 0
  | quoted q part => if k = q.category then q.residual part else 0
  | number part => part.residual k
  | symbol s => s.residual k
  | blockComment star => if k = .blockComment then blockRest star else 0
  | lineComment => if k = .lineComment then lineEnds else 0
  | malformed => 0

end Scan

/-- The category that a class of tokens is recorded for. -/
def Category.ofKind : Kind → Category
  | .identifier => word
  | .intLiteral => int
  | .floatLiteral => float
  | .stringLiteral => string
  | .charLiteral => character
  | kind => fixed kind

namespace Scan

/-- The empty word, in one category. -/
def only (k k' : Category) : Language Char :=
  if k' = k then 1 else 0

/-- What completes a comment behind a move to `next`, which is its end or inside of it. -/
def commentRest (ended : Category) (next : Mode) (k : Category) : Language Char :=
  if next = .initial then only ended k else next.residual k

/-- What completes a word behind a character that is taken. -/
def Take.residual (t : Take) (k : Category) : Language Char :=
  match t with
  | grow next | comment next => next.residual k
  | close kind => only (.ofKind kind) k
  | drop next => commentRest .blockComment next k
  | newline next => commentRest .lineComment next k
  | question => only .question k
  | colon => only .colon k

/-- What completes a word behind a move; nothing does if the word ended before it. -/
def Move.residual : Move → Category → Language Char
  | take t, k => t.residual k
  | release _, _ => 0

end Scan

end LoopAsm
