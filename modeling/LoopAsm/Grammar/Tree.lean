/-
Statements as trees: what a well-formed statement is, apart from its text. `spelling` writes a
tree as the words that the grammar has for it, and `actions` says what it asks of a translator.
-/
import LoopAsm.Grammar.Script

namespace LoopAsm

/-! ## Trees -/

/-- A variable or an integer. -/
inductive Value where
  | var (name : String)
  | int (text : String)
  deriving DecidableEq, Repr, Inhabited

/-- A product, read from the left. -/
structure Term where
  first : Value
  rest : List (MulOp × Value)
  deriving DecidableEq, Repr, Inhabited

/-- A sum of products, read from the left. -/
structure Expr where
  first : Term
  rest : List (AddOp × Term)
  deriving DecidableEq, Repr, Inhabited

/-- An assignment to a variable. -/
structure Assignment where
  target : String
  value : Expr
  deriving DecidableEq, Repr, Inhabited

/-- A statement. -/
inductive Statement where
  | assignment (a : Assignment)
  | loop (left : Value) (op : Comparison) (right : Value) (body : Assignment)
  deriving DecidableEq, Repr, Inhabited

/-! ## Their words -/

/-- Words of a text, apart from their places. -/
abbrev Spelling := List (Kind × String)

/-- The word of a comparison. -/
def Comparison.spelling : Comparison → Spelling
  | less => [(.compare, "<")]
  | greater => [(.compare, ">")]

/-- The word of an additive operator. -/
def AddOp.spelling : AddOp → Spelling
  | plus => [(.addSub, "+")]
  | minus => [(.addSub, "-")]

/-- The word of a multiplicative operator. -/
def MulOp.spelling : MulOp → Spelling
  | times => [(.mulDiv, "*")]
  | dividedBy => [(.mulDiv, "/")]

/-- The word of a value. -/
def Value.spelling : Value → Spelling
  | var name => [(.identifier, name)]
  | int text => [(.intLiteral, text)]

/-- The words of a product. -/
def Term.spelling (t : Term) : Spelling :=
  t.first.spelling ++ t.rest.flatMap fun (op, v) => op.spelling ++ v.spelling

/-- The words of a sum. -/
def Expr.spelling (e : Expr) : Spelling :=
  e.first.spelling ++ e.rest.flatMap fun (op, t) => op.spelling ++ t.spelling

/-- The words of an assignment. -/
def Assignment.spelling (a : Assignment) : Spelling :=
  (.identifier, a.target) :: (.assign, "=") :: a.value.spelling

/-- The words of a statement. -/
def Statement.spelling : Statement → Spelling
  | assignment a => a.spelling ++ [(.semicolon, ";")]
  | loop left op right body =>
    (.keyword, "while") :: (.bracketOrDot, "(") :: left.spelling ++ op.spelling ++ right.spelling
      ++ (.bracketOrDot, ")") :: body.spelling ++ [(.semicolon, ";")]

/-! ## What they ask of a translator -/

/-- A value as an operand. -/
def Value.operand : Value → Operand
  | var name => .ident name
  | int text => .int text

/-- The actions of a product. -/
def Term.actions (t : Term) : List Action :=
  .operand t.first.operand :: t.rest.flatMap fun (op, v) =>
    [.operator (.multiplicative op), .operand v.operand, .multiply]

/-- The actions of a sum. -/
def Expr.actions (e : Expr) : List Action :=
  e.first.actions ++ e.rest.flatMap fun (op, t) =>
    .operator (.additive op) :: t.actions ++ [.add]

/-- The actions of an assignment. -/
def Assignment.actions (a : Assignment) : List Action :=
  a.value.actions ++ [.assign a.target]

/-- The actions of a statement. -/
def Statement.actions : Statement → List Action
  | assignment a => a.actions ++ [.finish]
  | loop left op right body =>
    [.loopBegin, .operand left.operand, .operator (.comparison op), .operand right.operand,
      .compare, .branch] ++ body.actions ++ [.loopEnd, .finish]

end LoopAsm
