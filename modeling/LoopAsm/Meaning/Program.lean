/-
What statements compute. Integers and the four operations are left open: `Arithmetic` gives them
a meaning, and everything that is proved of programs holds for every such meaning. A loop runs as
long as its condition holds, so a program may have no outcome.
-/
import LoopAsm.Grammar.Tree

namespace LoopAsm

/-- A meaning of integers and of the operations on them. -/
structure Arithmetic where
  literal : String → Int
  add : Int → Int → Int
  sub : Int → Int → Int
  mul : Int → Int → Int
  div : Int → Int → Int

/-- The values of the variables. -/
abbrev Store := String → Int

/-- Gives a variable a new value. -/
def Store.set (s : Store) (name : String) (v : Int) : Store :=
  fun other => if other = name then v else s other

variable (m : Arithmetic)

/-- What an additive operator computes. -/
def AddOp.eval : AddOp → Int → Int → Int
  | plus => m.add
  | minus => m.sub

/-- What a multiplicative operator computes. -/
def MulOp.eval : MulOp → Int → Int → Int
  | times => m.mul
  | dividedBy => m.div

/-- Whether a comparison holds. -/
def Comparison.holds : Comparison → Int → Int → Bool
  | less, x, y => x < y
  | greater, x, y => y < x

/-- The value of a variable or an integer. -/
def Value.eval (s : Store) : Value → Int
  | var name => s name
  | int text => m.literal text

/-- The value of a product. -/
def Term.eval (s : Store) (t : Term) : Int :=
  t.rest.foldl (fun x (op, v) => op.eval m x (v.eval m s)) (t.first.eval m s)

/-- The value of a sum. -/
def Expr.eval (s : Store) (e : Expr) : Int :=
  e.rest.foldl (fun x (op, t) => op.eval m x (t.eval m s)) (e.first.eval m s)

/-- The values of the variables behind an assignment. -/
def Assignment.run (a : Assignment) (s : Store) : Store :=
  s.set a.target (a.value.eval m s)

/-- A statement takes the variables from one set of values to another. -/
inductive Statement.Runs : Statement → Store → Store → Prop where
  | assignment (a : Assignment) (s : Store) : Runs (.assignment a) s (a.run m s)
  | loopExit {left right : Value} {op : Comparison} {body : Assignment} {s : Store}
      (h : op.holds (left.eval m s) (right.eval m s) = false) : Runs (.loop left op right body) s s
  | loopBody {left right : Value} {op : Comparison} {body : Assignment} {s s' : Store}
      (h : op.holds (left.eval m s) (right.eval m s) = true)
      (rest : Runs (.loop left op right body) (body.run m s) s') :
      Runs (.loop left op right body) s s'

/-- Statements one after the other. -/
inductive ProgramRuns : List Statement → Store → Store → Prop where
  | nil (s : Store) : ProgramRuns [] s s
  | cons {st : Statement} {rest : List Statement} {s s' s'' : Store} (first : st.Runs m s s')
      (more : ProgramRuns rest s' s'') : ProgramRuns (st :: rest) s s''

/-- A statement has at most one outcome. -/
theorem Statement.Runs.deterministic {st : Statement} {s s₁ s₂ : Store} (h₁ : st.Runs m s s₁)
    (h₂ : st.Runs m s s₂) : s₁ = s₂ := by
  induction h₁ with
  | assignment => cases h₂; rfl
  | loopExit h =>
    cases h₂ with
    | loopExit => rfl
    | loopBody h' => rw [h] at h'; cases h'
  | loopBody h _ ih =>
    cases h₂ with
    | loopExit h' => rw [h] at h'; cases h'
    | loopBody _ rest => exact ih rest

end LoopAsm
