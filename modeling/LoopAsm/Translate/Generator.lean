/-
Code for the actions of a statement. Operands wait on one stack and operators on another until
both sides of an operation are known. A sum is built up in a register for general use; a product
goes through the accumulator, which is free again before the next action. What a failed action
has done up to its failure stays done.
-/
import LoopAsm.Error
import LoopAsm.Grammar.Script
import LoopAsm.Machine.Stack

namespace LoopAsm

/-- The state of code generation. -/
structure Generator where
  operands : Stack Operand
  operators : Stack Operator
  registers : RegisterTable := {}
  /-- The loops begun so far. -/
  loops : Nat := 0
  /-- The loops whose condition is complete. -/
  branches : Nat := 0
  /-- The operator of the last comparison, which the branch behind it goes by. -/
  compared : Option Operator := none
  code : Array Instr := #[]
  /-- The most registers for general use that were in use at once. -/
  pressure : Nat := 0

namespace Generator

/-- The start, with a bound for both stacks. -/
def empty (capacity : Nat) : Generator where
  operands := .empty capacity
  operators := .empty capacity

end Generator

/-- A step of code generation. -/
abbrev Generate (α : Type) := EStateM Error Generator α

namespace Generate

/-! ## Stacks, registers and code -/

/-- Writes an instruction. -/
def emit (i : Instr) : Generate Unit :=
  modify fun g => { g with code := g.code.push i }

/-- Puts an operand on its stack. -/
def pushOperand (o : Operand) : Generate Unit := fun g =>
  match g.operands.push o with
  | .ok operands => .ok () { g with operands }
  | .error e => .error e g

/-- Takes the last operand. -/
def popOperand : Generate Operand := fun g =>
  match g.operands.pop with
  | .ok (o, operands) => .ok o { g with operands }
  | .error e => .error e g

/-- Puts an operator on its stack. -/
def pushOperator (op : Operator) : Generate Unit := fun g =>
  match g.operators.push op with
  | .ok operators => .ok () { g with operators }
  | .error e => .error e g

/-- Takes the last operator. -/
def popOperator : Generate Operator := fun g =>
  match g.operators.pop with
  | .ok (op, operators) => .ok op { g with operators }
  | .error e => .error e g

/-- Takes a register for general use. -/
def allocate : Generate Register := fun g =>
  match g.registers.allocate? with
  | some (r, registers) =>
    .ok r { g with registers, pressure := max g.pressure registers.generalInUse }
  | none => .error .registersExhausted g

/-- Takes the accumulator. -/
def allocateAccumulator : Generate Unit := fun g =>
  match g.registers.allocateAccumulator? with
  | some registers => .ok () { g with registers }
  | none => .error .registersExhausted g

/-- Gives a register back. -/
def free (r : Register) : Generate Unit :=
  modify fun g => { g with registers := g.registers.free r }

/-- Gives back the register of an operand that has one. -/
def release (o : Operand) : Generate Unit :=
  match o.register? with
  | some r => free r
  | none => pure ()

/-- Moves a value into a register for general use. -/
def load (o : Operand) : Generate Register := do
  let r ← allocate
  emit (.mov (.register r) o)
  return r

/-! ## Actions -/

/-- Begins a loop. -/
def loopBegin : Generate Unit := do
  modify fun g => { g with loops := g.loops + 1 }
  let g ← get
  emit (.label (.begin g.loops))

/-- Compares the last two operands and keeps their operator. -/
def compare : Generate Unit := do
  let right ← popOperand
  let left ← popOperand
  let op ← popOperator
  emit (.cmp left right)
  modify fun g => { g with compared := some op }

/-- The jump into the body of a loop. -/
def inside : Comparison → Condition
  | .less => .less
  | .greater => .greater

/-- The jump past a loop, taken exactly when the other one is not. -/
def past : Comparison → Condition
  | .less => .greaterOrEqual
  | .greater => .lessOrEqual

/-- Branches on the last comparison. -/
def branch : Generate Unit := do
  modify fun g => { g with branches := g.branches + 1 }
  let g ← get
  match g.compared with
  | some (.comparison op) =>
    emit (.jump (inside op) (.body g.branches))
    emit (.jump (past op) (.exit g.branches))
    emit (.label (.body g.branches))
  | _ => throw (.outOfSync .unknownComparison)

/-- Adds or subtracts the last two operands, in the register of the left one. -/
def add : Generate Unit := do
  let right ← popOperand
  let left ← popOperand
  let op ← popOperator
  let r ← match left.register? with
    | some r => pure r
    | none => load left
  match op with
  | .additive .plus => emit (.add r right)
  | .additive .minus => emit (.sub r right)
  | _ => throw (.outOfSync .unknownAdditive)
  release right
  pushOperand (.register r)

/-- Multiplies or divides the last two operands, through the accumulator. -/
def multiply : Generate Unit := do
  let right ← popOperand
  let left ← popOperand
  let op ← popOperator
  if left.register? ≠ some .eax then
    allocateAccumulator
    release left
    emit (.mov (.register .eax) left)
  -- Multiplication and division take no integer by itself.
  let right ← if right.isImmediate then Operand.register <$> load right else pure right
  match op with
  | .multiplicative .times => emit (.mul right)
  | .multiplicative .dividedBy => emit (.div right)
  | _ => throw (.outOfSync .unknownMultiplicative)
  release right
  let result ← load (.register .eax)
  free .eax
  pushOperand (.register result)

/-- Assigns the last operand to a variable. -/
def assign (target : String) : Generate Unit := do
  let value ← popOperand
  release value
  emit (.mov (.ident target) value)

/-- Ends a loop. -/
def loopEnd : Generate Unit := do
  let g ← get
  emit (.jump .always (.begin g.loops))
  emit (.label (.exit g.branches))

/-- Checks that a statement has left nothing behind. -/
def finish : Generate Unit := do
  let g ← get
  if !g.operands.isEmpty || !g.operators.isEmpty then throw (.outOfSync .stacksNotEmpty)
  if !g.registers.isEmpty then throw (.outOfSync .registersInUse)

/-- Generates code for an action. -/
def action : Action → Generate Unit
  | .loopBegin => loopBegin
  | .operand o => pushOperand o
  | .operator op => pushOperator op
  | .compare => compare
  | .branch => branch
  | .add => add
  | .multiply => multiply
  | .assign target => assign target
  | .loopEnd => loopEnd
  | .finish => finish

/-- Generates code for actions one after the other. -/
def actions : List Action → Generate Unit
  | [] => pure ()
  | a :: rest => do
    action a
    actions rest

end Generate

end LoopAsm
