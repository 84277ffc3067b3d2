/-
What code does on the target machine: four registers, a memory of variables, and the two numbers
that were compared last. Multiplication and division work on the accumulator. The machine stops
where no instruction is left.
-/
import LoopAsm.Machine.Instr
import LoopAsm.Meaning.Program

namespace LoopAsm

/-- A machine between two instructions. -/
structure MachineState where
  registers : Register → Int
  store : Store
  /-- The two sides of the last comparison. -/
  compared : Int × Int
  /-- The index of the next instruction. -/
  position : Nat

namespace MachineState

variable (m : Arithmetic)

/-- The value of an operand. -/
def value (s : MachineState) : Operand → Int
  | .register r => s.registers r
  | .ident name => s.store name
  | .int text => m.literal text

/-- Gives a register a new value. -/
def setRegister (s : MachineState) (r : Register) (v : Int) : MachineState :=
  { s with registers := fun q => if q = r then v else s.registers q }

/-- Gives an operand a new value; an integer keeps its own. -/
def assign (s : MachineState) (dst : Operand) (v : Int) : MachineState :=
  match dst with
  | .register r => s.setRegister r v
  | .ident name => { s with store := s.store.set name v }
  | .int _ => s

/-- Goes on to the next instruction. -/
def advance (s : MachineState) : MachineState :=
  { s with position := s.position + 1 }

end MachineState

/-- Whether a jump is taken, by the two sides of the last comparison. -/
def Condition.holds : Condition → Int × Int → Bool
  | less, (x, y) => x < y
  | greaterOrEqual, (x, y) => y ≤ x
  | greater, (x, y) => y < x
  | lessOrEqual, (x, y) => x ≤ y
  | always, _ => true

variable (m : Arithmetic)

/-- Carries out an instruction of some code; a jump to a label that the code does not have leads
nowhere. -/
def Instr.run (code : List Instr) (s : MachineState) : Instr → Option MachineState
  | label _ => some s.advance
  | mov dst src => some (s.assign dst (s.value m src)).advance
  | add dst src => some (s.setRegister dst (m.add (s.registers dst) (s.value m src))).advance
  | sub dst src => some (s.setRegister dst (m.sub (s.registers dst) (s.value m src))).advance
  | mul src => some (s.setRegister .eax (m.mul (s.registers .eax) (s.value m src))).advance
  | div src => some (s.setRegister .eax (m.div (s.registers .eax) (s.value m src))).advance
  | cmp left right => some { s with compared := (s.value m left, s.value m right) }.advance
  | jump condition target =>
    if condition.holds s.compared then
      (code.idxOf? (.label target)).map fun position => { s with position }
    else some s.advance

/-- The next state of a machine that runs some code. -/
def MachineState.step (code : List Instr) (s : MachineState) : Option MachineState :=
  code[s.position]?.bind fun i => i.run m code s

/-- A machine that runs some code gets from one state to another. -/
inductive Reaches (code : List Instr) : MachineState → MachineState → Prop where
  | refl (s : MachineState) : Reaches code s s
  | step {s s' s'' : MachineState} (h : s.step m code = some s') (rest : Reaches code s' s'') :
      Reaches code s s''

/-- Code that is started on given registers and variables runs off its end with the variables at
new values. -/
def CodeRuns (code : List Instr) (registers : Register → Int) (before after : Store) : Prop :=
  ∃ s, Reaches m code ⟨registers, before, (0, 0), 0⟩ s ∧ s.position = code.length ∧ s.store = after

theorem Reaches.trans {code : List Instr} {s s' s'' : MachineState} (h : Reaches m code s s')
    (h' : Reaches m code s' s'') : Reaches m code s s'' := by
  induction h with
  | refl => exact h'
  | step hs _ ih => exact .step hs (ih h')

end LoopAsm
