/-
The registers of the target machine and the table of those in use. The accumulator is the
implicit operand of multiplication and division and is handed out on request only; the other
registers are handed out in order.
-/

namespace LoopAsm

/-- A machine register. -/
inductive Register where
  /-- The accumulator. -/
  | eax
  | ebx
  | ecx
  | edx
  deriving DecidableEq, Repr, Inhabited

namespace Register

/-- Every register, by index. -/
def all : List Register := [eax, ebx, ecx, edx]

/-- The registers for general use, in the order they are handed out. -/
def general : List Register := [ebx, ecx, edx]

/-- The place of a register in `all`. -/
def index : Register → Nat
  | eax => 0
  | ebx => 1
  | ecx => 2
  | edx => 3

/-- The spelling of a register. -/
def name : Register → String
  | eax => "eax"
  | ebx => "ebx"
  | ecx => "ecx"
  | edx => "edx"

/-- The register of a given spelling. -/
def ofName? (s : String) : Option Register :=
  all.find? (·.name == s)

theorem mem_all (r : Register) : r ∈ all := by
  cases r <;> decide

end Register

/-- Which registers hold a value that is still needed. -/
structure RegisterTable where
  eax : Bool := false
  ebx : Bool := false
  ecx : Bool := false
  edx : Bool := false
  deriving DecidableEq, Repr, Inhabited

namespace RegisterTable

/-- Whether a register is in use. -/
def contains (t : RegisterTable) : Register → Bool
  | .eax => t.eax
  | .ebx => t.ebx
  | .ecx => t.ecx
  | .edx => t.edx

/-- Whether a register is free. -/
def vacant (t : RegisterTable) (r : Register) : Bool :=
  !t.contains r

/-- Marks a register as used or free. -/
def mark (t : RegisterTable) (r : Register) (used : Bool) : RegisterTable :=
  match r with
  | .eax => { t with eax := used }
  | .ebx => { t with ebx := used }
  | .ecx => { t with ecx := used }
  | .edx => { t with edx := used }

/-- Puts a register to use. -/
def insert (t : RegisterTable) (r : Register) : RegisterTable :=
  t.mark r true

/-- Gives a register back; a free one stays free. -/
def free (t : RegisterTable) (r : Register) : RegisterTable :=
  t.mark r false

/-- Takes the first free register for general use. -/
def allocate? (t : RegisterTable) : Option (Register × RegisterTable) :=
  (Register.general.find? t.vacant).map fun r => (r, t.insert r)

/-- Takes the accumulator if it is free. -/
def allocateAccumulator? (t : RegisterTable) : Option RegisterTable :=
  if t.vacant .eax then some (t.insert .eax) else none

/-- Whether no register is in use. -/
def isEmpty (t : RegisterTable) : Bool :=
  Register.all.all t.vacant

/-- How many registers for general use are in use. -/
def generalInUse (t : RegisterTable) : Nat :=
  Register.general.countP t.contains

/-- The table as a row of binary digits, the accumulator last. -/
def render (t : RegisterTable) : String :=
  "RegisterTable(" ++ String.ofList (Register.all.reverse.map fun r =>
    if t.contains r then '1' else '0') ++ ")"

/-! ## What is in use after each operation -/

@[simp] theorem contains_mark (t : RegisterTable) (r q : Register) (used : Bool) :
    (t.mark r used).contains q = if q = r then used else t.contains q := by
  cases r <;> cases q <;> rfl

@[simp] theorem contains_insert (t : RegisterTable) (r q : Register) :
    (t.insert r).contains q = (decide (q = r) || t.contains q) := by
  by_cases h : q = r <;> simp [insert, h]

@[simp] theorem contains_free (t : RegisterTable) (r q : Register) :
    (t.free r).contains q = (!decide (q = r) && t.contains q) := by
  by_cases h : q = r <;> simp [free, h]

theorem ext_contains {s t : RegisterTable} (h : ∀ r, s.contains r = t.contains r) : s = t := by
  have a := h .eax
  have b := h .ebx
  have c := h .ecx
  have d := h .edx
  cases s
  cases t
  simp_all [contains]

@[simp] theorem isEmpty_iff (t : RegisterTable) : t.isEmpty = true ↔ t = {} := by
  constructor
  · intro h
    refine ext_contains fun r => ?_
    have := List.all_eq_true.1 h r (Register.mem_all r)
    have empty : ({} : RegisterTable).contains r = false := by cases r <;> rfl
    simpa [vacant, empty] using this
  · rintro rfl
    rfl

end RegisterTable

end LoopAsm
