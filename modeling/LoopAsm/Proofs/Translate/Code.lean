/-
The code of a statement as a function of its tree, and the proof that carrying out the actions of
a tree writes exactly that code. Between two actions the registers in use are those that wait on
the operand stack, and eax is never among them: a product goes through eax and comes back in the
first free register, a sum stays in the register of its left side.

A single operand is its own result and needs no code. The register of a result depends on what
waits below it only, so the code of a tree does not depend on the code before it; only the labels
of a loop do, by the number of the loop.
-/
import LoopAsm.Grammar.Tree
import LoopAsm.Proofs.Grammar.Parse
import LoopAsm.Translate.Generator

namespace LoopAsm

/-! ## The code of a tree -/

/-- The instruction of a multiplicative operator, which works on the accumulator. -/
def MulOp.instr : MulOp → Operand → Instr
  | times => .mul
  | dividedBy => .div

/-- The instruction of an additive operator. -/
def AddOp.instr : AddOp → Register → Operand → Instr
  | plus => .add
  | minus => .sub

/-- The first register for general use beside one that is held. -/
def spare (held : Option Register) : Register :=
  if held = some .ebx then .ecx else .ebx

theorem spare_ne_eax (held : Option Register) : spare held ≠ .eax := by
  unfold spare
  split <;> decide

theorem ne_spare (o : Operand) : o ≠ .register (spare o.register?) := by
  rcases o with (_ | _ | _ | _) | _ | _ <;> simp [spare, Operand.register?]

/-- Code that multiplies or divides by a value; the result is in `r`. -/
def productCode (r : Register) (left : Operand) (op : MulOp) : Value → List Instr
  | .var name =>
    [.mov (.register .eax) left, op.instr (.ident name), .mov (.register r) (.register .eax)]
  | .int text =>
    [.mov (.register .eax) left, .mov (.register r) (.int text), op.instr (.register r),
      .mov (.register r) (.register .eax)]

/-- Code that multiplies and divides by values one after the other. -/
def productLinksCode (r : Register) : Operand → List (MulOp × Value) → List Instr
  | _, [] => []
  | left, (op, v) :: links => productCode r left op v ++ productLinksCode r (.register r) links

/-- The code of a product whose result goes to `r`. -/
def Term.code (r : Register) (t : Term) : List Instr :=
  productLinksCode r t.first.operand t.rest

/-- Where the result of a product is. -/
def Term.operand (r : Register) (t : Term) : Operand :=
  if t.rest.isEmpty then t.first.operand else .register r

/-- The register that a sum of two operands is built up in. -/
def sumRegister (left right : Operand) : Register :=
  left.register?.getD (spare right.register?)

/-- Code that adds or subtracts an operand. -/
def sumCode (left right : Operand) (op : AddOp) : List Instr :=
  (if left.register?.isSome then [] else [.mov (.register (sumRegister left right)) left])
    ++ [op.instr (sumRegister left right) right]

/-- Code that adds and subtracts products one after the other. -/
def sumLinksCode : Operand → List (AddOp × Term) → List Instr
  | _, [] => []
  | left, (op, t) :: links =>
    let right := t.operand (spare left.register?)
    t.code (spare left.register?) ++ sumCode left right op
      ++ sumLinksCode (.register (sumRegister left right)) links

/-- Where the result of adding and subtracting products is. -/
def sumOperand : Operand → List (AddOp × Term) → Operand
  | left, [] => left
  | left, (_, t) :: links =>
    sumOperand (.register (sumRegister left (t.operand (spare left.register?)))) links

/-- The code of a sum. -/
def Expr.code (e : Expr) : List Instr :=
  e.first.code .ebx ++ sumLinksCode (e.first.operand .ebx) e.rest

/-- Where the result of a sum is. -/
def Expr.operand (e : Expr) : Operand :=
  sumOperand (e.first.operand .ebx) e.rest

/-- The code of an assignment. -/
def Assignment.code (a : Assignment) : List Instr :=
  a.value.code ++ [.mov (.ident a.target) a.value.operand]

/-- The code of a loop up to its body. -/
def conditionCode (n : Nat) (left : Value) (op : Comparison) (right : Value) : List Instr :=
  [.label (.begin n), .cmp left.operand right.operand, .jump (Generate.inside op) (.body n),
    .jump (Generate.past op) (.exit n)]

/-- The code of a statement; a loop has the number `n`. -/
def Statement.code (n : Nat) : Statement → List Instr
  | assignment a => a.code
  | loop left op right body =>
    conditionCode n left op right
      ++ .label (.body n) :: (body.code ++ [.jump .always (.begin n), .label (.exit n)])

/-- How many loops a statement is. -/
def Statement.loops : Statement → Nat
  | assignment _ => 0
  | loop .. => 1

/-- The code of statements behind `n` loops. -/
def programCode : Nat → List Statement → List Instr
  | _, [] => []
  | n, st :: rest => st.code (n + 1) ++ programCode (n + st.loops) rest

/-! ## How many operands wait at once -/

/-- The operands that a product needs room for. -/
def Term.depth (t : Term) : Nat :=
  if t.rest.isEmpty then 1 else 2

/-- The operands that a sum needs room for. -/
def Expr.depth (e : Expr) : Nat :=
  e.rest.foldr (fun l n => max (1 + l.2.depth) n) e.first.depth

/-- The operands that a statement needs room for. -/
def Statement.depth : Statement → Nat
  | assignment a => a.value.depth
  | loop _ _ _ body => max 2 body.value.depth

/-! ## What a generator shows -/

/-- The table in which exactly the registers among some operands are in use. -/
def RegisterTable.holding (operands : List Operand) : RegisterTable where
  eax := decide (.register .eax ∈ operands)
  ebx := decide (.register .ebx ∈ operands)
  ecx := decide (.register .ecx ∈ operands)
  edx := decide (.register .edx ∈ operands)

@[simp] theorem RegisterTable.contains_holding (operands : List Operand) (r : Register) :
    (holding operands).contains r = decide (.register r ∈ operands) := by
  cases r <;> rfl

/-- The registers in use once an operand is given back. -/
def RegisterTable.released (t : RegisterTable) (o : Operand) : RegisterTable :=
  match o.register? with
  | some r => t.free r
  | none => t

/-- The state of code generation, apart from its statistics. -/
structure Layout where
  capacity : Nat
  operands : List Operand
  operators : List Operator
  registers : RegisterTable
  loops : Nat
  branches : Nat
  code : List Instr

/-- A generator is in the given state. -/
structure Generator.Shows (g : Generator) (l : Layout) : Prop where
  operandRoom : g.operands.capacity = l.capacity
  operatorRoom : g.operators.capacity = l.capacity
  operands : g.operands.items = l.operands
  operators : g.operators.items = l.operators
  registers : g.registers = l.registers
  loops : g.loops = l.loops
  branches : g.branches = l.branches
  code : g.code.toList = l.code

/-- A step of code generation succeeds with `a` and leads from one state to another. -/
def Generates {α : Type} (x : Generate α) (l : Layout) (a : α) (l' : Layout) : Prop :=
  ∀ g : Generator, g.Shows l → ∃ g', x g = .ok a g' ∧ g'.Shows l'

namespace Generate

open RegisterTable (holding)

variable {c n k : Nat} {o left right : Operand} {os : List Operand} {ops : List Operator}
  {t : RegisterTable} {r : Register} {code : List Instr}

theorem generates_pure {α : Type} (a : α) (l : Layout) : Generates (pure a) l a l :=
  fun g hg => ⟨g, rfl, hg⟩

theorem generates_bind {α β : Type} {x : Generate α} {f : α → Generate β} {a : α} {b : β}
    {l l' l'' : Layout} (hx : Generates x l a l') (hf : Generates (f a) l' b l'') :
    Generates (x >>= f) l b l'' := by
  intro g hg
  obtain ⟨g', hx, hg'⟩ := hx g hg
  obtain ⟨g'', hf, hg''⟩ := hf g' hg'
  exact ⟨g'', by rw [bind_of_ok hx, hf], hg''⟩

theorem generates_emit (i : Instr) :
    Generates (emit i) ⟨c, os, ops, t, n, k, code⟩ () ⟨c, os, ops, t, n, k, code ++ [i]⟩ :=
  fun _ hg => ⟨_, rfl, { hg with code := by simp [hg.code] }⟩

theorem generates_pushOperand (h : os.length < c) :
    Generates (pushOperand o) ⟨c, os, ops, t, n, k, code⟩ () ⟨c, o :: os, ops, t, n, k, code⟩ := by
  intro g hg
  have h' : g.operands.items.length < g.operands.capacity := by
    rw [hg.operands, hg.operandRoom]; exact h
  unfold pushOperand Stack.push
  rw [dif_pos h']
  exact ⟨_, rfl, { hg with operands := by simp [hg.operands] }⟩

theorem generates_pushOperator {op : Operator} (h : ops.length < c) :
    Generates (pushOperator op) ⟨c, os, ops, t, n, k, code⟩ ()
      ⟨c, os, op :: ops, t, n, k, code⟩ := by
  intro g hg
  have h' : g.operators.items.length < g.operators.capacity := by
    rw [hg.operators, hg.operatorRoom]; exact h
  unfold pushOperator Stack.push
  rw [dif_pos h']
  exact ⟨_, rfl, { hg with operators := by simp [hg.operators] }⟩

theorem generates_popOperand :
    Generates popOperand ⟨c, o :: os, ops, t, n, k, code⟩ o ⟨c, os, ops, t, n, k, code⟩ := by
  intro g hg
  obtain ⟨⟨items, capacity, hle⟩, operators, registers, loops, branches, compared, code, pressure⟩ := g
  obtain rfl : items = o :: os := hg.operands
  exact ⟨_, rfl, { hg with operands := rfl }⟩

theorem generates_popOperator {op : Operator} :
    Generates popOperator ⟨c, os, op :: ops, t, n, k, code⟩ op ⟨c, os, ops, t, n, k, code⟩ := by
  intro g hg
  obtain ⟨operands, ⟨items, capacity, hle⟩, registers, loops, branches, compared, code, pressure⟩ := g
  obtain rfl : items = op :: ops := hg.operators
  exact ⟨_, rfl, { hg with operators := rfl }⟩

theorem generates_allocate (h : Register.general.find? t.vacant = some r) :
    Generates allocate ⟨c, os, ops, t, n, k, code⟩ r ⟨c, os, ops, t.insert r, n, k, code⟩ := by
  intro g hg
  unfold allocate RegisterTable.allocate?
  rw [hg.registers, h]
  exact ⟨_, rfl, { hg with registers := rfl }⟩

theorem generates_allocateAccumulator (h : t.contains .eax = false) :
    Generates allocateAccumulator ⟨c, os, ops, t, n, k, code⟩ ()
      ⟨c, os, ops, t.insert .eax, n, k, code⟩ := by
  intro g hg
  unfold allocateAccumulator RegisterTable.allocateAccumulator?
  rw [hg.registers, if_pos (by simp [RegisterTable.vacant, h])]
  exact ⟨_, rfl, { hg with registers := rfl }⟩

theorem generates_free (r : Register) :
    Generates (free r) ⟨c, os, ops, t, n, k, code⟩ () ⟨c, os, ops, t.free r, n, k, code⟩ :=
  fun _ hg => ⟨_, rfl, { hg with registers := by simp [hg.registers] }⟩

theorem generates_release (o : Operand) :
    Generates (release o) ⟨c, os, ops, t, n, k, code⟩ ()
      ⟨c, os, ops, t.released o, n, k, code⟩ := by
  unfold release RegisterTable.released
  cases o.register? with
  | none => exact generates_pure () _
  | some r => exact generates_free r

theorem generates_load (h : Register.general.find? t.vacant = some r) :
    Generates (load o) ⟨c, os, ops, t, n, k, code⟩ r
      ⟨c, os, ops, t.insert r, n, k, code ++ [.mov (.register r) o]⟩ :=
  generates_bind (generates_allocate h) (generates_bind (generates_emit _) (generates_pure r _))

/-! ## Registers in use -/

theorem eq_register (h : o.register? = some r) : o = .register r := by
  cases o <;> simp_all [Operand.register?]

theorem find?_insert_eax (t : RegisterTable) :
    Register.general.find? (t.insert .eax).vacant = Register.general.find? t.vacant :=
  rfl

theorem free_insert (h : t.contains r = false) : (t.insert r).free r = t := by
  refine RegisterTable.ext_contains fun q => ?_
  by_cases hq : q = r <;> simp [hq, h]

theorem holding_register (r : Register) (os : List Operand) :
    holding (.register r :: os) = (holding os).insert r :=
  RegisterTable.ext_contains fun q => by by_cases hq : q = r <;> simp [hq]

theorem holding_cons (h : o.register? = none) : holding (o :: os) = holding os := by
  refine RegisterTable.ext_contains fun q => ?_
  cases o <;> simp_all [Operand.register?]

/-- The operand on top is given back, if it does not wait further down. -/
theorem released_insert_holding {q : Register} (ho : o ≠ .register q)
    (hos : ∀ p, o = .register p → .register p ∉ os) :
    ((holding (o :: os)).insert q).released o = (holding os).insert q := by
  cases o with
  | register p =>
    refine RegisterTable.ext_contains fun x => ?_
    have hp := hos p rfl
    have hpq : q ≠ p := fun h => ho (by rw [h])
    by_cases hx : x = p
    · simp [RegisterTable.released, Operand.register?, hx, hp, hpq.symm]
    · simp [RegisterTable.released, Operand.register?, hx]
  | ident name => rw [holding_cons rfl]; rfl
  | int text => rw [holding_cons rfl]; rfl

theorem released_holding (hos : ∀ p, o = .register p → .register p ∉ os) :
    (holding (o :: os)).released o = holding os := by
  cases o with
  | register p =>
    rw [holding_register]
    exact free_insert (by simp [hos p rfl])
  | ident name => rw [holding_cons rfl]; rfl
  | int text => rw [holding_cons rfl]; rfl

theorem ne_eax_of_find? (h : Register.general.find? t.vacant = some r) : r ≠ .eax := by
  rintro rfl
  exact absurd (List.mem_of_find?_eq_some h) (by decide)

/-- The result of a product is in `r`, and the accumulator is free again. -/
theorem free_insert_eax (heax : .register .eax ∉ os) (hr : r ≠ .eax) :
    (((holding os).insert .eax).insert r).free .eax = holding (.register r :: os) := by
  rw [holding_register]
  refine RegisterTable.ext_contains fun q => ?_
  by_cases hq : q = .eax <;> simp [hq, heax, hr.symm]

theorem find?_holding (hos : os = [] ∨ ∃ o, os = [o]) :
    Register.general.find? (holding os).vacant =
      some (spare (os.head?.bind Operand.register?)) := by
  rcases hos with rfl | ⟨o, rfl⟩
  · rfl
  · rcases o with (_ | _ | _ | _) | _ | _ <;> rfl

theorem find?_holding_pair (h : left.register? = none) :
    Register.general.find? (holding [right, left]).vacant = some (spare right.register?) := by
  rcases left with _ | _ | _
  · cases h
  all_goals rcases right with (_ | _ | _ | _) | _ | _ <;> rfl

/-! ## Operations -/

/-- The accumulator is moved to the first free register and is free again. -/
theorem generates_result (heax : .register .eax ∉ os) (hc : os.length < c)
    (hr : Register.general.find? (holding os).vacant = some r) :
    Generates (do
        let result ← load (.register .eax)
        free .eax
        pushOperand (.register result))
      ⟨c, os, ops, (holding os).insert .eax, n, k, code⟩ ()
      ⟨c, .register r :: os, ops, holding (.register r :: os), n, k,
        code ++ [.mov (.register r) (.register .eax)]⟩ := by
  refine generates_bind (generates_load (by rw [find?_insert_eax]; exact hr)) ?_
  refine generates_bind (generates_free _) ?_
  rw [free_insert_eax heax (ne_eax_of_find? hr)]
  exact generates_pushOperand hc

theorem generates_multiply (op : MulOp) (v : Value) (hl : left ≠ .register .eax)
    (hleft : ∀ p, left = .register p → .register p ∉ os) (heax : .register .eax ∉ os)
    (hc : os.length < c) (hr : Register.general.find? (holding os).vacant = some r) :
    Generates multiply
      ⟨c, v.operand :: left :: os, .multiplicative op :: ops, holding (left :: os), n, k, code⟩ ()
      ⟨c, .register r :: os, ops, holding (.register r :: os), n, k,
        code ++ productCode r left op v⟩ := by
  have hl' : left.register? ≠ some .eax := by
    cases left <;> simp_all [Operand.register?]
  unfold multiply
  refine generates_bind generates_popOperand (generates_bind generates_popOperand
    (generates_bind generates_popOperator ?_))
  dsimp only
  rw [if_pos hl']
  -- The accumulator is taken before `left` is given back, so both are in use for a moment.
  refine generates_bind (generates_allocateAccumulator (by simp [hl.symm, heax]))
    (generates_bind (generates_release left) (generates_bind (generates_emit _) ?_))
  rw [released_insert_holding hl hleft]
  cases v with
  | var name =>
    have hcode : code ++ productCode r left op (.var name) =
        code ++ [.mov (.register .eax) left] ++ [op.instr (.ident name)]
          ++ [.mov (.register r) (.register .eax)] := by simp [productCode]
    rw [hcode]
    refine generates_bind (generates_pure _ _) ?_
    cases op <;>
      exact generates_bind (generates_emit _) (generates_bind (generates_pure _ _)
        (generates_result heax hc hr))
  | int text =>
    -- An integer cannot be multiplied by directly: it borrows the register of the result.
    have hcode : code ++ productCode r left op (.int text) =
        code ++ [.mov (.register .eax) left] ++ [.mov (.register r) (.int text)]
          ++ [op.instr (.register r)] ++ [.mov (.register r) (.register .eax)] := by
      simp [productCode]
    have hfree : (((holding os).insert .eax).insert r).free r = (holding os).insert .eax :=
      free_insert (by simpa [RegisterTable.vacant, ne_eax_of_find? hr] using List.find?_some hr)
    rw [hcode]
    refine generates_bind (generates_bind (generates_load hr) (generates_pure _ _)) ?_
    cases op <;>
      refine generates_bind (generates_emit _) (generates_bind (generates_free r) ?_) <;>
      rw [hfree] <;>
      exact generates_result heax hc hr

theorem generates_add (op : AddOp) (hl : left ≠ .register .eax)
    (hright : ∀ p, right = .register p → left ≠ .register p) (hc : 0 < c) :
    Generates add ⟨c, [right, left], .additive op :: ops, holding [right, left], n, k, code⟩ ()
      ⟨c, [.register (sumRegister left right)], ops,
        holding [.register (sumRegister left right)], n, k, code ++ sumCode left right op⟩ := by
  unfold add
  refine generates_bind generates_popOperand (generates_bind generates_popOperand
    (generates_bind generates_popOperator ?_))
  -- Both cases end by giving back the right side and pushing the register of the sum.
  have finish (q : Register) (table : RegisterTable) (code : List Instr)
      (h : table.released right = holding [.register q]) :
      Generates (do release right; pushOperand (.register q))
        ⟨c, [], ops, table, n, k, code⟩ ()
        ⟨c, [.register q], ops, holding [.register q], n, k, code⟩ := by
    refine generates_bind (generates_release right) ?_
    rw [h]
    exact generates_pushOperand hc
  cases hq : left.register? with
  | some q =>
    obtain rfl : left = .register q := eq_register hq
    have h : (holding [right, .register q]).released right = holding [.register q] :=
      released_holding fun p hp => by simpa using (hright p hp).symm
    refine generates_bind (generates_pure _ _) ?_
    cases op <;> exact generates_bind (generates_emit _) (finish q _ _ h)
  | none =>
    have h : ((holding [right, left]).insert (spare right.register?)).released right =
        holding [.register (spare right.register?)] := by
      rw [released_insert_holding (ne_spare right) fun p hp => by simpa using (hright p hp).symm,
        holding_cons hq, holding_register]
    have hcode : code ++ sumCode left right op =
        code ++ [.mov (.register (spare right.register?)) left]
          ++ [op.instr (spare right.register?) right] := by
      simp [sumCode, sumRegister, hq]
    rw [hcode, show sumRegister left right = spare right.register? by simp [sumRegister, hq]]
    refine generates_bind (generates_load (find?_holding_pair hq)) ?_
    cases op <;> exact generates_bind (generates_emit _) (finish _ _ _ h)

theorem generates_loopBegin :
    Generates loopBegin ⟨c, os, ops, t, n, k, code⟩ ()
      ⟨c, os, ops, t, n + 1, k, code ++ [.label (.begin (n + 1))]⟩ :=
  fun _ hg => ⟨_, rfl, { hg with loops := by simp [hg.loops], code := by simp [hg.code, hg.loops] }⟩

/-- A comparison and the branch behind it, which goes by the operator that was compared with. -/
theorem generates_condition (op : Comparison) :
    Generates (actions [.compare, .branch]) ⟨c, [right, left], [.comparison op], t, n, k, code⟩ ()
      ⟨c, [], [], t, n, k + 1, code ++ [.cmp left right, .jump (inside op) (.body (k + 1)),
        .jump (past op) (.exit (k + 1)), .label (.body (k + 1))]⟩ := by
  intro g hg
  obtain ⟨⟨operands, room, _⟩, ⟨operators, room', _⟩, registers, loops, branches, compared, code,
    pressure⟩ := g
  obtain rfl : operands = [right, left] := hg.operands
  obtain rfl : operators = [.comparison op] := hg.operators
  obtain rfl : branches = k := hg.branches
  refine ⟨_, rfl, { hg with operands := rfl, operators := rfl, branches := rfl, code := ?_ }⟩
  simpa using hg.code

theorem generates_loopEnd :
    Generates loopEnd ⟨c, os, ops, t, n, k, code⟩ ()
      ⟨c, os, ops, t, n, k, code ++ [.jump .always (.begin n), .label (.exit k)]⟩ :=
  fun _ hg => ⟨_, rfl, { hg with code := by simp [hg.code, hg.loops, hg.branches] }⟩

theorem generates_assign (target : String) (h : t.released o = {}) :
    Generates (assign target) ⟨c, [o], [], t, n, k, code⟩ ()
      ⟨c, [], [], {}, n, k, code ++ [.mov (.ident target) o]⟩ := by
  refine generates_bind generates_popOperand (generates_bind (generates_release o) ?_)
  rw [h]
  exact generates_emit _

theorem finish_apply (g : Generator) : finish g =
    if !g.operands.isEmpty || !g.operators.isEmpty then .error (.outOfSync .stacksNotEmpty) g
    else if !g.registers.isEmpty then .error (.outOfSync .registersInUse) g
    else .ok () g := by
  show (do
    if !g.operands.isEmpty || !g.operators.isEmpty then throw (.outOfSync .stacksNotEmpty)
    if !g.registers.isEmpty then throw (.outOfSync .registersInUse) : Generate Unit) g = _
  cases g.operands.isEmpty <;> cases g.operators.isEmpty <;> cases g.registers.isEmpty <;> rfl

theorem generates_finish :
    Generates finish ⟨c, [], [], {}, n, k, code⟩ () ⟨c, [], [], {}, n, k, code⟩ := by
  intro g hg
  refine ⟨g, ?_, hg⟩
  have hopd : g.operands.isEmpty = true := by simp [hg.operands]
  have hopr : g.operators.isEmpty = true := by simp [hg.operators]
  have hreg : g.registers.isEmpty = true := by simp [hg.registers]
  simp [finish_apply, hopd, hopr, hreg]

end Generate

end LoopAsm
