/-
How few registers code needs. Beside the accumulator two registers are in use at most, whatever is
translated and however a translation fails: what waits below an operation holds one of them at
most, and a product gives the register of its left side back before it takes one for its result.
So a register for general use is free whenever one is asked for, edx is never handed out, and
instructions read nothing that the same statement has not written.

A statement asks for actions, and a broken one for the first of them. Each action is followed from
one row of waiting operands to the next (`Leads`), so that everything is known at every place where
a statement can break off or find a stack full.
-/
import LoopAsm.Proofs.Translate.Recovery

namespace LoopAsm

/-! ## Registers of an instruction -/

namespace Instr

/-- The registers that an instruction names. -/
def named : Instr → List Register
  | label _ => []
  | mov dst src => dst.register?.toList ++ src.register?.toList
  | add dst src => dst :: src.register?.toList
  | sub dst src => dst :: src.register?.toList
  | mul src => src.register?.toList
  | div src => src.register?.toList
  | cmp left right => left.register?.toList ++ right.register?.toList
  | jump .. => []

/-- The registers that an instruction reads; a product or quotient has the accumulator on its left
side. -/
def reads : Instr → List Register
  | label _ => []
  | mov _ src => src.register?.toList
  | add dst src => dst :: src.register?.toList
  | sub dst src => dst :: src.register?.toList
  | mul src => .eax :: src.register?.toList
  | div src => .eax :: src.register?.toList
  | cmp left right => left.register?.toList ++ right.register?.toList
  | jump .. => []

/-- The register that an instruction writes. -/
def writes : Instr → Option Register
  | mov dst _ => dst.register?
  | add dst _ => some dst
  | sub dst _ => some dst
  | mul _ => some .eax
  | div _ => some .eax
  | _ => none

/-- The operands are such as the instruction takes: a value is moved to a register or a variable,
a sum is built up in ebx or ecx, and a product or quotient takes no integer by itself. -/
def Fitting : Instr → Prop
  | mov dst _ => dst.isImmediate = false
  | add dst _ => dst = .ebx ∨ dst = .ecx
  | sub dst _ => dst = .ebx ∨ dst = .ecx
  | mul src => src.isImmediate = false
  | div src => src.isImmediate = false
  | _ => True

/-- Fit for the machine, without edx. -/
def Modest (i : Instr) : Prop :=
  i.Fitting ∧ .edx ∉ i.named

end Instr

/-- Some instruction writes the register. -/
def Written (code : List Instr) (r : Register) : Prop :=
  ∃ i ∈ code, i.writes = some r

/-- Each register that an instruction reads was written by an instruction before it. -/
def ReadsWritten (code : List Instr) : Prop :=
  ∀ before i behind, code = before ++ i :: behind → ∀ r ∈ i.reads, Written before r

theorem written_concat {code : List Instr} {i : Instr} {r : Register} :
    Written (code ++ [i]) r ↔ Written code r ∨ i.writes = some r := by
  simp only [Written, List.mem_append, List.mem_singleton, or_and_right, exists_or, exists_eq_left]

theorem readsWritten_nil : ReadsWritten [] := by
  intro before i behind h
  simp at h

theorem ReadsWritten.concat {code : List Instr} {i : Instr} (h : ReadsWritten code)
    (hi : ∀ r ∈ i.reads, Written code r) : ReadsWritten (code ++ [i]) := by
  intro before j behind hcode
  rcases List.eq_nil_or_concat behind with rfl | ⟨behind, k, rfl⟩
  · obtain ⟨rfl, hij⟩ := List.append_inj' hcode rfl
    obtain rfl : i = j := by simpa using hij
    exact hi
  · rw [List.concat_eq_append, ← List.cons_append, ← List.append_assoc] at hcode
    exact h before j behind (List.append_inj' hcode rfl).1

/-! ## Registers of operands -/

/-- The operand is no register, or one of the first two for general use. -/
def Operand.AtHand (o : Operand) : Prop :=
  o.register? ∈ [none, some .ebx, some .ecx]

instance (o : Operand) : Decidable o.AtHand :=
  inferInstanceAs (Decidable (o.register? ∈ [none, some .ebx, some .ecx]))

theorem Operand.AtHand.ne {o : Operand} (h : o.AtHand) :
    o ≠ .register .eax ∧ o.register? ≠ some .edx := by
  constructor
  · rintro rfl
    exact absurd h (by decide)
  · intro ho
    rw [Operand.AtHand, ho] at h
    exact absurd h (by decide)

theorem atHand_spare (held : Option Register) : (Operand.register (spare held)).AtHand := by
  unfold spare
  split <;> decide

theorem atHand_value {o : Operand} (h : o.register? = none) : o.AtHand := by
  rw [Operand.AtHand, h]
  decide

theorem atHand_term (t : Term) (held : Option Register) : (t.operand (spare held)).AtHand := by
  unfold Term.operand
  split
  · exact atHand_value t.first.register?_operand
  · exact atHand_spare held

theorem atHand_sum {left : Operand} (right : Operand) (h : left.AtHand) :
    (Operand.register (sumRegister left right)).AtHand := by
  cases left with
  | register r => exact h
  | ident name => exact atHand_spare _
  | int text => exact atHand_spare _

namespace RegisterTable

theorem generalInUse_insert_le (t : RegisterTable) (r : Register) :
    (t.insert r).generalInUse ≤ t.generalInUse + 1 := by
  obtain ⟨_ | _, _ | _, _ | _, _ | _⟩ := t <;> cases r <;> decide

theorem generalInUse_free_le (t : RegisterTable) (r : Register) :
    (t.free r).generalInUse ≤ t.generalInUse := by
  obtain ⟨_ | _, _ | _, _ | _, _ | _⟩ := t <;> cases r <;> decide

theorem generalInUse_insert_eax (t : RegisterTable) :
    (t.insert .eax).generalInUse = t.generalInUse :=
  rfl

/-- No more registers are in use than operands in registers wait. -/
theorem generalInUse_holding_le (os : List Operand) :
    (holding os).generalInUse ≤ (os.filterMap Operand.register?).length := by
  induction os with
  | nil => exact Nat.le_refl 0
  | cons o os ih =>
    cases ho : o.register? with
    | none => rwa [Generate.holding_cons ho, List.filterMap_cons_none ho]
    | some r =>
      rw [Generate.eq_register ho, Generate.holding_register]
      exact Nat.le_trans (generalInUse_insert_le _ r) (Nat.succ_le_succ ih)

end RegisterTable

/-! ## Within bounds -/

/-- What a statement has come to: the operands that wait, the registers in use, and registers that
it has written. -/
structure Sheet where
  operands : List Operand
  registers : RegisterTable
  written : List Register

/-- Operands wait; their registers are in use and written. -/
def Sheet.waiting (os : List Operand) : Sheet where
  operands := os
  registers := RegisterTable.holding os
  written := os.filterMap Operand.register?

/-- The code of a statement is in order, as far as it goes. -/
structure Proper (code : List Instr) : Prop where
  modest : ∀ i ∈ code, i.Modest
  readsWritten : ReadsWritten code

/-- A generator has kept within bounds, in a statement that began behind `front`. -/
structure Generator.Bounded (front : List Instr) (g : Generator) : Prop where
  inUse : g.registers.generalInUse ≤ g.pressure
  pressure : g.pressure ≤ 2
  code : ∃ code, g.code.toList = front ++ code ∧ Proper code

/-- What is in order in front stays so. -/
theorem Generator.Bounded.modest {front : List Instr} {g : Generator} (h : g.Bounded front)
    (hfront : ∀ i ∈ front, i.Modest) (i : Instr) (hi : i ∈ g.code.toList) : i.Modest := by
  obtain ⟨code, hcode, hproper⟩ := h.code
  rw [hcode] at hi
  rcases List.mem_append.1 hi with hi | hi
  · exact hfront i hi
  · exact hproper.modest i hi

/-- A generator has kept within bounds and come to a given state. -/
structure Generator.Keeps (front : List Instr) (g : Generator) (s : Sheet) : Prop where
  operands : g.operands.items = s.operands
  registers : g.registers = s.registers
  inUse : g.registers.generalInUse ≤ g.pressure
  pressure : g.pressure ≤ 2
  code : ∃ code, g.code.toList = front ++ code ∧ Proper code ∧ ∀ r ∈ s.written, Written code r

theorem Generator.Keeps.bounded {front : List Instr} {g : Generator} {s : Sheet}
    (h : g.Keeps front s) : g.Bounded front where
  inUse := h.inUse
  pressure := h.pressure
  code := by
    obtain ⟨code, hcode, hproper, -⟩ := h.code
    exact ⟨code, hcode, hproper⟩

/-- A step of code generation keeps within bounds: where it succeeds, it leads from one state to
another, and where it fails, it is not for lack of registers. -/
def Sustains {α : Type} (x : Generate α) (s : Sheet) (a : α) (s' : Sheet) : Prop :=
  ∀ front g, Generator.Keeps front g s → match x g with
    | .ok b g' => b = a ∧ g'.Keeps front s'
    | .error e g' => e ≠ .registersExhausted ∧ g'.Bounded front

namespace Generate

open RegisterTable (holding)

variable {α β : Type} {os : List Operand} {t : RegisterTable} {w w' : List Register}
  {o left right : Operand} {r : Register} {s s' s'' : Sheet}

theorem sustains_pure (a : α) (s : Sheet) : Sustains (pure a) s a s :=
  fun _ _ hg => ⟨rfl, hg⟩

theorem sustains_throw (fault : SyncFault) (a : α) :
    Sustains (throw (.outOfSync fault)) s a s' :=
  fun _ _ hg => ⟨nofun, hg.bounded⟩

theorem sustains_bind {x : Generate α} {f : α → Generate β} {a : α} {b : β}
    (hx : Sustains x s a s') (hf : Sustains (f a) s' b s'') : Sustains (x >>= f) s b s'' := by
  intro front g hg
  have hstep := hx front g hg
  simp only [Bind.bind, EStateM.bind]
  split at hstep <;> rename_i h <;> rw [h]
  · obtain ⟨rfl, hg'⟩ := hstep
    exact hf front _ hg'
  · exact hstep

/-- What was written may be forgotten. -/
theorem sustains_subset {x : Generate α} {a : α} (hw : w' ⊆ w)
    (hx : Sustains x s a ⟨os, t, w⟩) : Sustains x s a ⟨os, t, w'⟩ := by
  intro front g hg
  have hstep := hx front g hg
  split at hstep
  · obtain ⟨rfl, hg'⟩ := hstep
    refine ⟨rfl, { hg' with code := ?_ }⟩
    obtain ⟨code, hcode, hproper, hwritten⟩ := hg'.code
    exact ⟨code, hcode, hproper, fun r hr => hwritten r (hw hr)⟩
  · exact hstep

/-! ## Stacks, registers and code -/

theorem sustains_emit {i : Instr} (hi : i.Modest) (hreads : i.reads ⊆ w) :
    Sustains (emit i) ⟨os, t, w⟩ () ⟨os, t, i.writes.toList ++ w⟩ := by
  intro front g hg
  obtain ⟨code, hcode, hproper, hwritten⟩ := hg.code
  refine ⟨rfl, { hg with code := ⟨code ++ [i], ?_, ⟨?_, ?_⟩, ?_⟩ }⟩
  · simp [hcode]
  · rintro j hj
    rcases List.mem_append.1 hj with h | h
    · exact hproper.modest j h
    · rwa [List.mem_singleton.1 h]
  · exact hproper.readsWritten.concat fun r hr => hwritten r (hreads hr)
  · intro r hr
    rw [written_concat]
    rcases List.mem_append.1 hr with h | h
    · exact .inr (by simpa using h)
    · exact .inl (hwritten r h)

theorem sustains_pushOperand (o : Operand) :
    Sustains (pushOperand o) ⟨os, t, w⟩ () ⟨o :: os, t, w⟩ := by
  intro front g hg
  unfold pushOperand
  cases hs : g.operands.push o with
  | ok operands =>
    refine ⟨rfl, { hg with operands := ?_ }⟩
    exact (Stack.push_eq_ok_iff.1 hs).2.1.trans (congrArg (o :: ·) hg.operands)
  | error e =>
    refine ⟨?_, hg.bounded⟩
    rw [(Stack.push_eq_error_iff.1 hs).2]
    nofun

theorem sustains_popOperand :
    Sustains popOperand ⟨o :: os, t, w⟩ o ⟨os, t, w⟩ := by
  intro front g hg
  unfold popOperand
  have hitems := hg.operands
  cases hs : g.operands.pop with
  | ok p =>
    rw [(Stack.pop_eq_ok_iff.1 hs).1] at hitems
    obtain ⟨ho, hos⟩ := List.cons.inj hitems
    exact ⟨ho, { hg with operands := hos }⟩
  | error e =>
    rw [(Stack.pop_eq_error_iff.1 hs).1] at hitems
    cases hitems

theorem sustains_pushOperator (op : Operator) : Sustains (pushOperator op) s () s := by
  intro front g hg
  unfold pushOperator
  cases hs : g.operators.push op with
  | ok operators => exact ⟨rfl, { hg with }⟩
  | error e =>
    refine ⟨?_, hg.bounded⟩
    rw [(Stack.push_eq_error_iff.1 hs).2]
    nofun

/-- Which operator comes from the stack is left open. -/
theorem sustains_popOperator {f : Operator → Generate β} {b : β}
    (hf : ∀ op, Sustains (f op) s b s') : Sustains (popOperator >>= f) s b s' := by
  intro front g hg
  simp only [Bind.bind, EStateM.bind, popOperator]
  cases hs : g.operators.pop with
  | ok p => exact hf p.1 front _ { hg with }
  | error e =>
    refine ⟨?_, hg.bounded⟩
    rw [(Stack.pop_eq_error_iff.1 hs).2]
    nofun

theorem sustains_allocate (h : Register.general.find? t.vacant = some r)
    (hp : (t.insert r).generalInUse ≤ 2) :
    Sustains allocate ⟨os, t, w⟩ r ⟨os, t.insert r, w⟩ := by
  intro front g hg
  unfold allocate RegisterTable.allocate?
  rw [hg.registers, h]
  exact ⟨rfl, { hg with
    registers := rfl
    inUse := Nat.le_max_right _ _
    pressure := Nat.max_le.2 ⟨hg.pressure, hp⟩ }⟩

theorem sustains_allocateAccumulator (h : t.contains .eax = false) :
    Sustains allocateAccumulator ⟨os, t, w⟩ () ⟨os, t.insert .eax, w⟩ := by
  intro front g hg
  unfold allocateAccumulator RegisterTable.allocateAccumulator?
  rw [hg.registers, if_pos (by simp [RegisterTable.vacant, h])]
  have hinUse := hg.inUse
  rw [hg.registers] at hinUse
  exact ⟨rfl, { hg with registers := rfl, inUse := hinUse }⟩

theorem sustains_free (r : Register) :
    Sustains (free r) ⟨os, t, w⟩ () ⟨os, t.free r, w⟩ := fun _ _ hg =>
  ⟨rfl, { hg with
    registers := congrArg (RegisterTable.free · r) hg.registers
    inUse := Nat.le_trans (RegisterTable.generalInUse_free_le _ r) hg.inUse }⟩

theorem sustains_release (o : Operand) :
    Sustains (release o) ⟨os, t, w⟩ () ⟨os, t.released o, w⟩ := by
  unfold release RegisterTable.released
  cases o.register? with
  | none => exact sustains_pure () _
  | some r => exact sustains_free r

theorem modest_mov (hr : r ≠ .edx) (ho : o.register? ≠ some .edx) :
    (Instr.mov (.register r) o).Modest := by
  refine ⟨rfl, ?_⟩
  simp only [Instr.named, List.mem_append, Option.mem_toList, not_or]
  exact ⟨by simpa [Operand.register?] using hr, ho⟩

theorem sustains_load (h : Register.general.find? t.vacant = some r)
    (hp : (t.insert r).generalInUse ≤ 2) (hr : r ≠ .edx) (ho : o.register? ≠ some .edx)
    (hw : o.register?.toList ⊆ w) :
    Sustains (load o) ⟨os, t, w⟩ r ⟨os, t.insert r, r :: w⟩ := by
  exact sustains_bind (sustains_allocate h hp)
    (sustains_bind (sustains_emit (modest_mov hr ho) hw) (sustains_pure r _))

/-! ## Products -/

/-- What waits below a product: one operand at most. -/
structure Shallow (os : List Operand) : Prop where
  length_le : os.length ≤ 1
  atHand : ∀ o ∈ os, o.AtHand

/-- The register that a product goes to. -/
def resultRegister (os : List Operand) : Register :=
  spare (os.head?.bind Operand.register?)

theorem Shallow.eax_not_mem (hos : Shallow os) : .register .eax ∉ os :=
  fun h => (hos.atHand _ h).ne.1 rfl

theorem Shallow.find? (hos : Shallow os) :
    Register.general.find? (holding os).vacant = some (resultRegister os) := by
  refine find?_holding ?_
  match os, hos.length_le with
  | [], _ => exact .inl rfl
  | [o], _ => exact .inr ⟨o, rfl⟩

theorem resultRegister_ne (os : List Operand) :
    resultRegister os ≠ .eax ∧ resultRegister os ≠ .edx := by
  unfold resultRegister spare
  split <;> decide

/-- With the register of the result, two are in use. -/
theorem Shallow.generalInUse_le (hos : Shallow os) (r : Register) :
    (((holding os).insert .eax).insert r).generalInUse ≤ 2 := by
  have hinsert := ((holding os).insert .eax).generalInUse_insert_le r
  have hholding := RegisterTable.generalInUse_holding_le os
  have hfilter := List.length_filterMap_le Operand.register? os
  have hlength := hos.length_le
  rw [RegisterTable.generalInUse_insert_eax] at hinsert
  omega

theorem sustains_takeAccumulator (hos : Shallow os) (hl : left.AtHand)
    (hleft : ∀ p, left = .register p → .register p ∉ os) :
    Sustains (takeAccumulator left)
      ⟨os, holding (left :: os), (left :: os).filterMap Operand.register?⟩ ()
      ⟨os, (holding os).insert .eax, .eax :: (left :: os).filterMap Operand.register?⟩ := by
  have hne : left.register? ≠ some .eax := fun h => hl.ne.1 (eq_register h)
  have heax : (holding (left :: os)).contains .eax = false := by
    simpa using ⟨hl.ne.1.symm, hos.eax_not_mem⟩
  have hreads : left.register?.toList ⊆ (left :: os).filterMap Operand.register? := by
    cases h : left.register? <;> simp [h]
  unfold takeAccumulator
  rw [if_pos hne]
  refine sustains_bind (sustains_allocateAccumulator heax) ?_
  refine sustains_bind (sustains_release left) ?_
  rw [released_insert_holding hl.ne.1 hleft]
  exact sustains_emit (modest_mov (by decide) hl.ne.2) hreads

theorem sustains_multiplicative (op : Operator) (hright : right.isImmediate = false)
    (hedx : right.register? ≠ some .edx) (heax : .eax ∈ w) (hw : right.register?.toList ⊆ w) :
    Sustains (multiplicative op right) ⟨os, t, w⟩ () ⟨os, t, .eax :: w⟩ := by
  have hnamed : .edx ∉ right.register?.toList := by simpa using hedx
  unfold multiplicative
  split
  · exact sustains_emit ⟨hright, hnamed⟩ (List.cons_subset.2 ⟨heax, hw⟩)
  · exact sustains_emit ⟨hright, hnamed⟩ (List.cons_subset.2 ⟨heax, hw⟩)
  · exact sustains_throw _ ()

theorem sustains_moveOut (hos : Shallow os) (heax : .eax ∈ w)
    (hw : os.filterMap Operand.register? ⊆ w) :
    Sustains moveOut ⟨os, (holding os).insert .eax, w⟩ ()
      (.waiting (.register (resultRegister os) :: os)) := by
  have hne := resultRegister_ne os
  refine sustains_bind (sustains_load (r := resultRegister os) ?_ (hos.generalInUse_le _) hne.2
    (by decide) (by simpa [Operand.register?] using heax)) ?_
  · rw [find?_insert_eax]
    exact hos.find?
  · refine sustains_bind (sustains_free _) ?_
    rw [free_insert_eax hos.eax_not_mem hne.1]
    exact sustains_subset (List.cons_subset_cons _ hw) (sustains_pushOperand _)

/-- The left side is given back before the result needs a register, and an integer borrows that
register in between. -/
theorem sustains_multiply (hos : Shallow os) (hright : right.register? = none) (hl : left.AtHand)
    (hleft : ∀ p, left = .register p → .register p ∉ os) :
    Sustains multiply (.waiting (right :: left :: os)) ()
      (.waiting (.register (resultRegister os) :: os)) := by
  have hne := resultRegister_ne os
  have hfind := hos.find?
  have hw : os.filterMap Operand.register? ⊆ (left :: os).filterMap Operand.register? :=
    ((List.sublist_cons_self left os).filterMap _).subset
  rw [multiply_eq, Sheet.waiting, holding_cons hright, List.filterMap_cons_none hright]
  refine sustains_bind sustains_popOperand (sustains_bind sustains_popOperand
    (sustains_popOperator fun op => ?_))
  refine sustains_bind (sustains_takeAccumulator hos hl hleft) ?_
  cases right with
  | register q => cases hright
  | ident name =>
    refine sustains_bind (sustains_pure (Operand.ident name) _) ?_
    refine sustains_bind (sustains_multiplicative op rfl (Option.some_ne_none _).symm (by simp)
      (List.nil_subset _)) ?_
    refine sustains_bind (sustains_pure () _) (sustains_moveOut hos (by simp) ?_)
    exact fun q hq => List.mem_cons_of_mem _ (List.mem_cons_of_mem _ (hw hq))
  | int text =>
    have hfree : (((holding os).insert .eax).insert (resultRegister os)).free (resultRegister os) =
        (holding os).insert .eax :=
      free_insert (by simpa [RegisterTable.vacant, hne.1] using List.find?_some hfind)
    refine sustains_bind (sustains_bind (sustains_load (o := .int text) hfind
      (hos.generalInUse_le _) hne.2 (Option.some_ne_none _).symm (List.nil_subset _))
      (sustains_pure (Operand.register _) _)) ?_
    refine sustains_bind (sustains_multiplicative op rfl ?_ (by simp) ?_) ?_
    · simpa [Operand.register?] using hne.2
    · simp [Operand.register?]
    refine sustains_bind (sustains_free _) ?_
    rw [hfree]
    refine sustains_moveOut hos (by simp) fun q hq => ?_
    exact List.mem_cons_of_mem _ (List.mem_cons_of_mem _ (List.mem_cons_of_mem _ (hw hq)))

/-! ## Sums, comparisons and assignments -/

theorem sustains_additive (op : Operator) (hr : (Operand.register r).AtHand) (hright : right.AtHand)
    (hrw : r ∈ w) (hw : right.register?.toList ⊆ w) :
    Sustains (additive op r right) ⟨os, t, w⟩ () ⟨os, t, r :: w⟩ := by
  have hregister : r = .ebx ∨ r = .ecx := by simpa [Operand.AtHand, Operand.register?] using hr
  have hnamed : .edx ∉ r :: right.register?.toList := by
    refine List.not_mem_cons_of_ne_of_not_mem ?_ (by simpa using hright.ne.2)
    rcases hregister with rfl | rfl <;> decide
  unfold additive
  split
  · exact sustains_emit ⟨hregister, hnamed⟩ (List.cons_subset.2 ⟨hrw, hw⟩)
  · exact sustains_emit ⟨hregister, hnamed⟩ (List.cons_subset.2 ⟨hrw, hw⟩)
  · exact sustains_throw _ ()

/-- A sum ends by giving back the right side, and the register it is in waits. -/
theorem sustains_sumEnd (op : Operator) (hr : (Operand.register r).AtHand) (hright : right.AtHand)
    (hrw : r ∈ w) (hw : right.register?.toList ⊆ w)
    (ht : t.released right = holding [.register r]) :
    Sustains (do additive op r right; release right; pushOperand (.register r))
      ⟨[], t, w⟩ () (.waiting [.register r]) := by
  refine sustains_bind (sustains_additive op hr hright hrw hw)
    (sustains_bind (sustains_release right) ?_)
  rw [ht]
  exact sustains_subset (by simp [Operand.register?]) (sustains_pushOperand _)

theorem sustains_add (hl : left.AtHand) (hright : right.AtHand)
    (hapart : ∀ p, right = .register p → left ≠ .register p) :
    Sustains add (.waiting [right, left]) () (.waiting [.register (sumRegister left right)]) := by
  have hsum := atHand_sum right hl
  have hw : right.register?.toList ⊆ [right, left].filterMap Operand.register? := by
    cases h : right.register? <;> simp [h]
  have hmem (p : Register) (hp : right = .register p) : .register p ∉ [left] := by
    simpa using (hapart p hp).symm
  rw [add_eq]
  refine sustains_bind sustains_popOperand (sustains_bind sustains_popOperand
    (sustains_popOperator fun op => ?_))
  unfold sumIn
  cases hq : left.register? with
  | some q =>
    obtain rfl : left = .register q := eq_register hq
    refine sustains_bind (sustains_pure q _) (sustains_sumEnd op hsum hright ?_ hw ?_)
    · exact List.mem_filterMap.2 ⟨.register q, by simp, rfl⟩
    · exact released_holding hmem
  | none =>
    have hregister : sumRegister left right = spare right.register? := by simp [sumRegister, hq]
    rw [hregister] at hsum ⊢
    have hinUse : ((holding [right, left]).insert (spare right.register?)).generalInUse ≤ 2 := by
      have hinsert := (holding [right, left]).generalInUse_insert_le (spare right.register?)
      have hholding := RegisterTable.generalInUse_holding_le [right, left]
      have hone : ([right, left].filterMap Operand.register?).length ≤ 1 := by
        cases h : right.register? <;> simp [h, hq]
      omega
    refine sustains_bind (sustains_load (find?_holding_pair hq) hinUse ?_ hl.ne.2 (by simp [hq])) ?_
    · simpa [Operand.register?] using hsum.ne.2
    · refine sustains_sumEnd op hsum hright (by simp) (List.subset_cons_of_subset _ hw) ?_
      rw [released_insert_holding (ne_spare right) hmem, holding_cons hq, holding_register]

/-- Two values are compared; they are in no register. -/
theorem sustains_compare (hl : left.register? = none) (hright : right.register? = none) :
    Sustains compare (.waiting (right :: left :: os)) () (.waiting os) := by
  have hcmp : (Instr.cmp left right).Modest := by
    refine ⟨trivial, ?_⟩
    simp [Instr.named, hl, hright]
  have hreads : (Instr.cmp left right).reads ⊆ os.filterMap Operand.register? := by
    simp [Instr.reads, hl, hright]
  rw [Sheet.waiting, holding_cons hright, holding_cons hl, List.filterMap_cons_none hright,
    List.filterMap_cons_none hl]
  refine sustains_bind sustains_popOperand (sustains_bind sustains_popOperand
    (sustains_popOperator fun op => sustains_bind (sustains_emit hcmp hreads) ?_))
  exact fun _ _ hg => ⟨rfl, { hg with }⟩

theorem sustains_assign (target : String) (ho : o.AtHand) :
    Sustains (assign target) (.waiting [o]) () (.waiting []) := by
  have hmov : (Instr.mov (.ident target) o).Modest :=
    ⟨rfl, by simpa [Instr.named] using ⟨nofun, ho.ne.2⟩⟩
  have hreads : o.register?.toList ⊆ [o].filterMap Operand.register? := by
    cases h : o.register? <;> simp [h]
  refine sustains_bind sustains_popOperand (sustains_bind (sustains_release o) ?_)
  rw [released_holding (by simp)]
  exact sustains_subset (by simp) (sustains_emit hmov hreads)

/-! ## Labels -/

theorem sustains_label (l : Label) : Sustains (emit (.label l)) s () s :=
  sustains_emit ⟨trivial, nofun⟩ nofun

theorem sustains_jump (c : Condition) (l : Label) : Sustains (emit (.jump c l)) s () s :=
  sustains_emit ⟨trivial, nofun⟩ nofun

theorem sustains_loopBegin : Sustains loopBegin s () s := fun front g hg =>
  sustains_label (.begin (g.loops + 1)) front { g with loops := g.loops + 1 } { hg with }

theorem sustains_branch : Sustains branch s () s := by
  intro front g hg
  obtain ⟨operands, operators, registers, loops, branches, compared, code, pressure⟩ := g
  rcases compared with _ | op | op | op
  · exact ⟨nofun, hg.inUse, hg.pressure, hg.bounded.code⟩
  · have jumps : Sustains (do
        emit (.jump (inside op) (.body (branches + 1)))
        emit (.jump (past op) (.exit (branches + 1)))
        emit (.label (.body (branches + 1)))) s () s :=
      sustains_bind (sustains_jump _ _) (sustains_bind (sustains_jump _ _) (sustains_label _))
    exact jumps front ⟨operands, operators, registers, loops, branches + 1, _, code, pressure⟩
      { hg with }
  · exact ⟨nofun, hg.inUse, hg.pressure, hg.bounded.code⟩
  · exact ⟨nofun, hg.inUse, hg.pressure, hg.bounded.code⟩

theorem sustains_loopEnd : Sustains loopEnd s () s := by
  intro front g hg
  have back : Sustains (do
      emit (.jump .always (.begin g.loops))
      emit (.label (.exit g.branches))) s () s :=
    sustains_bind (sustains_jump _ _) (sustains_label _)
  exact back front g hg

theorem sustains_finish : Sustains finish s () s := by
  intro front g hg
  rw [finish_apply]
  cases g.operands.isEmpty <;> cases g.operators.isEmpty <;> cases g.registers.isEmpty <;>
    first | exact ⟨rfl, hg⟩ | exact ⟨nofun, hg.bounded⟩

/-! ## Trees -/

/-- Actions one after the other, from what waits before them to what waits behind them. -/
inductive Leads : List Operand → List Action → List Operand → Prop
  | nil (os : List Operand) : Leads os [] os
  | cons {a : Action} {as : List Action} {os os' os'' : List Operand}
      (ha : Sustains (action a) (.waiting os) () (.waiting os')) (has : Leads os' as os'') :
      Leads os (a :: as) os''

variable {as bs : List Action} {os' os'' : List Operand}

theorem Leads.append (h : Leads os as os') (h' : Leads os' bs os'') : Leads os (as ++ bs) os'' := by
  induction h with
  | nil os => exact h'
  | cons ha _ ih => exact .cons ha (ih h')

theorem Leads.of_beginning (h : Leads os bs os') (hfront : as <+: bs) :
    ∃ os'', Leads os as os'' := by
  induction h generalizing as with
  | nil os =>
    rw [List.prefix_nil.1 hfront]
    exact ⟨os, .nil os⟩
  | @cons b bs os os₁ os₂ hb hbs ih =>
    cases as with
    | nil => exact ⟨os, .nil os⟩
    | cons a as =>
      obtain ⟨rfl, htail⟩ := List.cons_prefix_cons.1 hfront
      obtain ⟨os'', has⟩ := ih htail
      exact ⟨os'', .cons hb has⟩

theorem Leads.sustains (h : Leads os as os') :
    Sustains (actions as) (.waiting os) () (.waiting os') := by
  induction h with
  | nil os => exact sustains_pure () _
  | cons ha _ ih => exact sustains_bind ha ih

theorem sustains_pushValue (v : Value) :
    Sustains (pushOperand v.operand) (.waiting os) () (.waiting (v.operand :: os)) := by
  have hv := v.register?_operand
  rw [Sheet.waiting, Sheet.waiting, holding_cons hv, List.filterMap_cons_none hv]
  exact sustains_pushOperand _

theorem leads_productLinks (links : List (MulOp × Value)) (hos : Shallow os) (hl : left.AtHand)
    (hleft : ∀ p, left = .register p → .register p ∉ os) :
    Leads (left :: os) (links.flatMap fun (op, v) =>
        [.operator (.multiplicative op), .operand v.operand, .multiply])
      ((if links.isEmpty then left else .register (resultRegister os)) :: os) := by
  induction links generalizing left with
  | nil => exact .nil _
  | cons link links ih =>
    obtain ⟨op, v⟩ := link
    have hvacant : .register (resultRegister os) ∉ os := by
      simpa [RegisterTable.vacant] using List.find?_some hos.find?
    have rest := @ih (.register (resultRegister os)) (atHand_spare _)
      (by rintro p ⟨⟩; exact hvacant)
    rw [ite_self] at rest
    exact .cons (sustains_pushOperator _) <| .cons (sustains_pushValue v) <|
      .cons (sustains_multiply hos v.register?_operand hl hleft) rest

theorem leads_term (t : Term) (hos : Shallow os) :
    Leads os t.actions (t.operand (resultRegister os) :: os) := by
  refine .cons (sustains_pushValue t.first)
    (leads_productLinks t.rest hos (atHand_value t.first.register?_operand) fun p hp => ?_)
  exact absurd hp (t.first.operand_ne_register p)

theorem leads_sumLinks (links : List (AddOp × Term)) (hl : left.AtHand) :
    Leads [left] (links.flatMap fun (op, t) => .operator (.additive op) :: t.actions ++ [.add])
        [sumOperand left links] ∧ (sumOperand left links).AtHand := by
  induction links generalizing left with
  | nil => exact ⟨.nil _, hl⟩
  | cons link links ih =>
    obtain ⟨op, t⟩ := link
    have hterm : Leads [left] t.actions [t.operand (spare left.register?), left] :=
      leads_term t ⟨Nat.le_refl 1, by simpa using hl⟩
    have hapart (p : Register) (hp : t.operand (spare left.register?) = .register p) :
        left ≠ .register p := by
      rw [Term.operand_eq_register hp]
      exact ne_spare left
    have hadd := sustains_add hl (atHand_term t left.register?) hapart
    obtain ⟨hrest, hresult⟩ := ih (atHand_sum (t.operand (spare left.register?)) hl)
    refine ⟨?_, hresult⟩
    rw [List.flatMap_cons]
    refine .append (.append (.cons (sustains_pushOperator _) hterm) ?_) hrest
    exact .cons hadd (.nil _)

theorem leads_assignment (a : Assignment) : Leads [] a.actions [] := by
  have hfirst : Leads [] a.value.first.actions [a.value.first.operand .ebx] :=
    leads_term a.value.first ⟨Nat.zero_le 1, nofun⟩
  obtain ⟨hrest, hresult⟩ := leads_sumLinks a.value.rest (atHand_term a.value.first none)
  exact (hfirst.append hrest).append (.cons (sustains_assign a.target hresult) (.nil _))

theorem leads_statement (st : Statement) : Leads [] st.actions [] := by
  cases st with
  | assignment a => exact (leads_assignment a).append (.cons sustains_finish (.nil _))
  | loop left op right body =>
    have condition : Leads [] [.loopBegin, .operand left.operand, .operator (.comparison op),
        .operand right.operand, .compare, .branch] [] :=
      .cons sustains_loopBegin <| .cons (sustains_pushValue left) <|
        .cons (sustains_pushOperator _) <| .cons (sustains_pushValue right) <|
        .cons (sustains_compare left.register?_operand right.register?_operand) <|
        .cons sustains_branch (.nil _)
    exact (condition.append (leads_assignment body)).append
      (.cons sustains_loopEnd (.cons sustains_finish (.nil _)))

end Generate

/-! ## The translator -/

namespace Translator

variable {t : Translator}

/-- What reading one more statement asks for. -/
def asked (t : Translator) : List Action :=
  match Read.statement { cursor := t.cursor } with
  | .ok _ r => r.actions
  | .error _ r => r.actions

/-- A call carries out what reading asks for. Where that does not fail, the call fails for a token
that does not fit or not at all. -/
theorem statement_carries_out (t : Translator) :
    match Generate.actions t.asked t.generator with
    | .ok () g => t.statement.2.generator = g ∧ t.statement.1 ≠ .error .registersExhausted
    | .error e g => t.statement.2.generator = g ∧ t.statement.1 = .error e := by
  unfold asked statement
  rcases Read.statement { cursor := t.cursor } with ⟨_, r⟩ | ⟨_, r⟩ <;>
    · dsimp only [Reading.actions]
      cases hx : Generate.actions (r.steps.toList.filterMap Step.action?) t.generator with
      | ok _ g =>
        obtain ⟨t', hf, rfl⟩ := follow_of_ok hx
        rw [hf]
        exact ⟨rfl, nofun⟩
      | error e g =>
        obtain ⟨t', hf, rfl⟩ := follow_of_error hx
        rw [hf]
        exact ⟨rfl, rfl⟩

theorem leads_asked (t : Translator) : ∃ os, Generate.Leads [] t.asked os := by
  have hasks := Read.statement_asks t.cursor
  unfold asked
  cases h : Read.statement { cursor := t.cursor } <;>
    · rw [h] at hasks
      obtain ⟨st, hfront⟩ := hasks
      exact (Generate.leads_statement st).of_beginning hfront

/-- Nothing waits, and code and registers are within bounds. -/
structure Rested (t : Translator) : Prop where
  keeps : t.generator.Keeps t.code.toList (.waiting [])
  modest : ∀ i ∈ t.code.toList, i.Modest

theorem rested_ofRecords (records : List Record) (capacity : Nat) :
    (ofRecords records capacity).Rested where
  keeps := ⟨rfl, rfl, Nat.le_refl 0, Nat.zero_le 2, [], rfl, ⟨nofun, readsWritten_nil⟩, nofun⟩
  modest := nofun

theorem statement_bounded (ht : t.Rested) :
    t.statement.1 ≠ .error .registersExhausted ∧ t.statement.2.generator.Bounded t.code.toList := by
  obtain ⟨os, hleads⟩ := leads_asked t
  have hcall := statement_carries_out t
  have hbounds := hleads.sustains _ _ ht.keeps
  split at hcall <;> rename_i hx <;> rw [hx] at hbounds <;> obtain ⟨rfl, hresult⟩ := hcall
  · exact ⟨hresult, hbounds.2.bounded⟩
  · rw [hresult]
    exact ⟨fun h => hbounds.1 (Except.error.inj h), hbounds.2⟩

theorem rested_statement {t' : Translator} (ht : t.Rested)
    (h : t.statement = (.ok .statement, t')) : t'.Rested := by
  obtain ⟨r, hr, -, hx⟩ := read_of_statement h
  obtain ⟨st, htook⟩ := Read.statement_ok hr
  have hacts : r.steps.toList.filterMap Step.action? = st.actions := htook.actions
  rw [hacts] at hx
  have hsteps := (Generate.leads_statement st).sustains _ _ ht.keeps
  rw [hx] at hsteps
  obtain ⟨-, hkeeps⟩ := hsteps
  constructor
  · exact { hkeeps with code := ⟨[], by simp [Translator.code], ⟨nofun, readsWritten_nil⟩, nofun⟩ }
  · exact hkeeps.bounded.modest ht.modest

/-- What each translated statement keeps holds as long as statements are translated. -/
theorem after_of_statements {P : Translator → Prop} {calls : Nat}
    (h : ∀ i < calls, (t.after i).statement.1 = .ok .statement) (ht : P t)
    (hstep : ∀ {t t' : Translator}, P t → t.statement = (.ok .statement, t') → P t') :
    P (t.after calls) := by
  induction calls with
  | zero => exact ht
  | succ calls ih =>
    rw [after_succ]
    refine hstep (ih fun i hi => h i (Nat.lt_succ_of_lt hi)) ?_
    exact Prod.ext (h calls (Nat.lt_succ_self calls)) rfl

/-- A run is its calls, up to the first that finds no statement. -/
theorem run_eq_after (t : Translator) (count : Nat) :
    ∃ calls, (∀ i < calls, (t.after i).statement.1 = .ok .statement) ∧
      (t.after calls).statement.1 ≠ .ok .statement ∧
      (t.run count).2.generator = (t.after (calls + 1)).generator ∧
      ∀ e, (t.run count).1 = .error e → (t.after calls).statement.1 = .error e := by
  fun_induction Translator.run t count with
  | case1 t count t' h ih =>
    obtain ⟨calls, hfound, hlast, hgenerator, herror⟩ := ih
    have hafter (i : Nat) : t.after (i + 1) = t'.after i := by rw [after, h]
    refine ⟨calls + 1, fun i hi => ?_, ?_⟩
    · cases i with
      | zero => rw [after, h]
      | succ i =>
        rw [hafter]
        exact hfound i (Nat.lt_of_succ_lt_succ hi)
    · rw [hafter, hafter]
      exact ⟨hlast, hgenerator, herror⟩
  | case2 t count t' h =>
    refine ⟨0, fun i hi => absurd hi i.not_lt_zero, ?_, ?_, fun e he => by cases he⟩
    · rw [after, h]
      rintro ⟨⟩
    · rw [after, h]
      rfl
  | case3 t count e t' h =>
    refine ⟨0, fun i hi => absurd hi i.not_lt_zero, ?_, ?_, fun e' he => ?_⟩
    · rw [after, h]
      rintro ⟨⟩
    · rw [after, h]
      rfl
    · rw [after, h]
      exact congrArg Except.error (Except.error.inj he)

end Translator

/-- Whatever is translated, and with however much room: beside the accumulator two registers are in
use at most, none is ever missing, and no instruction names edx or has operands that do not fit.
Every call up to the one that ends the run adds code in which each register is written before it is
read. -/
theorem translate_needs_two_registers (records : List Record) (capacity : Nat) :
    let start := Translator.ofRecords records capacity
    let last := (start.run 0).2
    translate records capacity ≠ .error .registersExhausted ∧
    last.generator.registers.generalInUse ≤ last.generator.pressure ∧
    last.generator.pressure ≤ 2 ∧
    (∀ i ∈ last.code.toList, i.Fitting ∧ .edx ∉ i.named) ∧
    ∃ calls, (∀ i < calls, (start.after i).statement.1 = .ok .statement) ∧
      (start.after calls).statement.1 ≠ .ok .statement ∧
      last.generator = (start.after (calls + 1)).generator ∧
      ∀ i ≤ calls, ∃ piece,
        (start.after (i + 1)).code.toList = (start.after i).code.toList ++ piece ∧
        ReadsWritten piece := by
  intro start last
  obtain ⟨calls, hfound, hlast, hgenerator, herror⟩ := start.run_eq_after 0
  have hrested (i : Nat) (hi : i ≤ calls) : (start.after i).Rested :=
    Translator.after_of_statements (fun j hj => hfound j (Nat.lt_of_lt_of_le hj hi))
      (Translator.rested_ofRecords records capacity) Translator.rested_statement
  have hbounded (i : Nat) (hi : i ≤ calls) :
      (start.after (i + 1)).generator.Bounded (start.after i).code.toList := by
    rw [Translator.after_succ]
    exact (Translator.statement_bounded (hrested i hi)).2
  have hend : last.generator.Bounded (start.after calls).code.toList :=
    hgenerator ▸ hbounded calls (Nat.le_refl calls)
  refine ⟨?_, hend.inUse, hend.pressure, ?_, calls, hfound, hlast, hgenerator, ?_⟩
  · intro h
    exact (Translator.statement_bounded (hrested calls (Nat.le_refl calls))).1 (herror _ h)
  · exact hend.modest (hrested calls (Nat.le_refl calls)).modest
  · intro i hi
    obtain ⟨piece, hcode, hproper⟩ := (hbounded i hi).code
    exact ⟨piece, hcode, hproper.readsWritten⟩

end LoopAsm
