/-
What code without jumps does, wherever it stands. `Through` runs a block from its start to its
end inside any other code, and blocks compose. A product leaves its value in its register and
changes no other register but the accumulator; so the left side of a sum, which waits in a
register or in a variable, still has its value when the right side is done.
-/
import LoopAsm.Meaning.Machine
import LoopAsm.Proofs.Translate.Emission

namespace LoopAsm

variable {m : Arithmetic} {s s' s'' : MachineState} {left right : Operand} {r : Register}

/-! ## Machine states -/

namespace MachineState

@[simp] theorem advance_registers : s.advance.registers = s.registers := rfl

@[simp] theorem advance_store : s.advance.store = s.store := rfl

@[simp] theorem setRegister_registers (r q : Register) (v : Int) :
    (s.setRegister r v).registers q = if q = r then v else s.registers q := rfl

@[simp] theorem setRegister_store (r : Register) (v : Int) :
    (s.setRegister r v).store = s.store := rfl

@[simp] theorem assign_register (r : Register) (v : Int) :
    s.assign (.register r) v = s.setRegister r v := rfl

@[simp] theorem assign_ident_store (name : String) (v : Int) :
    (s.assign (.ident name) v).store = s.store.set name v := rfl

@[simp] theorem value_register (r : Register) : s.value m (.register r) = s.registers r := rfl

@[simp] theorem value_ident (name : String) : s.value m (.ident name) = s.store name := rfl

@[simp] theorem value_int (text : String) : s.value m (.int text) = m.literal text := rfl

@[simp] theorem value_advance (o : Operand) : s.advance.value m o = s.value m o := by
  cases o <;> rfl

theorem value_setRegister {o : Operand} (h : o ≠ .register r) (v : Int) :
    (s.setRegister r v).value m o = s.value m o := by
  cases o with
  | register q => exact if_neg (by simpa using h)
  | ident name => rfl
  | int text => rfl

end MachineState

/-! ## Blocks -/

variable (m) in
/-- A block leads from its start to its end, whatever code is around it. -/
def Through (block : List Instr) (s s' : MachineState) : Prop :=
  ∀ pre post : List Instr, s.position = pre.length →
    Reaches m (pre ++ (block ++ post)) s s' ∧ s'.position = (pre ++ block).length

theorem Through.nil (s : MachineState) : Through m [] s s :=
  fun pre _ h => ⟨.refl s, by rw [List.append_nil, h]⟩

theorem Through.append {a b : List Instr} (ha : Through m a s s') (hb : Through m b s' s'') :
    Through m (a ++ b) s s'' := by
  intro pre post h
  -- To the first block the second is code that follows, and to the second the first code before.
  obtain ⟨hreach, hpos⟩ := ha pre (b ++ post) h
  obtain ⟨hreach', hpos'⟩ := hb (pre ++ a) post hpos
  rw [List.append_assoc a, ← List.append_assoc pre a b]
  rw [List.append_assoc pre a] at hreach'
  exact ⟨hreach.trans m hreach', hpos'⟩

theorem step_of_mem {pre post : List Instr} {i : Instr} (h : s.position = pre.length) :
    s.step m (pre ++ i :: post) = i.run m (pre ++ i :: post) s := by
  simp [MachineState.step, h]

theorem Through.instr {i : Instr} (hi : ∀ code, i.run m code s = some s'.advance)
    (hpos : s'.position = s.position) : Through m [i] s s'.advance := by
  intro pre post h
  refine ⟨.step ((step_of_mem h).trans (hi _)) (.refl _), ?_⟩
  simp [MachineState.advance, hpos, h]

theorem Through.mov (dst src : Operand) :
    Through m [.mov dst src] s (s.assign dst (s.value m src)).advance :=
  .instr (fun _ => rfl) (by cases dst <;> rfl)

theorem Through.multiplicative (op : MulOp) (src : Operand) :
    Through m [op.instr src] s
      (s.setRegister .eax (op.eval m (s.registers .eax) (s.value m src))).advance := by
  cases op <;> exact .instr (fun _ => rfl) rfl

theorem Through.additive (op : AddOp) (r : Register) (src : Operand) :
    Through m [op.instr r src] s
      (s.setRegister r (op.eval m (s.registers r) (s.value m src))).advance := by
  cases op <;> exact .instr (fun _ => rfl) rfl

/-! ## What a block leaves alone -/

/-- Variables are kept, and registers other than the accumulator and `r`. -/
structure KeepsBut (r : Register) (s s' : MachineState) : Prop where
  store : s'.store = s.store
  registers : ∀ q, q ≠ .eax → q ≠ r → s'.registers q = s.registers q

theorem KeepsBut.refl (r : Register) (s : MachineState) : KeepsBut r s s :=
  ⟨rfl, fun _ _ _ => rfl⟩

theorem KeepsBut.trans (h : KeepsBut r s s') (h' : KeepsBut r s' s'') : KeepsBut r s s'' :=
  ⟨h'.store.trans h.store, fun q hq hr => (h'.registers q hq hr).trans (h.registers q hq hr)⟩

theorem KeepsBut.value (h : KeepsBut r s s') (hl : left ≠ .register .eax)
    (hr : left ≠ .register r) : s'.value m left = s.value m left := by
  cases left with
  | register q => exact h.registers q (by simpa using hl) (by simpa using hr)
  | ident name => exact congrFun h.store name
  | int text => rfl

theorem value_operand (v : Value) : s.value m v.operand = v.eval m s.store := by
  cases v <;> rfl

/-! ## Products -/

theorem through_productCode (left : Operand) (op : MulOp) (v : Value) (hr : r ≠ .eax)
    (s : MachineState) :
    ∃ s', Through m (productCode r left op v) s s' ∧
      s'.registers r = op.eval m (s.value m left) (v.eval m s.store) ∧ KeepsBut r s s' := by
  cases v with
  | var name =>
    refine ⟨_, (Through.mov (.register .eax) left).append
      ((Through.multiplicative op (.ident name)).append
        (Through.mov (.register r) (.register .eax))), ?_, rfl, fun q hq hqr => ?_⟩
    · simp [Value.eval]
    · simp [hq, hqr]
  | int text =>
    refine ⟨_, (Through.mov (.register .eax) left).append
      ((Through.mov (.register r) (.int text)).append
        ((Through.multiplicative op (.register r)).append
          (Through.mov (.register r) (.register .eax)))), ?_, rfl, fun q hq hqr => ?_⟩
    · simp [Value.eval, hr.symm]
    · simp [hq, hqr]

theorem through_productLinksCode (left : Operand) (links : List (MulOp × Value)) (hr : r ≠ .eax)
    (s : MachineState) :
    ∃ s', Through m (productLinksCode r left links) s s' ∧
      s'.value m (if links.isEmpty then left else .register r) =
        links.foldl (fun x (op, v) => op.eval m x (v.eval m s.store)) (s.value m left) ∧
      KeepsBut r s s' := by
  induction links generalizing left s with
  | nil => exact ⟨s, .nil s, rfl, .refl r s⟩
  | cons link links ih =>
    obtain ⟨op, v⟩ := link
    obtain ⟨s₁, hthrough, hvalue, hkeep⟩ := through_productCode (m := m) left op v hr s
    obtain ⟨s₂, hthrough', hvalue', hkeep'⟩ := ih (.register r) s₁
    refine ⟨s₂, hthrough.append hthrough', ?_, hkeep.trans hkeep'⟩
    rw [hkeep.store, show s₁.value m (.register r) = _ from hvalue, ite_self] at hvalue'
    exact hvalue'

/-- A product leaves its value where its result is. -/
theorem through_term (t : Term) (hr : r ≠ .eax) (s : MachineState) :
    ∃ s', Through m (t.code r) s s' ∧ s'.value m (t.operand r) = t.eval m s.store ∧
      KeepsBut r s s' := by
  obtain ⟨s', hthrough, hvalue, hkeep⟩ := through_productLinksCode (m := m) t.first.operand t.rest hr s
  rw [value_operand] at hvalue
  exact ⟨s', hthrough, hvalue, hkeep⟩

/-! ## Sums -/

theorem through_sumCode (left right : Operand) (op : AddOp) (s : MachineState) :
    ∃ s', Through m (sumCode left right op) s s' ∧
      s'.registers (sumRegister left right) = op.eval m (s.value m left) (s.value m right) ∧
      s'.store = s.store := by
  cases hl : left.register? with
  | some q =>
    obtain rfl : left = .register q := Generate.eq_register hl
    exact ⟨_, Through.additive op q right, by simp [sumRegister, Operand.register?], rfl⟩
  | none =>
    -- The left side is loaded into a register that the right side does not wait in.
    have hreg : sumRegister left right = spare right.register? := by simp [sumRegister, hl]
    have hcode : sumCode left right op = [.mov (.register (spare right.register?)) left]
        ++ [op.instr (spare right.register?) right] := by simp [sumCode, hreg, hl]
    rw [hcode, hreg]
    refine ⟨_, (Through.mov _ left).append (Through.additive op _ right), ?_, rfl⟩
    simp [MachineState.value_setRegister (ne_spare right)]

theorem through_sumLinksCode (left : Operand) (links : List (AddOp × Term))
    (hl : left ≠ .register .eax) (s : MachineState) :
    ∃ s', Through m (sumLinksCode left links) s s' ∧
      s'.value m (sumOperand left links) =
        links.foldl (fun x (op, t) => op.eval m x (t.eval m s.store)) (s.value m left) ∧
      s'.store = s.store := by
  induction links generalizing left s with
  | nil => exact ⟨s, .nil s, rfl, rfl⟩
  | cons link links ih =>
    obtain ⟨op, t⟩ := link
    obtain ⟨s₁, hthrough₁, hvalue₁, hkeep⟩ := through_term (m := m) t (spare_ne_eax left.register?) s
    obtain ⟨s₂, hthrough₂, hvalue₂, hstore₂⟩ :=
      through_sumCode (m := m) left (t.operand (spare left.register?)) op s₁
    obtain ⟨s₃, hthrough₃, hvalue₃, hstore₃⟩ :=
      ih (.register (sumRegister left (t.operand (spare left.register?))))
        (by simpa using sumRegister_ne_eax _ hl) s₂
    -- The left side kept its value while the term was computed next to it.
    rw [hvalue₁, hkeep.value hl (ne_spare left)] at hvalue₂
    have hstore := hstore₂.trans hkeep.store
    refine ⟨s₃, (hthrough₁.append hthrough₂).append hthrough₃, ?_, hstore₃.trans hstore⟩
    rw [hstore, show s₂.value m (.register _) = _ from hvalue₂] at hvalue₃
    exact hvalue₃

/-- A sum leaves its value where its result is. -/
theorem through_expr (e : Expr) (s : MachineState) :
    ∃ s', Through m e.code s s' ∧ s'.value m e.operand = e.eval m s.store ∧
      s'.store = s.store := by
  obtain ⟨s₁, hthrough, hvalue, hkeep⟩ := through_term (m := m) (r := .ebx) e.first (by decide) s
  obtain ⟨s₂, hthrough', hvalue', hstore⟩ :=
    through_sumLinksCode (m := m) (e.first.operand .ebx) e.rest (e.first.operand_ne_eax (by decide)) s₁
  rw [hvalue, hkeep.store] at hvalue'
  exact ⟨s₂, hthrough.append hthrough', hvalue', hstore.trans hkeep.store⟩

theorem through_assignment (a : Assignment) (s : MachineState) :
    ∃ s', Through m a.code s s' ∧ s'.store = a.run m s.store := by
  obtain ⟨s', hthrough, hvalue, hstore⟩ := through_expr (m := m) a.value s
  refine ⟨_, hthrough.append (Through.mov (.ident a.target) a.value.operand), ?_⟩
  rw [MachineState.advance_store, MachineState.assign_ident_store, hvalue, hstore, Assignment.run]

end LoopAsm
