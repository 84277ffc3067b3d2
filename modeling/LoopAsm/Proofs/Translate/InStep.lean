/-
The registers in use are those of the operands that wait: a register is in use as long as one
operand on the stack is in it, none is in two of them, and the accumulator is in none. Inside an
operation this does not hold. The operands that were taken from the stack, the accumulator and the
register of the result are in hand then, and what is in use is on the stack or in hand, once. At the
end of each operation nothing is in hand any more. So the two stay in step wherever a production of
the grammar begins, and wherever one ends well; and then it has done to the stacks what it is for.
-/
import LoopAsm.Proofs.Grammar.Productions
import LoopAsm.Proofs.Grammar.Uniform
import LoopAsm.Proofs.Translate.Ownership
import LoopAsm.Proofs.Translate.Pressure

namespace LoopAsm

/-- The registers in use are those of the operands that wait. -/
structure Generator.InStep (g : Generator) : Prop where
  busy_iff : ∀ r, g.registers.contains r = true ↔ .register r ∈ g.operands.items
  once : ∀ r, g.operands.items.count (.register r) ≤ 1
  accumulator : .register .eax ∉ g.operands.items

/-- What waits on the stacks, the top first, and the registers in hand. -/
structure Holding where
  operands : List Operand
  operators : List Operator
  hand : List Register

/-- A register is in use if it is of an operand that waits or in hand, and for one of these reasons
only. -/
structure Generator.Holds (g : Generator) (s : Holding) : Prop where
  operands : g.operands.items = s.operands
  operators : g.operators.items = s.operators
  registers : ∀ r, s.operands.count (.register r) + s.hand.count r =
    (g.registers.contains r).toNat

namespace Generator.Holds

open Generate

variable {g g' : Generator} {os : List Operand} {ops : List Operator} {l l' : List Register}
  {o left right : Operand} {op : Operator} {r : Register}

/-! ## Stacks and registers -/

/-- The order of the registers in hand does not matter. -/
theorem perm (h : g.Holds ⟨os, ops, l⟩) (hl : l.Perm l') : g.Holds ⟨os, ops, l'⟩ where
  operands := h.operands
  operators := h.operators
  registers r := by
    rw [← h.registers r]
    exact congrArg _ (hl.count_eq r).symm

theorem of_frames {x : Generate Unit} (h : g.Holds ⟨os, ops, l⟩) (hframes : Frames x)
    (hx : x g = .ok () g') : g'.Holds ⟨os, ops, l⟩ := by
  obtain ⟨hopd, hopr, hreg⟩ := hframes g () g' hx
  constructor
  · rw [hopd]
    exact h.operands
  · rw [hopr]
    exact h.operators
  · rw [hreg]
    exact h.registers

theorem emit {i : Instr} (h : g.Holds ⟨os, ops, l⟩) (hx : Generate.emit i g = .ok () g') :
    g'.Holds ⟨os, ops, l⟩ :=
  h.of_frames (frames_emit i) hx

theorem popOperand (h : g.Holds ⟨os, ops, l⟩) (hx : Generate.popOperand g = .ok o g') :
    ∃ os', os = o :: os' ∧ g'.Holds ⟨os', ops, o.register?.toList ++ l⟩ := by
  unfold Generate.popOperand at hx
  split at hx
  · rename_i o' operands hpop
    obtain ⟨hitems, -⟩ := Stack.pop_eq_ok_iff.1 hpop
    cases hx
    have hos : os = o :: operands.items := h.operands.symm.trans hitems
    refine ⟨operands.items, hos, rfl, h.operators, fun r => ?_⟩
    have hr := h.registers r
    dsimp only at hr ⊢
    rw [hos, count_register_cons] at hr
    rw [List.count_append]
    omega
  · cases hx

theorem pushOperand (h : g.Holds ⟨os, ops, o.register?.toList ++ l⟩)
    (hx : Generate.pushOperand o g = .ok () g') : g'.Holds ⟨o :: os, ops, l⟩ := by
  unfold Generate.pushOperand at hx
  split at hx
  · rename_i operands hpush
    obtain ⟨-, hitems, -⟩ := Stack.push_eq_ok_iff.1 hpush
    cases hx
    refine ⟨hitems.trans (congrArg (o :: ·) h.operands), h.operators, fun r => ?_⟩
    have hr := h.registers r
    dsimp only at hr ⊢
    rw [List.count_append] at hr
    rw [count_register_cons]
    omega
  · cases hx

theorem popOperator (h : g.Holds ⟨os, ops, l⟩) (hx : Generate.popOperator g = .ok op g') :
    ∃ ops', ops = op :: ops' ∧ g'.Holds ⟨os, ops', l⟩ := by
  unfold Generate.popOperator at hx
  split at hx
  · rename_i op' operators hpop
    obtain ⟨hitems, -⟩ := Stack.pop_eq_ok_iff.1 hpop
    cases hx
    exact ⟨operators.items, h.operators.symm.trans hitems, h.operands, rfl, h.registers⟩
  · cases hx

theorem pushOperator (h : g.Holds ⟨os, ops, l⟩) (hx : Generate.pushOperator op g = .ok () g') :
    g'.Holds ⟨os, op :: ops, l⟩ := by
  unfold Generate.pushOperator at hx
  split at hx
  · rename_i operators hpush
    obtain ⟨-, hitems, -⟩ := Stack.push_eq_ok_iff.1 hpush
    cases hx
    exact ⟨h.operands, hitems.trans (congrArg (op :: ·) h.operators), h.registers⟩
  · cases hx

/-- A free register that is put to use is in hand. -/
theorem insert (h : g.Holds ⟨os, ops, l⟩) (hr : g.registers.vacant r = true) (pressure : Nat) :
    Generator.Holds { g with registers := g.registers.insert r, pressure } ⟨os, ops, r :: l⟩ := by
  refine ⟨h.operands, h.operators, fun q => ?_⟩
  have hq := h.registers q
  dsimp only at hq ⊢
  rw [List.count_cons, RegisterTable.contains_insert]
  by_cases hqr : q = r
  · subst hqr
    have hfree : g.registers.contains q = false := by simpa [RegisterTable.vacant] using hr
    rw [hfree] at hq
    simp only [beq_self_eq_true, if_true, decide_true, Bool.true_or, Bool.toNat_true]
    simp only [Bool.toNat_false] at hq
    omega
  · simpa [hqr, Ne.symm hqr] using hq

theorem allocate (h : g.Holds ⟨os, ops, l⟩) (hx : Generate.allocate g = .ok r g') :
    r ≠ .eax ∧ g'.Holds ⟨os, ops, r :: l⟩ := by
  unfold Generate.allocate RegisterTable.allocate? at hx
  cases hfind : Register.general.find? g.registers.vacant with
  | none =>
    rw [hfind] at hx
    cases hx
  | some q =>
    rw [hfind] at hx
    cases hx
    exact ⟨ne_eax_of_find? hfind, h.insert (List.find?_some hfind) _⟩

theorem allocateAccumulator (h : g.Holds ⟨os, ops, l⟩)
    (hx : Generate.allocateAccumulator g = .ok () g') : g'.Holds ⟨os, ops, .eax :: l⟩ := by
  unfold Generate.allocateAccumulator RegisterTable.allocateAccumulator? at hx
  by_cases hv : g.registers.vacant .eax = true
  · rw [if_pos hv] at hx
    cases hx
    exact h.insert hv g.pressure
  · rw [if_neg hv] at hx
    cases hx

/-- A register in hand is in use for that reason only, so it is free once it is given back. -/
theorem free (h : g.Holds ⟨os, ops, r :: l⟩) (hx : Generate.free r g = .ok () g') :
    g'.Holds ⟨os, ops, l⟩ := by
  cases hx
  refine ⟨h.operands, h.operators, fun q => ?_⟩
  have hq := h.registers q
  have hle := Bool.toNat_le (g.registers.contains q)
  dsimp only at hq ⊢
  rw [List.count_cons] at hq
  rw [RegisterTable.contains_free]
  by_cases hqr : q = r
  · subst hqr
    simp only [beq_self_eq_true, if_true] at hq
    simp only [decide_true, Bool.not_true, Bool.false_and, Bool.toNat_false]
    omega
  · simpa [hqr, Ne.symm hqr] using hq

theorem release (h : g.Holds ⟨os, ops, o.register?.toList ++ l⟩)
    (hx : Generate.release o g = .ok () g') : g'.Holds ⟨os, ops, l⟩ := by
  unfold Generate.release at hx
  cases ho : o.register? with
  | none =>
    rw [ho] at hx h
    cases hx
    exact h
  | some r =>
    rw [ho] at hx h
    exact h.free hx

theorem load (h : g.Holds ⟨os, ops, l⟩) (hx : Generate.load o g = .ok r g') :
    r ≠ .eax ∧ g'.Holds ⟨os, ops, r :: l⟩ := by
  obtain ⟨q, g₁, h₁, hx⟩ := bind_eq_ok hx
  obtain ⟨_, g₂, h₂, hx⟩ := bind_eq_ok hx
  obtain ⟨hq, h⟩ := h.allocate h₁
  cases hx
  exact ⟨hq, h.emit h₂⟩

/-! ## Parts of operations -/

theorem sumIn (h : g.Holds ⟨os, ops, left.register?.toList ++ l⟩) (hleft : left ≠ .register .eax)
    (hx : Generate.sumIn left g = .ok r g') : r ≠ .eax ∧ g'.Holds ⟨os, ops, r :: l⟩ := by
  unfold Generate.sumIn at hx
  cases hl : left.register? with
  | none =>
    rw [hl] at hx h
    exact h.load hx
  | some q =>
    rw [hl] at hx h
    cases hx
    refine ⟨?_, h⟩
    rintro rfl
    exact hleft (eq_register hl)

theorem additive (h : g.Holds ⟨os, ops, l⟩) (hx : Generate.additive op r right g = .ok () g') :
    g'.Holds ⟨os, ops, l⟩ := by
  unfold Generate.additive at hx
  split at hx
  · exact h.emit hx
  · exact h.emit hx
  · cases hx

/-- The accumulator is in hand afterwards, and `left` is not, unless it is the accumulator. -/
theorem takeAccumulator (h : g.Holds ⟨os, ops, left.register?.toList ++ l⟩)
    (hx : Generate.takeAccumulator left g = .ok () g') : g'.Holds ⟨os, ops, .eax :: l⟩ := by
  unfold Generate.takeAccumulator at hx
  split at hx
  · obtain ⟨_, g₁, h₁, hx⟩ := bind_eq_ok hx
    obtain ⟨_, g₂, h₂, hx⟩ := bind_eq_ok hx
    have hboth := (h.allocateAccumulator h₁).perm List.perm_middle.symm
    exact (hboth.release h₂).emit hx
  · rename_i heax
    rw [not_not.1 heax] at h
    cases hx
    exact h

theorem multiplier (h : g.Holds ⟨os, ops, right.register?.toList ++ l⟩)
    (hx : Generate.multiplier right g = .ok o g') :
    g'.Holds ⟨os, ops, o.register?.toList ++ l⟩ := by
  unfold Generate.multiplier at hx
  split at hx
  · rename_i himmediate
    rw [register?_of_isImmediate himmediate] at h
    obtain ⟨r, g₁, h₁, hx⟩ := bind_eq_ok hx
    cases hx
    exact (h.load h₁).2
  · cases hx
    exact h

theorem multiplicative (h : g.Holds ⟨os, ops, l⟩)
    (hx : Generate.multiplicative op right g = .ok () g') : g'.Holds ⟨os, ops, l⟩ := by
  unfold Generate.multiplicative at hx
  split at hx
  · exact h.emit hx
  · exact h.emit hx
  · cases hx

theorem moveOut (h : g.Holds ⟨os, ops, .eax :: l⟩) (hx : Generate.moveOut g = .ok () g') :
    ∃ r, r ≠ .eax ∧ g'.Holds ⟨.register r :: os, ops, l⟩ := by
  obtain ⟨r, g₁, h₁, hx⟩ := bind_eq_ok hx
  obtain ⟨_, g₂, h₂, hx⟩ := bind_eq_ok hx
  obtain ⟨hr, h⟩ := h.load h₁
  have hresult : g₂.Holds ⟨os, ops, r :: l⟩ := (h.perm (List.Perm.swap _ _ _)).free h₂
  exact ⟨r, hr, hresult.pushOperand hx⟩

end Generator.Holds

/-! ## Between two operations -/

/-- Between two operations nothing is in hand, and no operand is in the accumulator. -/
structure Generator.Tidy (g : Generator) (os : List Operand) (ops : List Operator) : Prop where
  holds : g.Holds ⟨os, ops, []⟩
  accumulator : .register .eax ∉ os

theorem Generator.Tidy.inStep {g : Generator} {os : List Operand} {ops : List Operator}
    (h : g.Tidy os ops) : g.InStep := by
  have hcount (r : Register) :
      g.operands.items.count (.register r) = (g.registers.contains r).toNat := by
    rw [h.holds.operands, ← h.holds.registers r]
    rfl
  constructor
  · intro r
    rw [← List.count_pos_iff, hcount]
    cases g.registers.contains r <;> simp
  · intro r
    rw [hcount]
    exact Bool.toNat_le _
  · rw [h.holds.operands]
    exact h.accumulator

theorem Generator.InStep.tidy {g : Generator} (h : g.InStep) :
    g.Tidy g.operands.items g.operators.items := by
  refine ⟨⟨rfl, rfl, fun r => ?_⟩, h.accumulator⟩
  have hbusy := h.busy_iff r
  have honce := h.once r
  rw [← List.count_pos_iff] at hbusy
  cases hr : g.registers.contains r <;> rw [hr] at hbusy
  · have hnone : ¬ 0 < g.operands.items.count (.register r) := fun hpos => nomatch hbusy.2 hpos
    simp only [List.count_nil, Bool.toNat_false]
    omega
  · have hsome := hbusy.1 rfl
    simp only [List.count_nil, Bool.toNat_true]
    omega

namespace Generate

variable {g g' : Generator} {os : List Operand} {ops : List Operator} {as bs : List Action}
  {left right : Operand} {op : Operator}

/-- Actions that leave one more operand. -/
def Adds (as : List Action) : Prop :=
  ∀ os ops g g', Generator.Tidy g os ops → actions as g = .ok () g' → ∃ o, g'.Tidy (o :: os) ops

/-- Actions that replace the last operand. -/
def Replaces (as : List Action) : Prop :=
  ∀ o os ops g g', Generator.Tidy g (o :: os) ops → actions as g = .ok () g' →
    ∃ o', g'.Tidy (o' :: os) ops

/-- Actions that leave the stacks as they were. -/
def Restores (as : List Action) : Prop :=
  ∀ os ops g g', Generator.Tidy g os ops → actions as g = .ok () g' → g'.Tidy os ops

/-! ## Actions -/

theorem actions_append_ok (h : actions (as ++ bs) g = .ok () g') :
    ∃ g₁, actions as g = .ok () g₁ ∧ actions bs g₁ = .ok () g' := by
  rw [actions_append] at h
  obtain ⟨_, g₁, has, hbs⟩ := bind_eq_ok h
  exact ⟨g₁, has, hbs⟩

theorem action_of_singleton {a : Action} (h : actions [a] g = .ok () g') :
    action a g = .ok () g' := by
  obtain ⟨_, g₁, ha, h⟩ := bind_eq_ok h
  cases h
  exact ha

theorem tidy_add (h : g.Tidy (right :: left :: os) (op :: ops)) (hx : add g = .ok () g') :
    ∃ o, g'.Tidy (o :: os) ops := by
  obtain ⟨h, heax⟩ := h
  rw [add_eq] at hx
  obtain ⟨_, g₁, h₁, hx⟩ := bind_eq_ok hx
  obtain ⟨_, g₂, h₂, hx⟩ := bind_eq_ok hx
  obtain ⟨_, g₃, h₃, hx⟩ := bind_eq_ok hx
  obtain ⟨r, g₄, h₄, hx⟩ := bind_eq_ok hx
  obtain ⟨_, g₅, h₅, hx⟩ := bind_eq_ok hx
  obtain ⟨_, g₆, h₆, hpush⟩ := bind_eq_ok hx
  obtain ⟨_, ⟨⟩, h⟩ := h.popOperand h₁
  obtain ⟨_, ⟨⟩, h⟩ := h.popOperand h₂
  obtain ⟨_, ⟨⟩, h⟩ := h.popOperator h₃
  have hleft : left ≠ .register .eax := by
    rintro rfl
    exact heax (by simp)
  obtain ⟨hr, h⟩ := h.sumIn hleft h₄
  have hresult := ((h.additive h₅).perm List.perm_middle.symm).release h₆
  refine ⟨.register r, hresult.pushOperand hpush, ?_⟩
  simp only [List.mem_cons, not_or] at heax ⊢
  exact ⟨fun heq => hr (Operand.register.inj heq).symm, heax.2.2⟩

theorem tidy_multiply (h : g.Tidy (right :: left :: os) (op :: ops))
    (hx : multiply g = .ok () g') : ∃ o, g'.Tidy (o :: os) ops := by
  obtain ⟨h, heax⟩ := h
  rw [multiply_eq] at hx
  obtain ⟨_, g₁, h₁, hx⟩ := bind_eq_ok hx
  obtain ⟨_, g₂, h₂, hx⟩ := bind_eq_ok hx
  obtain ⟨_, g₃, h₃, hx⟩ := bind_eq_ok hx
  obtain ⟨_, g₄, h₄, hx⟩ := bind_eq_ok hx
  obtain ⟨multiplier, g₅, h₅, hx⟩ := bind_eq_ok hx
  obtain ⟨_, g₆, h₆, hx⟩ := bind_eq_ok hx
  obtain ⟨_, g₇, h₇, hout⟩ := bind_eq_ok hx
  obtain ⟨_, ⟨⟩, h⟩ := h.popOperand h₁
  obtain ⟨_, ⟨⟩, h⟩ := h.popOperand h₂
  obtain ⟨_, ⟨⟩, h⟩ := h.popOperator h₃
  have hright := (h.takeAccumulator h₄).perm List.perm_middle.symm
  have hproduct := ((hright.multiplier h₅).multiplicative h₆).release h₇
  obtain ⟨r, hr, hresult⟩ := hproduct.moveOut hout
  refine ⟨.register r, hresult, ?_⟩
  simp only [List.mem_cons, not_or] at heax ⊢
  exact ⟨fun heq => hr (Operand.register.inj heq).symm, heax.2.2⟩

theorem tidy_assign {target : String} {o : Operand} (h : g.Tidy (o :: os) ops)
    (hx : assign target g = .ok () g') : g'.Tidy os ops := by
  obtain ⟨h, heax⟩ := h
  obtain ⟨_, g₁, h₁, hx⟩ := bind_eq_ok hx
  obtain ⟨_, g₂, h₂, hx⟩ := bind_eq_ok hx
  obtain ⟨_, ⟨⟩, h⟩ := h.popOperand h₁
  exact ⟨(h.release h₂).emit hx, fun hmem => heax (List.mem_cons_of_mem _ hmem)⟩

/-- A comparison gives no register back, so its sides must be in none. -/
theorem tidy_compare (h : g.Tidy (right :: left :: os) (op :: ops)) (hl : left.register? = none)
    (hr : right.register? = none) (hx : compare g = .ok () g') : g'.Tidy os ops := by
  obtain ⟨h, heax⟩ := h
  obtain ⟨_, g₁, h₁, hx⟩ := bind_eq_ok hx
  obtain ⟨_, g₂, h₂, hx⟩ := bind_eq_ok hx
  obtain ⟨_, g₃, h₃, hx⟩ := bind_eq_ok hx
  obtain ⟨_, g₄, h₄, hcompared⟩ := bind_eq_ok hx
  obtain ⟨_, ⟨⟩, h⟩ := h.popOperand h₁
  obtain ⟨_, ⟨⟩, h⟩ := h.popOperand h₂
  obtain ⟨_, ⟨⟩, h⟩ := h.popOperator h₃
  rw [hl, hr] at h
  refine ⟨(h.emit h₄).of_frames (frames_compared op) hcompared, fun hmem => ?_⟩
  exact heax (List.mem_cons_of_mem _ (List.mem_cons_of_mem _ hmem))

theorem tidy_pushOperator (h : g.Tidy os ops) (hx : pushOperator op g = .ok () g') :
    g'.Tidy os (op :: ops) :=
  ⟨h.holds.pushOperator hx, h.accumulator⟩

theorem restores_of_frames {a : Action} (h : Frames (action a)) : Restores [a] := by
  intro os ops g g' hg hx
  exact ⟨hg.holds.of_frames h (action_of_singleton hx), hg.accumulator⟩

theorem restores_loopBegin : Restores [.loopBegin] :=
  restores_of_frames frames_loopBegin

theorem restores_branch : Restores [.branch] :=
  restores_of_frames frames_branch

theorem restores_loopEnd : Restores [.loopEnd] :=
  restores_of_frames frames_loopEnd

theorem restores_finish : Restores [.finish] := by
  refine restores_of_frames fun g _ g' h => ?_
  obtain ⟨rfl, -⟩ := finish_eq_ok_iff.1 h
  exact ⟨rfl, rfl, rfl⟩

/-! ## Trees -/

theorem restores_nil : Restores [] := by
  intro os ops g g' hg hx
  cases hx
  exact hg

theorem Adds.append (h : Adds as) (h' : Replaces bs) : Adds (as ++ bs) := by
  intro os ops g g' hg hx
  obtain ⟨g₁, has, hbs⟩ := actions_append_ok hx
  obtain ⟨o, hg₁⟩ := h os ops g g₁ hg has
  exact h' o os ops g₁ g' hg₁ hbs

theorem Restores.append (h : Restores as) (h' : Restores bs) : Restores (as ++ bs) := by
  intro os ops g g' hg hx
  obtain ⟨g₁, has, hbs⟩ := actions_append_ok hx
  exact h' os ops g₁ g' (h os ops g g₁ hg has) hbs

theorem replaces_flatMap {γ : Type} {f : γ → List Action} (links : List γ)
    (h : ∀ link, Replaces (f link)) : Replaces (links.flatMap f) := by
  induction links with
  | nil =>
    intro o os ops g g' hg hx
    cases hx
    exact ⟨o, hg⟩
  | cons link links ih =>
    intro o os ops g g' hg hx
    obtain ⟨g₁, hlink, hlinks⟩ := actions_append_ok hx
    obtain ⟨o₁, hg₁⟩ := h link o os ops g g₁ hg hlink
    exact ih o₁ os ops g₁ g' hg₁ hlinks

theorem adds_value (v : Value) : Adds [.operand v.operand] := by
  intro os ops g g' hg hx
  have hpush : pushOperand v.operand g = .ok () g' := action_of_singleton hx
  have hvalue := v.register?_operand
  refine ⟨v.operand, Generator.Holds.pushOperand ?_ hpush, ?_⟩
  · rw [hvalue]
    exact hg.holds
  · simp only [List.mem_cons, not_or]
    exact ⟨(v.operand_ne_register .eax).symm, hg.accumulator⟩

/-- A link of a chain: an operator, its right side, and the operation of both sides. -/
theorem replaces_link {last : Action} (has : Adds as)
    (hlast : ∀ {right left : Operand} {op : Operator} {os : List Operand} {ops : List Operator}
      {g g' : Generator}, g.Tidy (right :: left :: os) (op :: ops) → action last g = .ok () g' →
        ∃ o, g'.Tidy (o :: os) ops) (op : Operator) :
    Replaces (.operator op :: as ++ [last]) := by
  intro o os ops g g' hg hx
  obtain ⟨g₂, hx, h₃⟩ := actions_append_ok hx
  obtain ⟨_, g₁, h₁, h₂⟩ := bind_eq_ok hx
  obtain ⟨right, hg₂⟩ := has _ _ _ _ (tidy_pushOperator hg h₁) h₂
  exact hlast hg₂ (action_of_singleton h₃)

theorem replaces_productLink (link : MulOp × Value) :
    Replaces [.operator (.multiplicative link.1), .operand link.2.operand, .multiply] :=
  replaces_link (adds_value link.2) tidy_multiply (.multiplicative link.1)

theorem adds_term (t : Term) : Adds t.actions :=
  (adds_value t.first).append (replaces_flatMap t.rest replaces_productLink)

theorem replaces_sumLink (link : AddOp × Term) :
    Replaces (.operator (.additive link.1) :: link.2.actions ++ [.add]) :=
  replaces_link (adds_term link.2) tidy_add (.additive link.1)

theorem adds_expr (e : Expr) : Adds e.actions :=
  (adds_term e.first).append (replaces_flatMap e.rest replaces_sumLink)

theorem restores_assignment (a : Assignment) : Restores a.actions := by
  intro os ops g g' hg hx
  obtain ⟨g₁, hvalue, hassign⟩ := actions_append_ok hx
  obtain ⟨o, hg₁⟩ := adds_expr a.value os ops g g₁ hg hvalue
  exact tidy_assign hg₁ (action_of_singleton hassign)

theorem restores_condition (left right : Value) (op : Comparison) :
    Restores [.operand left.operand, .operator (.comparison op), .operand right.operand,
      .compare] := by
  intro os ops g g' hg hx
  obtain ⟨_, g₁, h₁, hx⟩ := bind_eq_ok hx
  obtain ⟨_, g₂, h₂, hx⟩ := bind_eq_ok hx
  obtain ⟨_, g₃, h₃, hx⟩ := bind_eq_ok hx
  have hg₁ : g₁.Holds ⟨left.operand :: os, ops, []⟩ := by
    refine Generator.Holds.pushOperand ?_ h₁
    rw [left.register?_operand]
    exact hg.holds
  have hg₃ : g₃.Holds ⟨right.operand :: left.operand :: os, .comparison op :: ops, []⟩ := by
    refine Generator.Holds.pushOperand ?_ h₃
    rw [right.register?_operand]
    exact hg₁.pushOperator h₂
  refine tidy_compare ⟨hg₃, ?_⟩ left.register?_operand right.register?_operand
    (action_of_singleton hx)
  simp only [List.mem_cons, not_or]
  exact ⟨(right.operand_ne_register .eax).symm, (left.operand_ne_register .eax).symm,
    hg.accumulator⟩

theorem restores_statement (st : Statement) : Restores st.actions := by
  cases st with
  | assignment a => exact (restores_assignment a).append restores_finish
  | loop left op right body =>
    have hguard := restores_loopBegin.append
      ((restores_condition left right op).append restores_branch)
    have hbody := (restores_assignment body).append (restores_loopEnd.append restores_finish)
    have hloop := hguard.append hbody
    simpa [Statement.actions] using hloop

end Generate

/-! ## Productions -/

namespace Production

open Generate

variable {p q : Production} {r r' start : Reading}

/-- What a production has done to the stacks when it ends well. -/
def Effect (p : Production) (g g' : Generator) : Prop :=
  match p with
  | operand | product | sum =>
    (∃ o, g'.operands.items = o :: g.operands.items) ∧ g'.operators.items = g.operators.items
  | productRest | sumRest =>
    (∃ o o' os, g.operands.items = o :: os ∧ g'.operands.items = o' :: os) ∧
      g'.operators.items = g.operators.items
  | comparison =>
    g'.operands.items = g.operands.items ∧ ∃ op, g'.operators.items = op :: g.operators.items
  | condition | assignment | statement =>
    g'.operands.items = g.operands.items ∧ g'.operators.items = g.operators.items

/-- What waits where a production begins: what is left of a product or of a sum has an operand in
front of it. -/
def Ready (p : Production) (os : List Operand) : Prop :=
  match p with
  | productRest | sumRest => ∃ o os', os = o :: os'
  | _ => True

/-- What the actions of a production do. -/
def Does (p : Production) (as : List Action) : Prop :=
  match p with
  | operand | product | sum => Adds as
  | productRest | sumRest => Replaces as
  | comparison => ∃ op, as = [.operator op]
  | condition | assignment | statement => Restores as

/-- A production that ends well has asked for what it does. -/
theorem exists_does (h : p.read r = .ok () r') :
    ∃ words as, Took r r' words as ∧ p.Does as := by
  cases p with
  | statement =>
    obtain ⟨more, r₁, hread, h⟩ := bind_eq_ok h
    cases h
    cases more with
    | true =>
      obtain ⟨st, ht⟩ := Read.statement_ok hread
      exact ⟨_, _, ht, restores_statement st⟩
    | false => exact ⟨_, _, (Read.statement_end hread).2, restores_nil⟩
  | assignment =>
    obtain ⟨a, ht⟩ := Read.assignment_ok h
    exact ⟨_, _, ht, restores_assignment a⟩
  | condition =>
    obtain ⟨left, right, op, ht⟩ := Read.condition_ok h
    exact ⟨_, _, ht, restores_condition left right op⟩
  | comparison =>
    obtain ⟨t, op, ht⟩ := Read.comparison_ok h
    exact ⟨_, _, ht, .comparison op, rfl⟩
  | sum =>
    obtain ⟨e, ht⟩ := Read.sum_ok h
    exact ⟨_, _, ht, adds_expr e⟩
  | sumRest =>
    obtain ⟨links, ht⟩ := Read.sumLinks_ok h
    exact ⟨_, _, ht, replaces_flatMap links replaces_sumLink⟩
  | product =>
    obtain ⟨t, ht⟩ := Read.term_ok h
    exact ⟨_, _, ht, adds_term t⟩
  | productRest =>
    obtain ⟨links, ht⟩ := Read.productLinks_ok h
    exact ⟨_, _, ht, replaces_flatMap links replaces_productLink⟩
  | operand =>
    obtain ⟨v, ht⟩ := Read.operand_ok h
    exact ⟨_, _, ht, adds_value v⟩

theorem Does.effect {as : List Action} {os : List Operand} {ops : List Operator}
    {g g' : Generator} (h : p.Does as) (hready : p.Ready os) (hg : g.Tidy os ops)
    (hx : actions as g = .ok () g') : g'.InStep ∧ p.Effect g g' := by
  unfold Effect
  rw [hg.holds.operands, hg.holds.operators]
  cases p with
  | operand | product | sum =>
    obtain ⟨o, hg'⟩ := h os ops g g' hg hx
    exact ⟨hg'.inStep, ⟨o, hg'.holds.operands⟩, hg'.holds.operators⟩
  | productRest | sumRest =>
    obtain ⟨o, os', rfl⟩ := hready
    obtain ⟨o', hg'⟩ := h o os' ops g g' hg hx
    exact ⟨hg'.inStep, ⟨o, o', os', rfl, hg'.holds.operands⟩, hg'.holds.operators⟩
  | comparison =>
    obtain ⟨op, rfl⟩ := h
    have hg' := tidy_pushOperator hg (action_of_singleton hx)
    exact ⟨hg'.inStep, hg'.holds.operands, op, hg'.holds.operators⟩
  | condition | assignment | statement =>
    have hg' := h os ops g g' hg hx
    exact ⟨hg'.inStep, hg'.holds.operands, hg'.holds.operators⟩

/-- What leads from where one production begins to where another can begin, with nothing in hand. -/
def Prepares (p q : Production) (as : List Action) : Prop :=
  ∀ os ops g g', p.Ready os → Generator.Tidy g os ops → actions as g = .ok () g' →
    ∃ os' ops', q.Ready os' ∧ g'.Tidy os' ops'

section

variable {s : Production} {as bs : List Action}

theorem ready_cons (q : Production) (o : Operand) (os : List Operand) : q.Ready (o :: os) := by
  cases q with
  | productRest | sumRest => exact ⟨o, os, rfl⟩
  | statement | assignment | condition | comparison | sum | product | operand => trivial

theorem prepares_of_restores (h : Restores as) (hq : ∀ os, q.Ready os) : Prepares p q as :=
  fun os ops g g' _ hg hx => ⟨os, ops, hq os, h os ops g g' hg hx⟩

theorem prepares_of_adds (h : Adds as) : Prepares p q as := by
  intro os ops g g' _ hg hx
  obtain ⟨o, hg'⟩ := h os ops g g' hg hx
  exact ⟨o :: os, ops, ready_cons q o os, hg'⟩

theorem prepares_of_replaces (h : Replaces as) (hp : ∀ os, p.Ready os → ∃ o os', os = o :: os') :
    Prepares p q as := by
  intro os ops g g' hos hg hx
  obtain ⟨o, os', rfl⟩ := hp os hos
  obtain ⟨o', hg'⟩ := h o os' ops g g' hg hx
  exact ⟨o' :: os', ops, ready_cons q o' os', hg'⟩

theorem prepares_operator (op : Operator) (hq : ∀ os, q.Ready os) :
    Prepares p q [.operator op] :=
  fun os ops _ _ _ hg hx => ⟨os, op :: ops, hq os, tidy_pushOperator hg (action_of_singleton hx)⟩

theorem Prepares.append (h : Prepares p q as) (h' : Prepares q s bs) :
    Prepares p s (as ++ bs) := by
  intro os ops g g' hos hg hx
  obtain ⟨g₁, has, hbs⟩ := actions_append_ok hx
  obtain ⟨os₁, ops₁, hos₁, hg₁⟩ := h os ops g g₁ hos hg has
  exact h' os₁ ops₁ g₁ g' hos₁ hg₁ hbs

end

/-- A production that another calls is prepared on the way to it. -/
theorem Calls.exists_prepares (h : Calls p r q r') :
    ∃ words as, Took r r' words as ∧ Prepares p q as := by
  cases h with
  | guard hn _ h =>
    have ht := (Read.next_ok hn).trans (Read.opening_ok h)
    exact ⟨_, _, ht, prepares_of_restores restores_loopBegin fun _ => trivial⟩
  | body hn _ h =>
    obtain ⟨_, r₁, hopening, h⟩ := bind_eq_ok h
    obtain ⟨_, r₂, hcondition, h⟩ := bind_eq_ok h
    obtain ⟨_, r₃, hclose, hbranch⟩ := bind_eq_ok h
    obtain ⟨left, right, op, hc⟩ := Read.condition_ok hcondition
    have ht := (((Read.next_ok hn).trans (Read.opening_ok hopening)).trans hc).trans
      ((Read.punctuation_ok hclose).trans (Read.act_ok hbranch))
    have hrestores := (restores_loopBegin.append (restores_condition left right op)).append
      restores_branch
    exact ⟨_, _, ht, prepares_of_restores hrestores fun _ => trivial⟩
  | plain hn _ h =>
    exact ⟨_, _, Read.unget_ok hn h, prepares_of_restores restores_nil fun _ => trivial⟩
  | left | firstProduct | firstOperand =>
    exact ⟨_, _, Took.refl r, prepares_of_restores restores_nil fun _ => trivial⟩
  | comparison h | productRest h =>
    obtain ⟨v, ht⟩ := Read.operand_ok h
    exact ⟨_, _, ht, prepares_of_adds (adds_value v)⟩
  | right h =>
    obtain ⟨_, r₁, hleft, hcomparison⟩ := bind_eq_ok h
    obtain ⟨v, ht⟩ := Read.operand_ok hleft
    obtain ⟨t, op, ht'⟩ := Read.comparison_ok hcomparison
    have hleft : Prepares .condition .comparison _ := prepares_of_adds (adds_value v)
    exact ⟨_, _, ht.trans ht', hleft.append (prepares_operator _ fun _ => trivial)⟩
  | value h =>
    obtain ⟨target, r₁, htarget, hequals⟩ := bind_eq_ok h
    obtain ⟨t, -, ht⟩ := Read.expect_ok htarget
    exact ⟨_, _, ht.trans (Read.punctuation_ok hequals),
      prepares_of_restores restores_nil fun _ => trivial⟩
  | sumRest h =>
    obtain ⟨t, ht⟩ := Read.term_ok h
    exact ⟨_, _, ht, prepares_of_adds (adds_term t)⟩
  | nextProduct ha hp | nextOperand ha hp =>
    rcases Read.accept_ok ha with ⟨t, op, ⟨⟩, -, ht⟩ | ⟨⟨⟩, -⟩
    exact ⟨_, _, ht.trans (Read.act_ok hp), prepares_operator _ fun _ => trivial⟩
  | sumLink h =>
    obtain ⟨link, ht⟩ := Read.link_ok AddOp.ofToken?_eq_some_iff Read.term_ok (Read.sumLink_eq ▸ h)
    exact ⟨_, _, ht, prepares_of_replaces (replaces_sumLink link) fun _ => id⟩
  | productLink h =>
    obtain ⟨link, ht⟩ :=
      Read.link_ok MulOp.ofToken?_eq_some_iff Read.operand_ok (Read.productLink_eq ▸ h)
    exact ⟨_, _, ht, prepares_of_replaces (replaces_productLink link) fun _ => id⟩

end Production

/-! ## The translator -/

namespace Translator

open Generate

variable {t t' : Translator} {r r' : Reading} {g g' : Generator} {p : Production}

/-- Carrying out what was asked for where the reader stands, code generation comes to `g`. -/
def Comes (t : Translator) (r : Reading) (g : Generator) : Prop :=
  ∃ t', t.follow r.steps.toList = (.ok (), t') ∧ t'.generator = g

theorem comes_iff : t.Comes r g ↔ actions r.actions t.generator = .ok () g := by
  have hfollow := follow_actions t r.steps.toList
  constructor
  · rintro ⟨t', hf, rfl⟩
    rw [hf] at hfollow
    split at hfollow
    · rename_i g hx
      exact hx.trans (congrArg _ hfollow.2.symm)
    · cases hfollow.1
  · exact follow_of_ok

/-- What was asked for later is carried out later. -/
theorem comes_of_took {words : Spelling} {as : List Action} (h : Took r r' words as) :
    t.Comes r' g' ↔ ∃ g, t.Comes r g ∧ actions as g = .ok () g' := by
  simp only [comes_iff]
  rw [h.actions]
  constructor
  · exact actions_append_ok
  · rintro ⟨g, hr, hx⟩
    rw [actions_append, bind_of_ok hr]
    exact hx

theorem Comes.unique (h : t.Comes r g) (h' : t.Comes r g') : g = g' := by
  obtain ⟨t₁, hf, rfl⟩ := h
  obtain ⟨t₂, hf', rfl⟩ := h'
  rw [hf] at hf'
  cases hf'
  rfl

/-- Wherever a production begins, nothing is in hand. -/
theorem ready_of_entered (ht : t.generator.InStep)
    (h : Production.Entered { cursor := t.cursor } p r) (hg : t.Comes r g) :
    ∃ os ops, p.Ready os ∧ g.Tidy os ops := by
  induction h generalizing g with
  | statement =>
    obtain ⟨t', hf, rfl⟩ := hg
    cases hf
    exact ⟨_, _, trivial, ht.tidy⟩
  | call _ hcall ih =>
    obtain ⟨words, as, htook, hprepares⟩ := hcall.exists_prepares
    obtain ⟨g₁, hg₁, hx⟩ := (comes_of_took htook).1 hg
    obtain ⟨os, ops, hos, htidy⟩ := ih hg₁
    exact hprepares os ops g₁ g hos htidy hx

theorem inStep_statement (ht : t.generator.InStep) (h : t.statement = (.ok .statement, t')) :
    t'.generator.InStep := by
  obtain ⟨r, hr, -, hx⟩ := read_of_statement h
  obtain ⟨st, htook⟩ := Read.statement_ok hr
  have hacts : r.steps.toList.filterMap Step.action? = st.actions := htook.actions
  rw [hacts] at hx
  exact (restores_statement st _ _ _ _ ht.tidy hx).inStep

theorem inStep_ofRecords (records : List Record) (capacity : Nat) :
    (ofRecords records capacity).generator.InStep where
  busy_iff r := by
    cases r <;> simp [ofRecords, Generator.empty, Stack.empty, RegisterTable.contains]
  once r := Nat.zero_le 1
  accumulator := List.not_mem_nil

end Translator

/-- As long as statements are translated, operand stack and registers are in step wherever reading
the next statement comes to a production and code generation has come so far. Where the production
ends well and code generation comes that far too, they are in step again, and the production has
done to the stacks what it is for, compared with where it began. -/
theorem production_keeps_step (records : List Record) (capacity calls : Nat)
    (h : ∀ i < calls,
      ((Translator.ofRecords records capacity).after i).statement.1 = .ok .statement) :
    let t := (Translator.ofRecords records capacity).after calls
    ∀ p r, Production.Entered { cursor := t.cursor } p r →
      (∃ f : Unit → Read Unit,
        Production.statement.read { cursor := t.cursor } = (p.read >>= f) r) ∧
      ∀ g, t.Comes r g → g.InStep ∧
        ∀ r', p.read r = .ok () r' → ∀ g', t.Comes r' g' → g'.InStep ∧ p.Effect g g' := by
  intro t p r hentered
  refine ⟨hentered.continues, fun g hg => ?_⟩
  have ht : t.generator.InStep :=
    Translator.after_of_statements (P := fun t => t.generator.InStep) h
      (Translator.inStep_ofRecords records capacity) Translator.inStep_statement
  obtain ⟨os, ops, hready, htidy⟩ := Translator.ready_of_entered ht hentered hg
  refine ⟨htidy.inStep, fun r' hread g' hg' => ?_⟩
  obtain ⟨words, as, htook, hdoes⟩ := Production.exists_does hread
  obtain ⟨g₁, hg₁, hx⟩ := (Translator.comes_of_took htook).1 hg'
  obtain rfl := hg.unique hg₁
  exact hdoes.effect hready htidy hx

/-- The sum of the second of two statements, which ends in the first register for general use. -/
theorem production_keeps_step_of_sum :
    let t := (Translator.ofRecords (scan "y = 1; x = a * 2 + b;") 3).after 1
    ∃ r r' g g', Production.Entered { cursor := t.cursor } .sum r ∧ t.Comes r g ∧
      Production.sum.read r = .ok () r' ∧ t.Comes r' g' ∧
      g.InStep ∧ g'.InStep ∧ (∃ o, g'.operands.items = o :: g.operands.items) ∧
      g'.operands.items = [.register .ebx] := by
  intro t
  have hfirst : ∀ i < 1,
      ((Translator.ofRecords (scan "y = 1; x = a * 2 + b;") 3).after i).statement.1 =
        .ok .statement := by decide +kernel
  let e : Expr := ⟨⟨.var "a", [(.times, .int "2")]⟩, [(.plus, ⟨.var "b", []⟩)]⟩
  have hahead : Reading.ahead { cursor := t.cursor } =
      (.identifier, "x") :: Punctuation.equals.word :: (e.spelling ++ [(.semicolon, ";")]) := by
    decide +kernel
  -- The way to the sum: the first word is looked at, the target and the sign are taken.
  obtain ⟨r, hentered, htook⟩ : ∃ r, Production.Entered { cursor := t.cursor } .sum r ∧
      Took { cursor := t.cursor } r [(.identifier, "x"), Punctuation.equals.word] [] := by
    rcases Read.next_took { cursor := t.cursor } with ⟨hnone, -⟩ |
      ⟨word, r₁, hn, ht, r₂, hu, hback⟩
    · rw [hnone] at hahead
      cases hahead
    · have hword : word.spelling = (.identifier, "x") := by
        have hfront := ht.ahead.symm.trans hahead
        exact (List.cons.inj hfront).1
      have hwhile : word.isWhile = false := by
        rw [Bool.eq_false_iff]
        intro hw
        rw [Token.isWhile_iff.1 hw] at hword
        cases hword
      have htarget := hback.rest hahead
      obtain ⟨r₃, hx₃, ht₃⟩ := Read.expect_reads .target variableName? htarget fun t ht =>
        variableName?_eq_some_iff.2 ht
      obtain ⟨r₄, hx₄, ht₄⟩ := Read.punctuation_reads (ht₃.rest htarget)
      refine ⟨r₄, .call (.call .statement (.plain hn hwhile hu)) (.value ?_), ?_⟩
      · rw [bind_of_ok hx₃, hx₄]
      · exact (hback.trans ht₃).trans ht₄
  have hproduct : Read.Free MulOp.spelling [(.semicolon, ";")] :=
    Read.free_semicolon (by rintro ⟨⟩ <;> decide) []
  have hlast : Read.Free AddOp.spelling [(.semicolon, ";")] :=
    Read.free_semicolon (by rintro ⟨⟩ <;> decide) []
  obtain ⟨r', hsum, htook'⟩ := Read.sum_reads e (htook.rest hahead) hproduct hlast
  obtain ⟨g', hg', hitems⟩ : ∃ g', Generate.actions e.actions t.generator = .ok () g' ∧
      g'.operands.items = [.register .ebx] := by
    have hcode : (match Generate.actions e.actions t.generator with
        | .ok _ g' => g'.operands.items == [.register .ebx]
        | .error _ _ => false) = true := by decide +kernel
    split at hcode
    · rename_i g' hx
      exact ⟨g', hx, beq_iff_eq.1 hcode⟩
    · cases hcode
  have hcomes : t.Comes r t.generator :=
    (Translator.comes_of_took htook).2 ⟨_, ⟨t, rfl, rfl⟩, rfl⟩
  have hcomes' : t.Comes r' g' := (Translator.comes_of_took htook').2 ⟨_, hcomes, hg'⟩
  obtain ⟨-, hstep⟩ := production_keeps_step _ 3 1 hfirst .sum r hentered
  obtain ⟨hg, hreturn⟩ := hstep t.generator hcomes
  obtain ⟨hstep', hgain, -⟩ := hreturn r' hsum g' hcomes'
  exact ⟨r, r', t.generator, g', hentered, hcomes, hsum, hcomes', hg, hstep', hgain, hitems⟩

end LoopAsm
