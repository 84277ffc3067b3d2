/-
What a statement owns while its code is generated: the operands and operators that it put on the
stacks, and the registers that it took. Every action gives back as much as it takes over, so a
statement that gets to its end has left the stacks as high as it found them. As the end of a
statement is reached with empty stacks only, it found them empty; and then every register that it
gave back was one that it took, so the registers in use at the start are in use at the end.

This holds of any state of a generator, in particular of one that a failed statement left behind.
-/
import LoopAsm.Proofs.Translate.Emission
import Mathlib.Data.List.Perm.Subperm

namespace LoopAsm

/-- What belongs to a statement: how many operands and operators it has on the stacks, and the
registers in its hands, apart from those of its operands. -/
structure Share where
  operands : Int
  operators : Int
  registers : List Register

/-- A generator has come from `start` to a state in which the given share belongs to the
statement. Where no operand was on the stack at the start, a register that was in use then, that
an operand is in or that is in hand is so for one of these reasons only, and in use. -/
structure Generator.Since (g start : Generator) (s : Share) : Prop where
  operands : (g.operands.items.length : Int) = start.operands.items.length + s.operands
  operators : (g.operators.items.length : Int) = start.operators.items.length + s.operators
  registers : start.operands.items = [] → ∀ r,
    (start.registers.contains r).toNat + g.operands.items.count (.register r)
      + s.registers.count r ≤ (g.registers.contains r).toNat

theorem Generator.since_self (g : Generator) : g.Since g ⟨0, 0, []⟩ :=
  ⟨by simp, by simp, fun h r => by simp [h]⟩

/-- A step of code generation takes over one share and, where it succeeds, hands over another. -/
def Passes {α : Type} (x : Generate α) (s : Share) (s' : α → Share) : Prop :=
  ∀ start g a g', g.Since start s → x g = .ok a g' → g'.Since start (s' a)

namespace Generate

variable {α β : Type} {m n : Int} {l l' : List Register} {s : Share}

theorem passes_pure (a : α) (s : α → Share) : Passes (pure a) (s a) s := by
  rintro start g _ _ hg ⟨⟩
  exact hg

theorem passes_throw (e : Error) {s' : α → Share} : Passes (throw e) s s' :=
  fun _ _ _ _ _ h => nomatch h

theorem passes_bind {x : Generate α} {f : α → Generate β} {s' : α → Share} {s'' : β → Share}
    (hx : Passes x s s') (hf : ∀ a, Passes (f a) (s' a) s'') : Passes (x >>= f) s s'' := by
  intro start g b g'' hg h
  obtain ⟨a, g', hxa, h⟩ := bind_eq_ok h
  exact hf a start g' b g'' (hx start g a g' hg hxa) h

/-- The order of the registers in hand does not matter, and some of them may be left in use. -/
theorem passes_subperm {x : Generate α} {s' : α → Share} (h : l.Subperm l')
    (hx : Passes x ⟨m, n, l⟩ s') : Passes x ⟨m, n, l'⟩ s' := by
  intro start g a g' hg
  refine hx start g a g' { hg with registers := fun h' r => ?_ }
  exact Nat.le_trans (Nat.add_le_add_left (h.count_le r) _) (hg.registers h' r)

/-- Where it succeeds, a step touches neither stacks nor registers. -/
def Frames (x : Generate α) : Prop :=
  ∀ g a g', x g = .ok a g' →
    g'.operands = g.operands ∧ g'.operators = g.operators ∧ g'.registers = g.registers

theorem frames_emit (i : Instr) : Frames (emit i) := by
  rintro g _ _ ⟨⟩
  exact ⟨rfl, rfl, rfl⟩

theorem frames_compared (op : Operator) :
    Frames (modify fun g => { g with compared := some op }) := by
  rintro g _ _ ⟨⟩
  exact ⟨rfl, rfl, rfl⟩

theorem frames_loopBegin : Frames loopBegin := by
  rintro g _ _ ⟨⟩
  exact ⟨rfl, rfl, rfl⟩

theorem frames_branch : Frames branch := by
  intro g _ g' h
  obtain ⟨operands, operators, registers, loops, branches, compared, code, pressure⟩ := g
  rcases compared with _ | op | op | op <;> cases h
  exact ⟨rfl, rfl, rfl⟩

theorem frames_loopEnd : Frames loopEnd := by
  rintro g _ _ ⟨⟩
  exact ⟨rfl, rfl, rfl⟩

theorem passes_of_frames {x : Generate α} (h : Frames x) : Passes x s fun _ => s := by
  intro start g a g' hg hx
  obtain ⟨hopd, hopr, hreg⟩ := h g a g' hx
  exact ⟨hopd ▸ hg.operands, hopr ▸ hg.operators, hopd ▸ hreg ▸ hg.registers⟩

/-! ## Stacks and registers -/

theorem passes_emit (i : Instr) : Passes (emit i) s fun _ => s :=
  passes_of_frames (frames_emit i)

theorem count_register_cons (o : Operand) (os : List Operand) (r : Register) :
    (o :: os).count (.register r) = os.count (.register r) + o.register?.toList.count r := by
  cases o <;> simp [Operand.register?, List.count_cons]

theorem passes_popOperand :
    Passes popOperand ⟨m, n, l⟩ fun o => ⟨m - 1, n, o.register?.toList ++ l⟩ := by
  intro start g o g' hg h
  unfold popOperand at h
  split at h
  · rename_i o' operands hpop
    obtain ⟨hitems, -⟩ := Stack.pop_eq_ok_iff.1 hpop
    cases h
    refine ⟨?_, hg.operators, fun h' r => ?_⟩
    · have := hg.operands
      simp only [hitems, List.length_cons] at this ⊢
      omega
    · have := hg.registers h' r
      rw [hitems, count_register_cons] at this
      simp only [List.count_append] at this ⊢
      omega
  · cases h

theorem passes_pushOperand (o : Operand) :
    Passes (pushOperand o) ⟨m, n, o.register?.toList ++ l⟩ fun _ => ⟨m + 1, n, l⟩ := by
  intro start g a g' hg h
  unfold pushOperand at h
  split at h
  · rename_i operands hpush
    obtain ⟨-, hitems, -⟩ := Stack.push_eq_ok_iff.1 hpush
    cases h
    refine ⟨?_, hg.operators, fun h' r => ?_⟩
    · have := hg.operands
      simp only [hitems, List.length_cons] at this ⊢
      omega
    · have := hg.registers h' r
      simp only [hitems, count_register_cons, List.count_append] at this ⊢
      omega
  · cases h

theorem passes_pushRegister (r : Register) :
    Passes (pushOperand (.register r)) ⟨m, n, r :: l⟩ fun _ => ⟨m + 1, n, l⟩ :=
  passes_pushOperand (.register r)

theorem passes_pushValue (v : Value) :
    Passes (pushOperand v.operand) ⟨m, n, l⟩ fun _ => ⟨m + 1, n, l⟩ := by
  simpa using @passes_pushOperand m n l v.operand

theorem passes_popOperator : Passes popOperator ⟨m, n, l⟩ fun _ => ⟨m, n - 1, l⟩ := by
  intro start g op g' hg h
  unfold popOperator at h
  split at h
  · rename_i op' operators hpop
    obtain ⟨hitems, -⟩ := Stack.pop_eq_ok_iff.1 hpop
    cases h
    refine ⟨hg.operands, ?_, hg.registers⟩
    have := hg.operators
    simp only [hitems, List.length_cons] at this ⊢
    omega
  · cases h

theorem passes_pushOperator (op : Operator) :
    Passes (pushOperator op) ⟨m, n, l⟩ fun _ => ⟨m, n + 1, l⟩ := by
  intro start g a g' hg h
  unfold pushOperator at h
  split at h
  · rename_i operators hpush
    obtain ⟨-, hitems, -⟩ := Stack.push_eq_ok_iff.1 hpush
    cases h
    refine ⟨hg.operands, ?_, hg.registers⟩
    have := hg.operators
    simp only [hitems, List.length_cons] at this ⊢
    omega
  · cases h

/-- A free register that is put to use is in hand from then on. -/
theorem count_insert {t : RegisterTable} {r : Register} (h : t.vacant r = true) {k : Register → Nat}
    (hk : ∀ q, k q + l.count q ≤ (t.contains q).toNat) (q : Register) :
    k q + (r :: l).count q ≤ ((t.insert r).contains q).toNat := by
  have := hk q
  simp only [RegisterTable.vacant, Bool.not_eq_eq_eq_not, Bool.not_true] at h
  by_cases hq : q = r
  · subst hq
    simp_all
  · simpa [hq, List.count_cons, Ne.symm hq] using this

/-- A register in hand is in use for that reason only, so it can be given back. -/
theorem count_free {t : RegisterTable} {r : Register} {k : Register → Nat}
    (hk : ∀ q, k q + (r :: l).count q ≤ (t.contains q).toNat) (q : Register) :
    k q + l.count q ≤ ((t.free r).contains q).toNat := by
  have := hk q
  by_cases hq : q = r
  · subst hq
    have := Bool.toNat_le (t.contains q)
    simp_all
    omega
  · simpa [hq, List.count_cons, Ne.symm hq] using this

theorem passes_allocate : Passes allocate ⟨m, n, l⟩ fun r => ⟨m, n, r :: l⟩ := by
  intro start g r g' hg h
  unfold allocate RegisterTable.allocate? at h
  cases hfind : Register.general.find? g.registers.vacant with
  | none => rw [hfind] at h; cases h
  | some q =>
    rw [hfind] at h
    cases h
    refine ⟨hg.operands, hg.operators, fun h' => ?_⟩
    exact count_insert (List.find?_some hfind) (hg.registers h')

theorem passes_allocateAccumulator :
    Passes allocateAccumulator ⟨m, n, l⟩ fun _ => ⟨m, n, .eax :: l⟩ := by
  intro start g _ g' hg h
  unfold allocateAccumulator RegisterTable.allocateAccumulator? at h
  by_cases hv : g.registers.vacant .eax = true
  · rw [if_pos hv] at h
    cases h
    exact ⟨hg.operands, hg.operators, fun h' => count_insert hv (hg.registers h')⟩
  · rw [if_neg hv] at h
    cases h

theorem passes_free (r : Register) : Passes (free r) ⟨m, n, r :: l⟩ fun _ => ⟨m, n, l⟩ := by
  rintro start g _ _ hg ⟨⟩
  exact ⟨hg.operands, hg.operators, fun h' => count_free (hg.registers h')⟩

theorem passes_release (o : Operand) :
    Passes (release o) ⟨m, n, o.register?.toList ++ l⟩ fun _ => ⟨m, n, l⟩ := by
  unfold release
  cases o.register? with
  | none => exact passes_pure () fun _ => ⟨m, n, l⟩
  | some r => exact passes_free r

theorem passes_load (o : Operand) : Passes (load o) ⟨m, n, l⟩ fun r => ⟨m, n, r :: l⟩ :=
  passes_bind passes_allocate fun r => passes_bind (passes_emit _) fun _ =>
    passes_pure r fun r => ⟨m, n, r :: l⟩

/-! ## Parts of operations -/

/-- The register that a sum is built up in. -/
def sumIn (left : Operand) : Generate Register :=
  match left.register? with
  | some r => pure r
  | none => load left

/-- The instruction of an additive operator. -/
def additive (op : Operator) (r : Register) (right : Operand) : Generate Unit :=
  match op with
  | .additive .plus => emit (.add r right)
  | .additive .minus => emit (.sub r right)
  | _ => throw (.outOfSync .unknownAdditive)

theorem add_eq : add = (do
    let right ← popOperand
    let left ← popOperand
    let op ← popOperator
    let r ← sumIn left
    additive op r right
    release right
    pushOperand (.register r)) := by
  refine bind_congr fun right => bind_congr fun left => bind_congr fun op => ?_
  unfold sumIn
  cases left.register? <;>
    · refine bind_congr fun r => ?_
      rcases op with _ | (_ | _) | _ <;> rfl

/-- Moves a value to the accumulator, unless it is there. -/
def takeAccumulator (left : Operand) : Generate Unit :=
  if left.register? ≠ some .eax then do
    allocateAccumulator
    release left
    emit (.mov (.register .eax) left)
  else pure ()

/-- An operand that can be multiplied by. -/
def multiplier (right : Operand) : Generate Operand :=
  if right.isImmediate then Operand.register <$> load right else pure right

/-- The instruction of a multiplicative operator. -/
def multiplicative (op : Operator) (right : Operand) : Generate Unit :=
  match op with
  | .multiplicative .times => emit (.mul right)
  | .multiplicative .dividedBy => emit (.div right)
  | _ => throw (.outOfSync .unknownMultiplicative)

/-- Moves the value in the accumulator to a register for general use. -/
def moveOut : Generate Unit := do
  let result ← load (.register .eax)
  free .eax
  pushOperand (.register result)

theorem multiply_eq : multiply = (do
    let right ← popOperand
    let left ← popOperand
    let op ← popOperator
    takeAccumulator left
    let right ← multiplier right
    multiplicative op right
    release right
    moveOut) := by
  refine bind_congr fun right => bind_congr fun left => bind_congr fun op => ?_
  by_cases hl : left.register? = some .eax <;> by_cases hr : right.isImmediate = true <;>
    rcases op with _ | _ | (_ | _) <;>
    simp only [takeAccumulator, multiplier, hl, hr, ne_eq, not_true, not_false_eq_true, if_true,
      if_false, bind_assoc] <;> rfl

/-! ## Actions -/

theorem passes_compare : Passes compare ⟨m, n, l⟩ fun _ => ⟨m - 2, n - 1, l⟩ := by
  unfold compare
  refine passes_bind passes_popOperand fun right => passes_bind passes_popOperand fun left =>
    passes_bind passes_popOperator fun op => ?_
  -- A register among the two would stay in use.
  refine passes_subperm (l := l) ?_ ?_
  · exact ((List.sublist_append_right _ _).trans (List.sublist_append_right _ _)).subperm
  rw [show m - 1 - 1 = m - 2 by omega]
  exact passes_bind (passes_emit _) fun _ => passes_of_frames (frames_compared op)

theorem passes_sumIn (left : Operand) :
    Passes (sumIn left) ⟨m, n, left.register?.toList ++ l⟩ fun r => ⟨m, n, r :: l⟩ := by
  unfold sumIn
  cases left.register? with
  | some r => exact passes_pure r fun r => ⟨m, n, r :: l⟩
  | none => exact passes_load left

theorem passes_additive (op : Operator) (r : Register) (right : Operand) :
    Passes (additive op r right) s fun _ => s := by
  unfold additive
  split
  · exact passes_emit _
  · exact passes_emit _
  · exact passes_throw _

theorem passes_add : Passes add ⟨m, n, l⟩ fun _ => ⟨m - 1, n - 1, l⟩ := by
  rw [add_eq]
  refine passes_bind passes_popOperand fun right => passes_bind passes_popOperand fun left =>
    passes_bind passes_popOperator fun op => passes_bind (passes_sumIn left) fun r =>
    passes_bind (passes_additive op r right) fun _ => ?_
  refine passes_subperm List.perm_middle.subperm (passes_bind (passes_release right) fun _ => ?_)
  simpa using @passes_pushRegister (m - 1 - 1) (n - 1) l r

/-- The accumulator is in hand afterwards, and `left` is not, unless it is the accumulator. -/
theorem passes_takeAccumulator (left : Operand) :
    Passes (takeAccumulator left) ⟨m, n, left.register?.toList ++ l⟩
      fun _ => ⟨m, n, .eax :: l⟩ := by
  unfold takeAccumulator
  split
  · exact passes_bind passes_allocateAccumulator fun _ =>
      passes_subperm List.perm_middle.subperm <| passes_bind (passes_release left) fun _ =>
      passes_emit _
  · rename_i h
    rw [not_not.1 h]
    exact passes_pure () fun _ => ⟨m, n, .eax :: l⟩

theorem register?_of_isImmediate {o : Operand} (h : o.isImmediate = true) : o.register? = none := by
  cases o with
  | register r => cases h
  | ident name => rfl
  | int text => rfl

theorem passes_multiplier (right : Operand) :
    Passes (multiplier right) ⟨m, n, right.register?.toList ++ l⟩
      fun right => ⟨m, n, right.register?.toList ++ l⟩ := by
  unfold multiplier
  split
  · rename_i himmediate
    rw [register?_of_isImmediate himmediate]
    exact passes_bind (passes_load right) fun r =>
      passes_pure (Operand.register r) fun o => ⟨m, n, o.register?.toList ++ l⟩
  · exact passes_pure right fun o => ⟨m, n, o.register?.toList ++ l⟩

theorem passes_multiplicative (op : Operator) (right : Operand) :
    Passes (multiplicative op right) s fun _ => s := by
  unfold multiplicative
  split
  · exact passes_emit _
  · exact passes_emit _
  · exact passes_throw _

theorem passes_moveOut : Passes moveOut ⟨m, n, .eax :: l⟩ fun _ => ⟨m + 1, n, l⟩ := by
  refine passes_bind (passes_load _) fun r => ?_
  refine passes_subperm (List.Perm.swap _ _ _).subperm (passes_bind (passes_free _) fun _ => ?_)
  exact passes_pushRegister r

theorem passes_multiply : Passes multiply ⟨m, n, l⟩ fun _ => ⟨m - 1, n - 1, l⟩ := by
  rw [multiply_eq]
  refine passes_bind passes_popOperand fun right => passes_bind passes_popOperand fun left =>
    passes_bind passes_popOperator fun op => passes_bind (passes_takeAccumulator left) fun _ =>
    passes_subperm List.perm_middle.subperm <| passes_bind (passes_multiplier right) fun right =>
    passes_bind (passes_multiplicative op right) fun _ =>
    passes_bind (passes_release right) fun _ => ?_
  simpa using @passes_moveOut (m - 1 - 1) (n - 1) l

theorem passes_assign (target : String) :
    Passes (assign target) ⟨m, n, l⟩ fun _ => ⟨m - 1, n, l⟩ :=
  passes_bind passes_popOperand fun value => passes_bind (passes_release value) fun _ =>
    passes_emit _

/-! ## Trees -/

theorem passes_cons {a : Action} {as : List Action} {s' s'' : Share}
    (h : Passes (action a) s fun _ => s') (h' : Passes (actions as) s' fun _ => s'') :
    Passes (actions (a :: as)) s fun _ => s'' :=
  passes_bind h fun _ => h'

theorem passes_nil : Passes (actions []) s fun _ => s :=
  passes_pure () fun _ => s

theorem passes_append {as bs : List Action} {s' s'' : Share}
    (h : Passes (actions as) s fun _ => s') (h' : Passes (actions bs) s' fun _ => s'') :
    Passes (actions (as ++ bs)) s fun _ => s'' := by
  rw [actions_append]
  exact passes_bind h fun _ => h'

/-- Links that leave the share as it is do so one after the other. -/
theorem passes_flatMap {γ : Type} {f : γ → List Action} (links : List γ)
    (h : ∀ link, Passes (actions (f link)) s fun _ => s) :
    Passes (actions (links.flatMap f)) s fun _ => s := by
  induction links with
  | nil => exact passes_nil
  | cons link links ih => exact passes_append (h link) ih

theorem passes_term (t : Term) :
    Passes (actions t.actions) ⟨m, n, l⟩ fun _ => ⟨m + 1, n, l⟩ := by
  refine passes_cons (passes_pushValue t.first) (passes_flatMap t.rest fun (op, v) => ?_)
  refine passes_cons (passes_pushOperator _) (passes_cons (passes_pushValue v) ?_)
  refine passes_cons passes_multiply ?_
  simpa using @passes_nil ⟨m + 1, n, l⟩

theorem passes_expr (e : Expr) :
    Passes (actions e.actions) ⟨m, n, l⟩ fun _ => ⟨m + 1, n, l⟩ := by
  refine passes_append (passes_term e.first) (passes_flatMap e.rest fun (op, t) => ?_)
  refine passes_append (passes_cons (passes_pushOperator _) (passes_term t)) ?_
  refine passes_cons passes_add ?_
  simpa using @passes_nil ⟨m + 1, n, l⟩

theorem passes_assignment (a : Assignment) :
    Passes (actions a.actions) s fun _ => s := by
  obtain ⟨m, n, l⟩ := s
  refine passes_append (passes_expr a.value) (passes_cons (passes_assign a.target) ?_)
  simpa using @passes_nil ⟨m, n, l⟩

/-- Up to its last action, a statement leaves the share as it is. -/
theorem passes_statement (st : Statement) :
    ∃ front, st.actions = front ++ [.finish] ∧ ∀ s, Passes (actions front) s fun _ => s := by
  cases st with
  | assignment a => exact ⟨a.actions, rfl, fun s => passes_assignment a⟩
  | loop left op right body =>
    refine ⟨[.loopBegin, .operand left.operand, .operator (.comparison op),
      .operand right.operand, .compare, .branch] ++ body.actions ++ [.loopEnd],
      by simp [Statement.actions], fun ⟨m, n, l⟩ => ?_⟩
    have condition : Passes (actions [.loopBegin, .operand left.operand,
        .operator (.comparison op), .operand right.operand, .compare, .branch]) ⟨m, n, l⟩
        fun _ => ⟨m, n, l⟩ := by
      refine passes_cons (passes_of_frames frames_loopBegin) <|
        passes_cons (passes_pushValue left) <| passes_cons (passes_pushOperator _) <|
        passes_cons (passes_pushValue right) <| passes_cons passes_compare <|
        passes_cons (passes_of_frames frames_branch) ?_
      rw [show m + 1 + 1 - 2 = m by omega, show n + 1 - 1 = n by omega]
      exact passes_nil
    exact passes_append (passes_append condition (passes_assignment body))
      (passes_cons (passes_of_frames frames_loopEnd) passes_nil)

/-! ## The end of a statement -/

theorem finish_eq_ok_iff {g g' : Generator} : finish g = .ok () g' ↔
    g' = g ∧ g.operands.items = [] ∧ g.operators.items = [] ∧ g.registers = {} := by
  rw [← Stack.isEmpty_iff, ← Stack.isEmpty_iff, ← RegisterTable.isEmpty_iff]
  rw [finish_apply]
  cases g.operands.isEmpty <;> cases g.operators.isEmpty <;> cases g.registers.isEmpty <;>
    simp [eq_comm]

/-- A statement is carried out to its end only where it finds nothing on the stacks and no
register in use. -/
theorem empty_of_actions {st : Statement} {g g' : Generator}
    (h : actions st.actions g = .ok () g') :
    g.operands.items = [] ∧ g.operators.items = [] ∧ g.registers = {} := by
  obtain ⟨front, hst, hpasses⟩ := passes_statement st
  rw [hst, actions_append] at h
  obtain ⟨_, g₁, hfront, h⟩ := bind_eq_ok h
  obtain ⟨_, g₂, hfinish, -⟩ := bind_eq_ok h
  obtain ⟨-, hopd, hopr, hreg⟩ := finish_eq_ok_iff.1 hfinish
  have since := hpasses _ g g () g₁ g.since_self hfront
  have hnone : g.operands.items = [] := by simpa [hopd] using since.operands.symm
  refine ⟨hnone, by simpa [hopr] using since.operators.symm, RegisterTable.ext_contains fun r => ?_⟩
  have hempty : ({} : RegisterTable).contains r = false := by cases r <;> rfl
  have hle := since.registers hnone r
  rw [hreg, hempty] at hle
  rw [hempty]
  cases hr : g.registers.contains r with
  | false => rfl
  | true => simp [hr] at hle

end Generate

end LoopAsm
