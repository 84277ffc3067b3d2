/-
Labels and their numbers. Only three actions of code generation look at the numbers of labels;
all others are built from operations on the stacks, the registers and label-free code, and treat
two generators alike that differ in their numbers and in the code so far. Hence a statement is
translated behind other statements as it is at the start, with its labels counted on from theirs.

A number is used up once a label bears it, or would have: what a failed statement has begun to
count is not counted again, so that no label is defined twice, whichever statements fail.
-/
import LoopAsm.Proofs.Translate.Ownership

namespace LoopAsm

/-! ## Renumbering -/

/-- The label with its number counted on, behind a number of loops and of branches. -/
def Label.shift (loops branches : Nat) : Label → Label
  | begin n => .begin (loops + n)
  | body n => .body (branches + n)
  | exit n => .exit (branches + n)

namespace Instr

/-- The label that an instruction stands for or jumps to. -/
def label? : Instr → Option Label
  | label l => some l
  | jump _ target => some target
  | _ => none

/-- The label that an instruction stands for. -/
def defines? : Instr → Option Label
  | label l => some l
  | _ => none

/-- The instruction with its label counted on. -/
def shift (loops branches : Nat) : Instr → Instr
  | label l => .label (l.shift loops branches)
  | jump condition target => .jump condition (target.shift loops branches)
  | i => i

theorem shift_of_label? {i : Instr} (h : i.label? = none) (loops branches : Nat) :
    i.shift loops branches = i := by
  cases i <;> first | rfl | cases h

theorem defines?_of_label? {i : Instr} (h : i.label? = none) : i.defines? = none := by
  cases i <;> first | rfl | cases h

end Instr

/-- The labels that code defines, in order. -/
def definedLabels (code : Array Instr) : List Label :=
  code.toList.filterMap Instr.defines?

@[simp] theorem definedLabels_push (code : Array Instr) (i : Instr) :
    definedLabels (code.push i) = definedLabels code ++ i.defines?.toList := by
  cases h : i.defines? <;> simp [definedLabels, h]

/-! ## Code without labels -/

/-- No instruction stands for a label or jumps to one. -/
def LabelFree (code : List Instr) : Prop :=
  ∀ i ∈ code, i.label? = none

theorem labelFree_append {front back : List Instr} :
    LabelFree (front ++ back) ↔ LabelFree front ∧ LabelFree back := by
  simp only [LabelFree, List.mem_append, or_imp, forall_and]

theorem labelFree_productCode (r : Register) (left : Operand) (op : MulOp) (v : Value) :
    LabelFree (productCode r left op v) := by
  cases v <;> cases op <;> simp [LabelFree, productCode, MulOp.instr, Instr.label?]

theorem labelFree_term (r : Register) (t : Term) : LabelFree (t.code r) := by
  obtain ⟨first, rest⟩ := t
  unfold Term.code
  generalize first.operand = left
  induction rest generalizing left with
  | nil => exact fun i hi => absurd hi List.not_mem_nil
  | cons link links ih =>
    exact labelFree_append.2 ⟨labelFree_productCode r left link.1 link.2, ih _⟩

theorem labelFree_sumCode (left right : Operand) (op : AddOp) :
    LabelFree (sumCode left right op) := by
  unfold sumCode
  cases left.register?.isSome <;> cases op <;> simp [LabelFree, AddOp.instr, Instr.label?]

theorem labelFree_sumLinks (left : Operand) (links : List (AddOp × Term)) :
    LabelFree (sumLinksCode left links) := by
  induction links generalizing left with
  | nil => exact fun i hi => absurd hi List.not_mem_nil
  | cons link links ih =>
    exact labelFree_append.2
      ⟨labelFree_append.2 ⟨labelFree_term _ _, labelFree_sumCode _ _ _⟩, ih _⟩

/-- The code of an assignment is without labels. -/
theorem labelFree_assignment (a : Assignment) : LabelFree a.code := by
  have hmov : LabelFree [.mov (.ident a.target) a.value.operand] := by
    simp [LabelFree, Instr.label?]
  exact labelFree_append.2
    ⟨labelFree_append.2 ⟨labelFree_term _ _, labelFree_sumLinks _ _⟩, hmov⟩

/-! ## Operations that do not look at labels -/

/-- Whether an action looks at the numbers of labels. -/
def Action.isNumbering : Action → Bool
  | loopBegin | branch | loopEnd => true
  | _ => false

theorem Term.isNumbering_of_mem {t : Term} {a : Action} (h : a ∈ t.actions) :
    a.isNumbering = false := by
  simp only [actions, List.mem_cons, List.mem_flatMap, List.not_mem_nil, or_false] at h
  rcases h with rfl | ⟨⟨op, v⟩, -, rfl | rfl | rfl⟩ <;> rfl

theorem Assignment.isNumbering_of_mem {s : Assignment} {a : Action} (h : a ∈ s.actions) :
    a.isNumbering = false := by
  simp only [actions, Expr.actions, List.mem_append, List.mem_flatMap, List.mem_cons,
    List.not_mem_nil, or_false] at h
  rcases h with (h | ⟨⟨op, t⟩, -, (rfl | h) | rfl⟩) | rfl
  · exact Term.isNumbering_of_mem h
  · rfl
  · exact Term.isNumbering_of_mem h
  · rfl
  · rfl

namespace Generate

/-- Built from operations on the stacks, the registers and code without labels. -/
inductive Plain : {α : Type} → Generate α → Prop
  | pure {α : Type} (a : α) : Plain (pure a : Generate α)
  | throw {α : Type} (e : Error) : Plain (throw e : Generate α)
  | bind {α β : Type} {x : Generate α} {f : α → Generate β} (hx : Plain x)
      (hf : ∀ a, Plain (f a)) : Plain (x >>= f)
  | emit {i : Instr} (h : i.label? = none) : Plain (emit i)
  | pushOperand (o : Operand) : Plain (pushOperand o)
  | popOperand : Plain popOperand
  | pushOperator (op : Operator) : Plain (pushOperator op)
  | popOperator : Plain popOperator
  | allocate : Plain allocate
  | allocateAccumulator : Plain allocateAccumulator
  | free (r : Register) : Plain (free r)
  | compared (op : Operator) : Plain (modify fun g => { g with compared := some op })
  | finish : Plain finish

theorem plain_release (o : Operand) : Plain (release o) := by
  unfold release
  cases o.register? with
  | none => exact .pure ()
  | some r => exact .free r

theorem plain_load (o : Operand) : Plain (load o) :=
  .bind .allocate fun r => .bind (.emit rfl) fun _ => .pure r

theorem plain_sumIn (left : Operand) : Plain (sumIn left) := by
  unfold sumIn
  cases left.register? with
  | some r => exact .pure r
  | none => exact plain_load left

theorem plain_additive (op : Operator) (r : Register) (right : Operand) :
    Plain (additive op r right) := by
  unfold additive
  split
  · exact .emit rfl
  · exact .emit rfl
  · exact .throw _

theorem plain_add : Plain add := by
  rw [add_eq]
  exact .bind .popOperand fun right => .bind .popOperand fun left => .bind .popOperator fun op =>
    .bind (plain_sumIn left) fun r => .bind (plain_additive op r right) fun _ =>
    .bind (plain_release right) fun _ => .pushOperand _

theorem plain_takeAccumulator (left : Operand) : Plain (takeAccumulator left) := by
  unfold takeAccumulator
  split
  · exact .bind .allocateAccumulator fun _ => .bind (plain_release left) fun _ => .emit rfl
  · exact .pure ()

theorem plain_multiplier (right : Operand) : Plain (multiplier right) := by
  unfold multiplier
  split
  · exact .bind (plain_load right) fun r => .pure (Operand.register r)
  · exact .pure right

theorem plain_multiplicative (op : Operator) (right : Operand) :
    Plain (multiplicative op right) := by
  unfold multiplicative
  split
  · exact .emit rfl
  · exact .emit rfl
  · exact .throw _

theorem plain_multiply : Plain multiply := by
  rw [multiply_eq]
  exact .bind .popOperand fun right => .bind .popOperand fun left => .bind .popOperator fun op =>
    .bind (plain_takeAccumulator left) fun _ => .bind (plain_multiplier right) fun right =>
    .bind (plain_multiplicative op right) fun _ => .bind (plain_release right) fun _ =>
    .bind (plain_load _) fun r => .bind (.free _) fun _ => .pushOperand _

theorem plain_compare : Plain compare :=
  .bind .popOperand fun _ => .bind .popOperand fun _ => .bind .popOperator fun op =>
    .bind (.emit rfl) fun _ => .compared op

theorem plain_assign (target : String) : Plain (assign target) :=
  .bind .popOperand fun value => .bind (plain_release value) fun _ => .emit rfl

theorem plain_action {a : Action} (h : a.isNumbering = false) : Plain (action a) := by
  cases a with
  | loopBegin => cases h
  | branch => cases h
  | loopEnd => cases h
  | operand o => exact .pushOperand o
  | operator op => exact .pushOperator op
  | compare => exact plain_compare
  | add => exact plain_add
  | multiply => exact plain_multiply
  | assign target => exact plain_assign target
  | finish => exact .finish

end Generate

/-! ## Code behind other code -/

/-- A generator `g` does what `h` does, behind `front` and with labels counted on. -/
structure Generator.Echoes (front : Array Instr) (n k : Nat) (g h : Generator) : Prop where
  operands : g.operands = h.operands
  operators : g.operators = h.operators
  registers : g.registers = h.registers
  loops : g.loops = n + h.loops
  branches : g.branches = k + h.branches
  code : g.code = front ++ h.code.map (Instr.shift n k)

namespace Generate

/-- Where a step of code generation succeeds, it does so in every generator that is echoed. -/
def Echoed {α : Type} (x : Generate α) : Prop :=
  ∀ front n k g h a g', Generator.Echoes front n k g h → x g = .ok a g' →
    ∃ h', x h = .ok a h' ∧ Generator.Echoes front n k g' h'

theorem echoed_bind {α β : Type} {x : Generate α} {f : α → Generate β} (hx : Echoed x)
    (hf : ∀ a, Echoed (f a)) : Echoed (x >>= f) := by
  intro front n k g h b g'' he hg
  obtain ⟨a, g', hxg, hg⟩ := bind_eq_ok hg
  obtain ⟨h', hxh, he'⟩ := hx front n k g h a g' he hxg
  obtain ⟨h'', hfh, he''⟩ := hf a front n k g' h' b g'' he' hg
  exact ⟨h'', by rw [bind_of_ok hxh, hfh], he''⟩

theorem Plain.echoed {α : Type} {x : Generate α} (hx : Plain x) : Echoed x := by
  induction hx with
  | pure a =>
    intro _ _ _ g h _ _ he hg
    cases hg
    exact ⟨h, rfl, he⟩
  | throw e =>
    intro _ _ _ g h _ _ he hg
    cases hg
  | bind _ _ hx hf => exact echoed_bind hx hf
  | emit hi =>
    intro _ _ _ g h _ _ he hg
    cases hg
    exact ⟨_, rfl, { he with code := by simp [he.code, Instr.shift_of_label? hi] }⟩
  | pushOperand o =>
    intro _ _ _ g h _ _ he hg
    unfold Generate.pushOperand at hg ⊢
    rw [he.operands] at hg
    cases hs : h.operands.push o <;> rw [hs] at hg <;> cases hg
    exact ⟨_, rfl, { he with operands := rfl }⟩
  | popOperand =>
    intro _ _ _ g h _ _ he hg
    unfold Generate.popOperand at hg ⊢
    rw [he.operands] at hg
    cases hs : h.operands.pop <;> rw [hs] at hg <;> cases hg
    exact ⟨_, rfl, { he with operands := rfl }⟩
  | pushOperator op =>
    intro _ _ _ g h _ _ he hg
    unfold Generate.pushOperator at hg ⊢
    rw [he.operators] at hg
    cases hs : h.operators.push op <;> rw [hs] at hg <;> cases hg
    exact ⟨_, rfl, { he with operators := rfl }⟩
  | popOperator =>
    intro _ _ _ g h _ _ he hg
    unfold Generate.popOperator at hg ⊢
    rw [he.operators] at hg
    cases hs : h.operators.pop <;> rw [hs] at hg <;> cases hg
    exact ⟨_, rfl, { he with operators := rfl }⟩
  | allocate =>
    intro _ _ _ g h _ _ he hg
    unfold Generate.allocate at hg ⊢
    rw [he.registers] at hg
    cases hs : h.registers.allocate? <;> rw [hs] at hg <;> cases hg
    exact ⟨_, rfl, { he with registers := rfl }⟩
  | allocateAccumulator =>
    intro _ _ _ g h _ _ he hg
    unfold Generate.allocateAccumulator at hg ⊢
    rw [he.registers] at hg
    cases hs : h.registers.allocateAccumulator? <;> rw [hs] at hg <;> cases hg
    exact ⟨_, rfl, { he with registers := rfl }⟩
  | free r =>
    intro _ _ _ g h _ _ he hg
    cases hg
    exact ⟨_, rfl, { he with registers := by simp [he.registers] }⟩
  | compared op =>
    intro _ _ _ g h _ _ he hg
    cases hg
    exact ⟨_, rfl, { he with }⟩
  | finish =>
    intro _ _ _ g h _ _ he hg
    rw [finish_eq_ok_iff] at hg
    obtain ⟨rfl, hg⟩ := hg
    rw [he.operands, he.operators, he.registers] at hg
    exact ⟨h, finish_eq_ok_iff.2 ⟨rfl, hg⟩, he⟩

theorem echoed_loopBegin : Echoed loopBegin := by
  intro _ n k g h _ _ he hg
  cases hg
  refine ⟨_, rfl, { he with loops := ?_, code := ?_ }⟩
  · simp [he.loops, Nat.add_assoc]
  · simp [he.code, he.loops, Instr.shift, Label.shift, Nat.add_assoc]

theorem echoed_loopEnd : Echoed loopEnd := by
  intro _ n k g h _ _ he hg
  cases hg
  refine ⟨_, rfl, { he with code := ?_ }⟩
  simp [he.code, he.loops, he.branches, Instr.shift, Label.shift]

theorem operators_popOperand {g g' : Generator} {o : Operand} (h : popOperand g = .ok o g') :
    g'.operators = g.operators := by
  unfold popOperand at h
  split at h <;> cases h
  rfl

theorem operators_popOperator {g g' : Generator} {op : Operator}
    (h : popOperator g = .ok op g') : g.operators.items = op :: g'.operators.items := by
  unfold popOperator at h
  split at h <;> cases h
  rename_i hpop
  exact (Stack.pop_eq_ok_iff.1 hpop).1

/-- A branch goes by the operator that was on top of the stack before the comparison. -/
theorem compared_of_compare {g g' : Generator} {u : Unit} (h : compare g = .ok u g') :
    g'.compared = g.operators.items.head? := by
  obtain ⟨right, g₁, hright, h⟩ := bind_eq_ok h
  obtain ⟨left, g₂, hleft, h⟩ := bind_eq_ok h
  obtain ⟨op, g₃, hop, h⟩ := bind_eq_ok h
  cases h
  rw [← operators_popOperand hright, ← operators_popOperand hleft, operators_popOperator hop]
  rfl

/-- Two generators may remember different comparisons, but not once both have compared. -/
theorem echoed_condition : Echoed (actions [.compare, .branch]) := by
  intro front n k g h _ g' he hg
  obtain ⟨_, g₁, hcompare, hg⟩ := bind_eq_ok hg
  obtain ⟨h₁, hcompare', he₁⟩ := plain_compare.echoed front n k g h _ g₁ he hcompare
  have hsame : g₁.compared = h₁.compared := by
    rw [compared_of_compare hcompare, compared_of_compare hcompare', he.operators]
  rw [show actions [.compare, .branch] h = actions [.branch] h₁ from bind_of_ok hcompare' _]
  obtain ⟨operands, operators, registers, loops, branches, compared, code, pressure⟩ := g₁
  obtain ⟨operands', operators', registers', loops', branches', compared', code', pressure'⟩ := h₁
  obtain rfl : compared = compared' := hsame
  obtain rfl : branches = k + branches' := he₁.branches
  obtain rfl : code = front ++ code'.map (Instr.shift n k) := he₁.code
  rcases compared with _ | op | op | op <;> cases hg
  refine ⟨_, rfl, { he₁ with branches := rfl, code := ?_ }⟩
  simp [Instr.shift, Label.shift, Nat.add_assoc]

theorem echoed_append {as bs : List Action} (h : Echoed (actions as)) (h' : Echoed (actions bs)) :
    Echoed (actions (as ++ bs)) := by
  rw [actions_append]
  exact echoed_bind h fun _ => h'

theorem echoed_actions {as : List Action} (h : ∀ a ∈ as, a.isNumbering = false) :
    Echoed (actions as) := by
  induction as with
  | nil => exact Plain.echoed (.pure ())
  | cons a as ih =>
    obtain ⟨ha, has⟩ := List.forall_mem_cons.1 h
    exact echoed_bind (plain_action ha).echoed fun _ => ih has

/-- A statement that is carried out behind other code is carried out at the start as well, and its
code is the same up to the numbers of its labels. -/
theorem echoed_statement (st : Statement) : Echoed (actions st.actions) := by
  cases st with
  | assignment a =>
    exact echoed_append (echoed_actions fun _ => Assignment.isNumbering_of_mem)
      (echoed_actions (by simp [Action.isNumbering]))
  | loop left op right body =>
    have condition : Echoed (actions ([.loopBegin] ++ ([.operand left.operand,
        .operator (.comparison op), .operand right.operand] ++ [.compare, .branch]))) :=
      echoed_append (echoed_bind echoed_loopBegin fun _ => Plain.echoed (.pure ())) <|
        echoed_append (echoed_actions (by simp [Action.isNumbering])) echoed_condition
    have last : Echoed (actions [.loopEnd, .finish]) :=
      echoed_bind echoed_loopEnd fun _ => echoed_actions (by simp [Action.isNumbering])
    exact echoed_append
      (echoed_append condition (echoed_actions fun _ => Assignment.isNumbering_of_mem)) last

end Generate

/-! ## Labels in use -/

/-- The label bears a number that is counted. -/
def Label.UpTo (loops branches : Nat) : Label → Prop
  | begin n => n ≤ loops
  | body n => n ≤ branches
  | exit n => n ≤ branches

theorem Label.UpTo.mono {n n' k k' : Nat} (hn : n ≤ n') (hk : k ≤ k') {l : Label}
    (h : l.UpTo n k) : l.UpTo n' k' := by
  cases l with
  | begin m => exact Nat.le_trans h hn
  | body m => exact Nat.le_trans h hk
  | exit m => exact Nat.le_trans h hk

/-- No label is defined twice, and every label bears a number that is counted. In a loop whose
condition is complete, the label behind it is still to come. The stacks have room for `c`. -/
structure Generator.Numbered (c : Nat) (pending : Bool) (g : Generator) : Prop where
  operandRoom : g.operands.capacity = c
  operatorRoom : g.operators.capacity = c
  nodup : (definedLabels g.code).Nodup
  upTo : ∀ l ∈ definedLabels g.code, l.UpTo g.loops g.branches
  exit : pending = true → Label.exit g.branches ∉ definedLabels g.code

theorem Generator.Numbered.settle {c : Nat} {pending : Bool} {g : Generator}
    (h : g.Numbered c pending) : g.Numbered c false :=
  { h with exit := fun h => nomatch h }

/-- A label that is not in use yet can be defined, where its number is counted. -/
theorem Generator.Numbered.define {c : Nat} {pending pending' : Bool} {g g' : Generator} {l : Label}
    (hg : g.Numbered c pending) (hopd : g'.operands = g.operands)
    (hopr : g'.operators = g.operators) (hloops : g.loops ≤ g'.loops)
    (hbranches : g.branches ≤ g'.branches)
    (hlabels : definedLabels g'.code = definedLabels g.code ++ [l])
    (hnew : l ∉ definedLabels g.code) (hl : l.UpTo g'.loops g'.branches)
    (hexit : pending' = true → Label.exit g'.branches ∉ definedLabels g.code ++ [l]) :
    g'.Numbered c pending' where
  operandRoom := hopd ▸ hg.operandRoom
  operatorRoom := hopr ▸ hg.operatorRoom
  nodup := by
    rw [hlabels, List.nodup_append]
    refine ⟨hg.nodup, by simp, fun a ha b hb => ?_⟩
    rintro rfl
    exact hnew (List.mem_singleton.1 hb ▸ ha)
  upTo l' hl' := by
    rw [hlabels] at hl'
    rcases List.mem_append.1 hl' with h | h
    · exact (hg.upTo l' h).mono hloops hbranches
    · rwa [List.mem_singleton.1 h]
  exit hp := hlabels ▸ hexit hp

/-- A number that is not counted is not in use. -/
theorem Generator.Numbered.not_mem {c : Nat} {pending : Bool} {g : Generator} {l : Label}
    (hg : g.Numbered c pending) (hl : ¬ l.UpTo g.loops g.branches) : l ∉ definedLabels g.code :=
  fun h => hl (hg.upTo l h)

namespace Generate

/-- The state that a step of code generation ends in, whether it succeeds or fails. -/
def final {α : Type} (x : Generate α) (g : Generator) : Generator :=
  match x g with
  | .ok _ g' => g'
  | .error _ g' => g'

theorem final_bind {α β : Type} (x : Generate α) (f : α → Generate β) (g : Generator) :
    (∃ a, final (x >>= f) g = final (f a) (final x g)) ∨ final (x >>= f) g = final x g := by
  unfold final
  simp only [Bind.bind, EStateM.bind]
  cases x g with
  | ok a g' => exact .inl ⟨a, rfl⟩
  | error e g' => exact .inr rfl

theorem final_finish (g : Generator) : final finish g = g := by
  rw [final, finish_apply]
  cases g.operands.isEmpty <;> cases g.operators.isEmpty <;> cases g.registers.isEmpty <;> rfl

/-- A plain step keeps what neither code without labels nor a change of the stacks' items, of the
registers or of the last comparison affects. -/
theorem Plain.keeps {α : Type} {x : Generate α} (hx : Plain x) {P : Generator → Prop}
    (hemit : ∀ g i, Instr.label? i = none → P g → P { g with code := g.code.push i })
    (hmachine : ∀ (g : Generator) (operands : Stack Operand) (operators : Stack Operator)
      (registers : RegisterTable) (compared : Option Operator) (pressure : Nat), P g →
        operands.capacity = g.operands.capacity → operators.capacity = g.operators.capacity →
        P { g with operands, operators, registers, compared, pressure })
    {g : Generator} (hg : P g) : P (final x g) := by
  have hmachine (operands : Stack Operand) (operators : Stack Operator)
      (registers : RegisterTable) (compared : Option Operator) (pressure : Nat) {g : Generator} :=
    hmachine g operands operators registers compared pressure
  induction hx generalizing g with
  | pure a => exact hg
  | throw e => exact hg
  | @bind _ _ x f _ _ ihx ihf =>
    rcases final_bind x f g with ⟨a, h⟩ | h <;> rw [h]
    · exact ihf a (ihx hg)
    · exact ihx hg
  | @emit i hi => exact hemit g i hi hg
  | pushOperand o =>
    unfold final Generate.pushOperand
    cases hs : g.operands.push o with
    | error e => exact hg
    | ok operands => exact hmachine operands _ _ _ _ hg (Stack.push_eq_ok_iff.1 hs).2.2 rfl
  | popOperand =>
    unfold final Generate.popOperand
    cases hs : g.operands.pop with
    | error e => exact hg
    | ok p => exact hmachine p.2 _ _ _ _ hg (Stack.pop_eq_ok_iff.1 hs).2 rfl
  | pushOperator op =>
    unfold final Generate.pushOperator
    cases hs : g.operators.push op with
    | error e => exact hg
    | ok operators => exact hmachine _ operators _ _ _ hg rfl (Stack.push_eq_ok_iff.1 hs).2.2
  | popOperator =>
    unfold final Generate.popOperator
    cases hs : g.operators.pop with
    | error e => exact hg
    | ok p => exact hmachine _ p.2 _ _ _ hg rfl (Stack.pop_eq_ok_iff.1 hs).2
  | allocate =>
    unfold final Generate.allocate
    cases g.registers.allocate? with
    | none => exact hg
    | some p => exact hmachine _ _ p.2 _ _ hg rfl rfl
  | allocateAccumulator =>
    unfold final Generate.allocateAccumulator
    cases g.registers.allocateAccumulator? with
    | none => exact hg
    | some registers => exact hmachine _ _ registers _ _ hg rfl rfl
  | free r => exact hmachine _ _ (g.registers.free r) _ _ hg rfl rfl
  | compared op => exact hmachine _ _ _ (some op) _ hg rfl rfl
  | finish =>
    rw [final_finish]
    exact hg

theorem Plain.numbered {α : Type} {x : Generate α} (hx : Plain x) {c : Nat} {pending : Bool}
    {g : Generator} (hg : g.Numbered c pending) : (final x g).Numbered c pending := by
  refine hx.keeps (P := fun g => g.Numbered c pending) ?_ ?_ hg
  · intro g i hi hg
    have hsame : definedLabels (g.code.push i) = definedLabels g.code := by
      simp [Instr.defines?_of_label? hi]
    exact ⟨hg.operandRoom, hg.operatorRoom, hsame.symm ▸ hg.nodup, hsame.symm ▸ hg.upTo,
      hsame.symm ▸ hg.exit⟩
  · intro g operands operators registers compared pressure hg hopd hopr
    exact { hg with
      operandRoom := hopd.trans hg.operandRoom
      operatorRoom := hopr.trans hg.operatorRoom }

variable {c : Nat} {pending : Bool} {g : Generator}

theorem numbered_loopBegin (hg : g.Numbered c pending) :
    (final loopBegin g).Numbered c pending := by
  have hnew := hg.not_mem (l := .begin (g.loops + 1)) (Nat.not_succ_le_self _)
  refine hg.define rfl rfl (Nat.le_succ _) (Nat.le_refl _) (definedLabels_push ..) hnew
    (Nat.le_refl _) fun hp => ?_
  show Label.exit g.branches ∉ _
  simpa using hg.exit hp

/-- A number is counted before a label bears it, so a branch that fails uses it up as well. -/
theorem numbered_branch (hg : g.Numbered c pending) : (final branch g).Numbered c true := by
  have hbody := hg.not_mem (l := .body (g.branches + 1)) (Nat.not_succ_le_self _)
  have hexit := hg.not_mem (l := .exit (g.branches + 1)) (Nat.not_succ_le_self _)
  obtain ⟨operands, operators, registers, loops, branches, compared, code, pressure⟩ := g
  have failed : Generator.Numbered c true
      ⟨operands, operators, registers, loops, branches + 1, compared, code, pressure⟩ :=
    { hg with
      upTo := fun l hl => (hg.upTo l hl).mono (Nat.le_refl _) (Nat.le_succ _)
      exit := fun _ => hexit }
  rcases compared with _ | op | op | op
  · exact failed
  · refine hg.define (l := .body (branches + 1)) rfl rfl (Nat.le_refl _) (Nat.le_succ _) ?_ hbody
      (Nat.le_refl _) fun _ => ?_
    · show definedLabels (((code.push _).push _).push _) = _
      simp [Instr.defines?]
    · show Label.exit (branches + 1) ∉ _
      simpa using hexit
  · exact failed
  · exact failed

theorem numbered_loopEnd (hg : g.Numbered c true) : (final loopEnd g).Numbered c false := by
  refine hg.define rfl rfl (Nat.le_refl _) (Nat.le_refl _) ?_ (hg.exit rfl) (Nat.le_refl _)
    fun h => nomatch h
  show definedLabels ((g.code.push _).push _) = _
  simp [Instr.defines?]

end Generate

/-- Whether the label behind a loop is still to come after an action. -/
def Action.pending (before : Bool) : Action → Bool
  | branch => true
  | loopEnd => false
  | _ => before

/-- A loop ends only where its condition is complete. -/
def Orderly (pending : Bool) : List Action → Prop
  | [] => True
  | a :: as => (a = .loopEnd → pending = true) ∧ Orderly (a.pending pending) as

theorem Orderly.of_append {as bs : List Action} {pending : Bool} (h : Orderly pending (as ++ bs)) :
    Orderly pending as := by
  induction as generalizing pending with
  | nil => trivial
  | cons a as ih => exact ⟨h.1, ih h.2⟩

theorem Action.pending_of_isNumbering {a : Action} (h : a.isNumbering = false) (before : Bool) :
    a.pending before = before := by
  cases a <;> first | rfl | cases h

theorem orderly_append {as bs : List Action} (has : ∀ a ∈ as, a.isNumbering = false)
    {pending : Bool} (hbs : Orderly pending bs) : Orderly pending (as ++ bs) := by
  induction as with
  | nil => exact hbs
  | cons a as ih =>
    obtain ⟨ha, has⟩ := List.forall_mem_cons.1 has
    refine ⟨?_, ?_⟩
    · rintro rfl
      cases ha
    · rw [Action.pending_of_isNumbering ha]
      exact ih has

theorem Statement.orderly (st : Statement) : Orderly false st.actions := by
  cases st with
  | assignment a =>
    exact orderly_append (fun _ => Assignment.isNumbering_of_mem) (by simp [Orderly])
  | loop left op right body =>
    have hbody : Orderly true (body.actions ++ [.loopEnd, .finish]) :=
      orderly_append (fun _ => Assignment.isNumbering_of_mem) (by simp [Orderly])
    simpa [Statement.actions, Orderly, Action.pending] using hbody

namespace Generate

variable {c : Nat} {pending : Bool} {g : Generator}

/-- One action, whether it succeeds or fails. -/
theorem numbered_action {a : Action} (hg : g.Numbered c pending)
    (ha : a = .loopEnd → pending = true) : (final (action a) g).Numbered c (a.pending pending) := by
  cases hn : a.isNumbering with
  | false =>
    rw [Action.pending_of_isNumbering hn]
    exact (plain_action hn).numbered hg
  | true =>
    cases a with
    | loopBegin => exact numbered_loopBegin hg
    | branch => exact numbered_branch hg
    | loopEnd => exact numbered_loopEnd (ha rfl ▸ hg)
    | _ => cases hn

/-- Actions one after the other, up to the first failure. -/
theorem numbered_actions {as : List Action} (has : Orderly pending as)
    (hg : g.Numbered c pending) : (final (actions as) g).Numbered c false := by
  induction as generalizing pending g with
  | nil => exact hg.settle
  | cons a as ih =>
    obtain ⟨ha, has⟩ := has
    have hstep := numbered_action hg ha
    rcases final_bind (action a) (fun _ => actions as) g with ⟨_, h⟩ | h
    · rw [actions, h]
      exact ih has hstep
    · rw [actions, h]
      exact hstep.settle

end Generate

end LoopAsm
