/-
What the translator writes for a record list that spells statements: the code of those statements,
with the loops numbered in order. Every tree finds the operand stack as the tree around it left it
and adds its own result, so the facts about products and sums are stated over whatever waits
below; a statement finds nothing and leaves nothing.

Room is counted as well: a statement that waits with at most as many operands as the stacks take
never fails.
-/
import LoopAsm.Proofs.Translate.Code
import LoopAsm.Translate.Translator

namespace LoopAsm

/-! ## Where results are, and how many wait -/

/-- A value is a variable or an integer. -/
@[simp] theorem Value.register?_operand (v : Value) : v.operand.register? = none := by
  cases v <;> rfl

theorem Value.operand_ne_register (v : Value) (r : Register) : v.operand ≠ .register r := by
  cases v <;> simp [operand]

theorem Term.operand_eq_register {t : Term} {r p : Register} (h : t.operand r = .register p) :
    p = r := by
  unfold operand at h
  split at h
  · exact absurd h (t.first.operand_ne_register p)
  · cases h; rfl

theorem Term.operand_ne_eax (t : Term) {r : Register} (hr : r ≠ .eax) :
    t.operand r ≠ .register .eax :=
  fun h => hr (operand_eq_register h).symm

theorem sumRegister_ne_eax {left : Operand} (right : Operand) (hl : left ≠ .register .eax) :
    sumRegister left right ≠ .eax := by
  cases left with
  | register q => simpa [sumRegister, Operand.register?] using hl
  | ident name => exact spare_ne_eax _
  | int text => exact spare_ne_eax _

theorem Term.depth_le (t : Term) : t.depth ≤ 2 := by
  unfold depth
  split <;> omega

theorem Expr.depth_le_iff {e : Expr} {c : Nat} :
    e.depth ≤ c ↔ e.first.depth ≤ c ∧ ∀ l ∈ e.rest, 1 + l.2.depth ≤ c := by
  obtain ⟨first, rest⟩ := e
  simp only [depth]
  induction rest with
  | nil => simp
  | cons l rest ih =>
    rw [List.foldr_cons, Nat.max_le, ih, List.forall_mem_cons, and_left_comm]

theorem Expr.depth_le (e : Expr) : e.depth ≤ 3 := by
  have hfirst := e.first.depth_le
  refine Expr.depth_le_iff.2 ⟨by omega, fun l _ => ?_⟩
  have := l.2.depth_le
  omega

theorem Statement.depth_le (st : Statement) : st.depth ≤ 3 := by
  cases st with
  | assignment a => exact a.value.depth_le
  | loop left op right body => exact Nat.max_le.2 ⟨by omega, body.value.depth_le⟩

namespace Generate

open RegisterTable (holding)

variable {c n k : Nat} {left : Operand} {os : List Operand} {ops : List Operator}
  {r : Register} {code : List Instr} {as bs : List Action} {l l' l'' : Layout}

/-! ## Actions of a tree -/

theorem generates_cons {a : Action} (h : Generates (action a) l () l')
    (h' : Generates (actions as) l' () l'') : Generates (actions (a :: as)) l () l'' :=
  generates_bind h h'

theorem actions_append (as bs : List Action) :
    actions (as ++ bs) = actions as >>= fun _ => actions bs := by
  induction as with
  | nil => simp [actions]
  | cons a as ih => simp [actions, ih]

theorem generates_append (h : Generates (actions as) l () l')
    (h' : Generates (actions bs) l' () l'') : Generates (actions (as ++ bs)) l () l'' := by
  rw [actions_append]
  exact generates_bind h h'

theorem generates_productLink (op : MulOp) (v : Value) (hl : left ≠ .register .eax)
    (hleft : ∀ p, left = .register p → .register p ∉ os) (heax : .register .eax ∉ os)
    (hops : ops.length ≤ os.length) (hc : os.length + 2 ≤ c)
    (hr : Register.general.find? (holding os).vacant = some r) :
    Generates (actions [.operator (.multiplicative op), .operand v.operand, .multiply])
      ⟨c, left :: os, ops, holding (left :: os), n, k, code⟩ ()
      ⟨c, .register r :: os, ops, holding (.register r :: os), n, k,
        code ++ productCode r left op v⟩ := by
  have hopr : ops.length < c := by omega
  have hopd : (left :: os).length < c := by rw [List.length_cons]; omega
  exact generates_cons (generates_pushOperator hopr) <| generates_cons (generates_pushOperand hopd) <|
    generates_cons (generates_multiply op v hl hleft heax (by omega) hr) (generates_pure () _)

/-- Once a first link is done, the result stays in the register it went to. -/
theorem generates_productLinks (links : List (MulOp × Value)) (hl : left ≠ .register .eax)
    (hleft : ∀ p, left = .register p → .register p ∉ os) (heax : .register .eax ∉ os)
    (hops : ops.length ≤ os.length) (hc : links ≠ [] → os.length + 2 ≤ c)
    (hr : Register.general.find? (holding os).vacant = some r) :
    Generates (actions (links.flatMap fun (op, v) =>
        [.operator (.multiplicative op), .operand v.operand, .multiply]))
      ⟨c, left :: os, ops, holding (left :: os), n, k, code⟩ ()
      ⟨c, (if links.isEmpty then left else .register r) :: os, ops,
        holding ((if links.isEmpty then left else .register r) :: os), n, k,
        code ++ productLinksCode r left links⟩ := by
  induction links generalizing left code with
  | nil =>
    rw [productLinksCode, List.append_nil]
    exact generates_pure () ⟨c, left :: os, ops, holding (left :: os), n, k, code⟩
  | cons link links ih =>
    obtain ⟨op, v⟩ := link
    have hroom : os.length + 2 ≤ c := hc (List.cons_ne_nil _ _)
    have hvacant : .register r ∉ os := by simpa [RegisterTable.vacant] using List.find?_some hr
    -- The next link finds its left side in `r` and gives `r` back before its result needs one.
    have rest := @ih (.register r) (code ++ productCode r left op v)
      (by simpa using ne_eax_of_find? hr) (by rintro p ⟨⟩; exact hvacant) (fun _ => hroom)
    rw [ite_self, List.append_assoc] at rest
    exact generates_append (generates_productLink op v hl hleft heax hops hroom hr) rest

theorem generates_term (t : Term) (heax : .register .eax ∉ os) (hops : ops.length ≤ os.length)
    (hc : os.length + t.depth ≤ c) (hr : Register.general.find? (holding os).vacant = some r) :
    Generates (actions t.actions) ⟨c, os, ops, holding os, n, k, code⟩ ()
      ⟨c, t.operand r :: os, ops, holding (t.operand r :: os), n, k, code ++ t.code r⟩ := by
  obtain ⟨first, rest⟩ := t
  have hfirst := first.operand_ne_register
  have hpush : os.length < c := by
    simp only [Term.depth] at hc
    split at hc <;> omega
  refine generates_cons (generates_pushOperand hpush) ?_
  dsimp only
  -- Pushing a value puts no register in use.
  rw [← holding_cons first.register?_operand]
  refine generates_productLinks rest (hfirst _) (fun p hp => absurd hp (hfirst p)) heax hops ?_ hr
  intro hne
  simpa [Term.depth, hne] using hc

theorem generates_sumLink (op : AddOp) (t : Term) (hl : left ≠ .register .eax)
    (hc : 1 + t.depth ≤ c) :
    Generates (actions (.operator (.additive op) :: t.actions ++ [.add]))
      ⟨c, [left], [], holding [left], n, k, code⟩ ()
      ⟨c, [.register (sumRegister left (t.operand (spare left.register?)))], [],
        holding [.register (sumRegister left (t.operand (spare left.register?)))], n, k,
        code ++ t.code (spare left.register?)
          ++ sumCode left (t.operand (spare left.register?)) op⟩ := by
  -- The term went to a register other than the one that the left side waits in.
  have hright (p : Register) (hp : t.operand (spare left.register?) = .register p) :
      left ≠ .register p := by
    rw [Term.operand_eq_register hp]
    exact ne_spare left
  have hpush : 0 < c := by omega
  refine generates_append (generates_cons (generates_pushOperator hpush) ?_)
    (generates_cons (generates_add op hl hright hpush) (generates_pure () _))
  exact generates_term t (by simpa using hl.symm) (by simp) hc (find?_holding (.inr ⟨left, rfl⟩))

theorem generates_sumLinks (links : List (AddOp × Term)) (hl : left ≠ .register .eax)
    (hc : ∀ l ∈ links, 1 + l.2.depth ≤ c) :
    Generates (actions (links.flatMap fun (op, t) => .operator (.additive op) :: t.actions ++ [.add]))
      ⟨c, [left], [], holding [left], n, k, code⟩ ()
      ⟨c, [sumOperand left links], [], holding [sumOperand left links], n, k,
        code ++ sumLinksCode left links⟩ := by
  induction links generalizing left code with
  | nil =>
    rw [sumLinksCode, List.append_nil]
    exact generates_pure () ⟨c, [left], [], holding [left], n, k, code⟩
  | cons link links ih =>
    obtain ⟨op, t⟩ := link
    obtain ⟨hroom, hrest⟩ := List.forall_mem_cons.1 hc
    have rest := @ih (.register (sumRegister left (t.operand (spare left.register?))))
      (code ++ t.code (spare left.register?) ++ sumCode left (t.operand (spare left.register?)) op)
      (by simpa using sumRegister_ne_eax _ hl) hrest
    rw [sumLinksCode, sumOperand, List.flatMap_cons]
    simp only [← List.append_assoc]
    exact generates_append (generates_sumLink op t hl hroom) rest

theorem generates_expr (e : Expr) (hc : e.depth ≤ c) :
    Generates (actions e.actions) ⟨c, [], [], {}, n, k, code⟩ ()
      ⟨c, [e.operand], [], holding [e.operand], n, k, code ++ e.code⟩ := by
  obtain ⟨hfirst, hrest⟩ := Expr.depth_le_iff.1 hc
  rw [Expr.code, ← List.append_assoc]
  exact generates_append
    (generates_term e.first (by simp) (by simp) (by simpa using hfirst) (find?_holding (.inl rfl)))
    (generates_sumLinks e.rest (e.first.operand_ne_eax (by decide)) hrest)

theorem generates_assignment (a : Assignment) (hc : a.value.depth ≤ c) :
    Generates (actions a.actions) ⟨c, [], [], {}, n, k, code⟩ ()
      ⟨c, [], [], {}, n, k, code ++ a.code⟩ := by
  rw [Assignment.code, ← List.append_assoc]
  exact generates_append (generates_expr a.value hc)
    (generates_cons (generates_assign a.target (released_holding (by simp))) (generates_pure () _))

/-- A loop up to its body: two values wait for their comparison. -/
theorem generates_opening (left right : Value) (op : Comparison) (hc : 2 ≤ c) :
    Generates (actions [.loopBegin, .operand left.operand, .operator (.comparison op),
        .operand right.operand, .compare, .branch])
      ⟨c, [], [], {}, n, n, code⟩ ()
      ⟨c, [], [], {}, n + 1, n + 1, code ++ [.label (.begin (n + 1))]
        ++ [.cmp left.operand right.operand, .jump (inside op) (.body (n + 1)),
          .jump (past op) (.exit (n + 1)), .label (.body (n + 1))]⟩ :=
  have hone : 0 < c := by omega
  generates_cons generates_loopBegin <| generates_cons (generates_pushOperand hone) <|
    generates_cons (generates_pushOperator hone) <| generates_cons (generates_pushOperand hc) <|
    generates_condition op

/-- A statement that finds nothing on the stacks and no register in use leaves them so. -/
theorem generates_statement (st : Statement) (hc : st.depth ≤ c) :
    Generates (actions st.actions) ⟨c, [], [], {}, n, n, code⟩ ()
      ⟨c, [], [], {}, n + st.loops, n + st.loops, code ++ st.code (n + 1)⟩ := by
  cases st with
  | assignment a =>
    exact generates_append (generates_assignment a hc)
      (generates_cons generates_finish (generates_pure () _))
  | loop left op right body =>
    obtain ⟨htwo, hbody⟩ := Nat.max_le.1 hc
    have hcode : code ++ (Statement.loop left op right body).code (n + 1) =
        code ++ [.label (.begin (n + 1))] ++ [.cmp left.operand right.operand,
          .jump (inside op) (.body (n + 1)), .jump (past op) (.exit (n + 1)),
            .label (.body (n + 1))]
          ++ body.code ++ [.jump .always (.begin (n + 1)), .label (.exit (n + 1))] := by
      simp [Statement.code, conditionCode]
    rw [hcode]
    exact generates_append
      (generates_append (generates_opening left right op htwo) (generates_assignment body hbody)) <|
      generates_cons generates_loopEnd <| generates_cons generates_finish <| generates_pure () _

end Generate

/-! ## The translator -/

namespace Translator

variable {t : Translator} {c n : Nat} {code : List Instr}

theorem follow_of_ok {steps : List Step} {g : Generator}
    (h : Generate.actions (steps.filterMap Step.action?) t.generator = .ok () g) :
    ∃ t', t.follow steps = (.ok (), t') ∧ t'.generator = g := by
  have hf := follow_actions t steps
  rw [h] at hf
  exact ⟨(t.follow steps).2, Prod.ext hf.1 rfl, hf.2⟩

theorem follow_of_error {steps : List Step} {e : Error} {g : Generator}
    (h : Generate.actions (steps.filterMap Step.action?) t.generator = .error e g) :
    ∃ t', t.follow steps = (.error e, t') ∧ t'.generator = g := by
  have hf := follow_actions t steps
  rw [h] at hf
  exact ⟨(t.follow steps).2, Prod.ext hf.1 rfl, hf.2⟩

theorem follow_ok {steps : List Step} {l l' : Layout} (hg : t.generator.Shows l)
    (h : Generates (Generate.actions (steps.filterMap Step.action?)) l () l') :
    ∃ t', t.follow steps = (.ok (), t') ∧ t'.generator.Shows l' := by
  obtain ⟨g, hx, hg'⟩ := h t.generator hg
  obtain ⟨t', hf, rfl⟩ := follow_of_ok hx
  exact ⟨t', hf, hg'⟩

theorem statement_reads (st : Statement) {tail : Spelling}
    (hahead : t.cursor.ahead = st.spelling ++ tail) (hc : st.depth ≤ c)
    (hg : t.generator.Shows ⟨c, [], [], {}, n, n, code⟩) :
    ∃ t', t.statement = (.ok .statement, t') ∧ t'.cursor.ahead = tail ∧
      t'.generator.Shows
        ⟨c, [], [], {}, n + st.loops, n + st.loops, code ++ st.code (n + 1)⟩ := by
  obtain ⟨r, hx, ht⟩ := Read.statement_reads (r := { cursor := t.cursor }) st hahead
  have hacts : r.steps.toList.filterMap Step.action? = st.actions := ht.actions
  obtain ⟨t', hf, hg'⟩ := follow_ok hg (hacts ▸ Generate.generates_statement st hc)
  unfold statement
  rw [hx]
  dsimp only
  rw [hf]
  exact ⟨_, rfl, ht.rest hahead, hg'⟩

theorem statement_stops (hahead : t.cursor.ahead = [])
    (hg : t.generator.Shows ⟨c, [], [], {}, n, n, code⟩) :
    ∃ t', t.statement = (.ok .endOfInput, t') ∧ t'.code.toList = code := by
  obtain ⟨r, hx, ht⟩ := Read.statement_stops (r := { cursor := t.cursor }) hahead
  have hacts : r.steps.toList.filterMap Step.action? = [] := ht.actions
  have hnone : Generates (Generate.actions (r.steps.toList.filterMap Step.action?))
      ⟨c, [], [], {}, n, n, code⟩ () ⟨c, [], [], {}, n, n, code⟩ := by
    rw [hacts]; exact Generate.generates_pure () _
  obtain ⟨t', hf, hg'⟩ := follow_ok hg hnone
  unfold statement
  rw [hx]
  dsimp only
  rw [hf]
  exact ⟨_, rfl, hg'.code⟩

theorem run_reads (program : List Statement) (count : Nat)
    (hahead : t.cursor.ahead = program.flatMap Statement.spelling)
    (hc : ∀ st ∈ program, st.depth ≤ c) (hg : t.generator.Shows ⟨c, [], [], {}, n, n, code⟩) :
    (t.run count).1 = .ok (code ++ programCode n program).toArray := by
  induction program generalizing t n code count with
  | nil =>
    obtain ⟨t', hs, hcode⟩ := statement_stops hahead hg
    rw [run]
    split <;> rename_i h' <;> rw [hs] at h' <;> cases h'
    rw [programCode, List.append_nil, ← hcode]
  | cons st program ih =>
    obtain ⟨hst, hrest⟩ := List.forall_mem_cons.1 hc
    obtain ⟨t', hs, hahead', hg'⟩ := statement_reads st hahead hst hg
    rw [run]
    split <;> rename_i h' <;> rw [hs] at h' <;> cases h'
    rw [ih _ hahead' hrest hg', programCode, List.append_assoc]

end Translator

/-- A record list that spells statements is translated to their code, as long as the stacks have
room for what waits in each of them. -/
theorem translate_eq_programCode {records : List Record} {program : List Statement} {capacity : Nat}
    (h : program.flatMap Statement.spelling = (significant records).map Token.spelling)
    (hc : ∀ st ∈ program, st.depth ≤ capacity) :
    translate records capacity = .ok (programCode 0 program).toArray :=
  Translator.run_reads (t := .ofRecords records capacity) program 0 h.symm hc
    { operandRoom := rfl, operatorRoom := rfl, operands := rfl, operators := rfl
      registers := rfl, loops := rfl, branches := rfl, code := rfl }

end LoopAsm
