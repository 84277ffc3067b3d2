/-
How much room the stacks need. What a statement needs is read off its operators: a single operand
needs room for itself, an operation for both of its sides, and a product behind a sum for the sum
as well. Long sums and products need no more, since every operation leaves one result in the place
of its operands.

With that much room a statement is translated, and to the same code however much more there is.
With less the operand stack is found full, before anything else can fail: an operator is pushed
where fewer operators than operands wait.
-/
import LoopAsm.Compile
import LoopAsm.Proofs.Grammar.Acceptance
import LoopAsm.Proofs.Translate.Emission
import Mathlib.Data.List.Basic

namespace LoopAsm

/-! ## Room by the operators of a statement -/

/-- The room for a sum: a product behind an additive operator makes three operands wait, any other
operator two. -/
def Expr.room (e : Expr) : Nat :=
  if e.rest.any fun link => !link.2.rest.isEmpty then 3
  else if e.rest.isEmpty && e.first.rest.isEmpty then 1
  else 2

/-- The room for a statement. A condition has two sides. -/
def Statement.room : Statement → Nat
  | assignment a => a.value.room
  | loop _ _ _ body => max 2 body.value.room

/-- The room for statements one after the other. -/
def programRoom (program : List Statement) : Nat :=
  (program.map Statement.room).foldr max 0

theorem Term.depth_eq_one {t : Term} (h : t.rest = []) : t.depth = 1 := by
  simp [depth, h]

theorem Term.depth_eq_two {t : Term} (h : t.rest ≠ []) : t.depth = 2 := by
  simp [depth, h]

/-- What waits while a sum is translated is what its operators say. -/
theorem Expr.room_eq_depth (e : Expr) : e.room = e.depth := by
  obtain ⟨hfirst, hrest⟩ := Expr.depth_le_iff.1 (Nat.le_refl e.depth)
  unfold room
  split
  · rename_i hproduct
    obtain ⟨link, hlink, hne⟩ := List.any_eq_true.1 hproduct
    have htwo : link.2.depth = 2 := Term.depth_eq_two (by simpa using hne)
    have hthree := hrest link hlink
    have := e.depth_le
    omega
  · rename_i hvalues
    have hone (link : AddOp × Term) (hlink : link ∈ e.rest) : link.2.depth = 1 := by
      refine Term.depth_eq_one ?_
      simp only [List.any_eq_true, not_exists, not_and] at hvalues
      simpa using hvalues link hlink
    split
    · rename_i hsingle
      simp only [Bool.and_eq_true, List.isEmpty_iff] at hsingle
      rw [depth, hsingle.1, List.foldr_nil, Term.depth_eq_one hsingle.2]
    · rename_i hoperator
      have hle : e.depth ≤ 2 := by
        refine Expr.depth_le_iff.2 ⟨e.first.depth_le, fun link hlink => ?_⟩
        rw [hone link hlink]
      simp only [Bool.and_eq_true, List.isEmpty_iff, not_and_or] at hoperator
      rcases hoperator with h | h
      · obtain ⟨link, hlink⟩ := List.exists_mem_of_ne_nil _ h
        have := hrest link hlink
        have := hone link hlink
        omega
      · have := Term.depth_eq_two h
        omega

theorem Statement.room_eq_depth (st : Statement) : st.room = st.depth := by
  cases st with
  | assignment a => exact a.value.room_eq_depth
  | loop left op right body => exact congrArg (max 2) body.value.room_eq_depth

theorem programRoom_le_iff {program : List Statement} {c : Nat} :
    programRoom program ≤ c ↔ ∀ st ∈ program, st.depth ≤ c := by
  unfold programRoom
  induction program with
  | nil => simp
  | cons st program ih =>
    rw [List.map_cons, List.foldr_cons, Nat.max_le, ih, List.forall_mem_cons,
      Statement.room_eq_depth]

namespace Generate

open RegisterTable (holding)

variable {α β : Type} {c n k : Nat} {left : Operand} {os : List Operand} {ops : List Operator}
  {code : List Instr} {as bs : List Action} {l l' : Layout} {e : Error}

/-! ## Steps that fail -/

/-- A step of code generation fails in a given state. -/
def Fails (x : Generate α) (l : Layout) (e : Error) : Prop :=
  ∀ g : Generator, g.Shows l → ∃ g', x g = .error e g'

theorem fails_bind {x : Generate α} (hx : Fails x l e) (f : α → Generate β) :
    Fails (x >>= f) l e := by
  intro g hg
  obtain ⟨g', hx⟩ := hx g hg
  exact ⟨g', by simp only [Bind.bind, EStateM.bind, hx]⟩

theorem fails_behind {x : Generate α} {f : α → Generate β} {a : α} (hx : Generates x l a l')
    (hf : Fails (f a) l' e) : Fails (x >>= f) l e := by
  intro g hg
  obtain ⟨g', hx, hg'⟩ := hx g hg
  obtain ⟨g'', hf⟩ := hf g' hg'
  exact ⟨g'', by rw [bind_of_ok hx, hf]⟩

theorem fails_cons {a : Action} (h : Generates (action a) l () l')
    (h' : Fails (actions as) l' e) : Fails (actions (a :: as)) l e :=
  fails_behind h h'

theorem fails_append (h : Fails (actions as) l e) (bs : List Action) :
    Fails (actions (as ++ bs)) l e := by
  rw [actions_append]
  exact fails_bind h _

theorem fails_append_behind (h : Generates (actions as) l () l') (h' : Fails (actions bs) l' e) :
    Fails (actions (as ++ bs)) l e := by
  rw [actions_append]
  exact fails_behind h h'

/-- An operand is pushed on a full stack. -/
theorem fails_operand {t : RegisterTable} {o : Operand} (h : c ≤ os.length) :
    Fails (actions (.operand o :: as)) ⟨c, os, ops, t, n, k, code⟩ (.stackOverflow c) := by
  refine fails_bind (fun g hg => ?_) _
  have hfull : ¬ g.operands.items.length < g.operands.capacity := by
    rw [hg.operands, hg.operandRoom]
    exact Nat.not_lt.2 h
  refine ⟨g, ?_⟩
  show pushOperand o g = _
  unfold pushOperand Stack.push
  rw [dif_neg hfull, hg.operandRoom]

/-! ## Trees that need more room -/

theorem fails_term (t : Term) (hops : ops.length ≤ os.length) (hc : c < os.length + t.depth) :
    Fails (actions t.actions) ⟨c, os, ops, holding os, n, k, code⟩ (.stackOverflow c) := by
  by_cases hfull : c ≤ os.length
  · exact fails_operand hfull
  · -- The first value has room, so there is a second one.
    obtain ⟨first, rest⟩ := t
    cases rest with
    | nil =>
      rw [Term.depth_eq_one rfl] at hc
      omega
    | cons link links =>
      have := Term.depth_le ⟨first, link :: links⟩
      have hpush : os.length < c := by omega
      have hpush' : ops.length < c := by omega
      refine fails_cons (generates_pushOperand hpush) ?_
      refine fails_cons (generates_pushOperator hpush') (fails_operand ?_)
      rw [List.length_cons]
      omega

theorem fails_sumLinks (links : List (AddOp × Term)) (hl : left ≠ .register .eax) (hpush : 0 < c)
    (hc : ∃ l ∈ links, c < 1 + l.2.depth) :
    Fails (actions (links.flatMap fun (op, t) => .operator (.additive op) :: t.actions ++ [.add]))
      ⟨c, [left], [], holding [left], n, k, code⟩ (.stackOverflow c) := by
  induction links generalizing left code with
  | nil => simp at hc
  | cons link links ih =>
    obtain ⟨op, t⟩ := link
    rw [List.flatMap_cons]
    by_cases hroom : 1 + t.depth ≤ c
    · have hrest := ((List.exists_mem_cons_iff ..).1 hc).resolve_left (Nat.not_lt.2 hroom)
      refine fails_append_behind (generates_sumLink op t hl hroom) (ih ?_ hrest)
      simpa using sumRegister_ne_eax _ hl
    · have hterm : Fails (actions (.operator (.additive op) :: t.actions))
          ⟨c, [left], [], holding [left], n, k, code⟩ (.stackOverflow c) :=
        fails_cons (generates_pushOperator hpush)
          (fails_term t (Nat.le_refl _) (Nat.not_le.1 hroom))
      exact fails_append (fails_append hterm _) _

theorem fails_expr (x : Expr) (hc : c < x.depth) :
    Fails (actions x.actions) ⟨c, [], [], {}, n, k, code⟩ (.stackOverflow c) := by
  by_cases hfirst : x.first.depth ≤ c
  · have hrest : ∃ l ∈ x.rest, c < 1 + l.2.depth := by
      by_contra h
      simp only [not_exists, not_and, Nat.not_lt] at h
      exact absurd (Expr.depth_le_iff.2 ⟨hfirst, h⟩) (Nat.not_le.2 hc)
    have hpush : 0 < c := by
      unfold Term.depth at hfirst
      split at hfirst <;> omega
    refine fails_append_behind (generates_term x.first (by simp) (by simp) (by simpa using hfirst)
      (find?_holding (.inl rfl))) ?_
    exact fails_sumLinks x.rest (x.first.operand_ne_eax (by decide)) hpush hrest
  · exact fails_append (fails_term x.first (Nat.le_refl _) (by simpa using hfirst)) _

theorem fails_assignment (a : Assignment) (hc : c < a.value.depth) :
    Fails (actions a.actions) ⟨c, [], [], {}, n, k, code⟩ (.stackOverflow c) :=
  fails_append (fails_expr a.value hc) _

/-- A statement that needs more room than there is finds the operand stack full. -/
theorem fails_statement (st : Statement) (hc : c < st.depth) :
    Fails (actions st.actions) ⟨c, [], [], {}, n, n, code⟩ (.stackOverflow c) := by
  cases st with
  | assignment a => exact fails_append (fails_assignment a hc) _
  | loop left op right body =>
    by_cases htwo : 2 ≤ c
    · have hbody : c < body.value.depth := by
        have : c < max 2 body.value.depth := hc
        omega
      exact fails_append
        (fails_append_behind (generates_opening left right op htwo) (fails_assignment body hbody)) _
    · have hcondition : Fails (actions [.loopBegin, .operand left.operand,
          .operator (.comparison op), .operand right.operand, .compare, .branch])
          ⟨c, [], [], {}, n, n, code⟩ (.stackOverflow c) := by
        refine fails_cons generates_loopBegin ?_
        by_cases hone : 0 < c
        · refine fails_cons (generates_pushOperand hone) ?_
          refine fails_cons (generates_pushOperator hone) (fails_operand ?_)
          exact Nat.le_of_lt_succ (Nat.not_le.1 htwo)
        · exact fails_operand (Nat.not_lt.1 hone)
      exact fails_append (fails_append hcondition _) _

end Generate

/-! ## The translator -/

namespace Translator

variable {t : Translator} {c n : Nat} {code : List Instr}

theorem statement_overflows (st : Statement) {tail : Spelling}
    (hahead : t.cursor.ahead = st.spelling ++ tail) (hc : c < st.depth)
    (hg : t.generator.Shows ⟨c, [], [], {}, n, n, code⟩) :
    ∃ t', t.statement = (.error (.stackOverflow c), t') := by
  obtain ⟨r, hx, ht⟩ := Read.statement_reads (r := { cursor := t.cursor }) st hahead
  have hacts : r.steps.toList.filterMap Step.action? = st.actions := ht.actions
  obtain ⟨g, hfails⟩ := Generate.fails_statement st hc t.generator hg
  obtain ⟨t', hf, -⟩ := follow_of_error (hacts ▸ hfails)
  unfold statement
  rw [hx]
  dsimp only
  rw [hf]
  exact ⟨t', rfl⟩

/-- The first statement that needs more room ends the translation. -/
theorem run_overflows (program : List Statement) (count : Nat)
    (hahead : t.cursor.ahead = program.flatMap Statement.spelling)
    (hc : ∃ st ∈ program, c < st.depth) (hg : t.generator.Shows ⟨c, [], [], {}, n, n, code⟩) :
    (t.run count).1 = .error (.stackOverflow c) := by
  induction program generalizing t n code count with
  | nil => simp at hc
  | cons st program ih =>
    by_cases hst : st.depth ≤ c
    · have hrest := ((List.exists_mem_cons_iff ..).1 hc).resolve_left (Nat.not_lt.2 hst)
      obtain ⟨t', hs, hahead', hg'⟩ := statement_reads st hahead hst hg
      rw [run]
      split <;> rename_i h' <;> rw [hs] at h' <;> cases h'
      exact ih _ hahead' hrest hg'
    · obtain ⟨t', hs⟩ := statement_overflows st hahead (Nat.not_le.1 hst) hg
      rw [run]
      split <;> rename_i h' <;> rw [hs] at h' <;> cases h'
      rfl

end Translator

/-- A record list that spells statements is translated exactly where there is room for them. -/
theorem translate_of_room {records : List Record} {program : List Statement}
    (h : program.flatMap Statement.spelling = (significant records).map Token.spelling)
    (capacity : Nat) :
    translate records capacity =
      if programRoom program ≤ capacity then .ok (programCode 0 program).toArray
      else .error (.stackOverflow capacity) := by
  split
  · rename_i hroom
    exact translate_eq_programCode h (programRoom_le_iff.1 hroom)
  · rename_i hroom
    have hover : ∃ st ∈ program, capacity < st.depth := by
      simpa [programRoom_le_iff] using hroom
    exact Translator.run_overflows (t := .ofRecords records capacity) program 0 h.symm hover
      { operandRoom := rfl, operatorRoom := rfl, operands := rfl, operators := rfl
        registers := rfl, loops := rfl, branches := rfl, code := rfl }

/-- Statements that one record list spells have the same code. -/
theorem programCode_unique {records : List Record} {p q : List Statement}
    (hp : p.flatMap Statement.spelling = (significant records).map Token.spelling)
    (hq : q.flatMap Statement.spelling = (significant records).map Token.spelling) :
    (programCode 0 p).toArray = (programCode 0 q).toArray := by
  have htranslate := translate_eq_programCode hp fun st _ => st.depth_le
  rw [translate_eq_programCode hq fun st _ => st.depth_le] at htranslate
  exact (Except.ok.inj htranslate).symm

/-- The room that an accepted record list needs is exact. It is accepted as statements; with room
for what their operators ask, a compilation succeeds, and with the same code whatever the capacity;
with less it fails because a stack is full. -/
theorem compile_ok_iff_room (records : List Record) {n : Nat} (h : validate records = .ok n) :
    (∃ program : List Statement, program.length = n ∧
      program.flatMap Statement.spelling = (significant records).map Token.spelling) ∧
    ∃ code, ∀ program : List Statement,
      program.flatMap Statement.spelling = (significant records).map Token.spelling →
      ∀ capacity, compile records capacity =
        if programRoom program ≤ capacity then .ok code else .error (.stackOverflow capacity) := by
  obtain ⟨program, hlength, hspell⟩ := validate_eq_ok_iff.1 h
  refine ⟨⟨program, hlength, hspell⟩, (programCode 0 program).toArray, ?_⟩
  intro program' hspell' capacity
  rw [compile_eq, h]
  dsimp only
  rw [translate_of_room hspell', programCode_unique hspell' hspell]

/-- A product is taken from a sum in the body of a loop, which makes three operands wait; an
assignment of a single operand comes before it. -/
theorem compile_ok_iff_room_for_three :
    validate (scan "x = 1; while (i < n) s = s - 2 * i;") = .ok 2 ∧
    ∃ code, ∀ capacity, compile (scan "x = 1; while (i < n) s = s - 2 * i;") capacity =
      if 3 ≤ capacity then .ok code else .error (.stackOverflow capacity) := by
  have hvalid : validate (scan "x = 1; while (i < n) s = s - 2 * i;") = .ok 2 := by
    decide +kernel
  obtain ⟨-, code, hcode⟩ := compile_ok_iff_room _ hvalid
  refine ⟨hvalid, code, hcode [.assignment ⟨"x", ⟨⟨.int "1", []⟩, []⟩⟩,
    .loop (.var "i") .less (.var "n")
      ⟨"s", ⟨⟨.var "s", []⟩, [(.minus, ⟨.int "2", [(.times, .var "i")]⟩)]⟩⟩] ?_⟩
  decide +kernel

end LoopAsm
