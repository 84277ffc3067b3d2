/-
How the productions of the grammar come to call one another. Reading a statement is one run
through them, and what a reader or a translator does on the way can be said of each place where a
production begins and of each place where it ends well.

The parts of a product and of a sum behind the first operand are productions too: each calls
itself for what is left behind one more link.
-/
import LoopAsm.Proofs.Grammar.Parse

namespace LoopAsm

/-- The productions of the grammar. -/
inductive Production where
  | statement
  | assignment
  | condition
  | comparison
  | sum
  | sumRest
  | product
  | productRest
  | operand
  deriving DecidableEq, Repr, Inhabited

namespace Read

/-- `O`: the operator of a comparison. -/
def comparison : Read Unit := do
  let op ← expect .comparison Comparison.ofToken?
  act (.operator (.comparison op))

theorem condition_eq : condition = (do operand; comparison; operand; act .compare) := by
  unfold condition comparison
  simp only [bind_assoc]

/-- The words before the condition of a loop, behind its first word. -/
def opening : Read Unit := do
  act .loopBegin
  punctuation .openParen

theorem comparison_ok {r r' : Reading} (h : comparison r = .ok () r') :
    ∃ t op, Took r r' [Token.spelling t] [.operator (.comparison op)] := by
  obtain ⟨op, r₁, hop, hpush⟩ := bind_eq_ok h
  obtain ⟨t, -, ht⟩ := expect_ok hop
  exact ⟨t, op, ht.trans (act_ok hpush)⟩

theorem opening_ok {r r' : Reading} (h : opening r = .ok () r') :
    Took r r' [Punctuation.openParen.word] [.loopBegin] := by
  obtain ⟨_, r₁, hbegin, hopen⟩ := bind_eq_ok h
  exact (act_ok hbegin).trans (punctuation_ok hopen)

/-- What is left of a product behind an operand. -/
def productRest : Read Unit :=
  chain productLink productLink_consumes

/-- What is left of a sum behind a product. -/
def sumRest : Read Unit :=
  chain sumLink sumLink_consumes

theorem term_eq : term = (do operand; productRest) := rfl

theorem sum_eq : sum = (do term; sumRest) := rfl

section

variable {α β : Type} {r r₁ r' : Reading}

theorem bind_apply_congr {x y : Read α} (h : x r = y r') (f : α → Read β) :
    (x >>= f) r = (y >>= f) r' := by
  simp only [Bind.bind, EStateM.bind, h]

variable {l : Read Bool} {progress : Consumes l (· = true)}

/-- Behind its operator, a link goes on with what stands there, and then with the next link. -/
theorem chain_of_accept {view : Token → Option α} {operator : α → Operator} {body : Read Unit}
    {last : Action} {op : α} (hl : l = link view operator body last)
    (ha : accept view r = .ok (some op) r₁) (hp : act (.operator (operator op)) r₁ = .ok () r') :
    chain l progress r = (do body; act last; chain l progress : Read Unit) r' := by
  have hlink : l r = (do body; act last; return true : Read Bool) r' := by
    rw [hl, link, bind_of_ok ha]
    exact bind_of_ok hp _
  rw [congrFun (chain_eq l progress) r, bind_apply_congr hlink]
  simp only [bind_assoc, pure_bind]
  rfl

end

end Read

namespace Production

open Read

/-- How a production is read. -/
def read : Production → Read Unit
  | statement => do let _ ← Read.statement
  | assignment => Read.assignment
  | condition => Read.condition
  | comparison => Read.comparison
  | sum => Read.sum
  | sumRest => Read.sumRest
  | product => Read.term
  | productRest => Read.productRest
  | operand => Read.operand

/-- One production calls another: `Calls p r q r'` if `p`, read from `r`, comes to `q` at `r'`. -/
inductive Calls : Production → Reading → Production → Reading → Prop
  /-- A loop comes to its condition behind the first two words. -/
  | guard {t : Token} {r r₁ r' : Reading} (hn : next r = .ok (some t) r₁) (hw : t.isWhile = true)
      (h : opening r₁ = .ok () r') :
      Calls statement r condition r'
  /-- The body of a loop is behind its condition. -/
  | body {t : Token} {r r₁ r' : Reading} (hn : next r = .ok (some t) r₁) (hw : t.isWhile = true)
      (h : (do opening; Read.condition; punctuation .closeParen; act .branch) r₁ = .ok () r') :
      Calls statement r assignment r'
  /-- A statement that is no loop is an assignment. -/
  | plain {t : Token} {r r₁ r' : Reading} (hn : next r = .ok (some t) r₁) (hw : t.isWhile = false)
      (h : unget t r₁ = .ok () r') :
      Calls statement r assignment r'
  | left (r : Reading) : Calls condition r operand r
  | comparison {r r' : Reading} (h : Read.operand r = .ok () r') :
      Calls condition r comparison r'
  | right {r r' : Reading} (h : (do Read.operand; Read.comparison) r = .ok () r') :
      Calls condition r operand r'
  | value {r r' : Reading}
      (h : (do let _ ← expect .target variableName?; punctuation .equals) r = .ok () r') :
      Calls assignment r sum r'
  | firstProduct (r : Reading) : Calls sum r product r
  | sumRest {r r' : Reading} (h : Read.term r = .ok () r') : Calls sum r sumRest r'
  | nextProduct {op : AddOp} {r r₁ r' : Reading} (ha : accept AddOp.ofToken? r = .ok (some op) r₁)
      (hp : act (.operator (.additive op)) r₁ = .ok () r') :
      Calls sumRest r product r'
  | sumLink {r r' : Reading} (h : Read.sumLink r = .ok true r') : Calls sumRest r sumRest r'
  | firstOperand (r : Reading) : Calls product r operand r
  | productRest {r r' : Reading} (h : Read.operand r = .ok () r') :
      Calls product r productRest r'
  | nextOperand {op : MulOp} {r r₁ r' : Reading} (ha : accept MulOp.ofToken? r = .ok (some op) r₁)
      (hp : act (.operator (.multiplicative op)) r₁ = .ok () r') :
      Calls productRest r operand r'
  | productLink {r r' : Reading} (h : Read.productLink r = .ok true r') :
      Calls productRest r productRest r'

/-- The productions that reading a statement from `start` comes to, and where. -/
inductive Entered (start : Reading) : Production → Reading → Prop
  | statement : Entered start statement start
  | call {p q : Production} {r r' : Reading} (h : Entered start p r) (hcall : Calls p r q r') :
      Entered start q r'

variable {p q : Production} {r r' start : Reading}

theorem loop_eq : loop = (do
    opening
    Read.condition
    punctuation .closeParen
    act .branch
    Read.assignment
    act .loopEnd) := by
  unfold loop opening
  simp only [bind_assoc]

theorem statement_of_while {t : Token} {r r₁ : Reading} (hn : next r = .ok (some t) r₁)
    (hw : t.isWhile = true) :
    statement.read r = (do loop; let _ ← close : Read Unit) r₁ := by
  rw [read, Read.statement, bind_assoc, bind_of_ok hn]
  simp only [hw, if_true, bind_assoc]

theorem statement_of_other {t : Token} {r r₁ : Reading} (hn : next r = .ok (some t) r₁)
    (hw : t.isWhile = false) :
    statement.read r = (do unget t; Read.assignment; let _ ← close : Read Unit) r₁ := by
  rw [read, Read.statement, bind_assoc, bind_of_ok hn]
  simp only [hw, Bool.false_eq_true, if_false, bind_assoc]

/-- Where one production calls another, reading it goes on with the other. -/
theorem Calls.continues (h : Calls p r q r') :
    ∃ f : Unit → Read Unit, p.read r = (q.read >>= f) r' := by
  cases h with
  | guard hn hw h =>
    refine ⟨fun _ => do
      punctuation .closeParen
      act .branch
      Read.assignment
      act .loopEnd
      let _ ← close, ?_⟩
    rw [statement_of_while hn hw, loop_eq, bind_assoc, bind_of_ok h]
    simp only [bind_assoc]
    rfl
  | body hn hw h =>
    refine ⟨fun _ => do
      act .loopEnd
      let _ ← close, ?_⟩
    obtain ⟨_, r₂, hopening, h⟩ := bind_eq_ok h
    obtain ⟨_, r₃, hcondition, h⟩ := bind_eq_ok h
    obtain ⟨_, r₄, hclose, hbranch⟩ := bind_eq_ok h
    rw [statement_of_while hn hw, loop_eq]
    simp only [bind_assoc]
    rw [bind_of_ok hopening, bind_of_ok hcondition, bind_of_ok hclose, bind_of_ok hbranch]
    rfl
  | plain hn hw h =>
    refine ⟨fun _ => do let _ ← close, ?_⟩
    rw [statement_of_other hn hw, bind_of_ok h]
    rfl
  | left =>
    refine ⟨fun _ => do Read.comparison; Read.operand; act .compare, ?_⟩
    rw [read, condition_eq]
    rfl
  | comparison h =>
    refine ⟨fun _ => do Read.operand; act .compare, ?_⟩
    rw [read, condition_eq, bind_of_ok h]
    rfl
  | right h =>
    refine ⟨fun _ => act .compare, ?_⟩
    obtain ⟨_, r₁, hleft, hop⟩ := bind_eq_ok h
    rw [read, condition_eq, bind_of_ok hleft, bind_of_ok hop]
    rfl
  | value h =>
    obtain ⟨target, r₁, htarget, hequals⟩ := bind_eq_ok h
    refine ⟨fun _ => act (.assign target), ?_⟩
    rw [read, Read.assignment, bind_of_ok htarget, bind_of_ok hequals]
    rfl
  | firstProduct => exact ⟨fun _ => Read.sumRest, rfl⟩
  | sumRest h =>
    refine ⟨pure, ?_⟩
    rw [read, sum_eq, bind_of_ok h, bind_pure]
    rfl
  | nextProduct ha hp =>
    refine ⟨fun _ => do act .add; Read.sumRest, ?_⟩
    exact chain_of_accept sumLink_eq ha hp
  | sumLink h =>
    refine ⟨pure, ?_⟩
    rw [bind_pure]
    exact chain_of_link h
  | firstOperand => exact ⟨fun _ => Read.productRest, rfl⟩
  | productRest h =>
    refine ⟨pure, ?_⟩
    rw [read, term_eq, bind_of_ok h, bind_pure]
    rfl
  | nextOperand ha hp =>
    refine ⟨fun _ => do act .multiply; Read.productRest, ?_⟩
    exact chain_of_accept productLink_eq ha hp
  | productLink h =>
    refine ⟨pure, ?_⟩
    rw [bind_pure]
    exact chain_of_link h

/-- Reading a statement goes on with each production that it comes to. -/
theorem Entered.continues (h : Entered start p r) :
    ∃ f : Unit → Read Unit, Production.statement.read start = (p.read >>= f) r := by
  induction h with
  | statement => exact ⟨pure, by rw [bind_pure]⟩
  | call _ hcall ih =>
    obtain ⟨f, hf⟩ := ih
    obtain ⟨f', hf'⟩ := hcall.continues
    refine ⟨fun a => f' a >>= f, ?_⟩
    rw [hf, bind_apply_congr hf' f, bind_assoc]

end Production

end LoopAsm
