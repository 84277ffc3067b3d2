/-
Reading statements. The grammar needs one token of lookahead and no backtracking: a production
that does not apply puts its token back. Reading stops at the first token that does not fit,
which is then in the cursor's slot, and keeps the steps up to there.
-/
import LoopAsm.Grammar.Script

namespace LoopAsm

/-- A statement being read: where the reader is and the steps so far. -/
structure Reading where
  cursor : Cursor
  steps : Array Step := #[]
  deriving DecidableEq, Repr, Inhabited

/-- A bound on the tokens ahead. -/
abbrev Reading.remaining (r : Reading) : Nat := r.cursor.remaining

/-- Reads something, or tells what should have been there. -/
abbrev Read (α : Type) := EStateM Expected Reading α

namespace Read

/-! ## Tokens -/

/-- Takes the next token. -/
def next : Read (Option Token) := fun r =>
  let (token, skipped, cursor) := r.cursor.next
  .ok token { cursor, steps := r.steps ++ skipped.map Step.skip }

/-- Puts a token back. -/
def unget (t : Token) : Read Unit := fun r =>
  .ok () { r with cursor := r.cursor.unget t }

/-- Leaves something for the translator to do. -/
def act (a : Action) : Read Unit := fun r =>
  .ok () { r with steps := r.steps.push (.act a r.cursor) }

/-- Takes the next token if `view` has a value for it. -/
def accept {α : Type} (view : Token → Option α) : Read (Option α) := do
  match ← next with
  | none => return none
  | some t =>
    match view t with
    | some a => return some a
    | none =>
      unget t
      return none

/-- Takes the next token, which `view` has to have a value for. -/
def expect {α : Type} (expected : Expected) (view : Token → Option α) : Read α := do
  match ← accept view with
  | some a => return a
  | none => throw expected

/-- Takes a punctuation. -/
def punctuation (p : Punctuation) : Read Unit :=
  expect (.punctuation p) fun t => if p.isToken t then some () else none

/-! ## Progress -/

/-- Reading `x` does not lengthen what is ahead. -/
def Steady {α : Type} (x : Read α) : Prop :=
  ∀ r, match x r with
    | .ok _ r' => r'.remaining ≤ r.remaining
    | .error _ r' => r'.remaining ≤ r.remaining

/-- Reading `x` shortens what is ahead if it succeeds with a value that `p` holds of. -/
def Consumes {α : Type} (x : Read α) (p : α → Prop) : Prop :=
  ∀ r a r', x r = .ok a r' → p a → r'.remaining < r.remaining

section

variable {α β : Type}

theorem Steady.ok {x : Read α} (h : Steady x) {r r' : Reading} {a : α} (hx : x r = .ok a r') :
    r'.remaining ≤ r.remaining := by
  have := h r
  rwa [hx] at this

theorem Steady.pure (a : α) : Steady (pure a : Read α) :=
  fun _ => Nat.le_refl _

theorem Steady.throw (e : Expected) : Steady (throw e : Read α) :=
  fun _ => Nat.le_refl _

theorem Steady.act (a : Action) : Steady (act a) :=
  fun _ => Nat.le_refl _

theorem Steady.bind {x : Read α} {f : α → Read β} (hx : Steady x) (hf : ∀ a, Steady (f a)) :
    Steady (x >>= f) := by
  intro r
  have h := hx r
  simp only [Bind.bind, EStateM.bind]
  cases hr : x r with
  | ok a r' =>
    simp only [hr] at h ⊢
    have h' := hf a r'
    cases hr' : f a r' <;> simp only [hr'] at h' ⊢ <;> omega
  | error e r' => simpa only [hr] using h

theorem Consumes.bind {x : Read α} {f : α → Read β} {p : α → Prop} {q : β → Prop}
    (hx : Consumes x p) (hs : Steady x) (hf : ∀ a, Steady (f a))
    (hq : ∀ a, ¬ p a → Consumes (f a) q) : Consumes (x >>= f) q := by
  intro r b r'' h hb
  simp only [Bind.bind, EStateM.bind] at h
  cases hr : x r with
  | ok a r' =>
    simp only [hr] at h
    by_cases hp : p a
    · exact Nat.lt_of_le_of_lt ((hf a).ok h) (hx r a r' hr hp)
    · exact Nat.lt_of_lt_of_le (hq a hp r' b r'' h hb) (hs.ok hr)
  | error e r' => simp only [hr] at h; cases h

theorem accept_apply (view : Token → Option α) (r : Reading) :
    accept view r =
      match r.cursor.next with
      | (none, skipped, cursor) => .ok none ⟨cursor, r.steps ++ skipped.map Step.skip⟩
      | (some t, skipped, cursor) =>
        match view t with
        | some a => .ok (some a) ⟨cursor, r.steps ++ skipped.map Step.skip⟩
        | none => .ok none ⟨cursor.unget t, r.steps ++ skipped.map Step.skip⟩ := by
  rcases h : r.cursor.next with ⟨token, skipped, cursor⟩
  simp only [accept, next, Bind.bind, EStateM.bind, h]
  cases token with
  | none => rfl
  | some t => cases hv : view t <;> simp [hv] <;> rfl

theorem accept_steady (view : Token → Option α) : Steady (accept view) := by
  intro r
  have hn := Cursor.remaining_next r.cursor
  rw [accept_apply]
  rcases h : r.cursor.next with ⟨token, skipped, cursor⟩
  rw [h] at hn
  cases token with
  | none => simpa using hn
  | some t =>
    have hu := cursor.remaining_unget_le t
    simp only [Option.toList_some, List.length_singleton] at hn
    cases hv : view t <;> simp only [hv, Reading.remaining] <;> omega

theorem accept_consumes (view : Token → Option α) : Consumes (accept view) (·.isSome) := by
  intro r a r' h ha
  have hn := Cursor.remaining_next r.cursor
  rw [accept_apply] at h
  rcases hc : r.cursor.next with ⟨token, skipped, cursor⟩
  rw [hc] at hn h
  cases token with
  | none => cases h; cases ha
  | some t =>
    simp only [Option.toList_some, List.length_singleton] at hn
    cases hv : view t with
    | none => simp only [hv] at h; cases h; cases ha
    | some b => simp only [hv] at h; cases h; simp only [Reading.remaining]; omega

theorem expect_steady (e : Expected) (view : Token → Option α) : Steady (expect e view) :=
  (accept_steady view).bind fun
    | some a => Steady.pure a
    | none => Steady.throw e

theorem expect_consumes (e : Expected) (view : Token → Option α) :
    Consumes (expect e view) (fun _ => True) := by
  refine (accept_consumes view).bind (accept_steady view) (fun
    | some a => Steady.pure a
    | none => Steady.throw e) (fun
    | some a, h => absurd rfl h
    | none, _ => ?_)
  intro _ _ _ h
  cases h

end

/-! ## Productions -/

/-- Reads links of a chain until one is missing. Every link takes a token, so a chain ends. -/
def chain (link : Read Bool) (progress : Consumes link (· = true)) (r : Reading) :
    EStateM.Result Expected Reading Unit :=
  match _h : link r with
  | .ok true r' => chain link progress r'
  | .ok false r' => .ok () r'
  | .error e r' => .error e r'
termination_by r.remaining
decreasing_by exact progress r true r' _h rfl

theorem chain_steady {link : Read Bool} (hs : Steady link) (progress : Consumes link (· = true)) :
    Steady (chain link progress) := by
  intro r
  fun_induction chain link progress r with
  | case1 r r' h ih =>
    have := hs.ok h
    split at ih <;> omega
  | case2 r r' h => exact hs.ok h
  | case3 r e r' h =>
    have := hs r
    rwa [h] at this

/-- `V`: a variable or an integer. -/
def operand : Read Unit := do
  act (.operand (← expect .operand Operand.ofToken?))

/-- A multiplicative operator and its second operand. -/
def productLink : Read Bool := do
  match ← accept MulOp.ofToken? with
  | none => return false
  | some op =>
    act (.operator (.multiplicative op))
    operand
    act .multiply
    return true

theorem operand_steady : Steady operand :=
  (expect_steady _ _).bind fun _ => Steady.act _

theorem productLink_tail_steady (o : Option MulOp) :
    Steady (match o with
      | none => (return false : Read Bool)
      | some op => do
        act (.operator (.multiplicative op))
        operand
        act .multiply
        return true) :=
  match o with
  | none => Steady.pure _
  | some _ =>
    (Steady.act _).bind fun _ => operand_steady.bind fun _ => (Steady.act _).bind fun _ =>
      Steady.pure _

theorem productLink_steady : Steady productLink :=
  (accept_steady _).bind productLink_tail_steady

theorem productLink_consumes : Consumes productLink (· = true) := by
  refine (accept_consumes _).bind (accept_steady _) productLink_tail_steady (fun
    | some _, h => absurd rfl h
    | none, _ => ?_)
  intro _ _ _ h
  cases h
  simp

/-- `T`: a product. -/
def term : Read Unit := do
  operand
  chain productLink productLink_consumes

theorem term_steady : Steady term :=
  operand_steady.bind fun _ => chain_steady productLink_steady _

/-- An additive operator and its second operand. -/
def sumLink : Read Bool := do
  match ← accept AddOp.ofToken? with
  | none => return false
  | some op =>
    act (.operator (.additive op))
    term
    act .add
    return true

theorem sumLink_tail_steady (o : Option AddOp) :
    Steady (match o with
      | none => (return false : Read Bool)
      | some op => do
        act (.operator (.additive op))
        term
        act .add
        return true) :=
  match o with
  | none => Steady.pure _
  | some _ =>
    (Steady.act _).bind fun _ => term_steady.bind fun _ => (Steady.act _).bind fun _ =>
      Steady.pure _

theorem sumLink_steady : Steady sumLink :=
  (accept_steady _).bind sumLink_tail_steady

theorem sumLink_consumes : Consumes sumLink (· = true) := by
  refine (accept_consumes _).bind (accept_steady _) sumLink_tail_steady (fun
    | some _, h => absurd rfl h
    | none, _ => ?_)
  intro _ _ _ h
  cases h
  simp

/-- `C`: a sum of products. -/
def sum : Read Unit := do
  term
  chain sumLink sumLink_consumes

theorem sum_steady : Steady sum :=
  term_steady.bind fun _ => chain_steady sumLink_steady _

/-- `A`: an assignment. -/
def assignment : Read Unit := do
  let target ← expect .target variableName?
  punctuation .equals
  sum
  act (.assign target)

theorem assignment_tail_steady (target : String) :
    Steady (do
      punctuation .equals
      sum
      act (.assign target)) :=
  (expect_steady _ _).bind fun _ => sum_steady.bind fun _ => Steady.act _

theorem assignment_steady : Steady assignment :=
  (expect_steady _ _).bind assignment_tail_steady

theorem assignment_consumes : Consumes assignment (fun _ => True) :=
  (expect_consumes _ _).bind (expect_steady _ _) assignment_tail_steady
    fun _ h => absurd trivial h

/-- `E`: a comparison of two values. -/
def condition : Read Unit := do
  operand
  let op ← expect .comparison Comparison.ofToken?
  act (.operator (.comparison op))
  operand
  act .compare

theorem condition_steady : Steady condition :=
  operand_steady.bind fun _ => (expect_steady _ _).bind fun _ => (Steady.act _).bind fun _ =>
    operand_steady.bind fun _ => Steady.act _

/-- A loop, behind its first word. -/
def loop : Read Unit := do
  act .loopBegin
  punctuation .openParen
  condition
  punctuation .closeParen
  act .branch
  assignment
  act .loopEnd

theorem loop_steady : Steady loop :=
  (Steady.act _).bind fun _ => (expect_steady _ _).bind fun _ => condition_steady.bind fun _ =>
    (expect_steady _ _).bind fun _ => (Steady.act _).bind fun _ => assignment_steady.bind fun _ =>
      Steady.act _

/-- The end of a statement. -/
def close : Read Bool := do
  punctuation .semicolon
  act .finish
  return true

theorem close_steady : Steady close :=
  (expect_steady _ _).bind fun _ => (Steady.act _).bind fun _ => Steady.pure _

/-- `S`: a statement. At the end of the input there is none, which is no fault. -/
def statement : Read Bool := do
  match ← next with
  | none => return false
  | some t =>
    if t.isWhile then
      loop
      close
    else
      unget t
      assignment
      close

theorem statement_consumes : Consumes statement (· = true) := by
  intro r b r' h hb
  subst hb
  have hn := Cursor.remaining_next r.cursor
  simp only [statement, next, Bind.bind, EStateM.bind] at h
  rcases hc : r.cursor.next with ⟨token, skipped, cursor⟩
  rw [hc] at hn h
  cases token with
  | none => cases h
  | some t =>
    simp only [Option.toList_some, List.length_singleton] at hn
    simp only at h
    split at h
    · have := (loop_steady.bind fun _ => close_steady).ok h
      simp only [Reading.remaining] at this ⊢
      omega
    · have := assignment_consumes.bind assignment_steady (fun _ => close_steady)
        (q := (· = true)) (fun _ h => absurd trivial h) _ _ _ h rfl
      have hu := cursor.remaining_unget_le t
      simp only [Reading.remaining] at this ⊢
      omega

end Read

end LoopAsm
