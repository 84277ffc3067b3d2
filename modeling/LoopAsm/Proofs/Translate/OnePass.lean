/-
Parsing in one pass. A parser that acts while it reads takes a token, does what the production asks
for, and takes the next one; it never sees a statement as a whole. Such a parser is given by its
`Host`, and every call that it makes to the token stream is kept together with the place it is made
from. What it comes to is what reading the statement first and following its steps comes to: both
walk over the same places, and a parser that breaks off at an action breaks off where following the
steps does, since a reader that goes on adds steps behind that action only.
-/
import LoopAsm.Proofs.Grammar.Parse
import LoopAsm.Proofs.Grammar.Places
import LoopAsm.Translate.Translator

namespace LoopAsm

/-! ## Parsers -/

/-- A call to the token stream. -/
inductive Request where
  | next (answer : Option Token)
  | unget (t : Token)
  | peek
  deriving DecidableEq, Repr, Inhabited

/-- A call, and the place it is made from. -/
structure Visit where
  place : Cursor
  call : Request
  deriving DecidableEq, Repr, Inhabited

/-- A parser at work, and the calls that it has made. -/
structure Pass (σ : Type) where
  worker : σ
  visits : List Visit := []

/-- A parser, apart from its productions: where it is, how it gets to another place and reports the
malformed words on the way, what it does at an action, and how it fails. Only a parser that is
`returning` puts back a token that stands for a missing punctuation. -/
structure Host (ε σ : Type) where
  cursor : σ → Cursor
  move : Cursor → List Token → σ → σ
  act : Action → σ → Except ε Unit × σ
  fault : Expected → ε
  returning : Bool
  cursor_move : ∀ c ws s, cursor (move c ws s) = c
  move_move : ∀ c c' ws ws' s, move c' ws' (move c ws s) = move c' (ws ++ ws') s
  move_self : ∀ s, move (cursor s) [] s = s
  cursor_act : ∀ a s, cursor (act a s).2 = cursor s

namespace Host

attribute [simp] cursor_move move_move move_self cursor_act

section

variable {ε σ α β : Type} (h : Host ε σ)

/-- Where the parser of a pass is. -/
def place (p : Pass σ) : Cursor := h.cursor p.worker

@[simp] theorem place_move (c : Cursor) (words : List Token) (s : σ) (visits : List Visit) :
    h.place ⟨h.move c words s, visits⟩ = c :=
  h.cursor_move c words s

/-- Takes the next token. -/
def next : EStateM ε (Pass σ) (Option Token) := fun p =>
  let (token, skipped, cursor) := (h.place p).next
  .ok token ⟨h.move cursor skipped p.worker, p.visits ++ [⟨h.place p, .next token⟩]⟩

/-- Puts a token back. -/
def unget (t : Token) : EStateM ε (Pass σ) Unit := fun p =>
  .ok () ⟨h.move ((h.place p).unget t) [] p.worker, p.visits ++ [⟨h.place p, .unget t⟩]⟩

/-- Does what an action asks for. -/
def perform (a : Action) : EStateM ε (Pass σ) Unit := fun p =>
  match h.act a p.worker with
  | (.ok (), s) => .ok () { p with worker := s }
  | (.error e, s) => .error e { p with worker := s }

/-- Takes the next token if `view` has a value for it. -/
def accept (view : Token → Option α) : EStateM ε (Pass σ) (Option α) := do
  match ← h.next with
  | none => return none
  | some t =>
    match view t with
    | some a => return some a
    | none =>
      h.unget t
      return none

/-- Takes the next token, which `view` has to have a value for. -/
def expect (expected : Expected) (view : Token → Option α) : EStateM ε (Pass σ) α := do
  match ← h.accept view with
  | some a => return a
  | none => throw (h.fault expected)

/-- Takes the next token, which has to be a punctuation, and keeps it whatever it is. -/
def take (p : Punctuation) : EStateM ε (Pass σ) Unit := do
  match ← h.next with
  | none => throw (h.fault (.punctuation p))
  | some t => if p.isToken t then return () else throw (h.fault (.punctuation p))

/-- Takes a punctuation. -/
def punctuation (p : Punctuation) : EStateM ε (Pass σ) Unit :=
  if h.returning then h.expect (.punctuation p) fun t => if p.isToken t then some () else none
  else h.take p

/-! ## Reading first -/

/-- Does what steps ask for, each at its place and up to the first failure. -/
def follow (s : σ) : List Step → Except ε Unit × σ
  | [] => (.ok (), s)
  | .skip word :: steps => follow (h.move (h.cursor s) [word] s) steps
  | .act a place :: steps =>
    match h.act a (h.move place [] s) with
    | (.ok (), s) => follow s steps
    | (.error e, s) => (.error e, s)

/-- Where a parser goes on behind a token that does not fit. -/
def stay (e : Expected) (c : Cursor) : Cursor :=
  if h.returning then c else e.recover c

variable {h} {s s' : σ} {steps more : List Step}

theorem follow_append_of_ok (hs : h.follow s steps = (.ok (), s')) :
    h.follow s (steps ++ more) = h.follow s' more := by
  induction steps generalizing s with
  | nil =>
    cases hs
    rfl
  | cons step steps ih =>
    cases step with
    | skip word => exact ih hs
    | act a place =>
      simp only [List.cons_append, follow] at hs ⊢
      split at hs
      · exact ih hs
      · cases hs

/-- What is read behind an action that fails is not carried out. -/
theorem follow_append_of_error {e : ε} (hs : h.follow s steps = (.error e, s')) :
    h.follow s (steps ++ more) = (.error e, s') := by
  induction steps generalizing s with
  | nil => cases hs
  | cons step steps ih =>
    cases step with
    | skip word => exact ih hs
    | act a place =>
      simp only [List.cons_append, follow] at hs ⊢
      split at hs
      · exact ih hs
      · exact hs

theorem follow_skips (s : σ) (words : List Token) :
    h.follow s (words.map Step.skip) = (.ok (), h.move (h.cursor s) words s) := by
  induction words generalizing s with
  | nil => rw [List.map_nil, follow, h.move_self]
  | cons word words ih =>
    rw [List.map_cons, follow, ih, h.cursor_move, h.move_move]
    rfl

end

end Host

theorem Cursor.discard_of_drained {c : Cursor} (h : c.slot = none) : c.discard = c := by
  rw [discard, ← h]

theorem Cursor.discard_unget {c : Cursor} (h : c.slot = none) (t : Token) :
    (c.unget t).discard = c := by
  cases c
  cases h
  rfl

theorem Read.punctuation_apply (k : Punctuation) (r : Reading) :
    punctuation k r =
      match r.cursor.next with
      | (none, skipped, cursor) =>
        .error (.punctuation k) ⟨cursor, r.steps ++ skipped.map Step.skip⟩
      | (some t, skipped, cursor) =>
        if k.isToken t then .ok () ⟨cursor, r.steps ++ skipped.map Step.skip⟩
        else .error (.punctuation k) ⟨cursor.unget t, r.steps ++ skipped.map Step.skip⟩ := by
  simp only [punctuation, expect, Bind.bind, EStateM.bind, accept_apply]
  rcases r.cursor.next with ⟨_ | t, skipped, cursor⟩
  · rfl
  · by_cases ht : k.isToken t = true <;> simp [ht] <;> rfl

/-! ## Side by side -/

/-- The reading that a production ends with. -/
def Read.ending {α : Type} : EStateM.Result Expected Reading α → Reading
  | .ok _ r | .error _ r => r

namespace Host

variable {ε σ α β : Type} (h : Host ε σ)

/-- A property of passes that their calls and actions keep. A token is put back only when it was
just taken. -/
structure Lasting (P : Pass σ → Prop) : Prop where
  next : ∀ p answer skipped c, P p → (h.place p).next = (answer, skipped, c) →
    P ⟨h.move c skipped p.worker, p.visits ++ [⟨h.place p, .next answer⟩]⟩
  unget : ∀ p t skipped c, P p → (h.place p).next = (some t, skipped, c) →
    P ⟨h.move (c.unget t) skipped p.worker,
      p.visits ++ [⟨h.place p, .next (some t)⟩] ++ [⟨c, .unget t⟩]⟩
  act : ∀ p s, P p → h.cursor s = h.place p → P { p with worker := s }

theorem lasting_true : h.Lasting fun _ => True where
  next _ _ _ _ _ _ := trivial
  unget _ _ _ _ _ _ := trivial
  act _ _ _ _ := trivial

variable (P : Pass σ → Prop) (s₀ : σ)

/-- The parser is what it becomes by following the steps of the reader. -/
structure Abreast (r : Reading) (p : Pass σ) : Prop where
  worker : ∃ s, h.follow s₀ r.steps.toList = (.ok (), s) ∧ p.worker = h.move r.cursor [] s
  holds : P p

/-- How a production ends in one pass, given how it is read. -/
inductive Follows (x : EStateM.Result Expected Reading α) : EStateM.Result ε (Pass σ) α → Prop
  /-- It was read, and its actions were carried out. -/
  | done {a : α} {r : Reading} {p : Pass σ} (hx : x = .ok a r) (habreast : h.Abreast P s₀ r p) :
      Follows x (.ok a p)
  /-- A token does not fit. -/
  | missing {e : Expected} {r : Reading} {p : Pass σ} (hx : x = .error e r)
      (habreast : h.Abreast P s₀ ⟨h.stay e r.cursor, r.steps⟩ p) :
      Follows x (.error (h.fault e) p)
  /-- An action failed, whatever is read behind it. -/
  | broken {e : ε} {p : Pass σ}
      (hfollow : h.follow s₀ (Read.ending x).steps.toList = (.error e, p.worker)) (holds : P p) :
      Follows x (.error e p)

/-- From `r` on, parsing with `y` comes to what reading with `x` and following its steps comes
to. -/
structure MirrorsFrom (r : Reading) (x : Read α) (y : EStateM ε (Pass σ) α) : Prop where
  grows : r.steps.toList <+: (Read.ending (x r)).steps.toList
  follows : ∀ s₀ p, h.Abreast P s₀ r p → h.Follows P s₀ (x r) (y p)

/-- Parsing with `y` comes to what reading with `x` and following its steps comes to. -/
def Mirrors (x : Read α) (y : EStateM ε (Pass σ) α) : Prop :=
  ∀ r, h.MirrorsFrom P r x y

section

variable {h} {P} {s₀} {r : Reading} {p : Pass σ} {x : Read α} {y : EStateM ε (Pass σ) α}

theorem Abreast.place_eq (hp : h.Abreast P s₀ r p) : h.place p = r.cursor := by
  obtain ⟨s, -, hw⟩ := hp.worker
  rw [place, hw, h.cursor_move]

/-- A parser is abreast of a reader that has read nothing. -/
theorem abreast_start (hp : P p) : h.Abreast P p.worker { cursor := h.place p } p :=
  ⟨⟨p.worker, rfl, (h.move_self _).symm⟩, hp⟩

theorem Abreast.move (hp : h.Abreast P s₀ r p) {c : Cursor} {words : List Token}
    {visits : List Visit} (hP : P ⟨h.move c words p.worker, visits⟩) :
    h.Abreast P s₀ ⟨c, r.steps ++ words.map Step.skip⟩ ⟨h.move c words p.worker, visits⟩ := by
  obtain ⟨s, hf, hw⟩ := hp.worker
  refine ⟨⟨h.move (h.cursor s) words s, ?_, by simp [hw]⟩, hP⟩
  rw [Array.toList_appendList, follow_append_of_ok hf, follow_skips]

theorem accept_apply (view : Token → Option α) (p : Pass σ) :
    h.accept view p =
      match (h.place p).next with
      | (none, skipped, cursor) =>
        .ok none ⟨h.move cursor skipped p.worker, p.visits ++ [⟨h.place p, .next none⟩]⟩
      | (some t, skipped, cursor) =>
        match view t with
        | some a =>
          .ok (some a) ⟨h.move cursor skipped p.worker, p.visits ++ [⟨h.place p, .next (some t)⟩]⟩
        | none =>
          .ok none ⟨h.move (cursor.unget t) skipped p.worker,
            p.visits ++ [⟨h.place p, .next (some t)⟩] ++ [⟨cursor, .unget t⟩]⟩ := by
  rcases hn : (h.place p).next with ⟨_ | t, skipped, cursor⟩
  · simp only [accept, next, Bind.bind, EStateM.bind, hn]
    rfl
  · cases hv : view t <;> simp [accept, next, unget, Bind.bind, EStateM.bind, hn, hv] <;> rfl

/-! ### Parts of programs -/

theorem Mirrors.pure (a : α) : h.Mirrors P (pure a) (pure a) :=
  fun _ => ⟨List.prefix_rfl, fun _ _ hp => .done rfl hp⟩

theorem Mirrors.throw {e : Expected} (hstay : ∀ c, h.stay e c = c) :
    h.Mirrors P (throw e : Read α) (throw (h.fault e)) := by
  refine fun r => ⟨List.prefix_rfl, fun s₀ p hp => .missing rfl ?_⟩
  rwa [hstay]

theorem MirrorsFrom.bind {f : α → Read β} {g : α → EStateM ε (Pass σ) β}
    (hx : h.MirrorsFrom P r x y) (hf : ∀ a r', x r = .ok a r' → h.MirrorsFrom P r' (f a) (g a)) :
    h.MirrorsFrom P r (x >>= f) (y >>= g) := by
  have hgrows : (Read.ending (x r)).steps.toList <+: (Read.ending ((x >>= f) r)).steps.toList := by
    simp only [Bind.bind, EStateM.bind]
    cases hxr : x r with
    | ok a r' => exact (hf a r' hxr).grows
    | error e r' => exact List.prefix_rfl
  refine ⟨hx.grows.trans hgrows, fun s₀ p hp => ?_⟩
  have hfollows := hx.follows s₀ p hp
  simp only [Bind.bind, EStateM.bind] at hgrows ⊢
  generalize y p = result at hfollows ⊢
  cases hfollows with
  | done hxr habreast =>
    have hnext := (hf _ _ hxr).follows _ _ habreast
    rwa [hxr]
  | missing hxr habreast =>
    rw [hxr]
    exact .missing rfl habreast
  | broken hfollow hholds =>
    -- The reader goes on, and the steps that it adds are not carried out.
    obtain ⟨more, hmore⟩ := hgrows
    refine .broken ?_ hholds
    rw [← hmore, follow_append_of_error hfollow]

theorem Mirrors.bind {f : α → Read β} {g : α → EStateM ε (Pass σ) β} (hx : h.Mirrors P x y)
    (hf : ∀ a, h.Mirrors P (f a) (g a)) : h.Mirrors P (x >>= f) (y >>= g) :=
  fun r => (hx r).bind fun a r' _ => hf a r'

theorem Mirrors.act (hP : h.Lasting P) (a : Action) :
    h.Mirrors P (Read.act a) (h.perform a) := by
  refine fun r => ⟨by simp [Read.act, Read.ending], fun s₀ p hp => ?_⟩
  obtain ⟨s, hf, hw⟩ := hp.worker
  have hcursor : h.cursor (h.act a p.worker).2 = r.cursor := by
    rw [h.cursor_act, ← hp.place_eq, place]
  have hstep : h.follow s₀ (r.steps.push (.act a r.cursor)).toList =
      h.follow s [.act a r.cursor] := by
    rw [Array.toList_push, follow_append_of_ok hf]
  have hholds := hP.act p (h.act a p.worker).2 hp.holds (h.cursor_act a p.worker)
  simp only [follow, ← hw] at hstep
  unfold perform Read.act
  rcases hact : h.act a p.worker with ⟨_ | _, s'⟩ <;> rw [hact] at hcursor hstep hholds
  · exact .broken hstep hholds
  · refine .done rfl ⟨⟨s', hstep, ?_⟩, hholds⟩
    rw [← hcursor, h.move_self]

theorem Mirrors.accept (hP : h.Lasting P) (view : Token → Option α) :
    h.Mirrors P (Read.accept view) (h.accept view) := by
  refine fun r => ⟨?_, fun s₀ p hp => ?_⟩
  · rw [Read.accept_apply]
    rcases r.cursor.next with ⟨_ | t, skipped, cursor⟩
    · simp [Read.ending]
    · cases hv : view t <;> simp [Read.ending, hv]
  · rw [Read.accept_apply, accept_apply, ← hp.place_eq]
    rcases hn : (h.place p).next with ⟨_ | t, skipped, cursor⟩
    · exact .done rfl (hp.move (hP.next p none skipped cursor hp.holds hn))
    · dsimp only
      cases view t with
      | some a => exact .done rfl (hp.move (hP.next p (some t) skipped cursor hp.holds hn))
      | none => exact .done rfl (hp.move (hP.unget p t skipped cursor hp.holds hn))

theorem Mirrors.expect (hP : h.Lasting P) {e : Expected} (hstay : ∀ c, h.stay e c = c)
    (view : Token → Option α) : h.Mirrors P (Read.expect e view) (h.expect e view) :=
  (Mirrors.accept hP view).bind fun
    | some a => Mirrors.pure a
    | none => Mirrors.throw hstay

theorem take_apply (k : Punctuation) (p : Pass σ) :
    h.take k p =
      match (h.place p).next with
      | (none, skipped, cursor) =>
        .error (h.fault (.punctuation k))
          ⟨h.move cursor skipped p.worker, p.visits ++ [⟨h.place p, .next none⟩]⟩
      | (some t, skipped, cursor) =>
        let p := ⟨h.move cursor skipped p.worker, p.visits ++ [⟨h.place p, .next (some t)⟩]⟩
        if k.isToken t then .ok () p else .error (h.fault (.punctuation k)) p := by
  rcases hn : (h.place p).next with ⟨_ | t, skipped, cursor⟩
  · simp only [take, next, Bind.bind, EStateM.bind, hn]
    rfl
  · by_cases ht : k.isToken t = true <;> simp [take, next, Bind.bind, EStateM.bind, hn, ht] <;> rfl

/-- A parser that keeps a token which stands for a missing punctuation goes on where a reader does
that puts the token back and loses it. -/
theorem Mirrors.take (hP : h.Lasting P) (k : Punctuation)
    (hstay : ∀ c, h.stay (.punctuation k) c = c.discard) :
    h.Mirrors P (Read.punctuation k) (h.take k) := by
  refine fun r => ⟨?_, fun s₀ p hp => ?_⟩
  · rw [Read.punctuation_apply]
    rcases r.cursor.next with ⟨_ | t, skipped, cursor⟩
    · simp [Read.ending]
    · by_cases ht : k.isToken t = true <;> simp [Read.ending, ht]
  · have hslot := r.cursor.slot_next
    rw [Read.punctuation_apply, take_apply, hp.place_eq]
    rcases hn : r.cursor.next with ⟨_ | t, skipped, cursor⟩ <;> rw [hn] at hslot <;>
      rw [← hp.place_eq] at hn ⊢
    · refine .missing rfl ?_
      rw [hstay, Cursor.discard_of_drained hslot]
      exact hp.move (hP.next p none skipped cursor hp.holds hn)
    · have hkept := hp.move (hP.next p (some t) skipped cursor hp.holds hn)
      dsimp only
      by_cases ht : k.isToken t = true
      · rw [if_pos ht, if_pos ht]
        exact .done rfl hkept
      · rw [if_neg ht, if_neg ht]
        refine .missing rfl ?_
        rw [hstay, Cursor.discard_unget hslot]
        exact hkept

theorem Mirrors.punctuation (hP : h.Lasting P) (k : Punctuation) :
    h.Mirrors P (Read.punctuation k) (h.punctuation k) := by
  unfold Host.punctuation
  by_cases hreturning : h.returning = true
  · rw [if_pos hreturning]
    exact Mirrors.expect hP (fun c => if_pos hreturning) _
  · rw [if_neg hreturning]
    exact Mirrors.take hP k fun c => if_neg hreturning

end

/-! ## Chains -/

/-- Parsing `y` shortens what is ahead if it succeeds with a value that `q` holds of. -/
def Consumes (y : EStateM ε (Pass σ) α) (q : α → Prop) : Prop :=
  ∀ p a p', y p = .ok a p' → q a → (h.place p').remaining < (h.place p).remaining

/-- A program takes a token where the reader does. -/
theorem Mirrors.consumes {h : Host ε σ} {x : Read α} {y : EStateM ε (Pass σ) α} {q : α → Prop}
    (hxy : h.Mirrors (fun _ => True) x y) (hx : Read.Consumes x q) : h.Consumes y q := by
  intro p a p' hy hq
  have hfollows := (hxy _).follows _ _ (abreast_start (h := h) (p := p) trivial)
  rw [hy] at hfollows
  cases hfollows with
  | done hxr habreast =>
    rw [habreast.place_eq]
    exact hx _ _ _ hxr hq

/-- Parses links of a chain until one is missing. -/
def chain (link : EStateM ε (Pass σ) Bool) (progress : h.Consumes link (· = true)) (p : Pass σ) :
    EStateM.Result ε (Pass σ) Unit :=
  match _h : link p with
  | .ok true p' => chain link progress p'
  | .ok false p' => .ok () p'
  | .error e p' => .error e p'
termination_by (h.place p).remaining
decreasing_by exact progress p true p' _h rfl

variable {h} {P}

theorem chain_eq (link : EStateM ε (Pass σ) Bool) (progress : h.Consumes link (· = true)) :
    h.chain link progress = link >>= fun more =>
      if more then h.chain link progress else Pure.pure () := by
  funext p
  rw [chain]
  split <;> rename_i hl <;> simp only [Bind.bind, EStateM.bind, hl] <;> rfl

theorem Mirrors.chain {link : Read Bool} {link' : EStateM ε (Pass σ) Bool}
    (hlink : h.Mirrors P link link') (progress : Read.Consumes link (· = true))
    (progress' : h.Consumes link' (· = true)) :
    h.Mirrors P (Read.chain link progress) (h.chain link' progress') := by
  intro r
  induction hn : r.remaining using Nat.strongRecOn generalizing r with
  | ind n ih =>
    subst hn
    rw [Read.chain_eq, chain_eq]
    refine (hlink r).bind fun more r' hl => ?_
    cases more with
    | true => exact ih _ (progress _ _ _ hl rfl) r' rfl
    | false => exact Mirrors.pure () r'

/-! ## Productions -/

variable (h)

/-- `V`: a variable or an integer. -/
def operand : EStateM ε (Pass σ) Unit := do
  h.perform (.operand (← h.expect .operand Operand.ofToken?))

/-- A multiplicative operator and its second operand. -/
def productLink : EStateM ε (Pass σ) Bool := do
  match ← h.accept MulOp.ofToken? with
  | none => return false
  | some op =>
    h.perform (.operator (.multiplicative op))
    h.operand
    h.perform .multiply
    return true

/-- Only a missing punctuation is not put back. -/
theorem stay_of_recover {e : Expected} (he : ∀ c, e.recover c = c) (c : Cursor) :
    h.stay e c = c := by
  unfold stay
  split
  · rfl
  · exact he c

theorem mirrors_operand (hP : h.Lasting P) : h.Mirrors P Read.operand h.operand :=
  (Mirrors.expect hP (h.stay_of_recover fun _ => rfl) _).bind fun _ => Mirrors.act hP _

theorem mirrors_productLink (hP : h.Lasting P) : h.Mirrors P Read.productLink h.productLink :=
  (Mirrors.accept hP _).bind fun
    | none => Mirrors.pure _
    | some _ => (Mirrors.act hP _).bind fun _ => (h.mirrors_operand hP).bind fun _ =>
        (Mirrors.act hP _).bind fun _ => Mirrors.pure _

theorem productLink_consumes : h.Consumes h.productLink (· = true) :=
  (h.mirrors_productLink h.lasting_true).consumes Read.productLink_consumes

/-- `T`: a product. -/
def term : EStateM ε (Pass σ) Unit := do
  h.operand
  h.chain h.productLink h.productLink_consumes

/-- An additive operator and its second operand. -/
def sumLink : EStateM ε (Pass σ) Bool := do
  match ← h.accept AddOp.ofToken? with
  | none => return false
  | some op =>
    h.perform (.operator (.additive op))
    h.term
    h.perform .add
    return true

theorem mirrors_term (hP : h.Lasting P) : h.Mirrors P Read.term h.term :=
  (h.mirrors_operand hP).bind fun _ => (h.mirrors_productLink hP).chain _ _

theorem mirrors_sumLink (hP : h.Lasting P) : h.Mirrors P Read.sumLink h.sumLink :=
  (Mirrors.accept hP _).bind fun
    | none => Mirrors.pure _
    | some _ => (Mirrors.act hP _).bind fun _ => (h.mirrors_term hP).bind fun _ =>
        (Mirrors.act hP _).bind fun _ => Mirrors.pure _

theorem sumLink_consumes : h.Consumes h.sumLink (· = true) :=
  (h.mirrors_sumLink h.lasting_true).consumes Read.sumLink_consumes

/-- `C`: a sum of products. -/
def sum : EStateM ε (Pass σ) Unit := do
  h.term
  h.chain h.sumLink h.sumLink_consumes

/-- `A`: an assignment. -/
def assignment : EStateM ε (Pass σ) Unit := do
  let target ← h.expect .target variableName?
  h.punctuation .equals
  h.sum
  h.perform (.assign target)

/-- `E`: a comparison of two values. -/
def condition : EStateM ε (Pass σ) Unit := do
  h.operand
  let op ← h.expect .comparison Comparison.ofToken?
  h.perform (.operator (.comparison op))
  h.operand
  h.perform .compare

/-- A loop, behind its first word. -/
def loop : EStateM ε (Pass σ) Unit := do
  h.perform .loopBegin
  h.punctuation .openParen
  h.condition
  h.punctuation .closeParen
  h.perform .branch
  h.assignment
  h.perform .loopEnd

/-- The end of a statement. -/
def close : EStateM ε (Pass σ) Bool := do
  h.punctuation .semicolon
  h.perform .finish
  return true

/-- `S`: a statement. -/
def statement : EStateM ε (Pass σ) Bool := do
  match ← h.next with
  | none => return false
  | some t =>
    if t.isWhile then
      h.loop
      h.close
    else
      h.unget t
      h.assignment
      h.close

theorem mirrors_sum (hP : h.Lasting P) : h.Mirrors P Read.sum h.sum :=
  (h.mirrors_term hP).bind fun _ => (h.mirrors_sumLink hP).chain _ _

theorem mirrors_assignment (hP : h.Lasting P) : h.Mirrors P Read.assignment h.assignment :=
  (Mirrors.expect hP (h.stay_of_recover fun _ => rfl) _).bind fun _ =>
    (Mirrors.punctuation hP _).bind fun _ => (h.mirrors_sum hP).bind fun _ => Mirrors.act hP _

theorem mirrors_condition (hP : h.Lasting P) : h.Mirrors P Read.condition h.condition :=
  (h.mirrors_operand hP).bind fun _ =>
    (Mirrors.expect hP (h.stay_of_recover fun _ => rfl) _).bind fun _ =>
    (Mirrors.act hP _).bind fun _ => (h.mirrors_operand hP).bind fun _ => Mirrors.act hP _

theorem mirrors_loop (hP : h.Lasting P) : h.Mirrors P Read.loop h.loop :=
  (Mirrors.act hP _).bind fun _ => (Mirrors.punctuation hP _).bind fun _ =>
    (h.mirrors_condition hP).bind fun _ => (Mirrors.punctuation hP _).bind fun _ =>
    (Mirrors.act hP _).bind fun _ => (h.mirrors_assignment hP).bind fun _ => Mirrors.act hP _

theorem mirrors_close (hP : h.Lasting P) : h.Mirrors P Read.close h.close :=
  (Mirrors.punctuation hP _).bind fun _ => (Mirrors.act hP _).bind fun _ => Mirrors.pure _

theorem statement_apply (p : Pass σ) :
    h.statement p =
      match (h.place p).next with
      | (none, skipped, cursor) =>
        .ok false ⟨h.move cursor skipped p.worker, p.visits ++ [⟨h.place p, .next none⟩]⟩
      | (some t, skipped, cursor) =>
        if t.isWhile then
          (do h.loop; h.close : EStateM ε (Pass σ) Bool)
            ⟨h.move cursor skipped p.worker, p.visits ++ [⟨h.place p, .next (some t)⟩]⟩
        else
          (do h.assignment; h.close : EStateM ε (Pass σ) Bool)
            ⟨h.move (cursor.unget t) skipped p.worker,
              p.visits ++ [⟨h.place p, .next (some t)⟩] ++ [⟨cursor, .unget t⟩]⟩ := by
  rcases hn : (h.place p).next with ⟨_ | t, skipped, cursor⟩
  · simp only [statement, next, Bind.bind, EStateM.bind, hn]
    rfl
  · by_cases hw : t.isWhile = true <;>
      simp [statement, next, unget, Bind.bind, EStateM.bind, hn, hw]

theorem mirrors_statement (hP : h.Lasting P) : h.Mirrors P Read.statement h.statement := by
  have hloop : h.Mirrors P (do Read.loop; Read.close) (do h.loop; h.close) :=
    (h.mirrors_loop hP).bind fun _ => h.mirrors_close hP
  have hplain : h.Mirrors P (do Read.assignment; Read.close) (do h.assignment; h.close) :=
    (h.mirrors_assignment hP).bind fun _ => h.mirrors_close hP
  have hskips (r : Reading) (skipped : List Token) :
      r.steps.toList <+: (r.steps ++ skipped.map Step.skip).toList := by simp
  refine fun r => ⟨?_, fun s₀ p hp => ?_⟩
  · rw [Read.statement_apply]
    rcases r.cursor.next with ⟨_ | t, skipped, cursor⟩
    · exact hskips r skipped
    · dsimp only
      split
      · exact (hskips r skipped).trans (hloop ⟨cursor, _⟩).grows
      · exact (hskips r skipped).trans (hplain ⟨cursor.unget t, _⟩).grows
  · rw [Read.statement_apply, h.statement_apply, ← hp.place_eq]
    rcases hn : (h.place p).next with ⟨_ | t, skipped, cursor⟩
    · exact .done rfl (hp.move (hP.next p none skipped cursor hp.holds hn))
    · dsimp only
      split
      · exact (hloop _).follows s₀ _ (hp.move (hP.next p (some t) skipped cursor hp.holds hn))
      · exact (hplain _).follows s₀ _ (hp.move (hP.unget p t skipped cursor hp.holds hn))

/-- A statement that is parsed in one pass ends as following what is read of it does. -/
theorem follows_statement (hP : h.Lasting P) {p : Pass σ} (hp : P p) :
    h.Follows P p.worker (Read.statement { cursor := h.place p }) (h.statement p) :=
  (h.mirrors_statement hP _).follows _ _ (abreast_start hp)

end Host

/-! ## The validator -/

namespace Validator

/-- The validator as a parser: no action concerns it. -/
def host : Host Expected Validator where
  cursor := Validator.cursor
  move c words v := { v with cursor := c, log := v.log ++ words.map Event.skipped }
  act _ v := (.ok (), v)
  fault e := e
  returning := true
  cursor_move _ _ _ := rfl
  move_move _ _ _ _ _ := by simp [← Array.toList_inj]
  move_self _ := by simp
  cursor_act _ _ := rfl

/-- One more statement was begun. -/
def begun (v : Validator) : Validator :=
  { v with statements := v.statements + 1 }

/-- Checks one statement in one pass. -/
def step (p : Pass Validator) : Except Error Outcome × Pass Validator :=
  match host.statement p with
  | .ok false p => (.ok .endOfInput, p)
  | .ok true p => (.ok .statement, { p with worker := p.worker.begun })
  | .error _ p =>
    let v := p.worker.begun
    let (found, skipped, cursor) := v.cursor.peek
    (.error (.grammar v.statements found),
      ⟨host.move cursor skipped v, p.visits ++ [⟨v.cursor, .peek⟩]⟩)

theorem follow_host (v : Validator) (steps : Array Step) :
    ∃ c, host.follow v steps.toList =
      (.ok (), { v with cursor := c, log := v.log ++ events steps }) := by
  unfold events
  generalize steps.toList = steps
  induction steps generalizing v with
  | nil => exact ⟨v.cursor, by simp [Host.follow]⟩
  | cons step steps ih =>
    cases step with
    | skip word =>
      obtain ⟨c, h⟩ := ih (host.move v.cursor [word] v)
      refine ⟨c, h.trans ?_⟩
      simp [host, Step.skipped?]
    | act a place =>
      obtain ⟨c, h⟩ := ih (host.move place [] v)
      refine ⟨c, h.trans ?_⟩
      simp [host, Step.skipped?, List.filterMap_cons]

/-- A validator that is abreast of the reader has reported what the reader passed over. -/
theorem worker_of_abreast {P : Pass Validator → Prop} {v : Validator} {r : Reading}
    {p : Pass Validator} (h : host.Abreast P v r p) :
    p.worker = { v with cursor := r.cursor, log := v.log ++ events r.steps } := by
  obtain ⟨s, hs, hw⟩ := h.worker
  obtain ⟨c, hc⟩ := follow_host v r.steps
  rw [hc] at hs
  cases hs
  simp [hw, host]

/-- Checking a statement in one pass comes to the same as reading it first. -/
theorem step_eq (p : Pass Validator) :
    ((step p).1, (step p).2.worker) = p.worker.statement := by
  have h := Host.follows_statement host host.lasting_true (p := p) trivial
  unfold step statement
  change host.Follows _ p.worker (Read.statement { cursor := p.worker.cursor }) _ at h
  generalize host.statement p = result at h ⊢
  cases h with
  | @done more r p' hr habreast =>
    rw [hr]
    cases more <;> simp [worker_of_abreast habreast, begun]
  | @missing e r p' hr habreast =>
    rw [hr]
    have hworker := worker_of_abreast habreast
    simp [hworker, begun, Host.stay, host]
  | broken hfollow =>
    obtain ⟨c, hc⟩ := follow_host p.worker (Read.ending (Read.statement
      { cursor := p.worker.cursor })).steps
    rw [hc] at hfollow
    cases hfollow

end Validator

/-! ## The translator -/

namespace Translator

/-- The translator as a parser: it generates code at every action, and keeps a token that stands
for a missing punctuation. -/
def host : Host Error Translator where
  cursor := Translator.cursor
  move c words t := { t with cursor := c, log := t.log ++ words.map Event.skipped }
  act a t := t.perform a
  fault e := .outOfSync e.fault
  returning := false
  cursor_move _ _ _ := rfl
  move_move _ _ _ _ _ := by simp [← Array.toList_inj]
  move_self _ := by simp
  cursor_act a t := by
    unfold perform
    dsimp only
    split <;> rfl

/-- Translates one statement in one pass. -/
def step (p : Pass Translator) : Except Error Outcome × Pass Translator :=
  match host.statement p with
  | .ok more p => (.ok (if more then .statement else .endOfInput), p)
  | .error e p => (.error e, p)

theorem follow_host (t : Translator) (steps : List Step) :
    host.follow t steps = t.follow steps := by
  induction steps generalizing t with
  | nil => rfl
  | cons step steps ih =>
    cases step with
    | skip word =>
      rw [Host.follow, ih]
      simp [host, follow]
    | act a place =>
      have hact : host.act a (host.move place [] t) = { t with cursor := place }.perform a := by
        simp [host]
      simp only [Host.follow, follow, ih, hact]
      rcases hp : { t with cursor := place }.perform a with ⟨_ | _, t'⟩ <;> simp only [hp]

/-- Carrying out each action as it is read comes to the same as reading the statement first and
following its steps then: what is returned, the place, the code with all that is left on stacks and
in registers, and the log. -/
theorem step_eq (p : Pass Translator) :
    ((step p).1, (step p).2.worker) = p.worker.statement := by
  have h := Host.follows_statement host host.lasting_true (p := p) trivial
  unfold step statement
  change host.Follows _ p.worker (Read.statement { cursor := p.worker.cursor }) _ at h
  generalize host.statement p = result at h ⊢
  cases h with
  | @done more r p' hr habreast =>
    obtain ⟨t, ht, hw⟩ := habreast.worker
    rw [follow_host] at ht
    simp [hr, ht, hw, host]
  | @missing e r p' hr habreast =>
    obtain ⟨t, ht, hw⟩ := habreast.worker
    rw [follow_host] at ht
    simp [hr, ht, hw, host, Host.stay]
  | broken hfollow =>
    rw [follow_host] at hfollow
    generalize Read.statement { cursor := p.worker.cursor } = x at hfollow ⊢
    cases x <;>
      · rw [Read.ending] at hfollow
        simp [hfollow]

end Translator

end LoopAsm
