/-
Where the reader can stand. It moves by taking a token and by putting back the one that was taken
last, so what these two keep holds, whether a production succeeds or breaks off, where the reader
stops and at every place that a step was noted at. In particular what is ahead there is an end of
what was ahead before: a translator that goes on after an error, at whichever of these places,
never meets a token that the records do not have there.
-/
import LoopAsm.Grammar.Reading

namespace LoopAsm

/-- A property of places that the moves of the reader keep: taking a token, and putting the token
that was taken back. -/
structure Cursor.Lasting (P : Cursor → Prop) : Prop where
  next : ∀ c, P c → P c.next.2.2
  unget : ∀ c, P c → ∀ t, c.next.1 = some t → P (c.next.2.2.unget t)

/-- `P` holds where the reader is, and at every place that a step was noted at. -/
structure Reading.Everywhere (P : Cursor → Prop) (r : Reading) : Prop where
  cursor : P r.cursor
  places : ∀ a place, Step.act a place ∈ r.steps → P place

theorem Cursor.everywhere {P : Cursor → Prop} {c : Cursor} (h : P c) :
    Reading.Everywhere P { cursor := c } :=
  ⟨h, by simp⟩

/-- The reader moves over malformed words, which are noted and have no place. -/
theorem Reading.Everywhere.move {P : Cursor → Prop} {r : Reading} (h : r.Everywhere P)
    {cursor : Cursor} (hcursor : P cursor) (skipped : List Token) :
    Everywhere P ⟨cursor, r.steps ++ skipped.map Step.skip⟩ :=
  ⟨hcursor, fun a place hp => h.places a place (by simpa [← Array.mem_toList_iff] using hp)⟩

namespace Read

/-- Reading `x` keeps `P`, whatever comes of it. -/
def Keeps {α : Type} (P : Cursor → Prop) (x : Read α) : Prop :=
  ∀ r, r.Everywhere P → match x r with
    | .ok _ r' => r'.Everywhere P
    | .error _ r' => r'.Everywhere P

section

variable {α β : Type} {P : Cursor → Prop}

/-! ## Tokens -/

theorem Keeps.ok {x : Read α} (h : Keeps P x) {r r' : Reading} {a : α} (hr : r.Everywhere P)
    (hx : x r = .ok a r') : r'.Everywhere P := by
  have := h r hr
  rwa [hx] at this

theorem Keeps.error {x : Read α} (h : Keeps P x) {r r' : Reading} {e : Expected}
    (hr : r.Everywhere P) (hx : x r = .error e r') : r'.Everywhere P := by
  have := h r hr
  rwa [hx] at this

theorem Keeps.pure (a : α) : Keeps P (pure a : Read α) :=
  fun _ h => h

theorem Keeps.throw (e : Expected) : Keeps P (throw e : Read α) :=
  fun _ h => h

theorem Keeps.bind {x : Read α} {f : α → Read β} (hx : Keeps P x) (hf : ∀ a, Keeps P (f a)) :
    Keeps P (x >>= f) := by
  intro r h
  simp only [Bind.bind, EStateM.bind]
  cases hr : x r with
  | ok a r' => exact hf a r' (hx.ok h hr)
  | error e r' => exact hx.error h hr

theorem Keeps.act (a : Action) : Keeps P (act a) := by
  intro r h
  refine ⟨h.cursor, fun b place hp => ?_⟩
  rcases Array.mem_push.1 hp with hp | hp
  · exact h.places b place hp
  · cases hp
    exact h.cursor

theorem Keeps.accept (hP : Cursor.Lasting P) (view : Token → Option α) :
    Keeps P (accept view) := by
  intro r h
  have hnext := hP.next r.cursor h.cursor
  have hunget := hP.unget r.cursor h.cursor
  rw [accept_apply]
  rcases hn : r.cursor.next with ⟨_ | t, skipped, cursor⟩ <;> rw [hn] at hnext hunget
  · exact h.move hnext skipped
  · dsimp only
    cases view t with
    | some a => exact h.move hnext skipped
    | none => exact h.move (hunget t rfl) skipped

theorem Keeps.expect (hP : Cursor.Lasting P) (e : Expected) (view : Token → Option α) :
    Keeps P (expect e view) :=
  (Keeps.accept hP view).bind fun
    | some a => Keeps.pure a
    | none => Keeps.throw e

/-! ## Productions -/

theorem Keeps.chain {link : Read Bool} (h : Keeps P link)
    (progress : Consumes link (· = true)) : Keeps P (chain link progress) := by
  intro r hr
  fun_induction Read.chain link progress r with
  | case1 r r' hl ih => exact ih (h.ok hr hl)
  | case2 r r' hl => exact h.ok hr hl
  | case3 r e r' hl => exact h.error hr hl

theorem operand_keeps (hP : Cursor.Lasting P) : Keeps P operand :=
  (Keeps.expect hP _ _).bind fun _ => Keeps.act _

theorem productLink_keeps (hP : Cursor.Lasting P) : Keeps P productLink :=
  (Keeps.accept hP _).bind fun
    | none => Keeps.pure _
    | some _ => (Keeps.act _).bind fun _ => (operand_keeps hP).bind fun _ =>
        (Keeps.act _).bind fun _ => Keeps.pure _

theorem term_keeps (hP : Cursor.Lasting P) : Keeps P term :=
  (operand_keeps hP).bind fun _ => (productLink_keeps hP).chain _

theorem sumLink_keeps (hP : Cursor.Lasting P) : Keeps P sumLink :=
  (Keeps.accept hP _).bind fun
    | none => Keeps.pure _
    | some _ => (Keeps.act _).bind fun _ => (term_keeps hP).bind fun _ =>
        (Keeps.act _).bind fun _ => Keeps.pure _

theorem sum_keeps (hP : Cursor.Lasting P) : Keeps P sum :=
  (term_keeps hP).bind fun _ => (sumLink_keeps hP).chain _

theorem assignment_keeps (hP : Cursor.Lasting P) : Keeps P assignment :=
  (Keeps.expect hP _ _).bind fun _ => (Keeps.expect hP _ _).bind fun _ =>
    (sum_keeps hP).bind fun _ => Keeps.act _

theorem condition_keeps (hP : Cursor.Lasting P) : Keeps P condition :=
  (operand_keeps hP).bind fun _ => (Keeps.expect hP _ _).bind fun _ =>
    (Keeps.act _).bind fun _ => (operand_keeps hP).bind fun _ => Keeps.act _

theorem loop_keeps (hP : Cursor.Lasting P) : Keeps P loop :=
  (Keeps.act _).bind fun _ => (Keeps.expect hP _ _).bind fun _ =>
    (condition_keeps hP).bind fun _ => (Keeps.expect hP _ _).bind fun _ =>
    (Keeps.act _).bind fun _ => (assignment_keeps hP).bind fun _ => Keeps.act _

theorem close_keeps (hP : Cursor.Lasting P) : Keeps P close :=
  (Keeps.expect hP _ _).bind fun _ => (Keeps.act _).bind fun _ => Keeps.pure _

end

theorem statement_apply (r : Reading) :
    statement r =
      match r.cursor.next with
      | (none, skipped, cursor) => .ok false ⟨cursor, r.steps ++ skipped.map Step.skip⟩
      | (some t, skipped, cursor) =>
        if t.isWhile then (do loop; close : Read Bool) ⟨cursor, r.steps ++ skipped.map Step.skip⟩
        else (do assignment; close : Read Bool)
          ⟨cursor.unget t, r.steps ++ skipped.map Step.skip⟩ := by
  rcases h : r.cursor.next with ⟨_ | t, skipped, cursor⟩
  · simp only [statement, next, Bind.bind, EStateM.bind, h]
    rfl
  · by_cases hw : t.isWhile = true <;>
      simp [statement, next, unget, Bind.bind, EStateM.bind, h, hw]

theorem statement_keeps {P : Cursor → Prop} (hP : Cursor.Lasting P) : Keeps P statement := by
  intro r h
  have hnext := hP.next r.cursor h.cursor
  have hunget := hP.unget r.cursor h.cursor
  rw [statement_apply]
  rcases hn : r.cursor.next with ⟨_ | t, skipped, cursor⟩ <;> rw [hn] at hnext hunget
  · exact h.move hnext skipped
  · dsimp only
    by_cases hw : t.isWhile = true
    · rw [if_pos hw]
      exact ((loop_keeps hP).bind fun _ => close_keeps hP) _ (h.move hnext skipped)
    · rw [if_neg hw]
      exact ((assignment_keeps hP).bind fun _ => close_keeps hP) _
        (h.move (hunget t rfl) skipped)

end Read

/-! ## What is ahead -/

theorem Cursor.lasting_upcoming (tokens : List Token) :
    Lasting fun c => c.upcoming <:+ tokens where
  next c h := .trans ⟨_, c.upcoming_next.symm⟩ h
  unget c h t ht := by
    have hup := c.upcoming_next
    rw [ht] at hup
    rw [upcoming_unget c.slot_next]
    exact (show c.upcoming = t :: _ from hup) ▸ h

/-- What is ahead of the reader, and of every place that a step was noted at, is an end of
`tokens`. -/
structure Reading.Within (r : Reading) (tokens : List Token) : Prop where
  cursor : r.cursor.upcoming <:+ tokens
  places : ∀ a place, Step.act a place ∈ r.steps → place.upcoming <:+ tokens

theorem Cursor.within (c : Cursor) : Reading.Within { cursor := c } c.upcoming :=
  ⟨List.suffix_rfl, by simp⟩

namespace Read

/-- Reading `x` stays within what is ahead, whatever comes of it. -/
def Confined {α : Type} (x : Read α) : Prop :=
  ∀ tokens r, r.Within tokens → match x r with
    | .ok _ r' => r'.Within tokens
    | .error _ r' => r'.Within tokens

theorem Confined.ok {α : Type} {x : Read α} (h : Confined x) {tokens : List Token}
    {r r' : Reading} {a : α} (hr : r.Within tokens) (hx : x r = .ok a r') : r'.Within tokens := by
  have := h tokens r hr
  rwa [hx] at this

theorem Confined.error {α : Type} {x : Read α} (h : Confined x) {tokens : List Token}
    {r r' : Reading} {e : Expected} (hr : r.Within tokens) (hx : x r = .error e r') :
    r'.Within tokens := by
  have := h tokens r hr
  rwa [hx] at this

/-- Reading a statement stays within what is ahead. -/
theorem statement_confined : Confined statement := by
  intro tokens r h
  have hkept := statement_keeps (Cursor.lasting_upcoming tokens) r ⟨h.cursor, h.places⟩
  cases hx : statement r <;> rw [hx] at hkept <;> exact ⟨hkept.cursor, hkept.places⟩

end Read

end LoopAsm
