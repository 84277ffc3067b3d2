/-
The parser's view of a record list: the significant tokens one after the other, with a slot for
one token that was put back. Blanks and counters are passed over in silence, malformed words are
reported to the caller.
-/
import LoopAsm.Token.Basic

namespace LoopAsm

/-- A place in a record list. -/
structure Cursor where
  unread : List Record
  /-- A token that was put back. -/
  slot : Option Token := none
  /-- The token taken last. -/
  previous : Option Token := none
  /-- How many tokens were put back onto a taken slot, which loses them. -/
  dropped : Nat := 0
  deriving DecidableEq, Repr, Inhabited

/-- The outcome of looking for a token: the malformed words passed over on the way, the token,
and what is behind it. -/
structure Fetched where
  skipped : List Token
  token : Option Token
  rest : List Record
  deriving DecidableEq, Repr, Inhabited

/-- Looks for the first significant token. -/
def fetch : List Record → Fetched
  | [] => ⟨[], none, []⟩
  | .token t :: rest =>
    if t.isSignificant then ⟨[], some t, rest⟩
    else if t.kind = .malformed then
      let f := fetch rest
      { f with skipped := t :: f.skipped }
    else fetch rest
  | .line .. :: rest => fetch rest
  | .total _ :: rest => fetch rest

namespace Cursor

/-- The significant tokens ahead. -/
def upcoming (c : Cursor) : List Token :=
  c.slot.toList ++ significant c.unread

/-- A bound on the tokens ahead. -/
def remaining (c : Cursor) : Nat :=
  c.slot.toList.length + c.unread.length

/-- Takes the next token, and tells which malformed words were passed over. -/
def next (c : Cursor) : Option Token × List Token × Cursor :=
  match c.slot with
  | some t => (some t, [], { c with slot := none, previous := some t })
  | none =>
    let f := fetch c.unread
    (f.token, f.skipped, { c with unread := f.rest, previous := f.token <|> c.previous })

/-- Puts a token back. The slot holds one token; a second one is lost. -/
def unget (c : Cursor) (t : Token) : Cursor :=
  match c.slot with
  | none => { c with slot := some t }
  | some _ => { c with dropped := c.dropped + 1 }

/-- Looks at the next token without taking it, and tells which malformed words were passed
over. -/
def peek (c : Cursor) : Option Token × List Token × Cursor :=
  match c.slot with
  | some t => (some t, [], c)
  | none =>
    let f := fetch c.unread
    (f.token, f.skipped, { c with unread := f.rest, slot := f.token })

/-- Loses the token in the slot. -/
def discard (c : Cursor) : Cursor :=
  { c with slot := none }

/-- Whether the slot is empty. -/
def isDrained (c : Cursor) : Bool :=
  c.slot.isNone

/-! ## What is ahead after each operation -/

theorem significant_cons (r : Record) (rs : List Record) :
    significant (r :: rs) = (r.token?.toList.filter Token.isSignificant) ++ significant rs := by
  rw [show r :: rs = [r] ++ rs from rfl, significant_append]
  cases r <;> rfl

theorem significant_fetch (records : List Record) :
    significant records =
      (fetch records).token.toList ++ significant (fetch records).rest := by
  fun_induction fetch records with
  | case1 => rfl
  | case2 t rest h => simp [significant_cons, Record.token?, h]
  | case3 t rest h _ f ih => simp [significant_cons, Record.token?, h, ih, f]
  | case4 t rest h _ ih => simp [significant_cons, Record.token?, h, ih]
  | case5 rest _ _ ih => simp [significant_cons, Record.token?, ih]
  | case6 rest _ ih => simp [significant_cons, Record.token?, ih]

theorem fetch_token_isSignificant {records : List Record} {t : Token}
    (h : (fetch records).token = some t) : t.isSignificant = true := by
  fun_induction fetch records with
  | case1 => cases h
  | case2 _ _ hs => cases h; exact hs
  | case3 _ _ _ _ _ ih => exact ih h
  | case4 _ _ _ _ ih => exact ih h
  | case5 _ _ _ ih => exact ih h
  | case6 _ _ ih => exact ih h

theorem length_fetch (records : List Record) :
    (fetch records).token.toList.length + (fetch records).rest.length ≤ records.length := by
  fun_induction fetch records with
  | case1 => simp
  | case2 => simp; omega
  | case3 _ _ _ _ f ih => simp only [f, List.length_cons]; omega
  | case4 _ _ _ _ ih => simp only [List.length_cons]; omega
  | case5 _ _ _ ih => simp only [List.length_cons]; omega
  | case6 _ _ ih => simp only [List.length_cons]; omega

theorem upcoming_next (c : Cursor) :
    c.upcoming = c.next.1.toList ++ c.next.2.2.upcoming := by
  unfold next upcoming
  split
  · simp_all
  · simp_all [significant_fetch c.unread]

@[simp] theorem slot_next (c : Cursor) : c.next.2.2.slot = none := by
  unfold next
  split <;> simp_all

theorem remaining_next (c : Cursor) :
    c.next.1.toList.length + c.next.2.2.remaining ≤ c.remaining := by
  have := length_fetch c.unread
  unfold next remaining
  split <;> simp_all

theorem upcoming_unget {c : Cursor} (h : c.slot = none) (t : Token) :
    (c.unget t).upcoming = t :: c.upcoming := by
  simp [unget, upcoming, h]

theorem remaining_unget_le (c : Cursor) (t : Token) : (c.unget t).remaining ≤ c.remaining + 1 := by
  unfold unget remaining
  split
  · simp_all [Nat.add_comm]
  · simp

end Cursor

end LoopAsm
