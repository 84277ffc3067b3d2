/-
The slot never loses a token. Whoever parses puts a token back only when it was just taken, which
leaves the slot empty, and looks at the token that does not fit without taking it. So at every call
to the token stream, in the middle of a statement or behind a failed one, the tokens taken and not
put back, the slot and what is unread are the significant tokens of the records. The calls are those
of a parser that works in one pass, which is the parser itself.
-/
import LoopAsm.Proofs.Translate.OnePass
import LoopAsm.Proofs.Translate.Recovery

namespace LoopAsm

/-! ## What calls take -/

/-- What is taken behind one more call: a token that is put back is taken no more. -/
def Request.keep (taken : List Token) : Request → List Token
  | next answer => taken ++ answer.toList
  | unget _ => taken.dropLast
  | peek => taken

/-- What calls took and did not put back. -/
def Visit.taken (visits : List Visit) : List Token :=
  visits.foldl (fun taken v => v.call.keep taken) []

@[simp] theorem Visit.taken_nil : Visit.taken [] = [] := rfl

@[simp] theorem Visit.taken_append_singleton (visits : List Visit) (v : Visit) :
    Visit.taken (visits ++ [v]) = v.call.keep (Visit.taken visits) := by
  simp [Visit.taken]

/-- A call that loses no token of `tokens`, behind others: they are all there, and a token is put
back only onto an empty slot, and only if it was taken last. -/
structure Visit.Lossless (tokens : List Token) (before : List Visit) (v : Visit) : Prop where
  spells : Visit.taken before ++ (v.place.slot.toList ++ significant v.place.unread) = tokens
  returned : ∀ t, v.call = .unget t → v.place.slot = none ∧ (Visit.taken before).getLast? = some t

/-- Calls that lead to `c` and lose no token of `tokens` on the way. -/
structure Lossless (tokens : List Token) (visits : List Visit) (c : Cursor) : Prop where
  visited : ∀ before v after, visits = before ++ v :: after → v.Lossless tokens before
  spells : Visit.taken visits ++ (c.slot.toList ++ significant c.unread) = tokens
  dropped : c.dropped = 0

namespace Cursor

theorem upcoming_peek (c : Cursor) : c.peek.2.2.upcoming = c.upcoming := by
  unfold peek upcoming
  split
  · rfl
  · rename_i h
    simp [h, ← significant_fetch c.unread]

theorem dropped_next (c : Cursor) : c.next.2.2.dropped = c.dropped := by
  unfold next
  split <;> rfl

theorem dropped_unget {c : Cursor} (h : c.slot = none) (t : Token) :
    (c.unget t).dropped = c.dropped := by
  unfold unget
  rw [h]

theorem dropped_peek (c : Cursor) : c.peek.2.2.dropped = c.dropped := by
  unfold peek
  split <;> rfl

end Cursor

namespace Lossless

variable {tokens : List Token} {visits : List Visit} {c c' : Cursor}

theorem start (records : List Record) :
    Lossless (significant records) [] { unread := records } where
  visited before v after h := by simp at h
  spells := rfl
  dropped := rfl

/-- One more call, which loses no token. -/
theorem append (h : Lossless tokens visits c) {call : Request}
    (hcall : ∀ t, call = .unget t → c.slot = none ∧ (Visit.taken visits).getLast? = some t)
    (hspells : call.keep (Visit.taken visits) ++ c'.upcoming = tokens)
    (hdropped : c'.dropped = c.dropped) :
    Lossless tokens (visits ++ [⟨c, call⟩]) c' where
  visited before v after hsplit := by
    rcases List.eq_nil_or_concat after with rfl | ⟨front, last, rfl⟩
    · obtain ⟨rfl, hv⟩ := List.append_inj' hsplit rfl
      cases hv
      exact ⟨h.spells, hcall⟩
    · rw [List.concat_eq_append, ← List.cons_append, ← List.append_assoc] at hsplit
      exact h.visited before v front (List.append_inj' hsplit rfl).1
  spells := by
    rw [Visit.taken_append_singleton]
    exact hspells
  dropped := hdropped.trans h.dropped

theorem next (h : Lossless tokens visits c) {answer : Option Token} {skipped : List Token}
    (hn : c.next = (answer, skipped, c')) :
    Lossless tokens (visits ++ [⟨c, .next answer⟩]) c' := by
  have hupcoming := c.upcoming_next
  have hdropped := c.dropped_next
  rw [hn] at hupcoming hdropped
  refine h.append (fun t ht => nomatch ht) ?_ hdropped
  rw [Request.keep, List.append_assoc, ← hupcoming]
  exact h.spells

/-- A token that was just taken is put back. -/
theorem unget (h : Lossless tokens visits c) {t : Token} {skipped : List Token}
    (hn : c.next = (some t, skipped, c')) :
    Lossless tokens (visits ++ [⟨c, .next (some t)⟩] ++ [⟨c', .unget t⟩]) (c'.unget t) := by
  have hslot : c'.slot = none := by
    have := c.slot_next
    rwa [hn] at this
  have hnext := h.next hn
  refine hnext.append ?_ ?_ (Cursor.dropped_unget hslot t)
  · rintro _ ⟨⟩
    exact ⟨hslot, by simp [Request.keep]⟩
  · rw [Cursor.upcoming_unget hslot, ← hnext.spells]
    simp [Request.keep, Cursor.upcoming]

theorem peek (h : Lossless tokens visits c) :
    Lossless tokens (visits ++ [⟨c, .peek⟩]) c.peek.2.2 := by
  refine h.append (fun t ht => nomatch ht) ?_ c.dropped_peek
  rw [Request.keep, Cursor.upcoming_peek]
  exact h.spells

end Lossless

/-- What a parser in one pass does loses no token. -/
theorem Host.lasting_lossless {ε σ : Type} (h : Host ε σ) (tokens : List Token) :
    h.Lasting fun p => Lossless tokens p.visits (h.place p) where
  next p answer skipped c hp hn := by
    rw [h.place_move]
    exact hp.next hn
  unget p t skipped c hp hn := by
    rw [h.place_move]
    exact hp.unget hn
  act p s hp hs := by
    rw [place, hs]
    exact hp

/-- Whatever a statement ends with, no token was lost. -/
theorem Host.lossless_statement {ε σ : Type} (h : Host ε σ) {tokens : List Token} {p : Pass σ}
    (hp : Lossless tokens p.visits (h.place p)) :
    match h.statement p with
    | .ok _ p' => Lossless tokens p'.visits (h.place p')
    | .error _ p' => Lossless tokens p'.visits (h.place p') := by
  have hfollows := h.follows_statement (h.lasting_lossless tokens) hp
  generalize h.statement p = result at hfollows ⊢
  cases hfollows with
  | done _ habreast => exact habreast.holds
  | missing _ habreast => exact habreast.holds
  | broken _ hholds => exact hholds

/-! ## The end of a statement -/

namespace Read

theorem slot_of_accept {α : Type} {view : Token → Option α} {r r' : Reading} {a : α}
    (h : accept view r = .ok (some a) r') : r'.cursor.slot = none := by
  have hslot := r.cursor.slot_next
  rw [accept_apply] at h
  rcases hn : r.cursor.next with ⟨_ | t, skipped, cursor⟩ <;> rw [hn] at h hslot
  · cases h
  · dsimp only at h
    cases hv : view t <;> rw [hv] at h <;> cases h
    exact hslot

theorem slot_of_close {r r' : Reading} {more : Bool} (h : close r = .ok more r') :
    r'.cursor.slot = none := by
  obtain ⟨_, r₁, hp, h⟩ := bind_eq_ok h
  obtain ⟨o, r₂, ha, hp⟩ := bind_eq_ok hp
  cases o with
  | none => cases hp
  | some a =>
    cases hp
    cases h
    show r₁.cursor.slot = none
    exact slot_of_accept ha

/-- A statement ends with the token that was taken last. -/
theorem slot_of_statement {r r' : Reading} (h : statement r = .ok true r') :
    r'.cursor.slot = none := by
  rw [statement_apply] at h
  split at h
  · cases h
  · split at h
    · obtain ⟨_, _, -, h⟩ := bind_eq_ok h
      exact slot_of_close h
    · obtain ⟨_, _, -, h⟩ := bind_eq_ok h
      exact slot_of_close h

end Read

/-! ## Call after call -/

namespace Validator

/-- The validator after a number of calls for one more statement, whatever they return. -/
def after : Nat → Validator → Validator
  | 0, v => v
  | n + 1, v => v.statement.2.after n

theorem after_succ (v : Validator) (calls : Nat) :
    v.after (calls + 1) = (v.after calls).statement.2 := by
  induction calls generalizing v with
  | zero => rfl
  | succ calls ih => exact ih v.statement.2

/-- The same in one pass. -/
def pass (records : List Record) : Nat → Pass Validator
  | 0 => ⟨ofRecords records, []⟩
  | n + 1 => (step (pass records n)).2

theorem worker_pass (records : List Record) (calls : Nat) :
    (pass records calls).worker = (ofRecords records).after calls := by
  induction calls with
  | zero => rfl
  | succ calls ih =>
    rw [after_succ, ← ih, ← step_eq]
    rfl

theorem lossless_step {tokens : List Token} {p : Pass Validator}
    (hp : Lossless tokens p.visits p.worker.cursor) :
    Lossless tokens (step p).2.visits (step p).2.worker.cursor := by
  have hstatement := host.lossless_statement (p := p) hp
  unfold step
  split <;> rename_i hs <;> rw [hs] at hstatement
  · exact hstatement
  · exact hstatement
  · exact hstatement.peek

theorem lossless_pass (records : List Record) (calls : Nat) :
    Lossless (significant records) (pass records calls).visits
      (pass records calls).worker.cursor := by
  induction calls with
  | zero => exact .start records
  | succ calls ih => exact lossless_step ih

theorem slot_of_statement {v : Validator} (h : v.statement.1 = .ok .statement) :
    v.statement.2.cursor.slot = none := by
  have hcall : v.statement = (.ok .statement, v.statement.2) := Prod.ext h rfl
  obtain ⟨r, hr, hcursor, -⟩ := read_of_statement hcall
  rw [hcursor]
  exact Read.slot_of_statement hr

end Validator

namespace Translator

/-- A translator in one pass, after a number of calls. -/
def pass (records : List Record) (capacity : Nat) : Nat → Pass Translator
  | 0 => ⟨ofRecords records capacity, []⟩
  | n + 1 => (step (pass records capacity n)).2

theorem worker_pass (records : List Record) (capacity calls : Nat) :
    (pass records capacity calls).worker = (ofRecords records capacity).after calls := by
  induction calls with
  | zero => rfl
  | succ calls ih =>
    rw [after_succ, ← ih, ← step_eq]
    rfl

theorem lossless_step {tokens : List Token} {p : Pass Translator}
    (hp : Lossless tokens p.visits p.worker.cursor) :
    Lossless tokens (step p).2.visits (step p).2.worker.cursor := by
  have hstatement := host.lossless_statement (p := p) hp
  unfold step
  split <;> rename_i hs <;> rw [hs] at hstatement <;> exact hstatement

theorem lossless_pass (records : List Record) (capacity calls : Nat) :
    Lossless (significant records) (pass records capacity calls).visits
      (pass records capacity calls).worker.cursor := by
  induction calls with
  | zero => exact .start records
  | succ calls ih => exact lossless_step ih

theorem slot_of_statement {t : Translator} (h : t.statement.1 = .ok .statement) :
    t.statement.2.cursor.slot = none := by
  have hcall : t.statement = (.ok .statement, t.statement.2) := Prod.ext h rfl
  obtain ⟨r, hr, hcursor, -⟩ := read_of_statement hcall
  rw [hcursor]
  exact Read.slot_of_statement hr

end Translator

/-- However many statements were asked for and whatever came of them, no call to the token stream
lost a token: at each of them, those within a statement included, the tokens taken, the slot and the
unread ones make up the significant tokens of the records, and a token is put back onto an empty
slot. The slot is empty behind every statement. The calls are those of a parser that works in one
pass; it is, and returns, what the parser that reads first is and returns. -/
theorem slot_never_drops (records : List Record) (capacity calls : Nat) :
    let v := (Validator.ofRecords records).after calls
    let t := (Translator.ofRecords records capacity).after calls
    let p := Validator.pass records calls
    let q := Translator.pass records capacity calls
    (p.worker = v ∧ (Validator.step p).1 = v.statement.1 ∧
      Lossless (significant records) p.visits v.cursor ∧
      (v.statement.1 = .ok .statement → v.statement.2.cursor.slot = none)) ∧
    (q.worker = t ∧ (Translator.step q).1 = t.statement.1 ∧
      Lossless (significant records) q.visits t.cursor ∧
      (t.statement.1 = .ok .statement → t.statement.2.cursor.slot = none)) := by
  intro v t p q
  have hp : p.worker = v := Validator.worker_pass records calls
  have hq : q.worker = t := Translator.worker_pass records capacity calls
  constructor
  · refine ⟨hp, ?_, ?_, Validator.slot_of_statement⟩
    · rw [← hp, ← Validator.step_eq]
    · rw [← hp]
      exact Validator.lossless_pass records calls
  · refine ⟨hq, ?_, ?_, Translator.slot_of_statement⟩
    · rw [← hq, ← Translator.step_eq]
    · rw [← hq]
      exact Translator.lossless_pass records capacity calls

/-- Two loops, of which the first has no condition: the word that stands there stays in the slot of
the validator, which needs one more call than the translator to come to the second loop. Both have
taken two words by then. -/
theorem slot_never_drops_behind_broken_loop :
    let v := (Validator.ofRecords (scan "while x while (a < b) c = d;")).after 2
    let t := (Translator.ofRecords (scan "while x while (a < b) c = d;") 3).after 1
    let p := Validator.pass (scan "while x while (a < b) c = d;") 2
    let q := Translator.pass (scan "while x while (a < b) c = d;") 3 1
    v.cursor.slot.map Token.lexeme = some "while" ∧ v.statement.2.cursor.slot = none ∧
      t.cursor.slot = none ∧ t.statement.2.cursor.slot = none ∧
      (Visit.taken p.visits).map Token.lexeme = ["while", "x"] ∧
      (Visit.taken q.visits).map Token.lexeme = ["while", "x"] ∧
      Visit.taken p.visits ++ (v.cursor.slot.toList ++ significant v.cursor.unread) =
        significant (scan "while x while (a < b) c = d;") := by
  intro v t p q
  have hv : v.statement.1 = .ok .statement := by decide +kernel
  have ht : t.statement.1 = .ok .statement := by decide +kernel
  have hwhile : v.cursor.slot.map Token.lexeme = some "while" := by decide +kernel
  have hnone : t.cursor.slot = none := by decide +kernel
  have hp : (Visit.taken p.visits).map Token.lexeme = ["while", "x"] := by decide +kernel
  have hq : (Visit.taken q.visits).map Token.lexeme = ["while", "x"] := by decide +kernel
  obtain ⟨⟨-, -, hlossless, hslot⟩, -⟩ :=
    slot_never_drops (scan "while x while (a < b) c = d;") 3 2
  obtain ⟨-, -, -, -, hslot'⟩ := slot_never_drops (scan "while x while (a < b) c = d;") 3 1
  exact ⟨hwhile, hslot hv, hnone, hslot' ht, hp, hq, hlossless.spells⟩

end LoopAsm
