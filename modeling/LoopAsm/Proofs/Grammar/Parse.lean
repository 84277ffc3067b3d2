/-
Reading a statement, against its tree: a production that succeeds has taken the words of some
tree and asked for that tree's actions, and it succeeds on the words of every tree that the next
word does not go on. What is read depends on the words ahead alone, whether they stand in the
slot, behind blanks or behind malformed words.

`Took` says what a successful read did, and every production has two facts about it: a sound one
(`term_ok`: what was taken is a term) and a complete one (`term_reads`: a term is taken).
-/
import LoopAsm.Grammar.Reading
import LoopAsm.Grammar.Tree

namespace LoopAsm

/-! ## Programs with a state -/

section

variable {ε σ α β : Type} {x : EStateM ε σ α} {f : α → EStateM ε σ β} {s s' s'' : σ} {a : α} {b : β}

theorem bind_eq_ok (h : (x >>= f) s = .ok b s'') :
    ∃ a s', x s = .ok a s' ∧ f a s' = .ok b s'' := by
  simp only [Bind.bind, EStateM.bind] at h
  cases hx : x s with
  | ok a s' => rw [hx] at h; exact ⟨a, s', rfl, h⟩
  | error e s' => rw [hx] at h; cases h

theorem bind_of_ok (h : x s = .ok a s') (f : α → EStateM ε σ β) : (x >>= f) s = f a s' := by
  simp only [Bind.bind, EStateM.bind, h]

end

/-! ## Words and what they stand for -/

/-- The word of a punctuation. -/
def Punctuation.word : Punctuation → Kind × String
  | openParen => (.bracketOrDot, "(")
  | closeParen => (.bracketOrDot, ")")
  | equals => (.assign, "=")
  | semicolon => (.semicolon, ";")

theorem Token.is_iff_spelling {t : Token} {kind : Kind} {lexeme : String} :
    t.is kind lexeme = true ↔ t.spelling = (kind, lexeme) := by
  rw [Token.is_iff, Token.spelling, Prod.mk.injEq]

theorem Punctuation.isToken_iff {p : Punctuation} {t : Token} :
    p.isToken t = true ↔ t.spelling = p.word := by
  cases p <;> exact Token.is_iff_spelling

theorem Token.isWhile_iff {t : Token} : t.isWhile = true ↔ t.spelling = (.keyword, "while") :=
  Token.is_iff_spelling

/-- A choice between two words finds the operator that is spelled like the token. -/
theorem choice_eq_some_iff {α : Type} (spell : α → Spelling) {x y : α} {kind : Kind}
    {first second : String} (hall : ∀ a, a = x ∨ a = y) (hx : spell x = [(kind, first)])
    (hy : spell y = [(kind, second)]) (hne : first ≠ second) {t : Token} {a : α} :
    (if t.is kind first then some x else if t.is kind second then some y else none) = some a ↔
      spell a = [t.spelling] := by
  have hxy : x ≠ y := by
    rintro rfl
    rw [hx] at hy
    simp [hne] at hy
  simp only [Token.is_iff_spelling]
  split
  · rename_i h
    rcases hall a with rfl | rfl
    · simp [hx, h]
    · simp [hy, h, hxy, Ne.symm hne]
  · rename_i h
    split
    · rename_i h'
      rcases hall a with rfl | rfl
      · simp [hx, h', hxy.symm, hne]
      · simp [hy, h']
    · rename_i h'
      rcases hall a with rfl | rfl
      · simp [hx, Ne.symm h]
      · simp [hy, Ne.symm h']

theorem Comparison.ofToken?_eq_some_iff {t : Token} {op : Comparison} :
    Comparison.ofToken? t = some op ↔ op.spelling = [t.spelling] :=
  choice_eq_some_iff Comparison.spelling (by rintro ⟨⟩ <;> simp) rfl rfl (by decide)

theorem AddOp.ofToken?_eq_some_iff {t : Token} {op : AddOp} :
    AddOp.ofToken? t = some op ↔ op.spelling = [t.spelling] :=
  choice_eq_some_iff AddOp.spelling (by rintro ⟨⟩ <;> simp) rfl rfl (by decide)

theorem MulOp.ofToken?_eq_some_iff {t : Token} {op : MulOp} :
    MulOp.ofToken? t = some op ↔ op.spelling = [t.spelling] :=
  choice_eq_some_iff MulOp.spelling (by rintro ⟨⟩ <;> simp) rfl rfl (by decide)

theorem Operand.ofToken?_eq_some_iff {t : Token} {o : Operand} :
    Operand.ofToken? t = some o ↔ ∃ v : Value, v.spelling = [t.spelling] ∧ v.operand = o := by
  obtain ⟨kind, lexeme, line⟩ := t
  unfold ofToken? ofToken
  constructor
  · intro h
    split at h
    · rename_i hk
      rcases hk with hk | hk <;> simp only at hk <;> subst hk <;> cases h
      · exact ⟨.var lexeme, rfl, rfl⟩
      · exact ⟨.int lexeme, rfl, rfl⟩
    · cases h
  · rintro ⟨v, hs, rfl⟩
    cases v <;> simp only [Value.spelling, Token.spelling, List.cons.injEq, Prod.mk.injEq] at hs <;>
      obtain ⟨⟨rfl, rfl⟩, -⟩ := hs <;> rfl

theorem variableName?_eq_some_iff {t : Token} {name : String} :
    variableName? t = some name ↔ t.spelling = (.identifier, name) := by
  unfold variableName? Token.spelling
  by_cases h : t.kind = .identifier <;> simp [h]

/-- The classes of the words in an assignment. -/
def Assignment.kinds : List Kind :=
  [.identifier, .intLiteral, .assign, .addSub, .mulDiv]

theorem Value.not_mem_spelling (v : Value) {word : Kind × String}
    (h : word.1 ∉ Assignment.kinds) : word ∉ v.spelling := by
  cases v <;> rintro (_ | ⟨_, ⟨⟩⟩) <;> simp [Assignment.kinds] at h

theorem Term.not_mem_spelling (t : Term) {word : Kind × String}
    (h : word.1 ∉ Assignment.kinds) : word ∉ t.spelling := by
  have hop (op : MulOp) : word ∉ op.spelling := by
    cases op <;> rintro (_ | ⟨_, ⟨⟩⟩) <;> simp [Assignment.kinds] at h
  simp [spelling, Value.not_mem_spelling _ h, hop]

theorem Assignment.not_mem_spelling (a : Assignment) {word : Kind × String}
    (h : word.1 ∉ kinds) : word ∉ a.spelling := by
  have hop (op : AddOp) : word ∉ op.spelling := by
    cases op <;> rintro (_ | ⟨_, ⟨⟩⟩) <;> simp [Assignment.kinds] at h
  have hfront : word ≠ (.identifier, a.target) ∧ word ≠ (.assign, "=") := by
    constructor <;> rintro rfl <;> simp [kinds] at h
  simp [spelling, Expr.spelling, Term.not_mem_spelling _ h, hop, hfront]

/-! ## What a read did -/

/-- The words ahead. -/
def Cursor.ahead (c : Cursor) : Spelling :=
  c.upcoming.map Token.spelling

/-- The words ahead of a reader. -/
def Reading.ahead (r : Reading) : Spelling :=
  r.cursor.ahead

/-- What reading has asked for so far. -/
def Reading.actions (r : Reading) : List Action :=
  r.steps.toList.filterMap Step.action?

theorem fetch_rest_of_none {records : List Record} (h : (fetch records).token = none) :
    (fetch records).rest = [] := by
  fun_induction fetch records with
  | case1 => rfl
  | case2 => cases h
  | case3 _ _ _ _ _ ih => exact ih h
  | case4 _ _ _ _ ih => exact ih h
  | case5 _ _ _ ih => exact ih h
  | case6 _ _ ih => exact ih h

theorem Cursor.upcoming_of_next_none (c : Cursor) (h : c.next.1 = none) : c.upcoming = [] := by
  have hup := c.upcoming_next
  rw [h] at hup
  rw [hup]
  unfold next at h ⊢
  split at h
  · cases h
  · rename_i hs
    simp only at h
    simp [hs, upcoming, fetch_rest_of_none h, significant, tokensOf]

theorem Cursor.peek_eq_head? (c : Cursor) : c.peek.1 = c.upcoming.head? := by
  obtain ⟨unread, slot, previous, dropped⟩ := c
  cases slot with
  | some t => rfl
  | none =>
    show (fetch unread).token = (significant unread).head?
    rw [significant_fetch]
    cases h : (fetch unread).token with
    | some t => rfl
    | none => rw [fetch_rest_of_none h]; rfl

theorem isSignificant_of_mem {records : List Record} {t : Token} (h : t ∈ significant records) :
    t.isSignificant = true := by
  simp only [significant] at h
  exact (List.mem_filter.1 h).2

theorem significant_tokens {tokens : List Token} (h : ∀ t ∈ tokens, t.isSignificant = true) :
    significant (tokens.map Record.token) = tokens := by
  induction tokens with
  | nil => rfl
  | cons t tokens ih =>
    obtain ⟨ht, hrest⟩ := List.forall_mem_cons.1 h
    rw [List.map_cons, Cursor.significant_cons, ih hrest]
    simp [Record.token?, ht]

/-- Reading got from `r` to `r'` by taking `words` and asking for `actions`. -/
structure Took (r r' : Reading) (words : Spelling) (actions : List Action) : Prop where
  ahead : r.ahead = words ++ r'.ahead
  actions : r'.actions = r.actions ++ actions

theorem Took.trans {r r' r'' : Reading} {u v : Spelling} {a b : List Action} (h : Took r r' u a)
    (h' : Took r' r'' v b) : Took r r'' (u ++ v) (a ++ b) :=
  ⟨by rw [h.ahead, h'.ahead, List.append_assoc], by rw [h'.actions, h.actions, List.append_assoc]⟩

/-- Behind a known text, the rest of the words is known. -/
theorem Took.rest {r r' : Reading} {words tail : Spelling} {actions : List Action}
    (h : Took r r' words actions) (ht : r.ahead = words ++ tail) : r'.ahead = tail :=
  List.append_cancel_left (h.ahead.symm.trans ht)

namespace Read

/-! ## Tokens -/

section

variable {α β : Type}

theorem actions_skip (steps : Array Step) (skipped : List Token) (c : Cursor) :
    Reading.actions ⟨c, steps ++ skipped.map Step.skip⟩ = Reading.actions ⟨c, steps⟩ := by
  have h : (skipped.map Step.skip).filterMap Step.action? = [] := by
    simp [List.filterMap_eq_nil_iff, Step.action?]
  simp [Reading.actions, h]

/-- A token is taken if it stands for something, and stays ahead otherwise. -/
theorem accept_took (view : Token → Option α) (r : Reading) :
    (∃ t a r', view t = some a ∧ accept view r = .ok (some a) r' ∧ Took r r' [t.spelling] []) ∨
      (∀ t ∈ r.cursor.upcoming.head?, view t = none) ∧
        ∃ r', accept view r = .ok none r' ∧ Took r r' [] [] := by
  have hup := r.cursor.upcoming_next
  have hslot := r.cursor.slot_next
  have hend := r.cursor.upcoming_of_next_none
  rw [accept_apply]
  generalize r.cursor.next = fetched at hup hslot hend
  obtain ⟨_ | t, skipped, cursor⟩ := fetched
  · -- nothing is ahead
    refine .inr ⟨by simp [hend], ⟨cursor, r.steps ++ skipped.map Step.skip⟩, rfl, ?_, ?_⟩
    · simpa [Reading.ahead, Cursor.ahead] using congrArg (List.map Token.spelling) hup
    · rw [actions_skip, List.append_nil]; rfl
  · simp only [Option.toList_some, List.singleton_append] at hup
    cases hv : view t with
    | some a =>
      refine .inl ⟨t, a, ⟨cursor, r.steps ++ skipped.map Step.skip⟩, hv, by simp only [hv], ?_, ?_⟩
      · simp [Reading.ahead, Cursor.ahead, hup]
      · rw [actions_skip, List.append_nil]; rfl
    | none =>
      -- the slot is free behind `next`, so the token is not lost
      refine .inr ⟨by simp [hup, hv], ⟨cursor.unget t, r.steps ++ skipped.map Step.skip⟩,
        by simp only [hv], ?_, ?_⟩
      · simp [Reading.ahead, Cursor.ahead, hup, Cursor.upcoming_unget hslot]
      · rw [actions_skip, List.append_nil]; rfl

theorem accept_ok {view : Token → Option α} {r r' : Reading} {o : Option α}
    (h : accept view r = .ok o r') :
    (∃ t a, o = some a ∧ view t = some a ∧ Took r r' [t.spelling] []) ∨
      o = none ∧ Took r r' [] [] := by
  rcases accept_took view r with ⟨t, a, r₁, hv, hx, ht⟩ | ⟨-, r₁, hx, ht⟩
  · rw [hx] at h; cases h; exact .inl ⟨t, a, rfl, hv, ht⟩
  · rw [hx] at h; cases h; exact .inr ⟨rfl, ht⟩

theorem accept_reads (view : Token → Option α) {r : Reading} {word : Kind × String}
    {tail : Spelling} {a : α} (hr : r.ahead = word :: tail)
    (hv : ∀ t : Token, t.spelling = word → view t = some a) :
    ∃ r', accept view r = .ok (some a) r' ∧ Took r r' [word] [] := by
  unfold Reading.ahead Cursor.ahead at hr
  obtain ⟨t, ts, hu, rfl, -⟩ := List.map_eq_cons_iff.1 hr
  rcases accept_took view r with ⟨t', a', r₁, hv', hx, ht⟩ | ⟨hnone, -⟩
  · have hh := ht.ahead
    simp only [Reading.ahead, Cursor.ahead, hr, List.singleton_append, List.cons.injEq] at hh
    rw [hv t' hh.1.symm] at hv'
    cases hv'
    exact ⟨r₁, hx, hh.1 ▸ ht⟩
  · have := hnone t (by simp [hu])
    rw [hv t rfl] at this; cases this

theorem accept_stops {view : Token → Option α} {r : Reading}
    (hv : ∀ t : Token, t.spelling ∈ r.ahead.head? → view t = none) :
    ∃ r', accept view r = .ok none r' ∧ Took r r' [] [] := by
  rcases accept_took view r with ⟨t, a, r₁, hv', hx, ht⟩ | ⟨-, h⟩
  · have := hv t (by simp [ht.ahead])
    rw [this] at hv'; cases hv'
  · exact h

theorem expect_ok {e : Expected} {view : Token → Option α} {r r' : Reading} {a : α}
    (h : expect e view r = .ok a r') : ∃ t, view t = some a ∧ Took r r' [t.spelling] [] := by
  obtain ⟨o, r₁, hx, h⟩ := bind_eq_ok h
  rcases accept_ok hx with ⟨t, b, rfl, hv, ht⟩ | ⟨rfl, -⟩
  · cases h; exact ⟨t, hv, ht⟩
  · cases h

theorem expect_reads (e : Expected) (view : Token → Option α) {r : Reading}
    {word : Kind × String} {tail : Spelling} {a : α} (hr : r.ahead = word :: tail)
    (hv : ∀ t : Token, t.spelling = word → view t = some a) :
    ∃ r', expect e view r = .ok a r' ∧ Took r r' [word] [] := by
  obtain ⟨r', hx, ht⟩ := accept_reads view hr hv
  exact ⟨r', by rw [expect, bind_of_ok hx]; rfl, ht⟩

theorem punctuation_ok {p : Punctuation} {r r' : Reading} (h : punctuation p r = .ok () r') :
    Took r r' [p.word] [] := by
  obtain ⟨t, hv, ht⟩ := expect_ok h
  split at hv
  · rename_i hp
    rwa [Punctuation.isToken_iff.1 hp] at ht
  · cases hv

theorem punctuation_reads {p : Punctuation} {r : Reading} {tail : Spelling}
    (hr : r.ahead = p.word :: tail) : ∃ r', punctuation p r = .ok () r' ∧ Took r r' [p.word] [] :=
  expect_reads _ _ hr fun _ h => if_pos (Punctuation.isToken_iff.2 h)

theorem act_reads (a : Action) (r : Reading) : ∃ r', act a r = .ok () r' ∧ Took r r' [] [a] :=
  ⟨_, rfl, rfl, by simp [Reading.actions, Step.action?]⟩

theorem act_ok {a : Action} {r r' : Reading} {u : Unit} (h : act a r = .ok u r') :
    Took r r' [] [a] := by
  obtain ⟨r₁, hx, ht⟩ := act_reads a r
  rw [hx] at h; cases h; exact ht

/-- The next token is taken and can be put back, as no token is in the slot then. -/
theorem next_took (r : Reading) :
    (r.ahead = [] ∧ ∃ r', next r = .ok none r' ∧ Took r r' [] []) ∨
      ∃ t r', next r = .ok (some t) r' ∧ Took r r' [t.spelling] [] ∧
        ∃ r'', unget t r' = .ok () r'' ∧ Took r r'' [] [] := by
  have hup := r.cursor.upcoming_next
  have hslot := r.cursor.slot_next
  have hend := r.cursor.upcoming_of_next_none
  unfold next
  generalize r.cursor.next = fetched at hup hslot hend
  obtain ⟨_ | t, skipped, cursor⟩ := fetched
  · refine .inl ⟨by simp [Reading.ahead, Cursor.ahead, hend],
      ⟨cursor, r.steps ++ skipped.map Step.skip⟩, rfl, ?_, ?_⟩
    · simpa [Reading.ahead, Cursor.ahead] using congrArg (List.map Token.spelling) hup
    · rw [actions_skip, List.append_nil]; rfl
  · simp only [Option.toList_some, List.singleton_append] at hup
    refine .inr ⟨t, ⟨cursor, r.steps ++ skipped.map Step.skip⟩, rfl, ⟨?_, ?_⟩,
      ⟨cursor.unget t, r.steps ++ skipped.map Step.skip⟩, rfl, ?_, ?_⟩
    · simp [Reading.ahead, Cursor.ahead, hup]
    · rw [actions_skip, List.append_nil]; rfl
    · simp [Reading.ahead, Cursor.ahead, hup, Cursor.upcoming_unget hslot]
    · rw [actions_skip, List.append_nil]; rfl

theorem next_ok {t : Token} {r r' : Reading} (h : next r = .ok (some t) r') :
    Took r r' [t.spelling] [] := by
  rcases next_took r with ⟨-, r₁, hn, -⟩ | ⟨t', r₁, hn, ht, -⟩ <;> rw [h] at hn <;> cases hn
  exact ht

theorem unget_ok {t : Token} {r r₁ r' : Reading} (hn : next r = .ok (some t) r₁)
    (h : unget t r₁ = .ok () r') : Took r r' [] [] := by
  rcases next_took r with ⟨-, r₂, hn', -⟩ | ⟨t', r₂, hn', -, r₃, hu, ht⟩ <;>
    rw [hn] at hn' <;> cases hn'
  rw [h] at hu
  cases hu
  exact ht

end

/-! ## Chains -/

/-- The first of the words is none that `spell` writes. -/
def Free {α : Type} (spell : α → Spelling) (words : Spelling) : Prop :=
  ∀ word ∈ words.head?, ∀ a, spell a ≠ [word]

theorem accept_free {α : Type} {view : Token → Option α} {spell : α → Spelling}
    (hview : ∀ {t a}, view t = some a ↔ spell a = [t.spelling]) {r : Reading}
    (hf : Free spell r.ahead) : ∃ r', accept view r = .ok none r' ∧ Took r r' [] [] := by
  refine accept_stops fun t ht => ?_
  cases hv : view t with
  | none => rfl
  | some a => exact absurd (hview.1 hv) (hf _ ht a)

theorem chain_eq (link : Read Bool) (progress : Consumes link (· = true)) :
    chain link progress = link >>= fun more =>
      if more then chain link progress else Pure.pure () := by
  funext r
  rw [chain]
  split <;> rename_i h <;> simp only [Bind.bind, EStateM.bind, h] <;> rfl

theorem chain_of_link {link : Read Bool} {progress : Consumes link (· = true)} {r r' : Reading}
    (h : link r = .ok true r') : chain link progress r = chain link progress r' := by
  rw [congrFun (chain_eq link progress) r]
  exact bind_of_ok h _

section

variable {γ : Type} {spell : γ → Spelling} {acts : γ → List Action} {link : Read Bool}

theorem chain_ok (hlink : ∀ {r r'}, link r = .ok true r' → ∃ l, Took r r' (spell l) (acts l))
    (hstop : ∀ {r r'}, link r = .ok false r' → Took r r' [] [])
    {progress : Consumes link (· = true)} {r r' : Reading} (h : chain link progress r = .ok () r') :
    ∃ ls : List γ, Took r r' (ls.flatMap spell) (ls.flatMap acts) := by
  fun_induction chain link progress r with
  | case1 r r₁ hl ih =>
    obtain ⟨l, ht⟩ := hlink hl
    obtain ⟨ls, ht'⟩ := ih h
    exact ⟨l :: ls, ht.trans ht'⟩
  | case2 r r₁ hl =>
    cases h
    exact ⟨[], hstop hl⟩
  | case3 => cases h

/-- A chain is read to its end: a link may end only where `Follow` allows, which every further
link and the text behind the chain do, and the chain ends before the first word that starts no
link. -/
theorem chain_reads (progress : Consumes link (· = true)) (Follow : Spelling → Prop)
    {Stop : Spelling → Prop}
    (hlink : ∀ l {r tail}, r.ahead = spell l ++ tail → Follow tail →
      ∃ r', link r = .ok true r' ∧ Took r r' (spell l) (acts l))
    (hstop : ∀ {r}, Stop r.ahead → ∃ r', link r = .ok false r' ∧ Took r r' [] [])
    (hfollow : ∀ l tail, Follow (spell l ++ tail)) (ls : List γ) {r : Reading} {tail : Spelling}
    (hr : r.ahead = ls.flatMap spell ++ tail) (hf : Follow tail) (hs : Stop tail) :
    ∃ r', chain link progress r = .ok () r' ∧ Took r r' (ls.flatMap spell) (ls.flatMap acts) := by
  induction ls generalizing r with
  | nil =>
    obtain ⟨r', hx, ht⟩ := hstop (show Stop r.ahead by rw [hr]; exact hs)
    refine ⟨r', ?_, ht⟩
    rw [congrFun (chain_eq link progress) r]
    exact bind_of_ok hx _
  | cons l ls ih =>
    rw [List.flatMap_cons, List.append_assoc] at hr
    have hnext : Follow (ls.flatMap spell ++ tail) := by
      cases ls with
      | nil => exact hf
      | cons l' ls => rw [List.flatMap_cons, List.append_assoc]; exact hfollow l' _
    obtain ⟨r₁, hx, ht⟩ := hlink l hr hnext
    obtain ⟨r', hx', ht'⟩ := ih (ht.rest hr)
    exact ⟨r', (chain_of_link hx).trans hx', ht.trans ht'⟩

end

/-! ## Links -/

/-- An operator and what stands behind it, as in a product and in a sum. -/
def link {α : Type} (view : Token → Option α) (operator : α → Operator) (operand : Read Unit)
    (last : Action) : Read Bool := do
  match ← accept view with
  | none => return false
  | some op =>
    act (.operator (operator op))
    operand
    act last
    return true

theorem productLink_eq :
    productLink = link MulOp.ofToken? .multiplicative operand .multiply := by
  unfold productLink link
  congr
  funext o
  cases o <;> rfl

theorem sumLink_eq : sumLink = link AddOp.ofToken? .additive term .add := by
  unfold sumLink link
  congr
  funext o
  cases o <;> rfl

section

variable {α γ : Type} {view : Token → Option α} {spell : α → Spelling} {operator : α → Operator}
  {body : Read Unit} {spellBody : γ → Spelling} {acts : γ → List Action} {last : Action}

theorem link_ok (hview : ∀ {t a}, view t = some a ↔ spell a = [t.spelling])
    (hbody : ∀ {r r' u}, body r = .ok u r' → ∃ b, Took r r' (spellBody b) (acts b))
    {r r' : Reading} (h : link view operator body last r = .ok true r') :
    ∃ l : α × γ, Took r r' (spell l.1 ++ spellBody l.2)
      (.operator (operator l.1) :: acts l.2 ++ [last]) := by
  obtain ⟨o, r₁, hx, h⟩ := bind_eq_ok h
  rcases accept_ok hx with ⟨t, op, rfl, hv, ht⟩ | ⟨rfl, -⟩
  · obtain ⟨_, r₂, hpush, h⟩ := bind_eq_ok h
    obtain ⟨_, r₃, hx₃, h⟩ := bind_eq_ok h
    obtain ⟨_, r₄, hlast, h⟩ := bind_eq_ok h
    cases h
    obtain ⟨b, hb⟩ := hbody hx₃
    rw [hview] at hv
    refine ⟨(op, b), ?_⟩
    simpa [hv] using ((ht.trans (act_ok hpush)).trans hb).trans (act_ok hlast)
  · cases h

theorem link_stop {r r' : Reading} (h : link view operator body last r = .ok false r') :
    Took r r' [] [] := by
  obtain ⟨o, r₁, hx, h⟩ := bind_eq_ok h
  rcases accept_ok hx with ⟨t, op, rfl, hv, ht⟩ | ⟨rfl, ht⟩
  · obtain ⟨_, r₂, -, h⟩ := bind_eq_ok h
    obtain ⟨_, r₃, -, h⟩ := bind_eq_ok h
    obtain ⟨_, r₄, -, h⟩ := bind_eq_ok h
    cases h
  · cases h; exact ht

/-- A link is read where the text behind it allows what it ends with. -/
theorem link_reads (hview : ∀ {t a}, view t = some a ↔ spell a = [t.spelling])
    (hspell : ∀ a, ∃ word, spell a = [word]) {Follow : Spelling → Prop}
    (hbody : ∀ b {r tail}, r.ahead = spellBody b ++ tail → Follow tail →
      ∃ r', body r = .ok () r' ∧ Took r r' (spellBody b) (acts b))
    (l : α × γ) {r : Reading} {tail : Spelling}
    (hr : r.ahead = (spell l.1 ++ spellBody l.2) ++ tail) (hf : Follow tail) :
    ∃ r', link view operator body last r = .ok true r' ∧ Took r r' (spell l.1 ++ spellBody l.2)
      (.operator (operator l.1) :: acts l.2 ++ [last]) := by
  obtain ⟨op, b⟩ := l
  obtain ⟨word, hw⟩ := hspell op
  simp only [hw, List.singleton_append] at hr ⊢
  obtain ⟨r₁, hx₁, ht₁⟩ := accept_reads view hr fun t ht => hview.2 (by rw [hw, ht])
  obtain ⟨r₂, hx₂, ht₂⟩ := act_reads (.operator (operator op)) r₁
  obtain ⟨r₃, hx₃, ht₃⟩ := hbody b ((ht₁.trans ht₂).rest hr) hf
  obtain ⟨r₄, hx₄, ht₄⟩ := act_reads last r₃
  refine ⟨r₄, ?_, by simpa using ((ht₁.trans ht₂).trans ht₃).trans ht₄⟩
  rw [link, bind_of_ok hx₁]
  dsimp only
  rw [bind_of_ok hx₂, bind_of_ok hx₃, bind_of_ok hx₄]
  rfl

theorem link_stops (hview : ∀ {t a}, view t = some a ↔ spell a = [t.spelling]) {r : Reading}
    (hf : Free spell r.ahead) :
    ∃ r', link view operator body last r = .ok false r' ∧ Took r r' [] [] := by
  obtain ⟨r', hx, ht⟩ := accept_free hview hf
  exact ⟨r', by rw [link, bind_of_ok hx]; rfl, ht⟩

end

/-! ## What is taken is a tree -/

theorem operand_ok {r r' : Reading} {u : Unit} (h : operand r = .ok u r') :
    ∃ v : Value, Took r r' v.spelling [.operand v.operand] := by
  obtain ⟨o, r₁, hx, h⟩ := bind_eq_ok h
  obtain ⟨t, hv, ht⟩ := expect_ok hx
  obtain ⟨v, hs, rfl⟩ := Operand.ofToken?_eq_some_iff.1 hv
  exact ⟨v, hs ▸ ht.trans (act_ok h)⟩

theorem productLinks_ok {r r' : Reading} (h : chain productLink productLink_consumes r = .ok () r') :
    ∃ links : List (MulOp × Value), Took r r' (links.flatMap fun (op, v) => op.spelling ++ v.spelling)
      (links.flatMap fun (op, v) =>
        [.operator (.multiplicative op), .operand v.operand, .multiply]) :=
  chain_ok (fun h => link_ok MulOp.ofToken?_eq_some_iff operand_ok (productLink_eq ▸ h))
    (fun h => link_stop (productLink_eq ▸ h)) h

theorem term_ok {r r' : Reading} {u : Unit} (h : term r = .ok u r') :
    ∃ t : Term, Took r r' t.spelling t.actions := by
  obtain ⟨_, r₁, hfirst, h⟩ := bind_eq_ok h
  obtain ⟨v, hv⟩ := operand_ok hfirst
  obtain ⟨links, hlinks⟩ := productLinks_ok h
  exact ⟨⟨v, links⟩, hv.trans hlinks⟩

theorem sumLinks_ok {r r' : Reading} (h : chain sumLink sumLink_consumes r = .ok () r') :
    ∃ links : List (AddOp × Term), Took r r' (links.flatMap fun (op, t) => op.spelling ++ t.spelling)
      (links.flatMap fun (op, t) => .operator (.additive op) :: t.actions ++ [.add]) :=
  chain_ok (fun h => link_ok AddOp.ofToken?_eq_some_iff term_ok (sumLink_eq ▸ h))
    (fun h => link_stop (sumLink_eq ▸ h)) h

theorem sum_ok {r r' : Reading} {u : Unit} (h : sum r = .ok u r') :
    ∃ e : Expr, Took r r' e.spelling e.actions := by
  obtain ⟨_, r₁, hfirst, h⟩ := bind_eq_ok h
  obtain ⟨t, ht⟩ := term_ok hfirst
  obtain ⟨links, hlinks⟩ := sumLinks_ok h
  exact ⟨⟨t, links⟩, ht.trans hlinks⟩

theorem assignment_ok {r r' : Reading} {u : Unit} (h : assignment r = .ok u r') :
    ∃ a : Assignment, Took r r' a.spelling a.actions := by
  obtain ⟨target, r₁, hx, h⟩ := bind_eq_ok h
  obtain ⟨t, hv, ht⟩ := expect_ok hx
  obtain ⟨_, r₂, hequals, h⟩ := bind_eq_ok h
  obtain ⟨_, r₃, hsum, h⟩ := bind_eq_ok h
  obtain ⟨e, he⟩ := sum_ok hsum
  rw [variableName?_eq_some_iff.1 hv] at ht
  exact ⟨⟨target, e⟩, by
    simpa [Assignment.spelling, Assignment.actions, Punctuation.word] using
      ((ht.trans (punctuation_ok hequals)).trans he).trans (act_ok h)⟩

theorem condition_ok {r r' : Reading} {u : Unit} (h : condition r = .ok u r') :
    ∃ (left right : Value) (op : Comparison), Took r r' (left.spelling ++ op.spelling ++ right.spelling)
      [.operand left.operand, .operator (.comparison op), .operand right.operand, .compare] := by
  obtain ⟨_, r₁, hleft, h⟩ := bind_eq_ok h
  obtain ⟨op, r₂, hop, h⟩ := bind_eq_ok h
  obtain ⟨_, r₃, hpush, h⟩ := bind_eq_ok h
  obtain ⟨_, r₄, hright, h⟩ := bind_eq_ok h
  obtain ⟨left, hl⟩ := operand_ok hleft
  obtain ⟨right, hr⟩ := operand_ok hright
  obtain ⟨t, hv, ht⟩ := expect_ok hop
  rw [Comparison.ofToken?_eq_some_iff] at hv
  refine ⟨left, right, op, ?_⟩
  simpa [hv] using
    (((hl.trans ht).trans (act_ok hpush)).trans hr).trans (act_ok h)

theorem close_ok {r r' : Reading} {b : Bool} (h : close r = .ok b r') :
    b = true ∧ Took r r' [(.semicolon, ";")] [.finish] := by
  obtain ⟨_, r₁, hp, h⟩ := bind_eq_ok h
  obtain ⟨_, r₂, hf, h⟩ := bind_eq_ok h
  cases h
  exact ⟨rfl, (punctuation_ok hp).trans (act_ok hf)⟩

theorem loop_ok {r r' : Reading} {u : Unit} (h : loop r = .ok u r') :
    ∃ (left right : Value) (op : Comparison) (body : Assignment),
      Took r r' ((.bracketOrDot, "(") :: left.spelling ++ op.spelling ++ right.spelling
        ++ (.bracketOrDot, ")") :: body.spelling)
      ([.loopBegin, .operand left.operand, .operator (.comparison op), .operand right.operand,
        .compare, .branch] ++ body.actions ++ [.loopEnd]) := by
  obtain ⟨_, r₁, hbegin, h⟩ := bind_eq_ok h
  obtain ⟨_, r₂, hopen, h⟩ := bind_eq_ok h
  obtain ⟨_, r₃, hcond, h⟩ := bind_eq_ok h
  obtain ⟨_, r₄, hclose, h⟩ := bind_eq_ok h
  obtain ⟨_, r₅, hbranch, h⟩ := bind_eq_ok h
  obtain ⟨_, r₆, hbody, h⟩ := bind_eq_ok h
  obtain ⟨left, right, op, hc⟩ := condition_ok hcond
  obtain ⟨body, hb⟩ := assignment_ok hbody
  refine ⟨left, right, op, body, ?_⟩
  simpa [Punctuation.word] using
    ((((((act_ok hbegin).trans (punctuation_ok hopen)).trans hc).trans
      (punctuation_ok hclose)).trans (act_ok hbranch)).trans hb).trans (act_ok h)

/-- A statement that was read is a statement of the grammar. -/
theorem statement_ok {r r' : Reading} (h : statement r = .ok true r') :
    ∃ st : Statement, Took r r' st.spelling st.actions := by
  obtain ⟨o, r₁, hx, h⟩ := bind_eq_ok h
  rcases next_took r with ⟨-, r₂, hn, -⟩ | ⟨t, r₂, hn, ht, r₃, hu, ht'⟩ <;> rw [hn] at hx <;> cases hx
  · cases h
  · dsimp only at h
    split at h
    · rename_i hw
      obtain ⟨_, r₄, hl, h⟩ := bind_eq_ok h
      obtain ⟨left, right, op, body, hloop⟩ := loop_ok hl
      refine ⟨.loop left op right body, ?_⟩
      rw [Token.isWhile_iff.1 hw] at ht
      simpa [Statement.spelling, Statement.actions] using (ht.trans hloop).trans (close_ok h).2
    · rw [bind_of_ok hu] at h
      obtain ⟨_, r₄, ha, h⟩ := bind_eq_ok h
      obtain ⟨a, ha⟩ := assignment_ok ha
      exact ⟨.assignment a, (ht'.trans ha).trans (close_ok h).2⟩

/-- No statement was read where no word is ahead. -/
theorem statement_end {r r' : Reading} (h : statement r = .ok false r') :
    r.ahead = [] ∧ Took r r' [] [] := by
  obtain ⟨o, r₁, hx, h⟩ := bind_eq_ok h
  rcases next_took r with ⟨he, r₂, hn, ht⟩ | ⟨t, r₂, hn, ht, r₃, hu, -⟩ <;> rw [hn] at hx <;> cases hx
  · cases h
    exact ⟨he, ht⟩
  · dsimp only at h
    split at h
    · obtain ⟨_, r₄, -, h⟩ := bind_eq_ok h
      cases (close_ok h).1
    · rw [bind_of_ok hu] at h
      obtain ⟨_, r₄, -, h⟩ := bind_eq_ok h
      cases (close_ok h).1

/-! ## A tree is taken -/

theorem operand_reads (v : Value) {r : Reading} {tail : Spelling}
    (hr : r.ahead = v.spelling ++ tail) :
    ∃ r', operand r = .ok () r' ∧ Took r r' v.spelling [.operand v.operand] := by
  obtain ⟨word, hw⟩ : ∃ word, v.spelling = [word] := by cases v <;> exact ⟨_, rfl⟩
  rw [hw] at hr ⊢
  obtain ⟨r₁, hx, ht⟩ := expect_reads .operand Operand.ofToken? hr fun t ht =>
    Operand.ofToken?_eq_some_iff.2 ⟨v, by rw [hw, ht], rfl⟩
  obtain ⟨r₂, hx', ht'⟩ := act_reads (.operand v.operand) r₁
  exact ⟨r₂, by rw [operand, bind_of_ok hx, hx'], ht.trans ht'⟩

theorem term_reads (t : Term) {r : Reading} {tail : Spelling} (hr : r.ahead = t.spelling ++ tail)
    (hf : Free MulOp.spelling tail) :
    ∃ r', term r = .ok () r' ∧ Took r r' t.spelling t.actions := by
  rw [Term.spelling, List.append_assoc] at hr
  obtain ⟨r₁, hx, ht⟩ := operand_reads t.first hr
  obtain ⟨r₂, hx', ht'⟩ := chain_reads productLink_consumes (fun _ => True)
    (productLink_eq ▸ link_reads MulOp.ofToken?_eq_some_iff (by rintro ⟨⟩ <;> exact ⟨_, rfl⟩)
      fun v _ _ h _ => operand_reads v h)
    (productLink_eq ▸ link_stops MulOp.ofToken?_eq_some_iff) (fun _ _ => trivial) t.rest
    (ht.rest hr) trivial hf
  exact ⟨r₂, (bind_of_ok hx _).trans hx', ht.trans ht'⟩

/-- An additive operator does not go on a product. -/
theorem free_sumLink (l : AddOp × Term) (tail : Spelling) :
    Free MulOp.spelling ((l.1.spelling ++ l.2.spelling) ++ tail) := by
  obtain ⟨op, t⟩ := l
  rintro word hw (_ | _) <;> cases op <;> rintro ⟨⟩ <;> cases hw

theorem sum_reads (e : Expr) {r : Reading} {tail : Spelling} (hr : r.ahead = e.spelling ++ tail)
    (hm : Free MulOp.spelling tail) (ha : Free AddOp.spelling tail) :
    ∃ r', sum r = .ok () r' ∧ Took r r' e.spelling e.actions := by
  rw [Expr.spelling, List.append_assoc] at hr
  -- Behind the first product stands another link or what follows the sum.
  have hfirst : Free MulOp.spelling
      (e.rest.flatMap (fun l => l.1.spelling ++ l.2.spelling) ++ tail) := by
    cases hrest : e.rest with
    | nil => exact hm
    | cons l ls => rw [List.flatMap_cons, List.append_assoc]; exact free_sumLink l _
  obtain ⟨r₁, hx, ht⟩ := term_reads e.first hr hfirst
  obtain ⟨r₂, hx', ht'⟩ := chain_reads sumLink_consumes (Free MulOp.spelling)
    (sumLink_eq ▸ link_reads AddOp.ofToken?_eq_some_iff (by rintro ⟨⟩ <;> exact ⟨_, rfl⟩)
      fun t _ _ h hf => term_reads t h hf)
    (sumLink_eq ▸ link_stops AddOp.ofToken?_eq_some_iff) free_sumLink e.rest (ht.rest hr) hm ha
  exact ⟨r₂, (bind_of_ok hx _).trans hx', ht.trans ht'⟩

/-- A semicolon goes on neither a sum nor a product. -/
theorem free_semicolon {α : Type} {spell : α → Spelling} (h : ∀ a, spell a ≠ [(.semicolon, ";")])
    (tail : Spelling) : Free spell ((.semicolon, ";") :: tail) := by
  rintro word ⟨⟩
  exact h

theorem assignment_reads (a : Assignment) {r : Reading} {tail : Spelling}
    (hr : r.ahead = a.spelling ++ (.semicolon, ";") :: tail) :
    ∃ r', assignment r = .ok () r' ∧ Took r r' a.spelling a.actions := by
  obtain ⟨target, e⟩ := a
  have hr' : r.ahead = (.identifier, target) :: Punctuation.equals.word ::
      (e.spelling ++ (.semicolon, ";") :: tail) := hr
  obtain ⟨r₁, hx₁, ht₁⟩ := expect_reads .target variableName? hr' fun t ht =>
    variableName?_eq_some_iff.2 ht
  obtain ⟨r₂, hx₂, ht₂⟩ := punctuation_reads (ht₁.rest hr')
  obtain ⟨r₃, hx₃, ht₃⟩ := sum_reads e ((ht₁.trans ht₂).rest hr')
    (free_semicolon (by rintro ⟨⟩ <;> decide) tail) (free_semicolon (by rintro ⟨⟩ <;> decide) tail)
  obtain ⟨r₄, hx₄, ht₄⟩ := act_reads (.assign target) r₃
  refine ⟨r₄, ?_, ?_⟩
  · rw [assignment, bind_of_ok hx₁, bind_of_ok hx₂, bind_of_ok hx₃, hx₄]
  · simpa [Assignment.spelling, Assignment.actions, Punctuation.word] using
      ((ht₁.trans ht₂).trans ht₃).trans ht₄

theorem condition_reads (left right : Value) (op : Comparison) {r : Reading} {tail : Spelling}
    (hr : r.ahead = left.spelling ++ op.spelling ++ right.spelling ++ tail) :
    ∃ r', condition r = .ok () r' ∧ Took r r' (left.spelling ++ op.spelling ++ right.spelling)
      [.operand left.operand, .operator (.comparison op), .operand right.operand, .compare] := by
  obtain ⟨word, hw⟩ : ∃ word, op.spelling = [word] := by cases op <;> exact ⟨_, rfl⟩
  rw [List.append_assoc, List.append_assoc] at hr
  obtain ⟨r₁, hx₁, ht₁⟩ := operand_reads left hr
  have hr₁ := ht₁.rest hr
  rw [hw, List.singleton_append] at hr₁
  obtain ⟨r₂, hx₂, ht₂⟩ := expect_reads .comparison Comparison.ofToken? hr₁
    fun t ht => Comparison.ofToken?_eq_some_iff.2 (by rw [hw, ht])
  obtain ⟨r₃, hx₃, ht₃⟩ := act_reads (.operator (.comparison op)) r₂
  obtain ⟨r₄, hx₄, ht₄⟩ := operand_reads right ((ht₂.trans ht₃).rest hr₁)
  obtain ⟨r₅, hx₅, ht₅⟩ := act_reads .compare r₄
  refine ⟨r₅, ?_, ?_⟩
  · rw [condition, bind_of_ok hx₁, bind_of_ok hx₂, bind_of_ok hx₃, bind_of_ok hx₄, hx₅]
  · simpa [hw] using (((ht₁.trans ht₂).trans ht₃).trans ht₄).trans ht₅

theorem close_reads {r : Reading} {tail : Spelling} (hr : r.ahead = (.semicolon, ";") :: tail) :
    ∃ r', close r = .ok true r' ∧ Took r r' [(.semicolon, ";")] [.finish] := by
  obtain ⟨r₁, hx₁, ht₁⟩ := punctuation_reads (p := .semicolon) hr
  obtain ⟨r₂, hx₂, ht₂⟩ := act_reads .finish r₁
  refine ⟨r₂, ?_, ht₁.trans ht₂⟩
  rw [close, bind_of_ok hx₁, bind_of_ok hx₂]
  rfl

theorem loop_reads (left right : Value) (op : Comparison) (body : Assignment) {r : Reading}
    {tail : Spelling}
    (hr : r.ahead = (.bracketOrDot, "(") :: left.spelling ++ op.spelling ++ right.spelling
      ++ (.bracketOrDot, ")") :: body.spelling ++ (.semicolon, ";") :: tail) :
    ∃ r', loop r = .ok () r' ∧ Took r r' ((.bracketOrDot, "(") :: left.spelling ++ op.spelling
        ++ right.spelling ++ (.bracketOrDot, ")") :: body.spelling)
      ([.loopBegin, .operand left.operand, .operator (.comparison op), .operand right.operand,
        .compare, .branch] ++ body.actions ++ [.loopEnd]) := by
  have hr' : r.ahead = Punctuation.openParen.word :: (left.spelling ++ op.spelling
      ++ right.spelling ++ Punctuation.closeParen.word ::
        (body.spelling ++ (.semicolon, ";") :: tail)) := by
    simpa [Punctuation.word] using hr
  obtain ⟨r₁, hx₁, ht₁⟩ := act_reads .loopBegin r
  obtain ⟨r₂, hx₂, ht₂⟩ := punctuation_reads (ht₁.rest hr')
  obtain ⟨r₃, hx₃, ht₃⟩ := condition_reads left right op ((ht₁.trans ht₂).rest hr')
  have hr₃ := ht₃.rest ((ht₁.trans ht₂).rest hr')
  obtain ⟨r₄, hx₄, ht₄⟩ := punctuation_reads hr₃
  obtain ⟨r₅, hx₅, ht₅⟩ := act_reads .branch r₄
  obtain ⟨r₆, hx₆, ht₆⟩ := assignment_reads body ((ht₄.trans ht₅).rest hr₃)
  obtain ⟨r₇, hx₇, ht₇⟩ := act_reads .loopEnd r₆
  refine ⟨r₇, ?_, ?_⟩
  · rw [loop, bind_of_ok hx₁, bind_of_ok hx₂, bind_of_ok hx₃, bind_of_ok hx₄, bind_of_ok hx₅,
      bind_of_ok hx₆, hx₇]
  · simpa [Punctuation.word] using
      (((((ht₁.trans ht₂).trans ht₃).trans ht₄).trans ht₅).trans ht₆).trans ht₇

/-- Every statement of the grammar is read, whatever is behind it. -/
theorem statement_reads (st : Statement) {r : Reading} {tail : Spelling}
    (hr : r.ahead = st.spelling ++ tail) :
    ∃ r', statement r = .ok true r' ∧ Took r r' st.spelling st.actions := by
  rcases next_took r with ⟨he, -⟩ | ⟨t, r₁, hn, ht, r₂, hu, ht'⟩
  · rw [he] at hr
    cases st <;> cases hr
  · have hword := ht.ahead.symm.trans hr
    rw [statement, bind_of_ok hn]
    dsimp only
    cases st with
    | assignment a =>
      -- An assignment starts with a variable: the word is given back and read once more.
      have hw : ¬ t.isWhile = true := by
        rw [Token.isWhile_iff]
        intro h
        rw [h] at hword
        cases hword
      rw [if_neg hw, bind_of_ok hu]
      have hr₂ : r₂.ahead = a.spelling ++ (.semicolon, ";") :: tail := by
        rw [← List.nil_append r₂.ahead, ← ht'.ahead, hr]
        simp [Statement.spelling]
      obtain ⟨r₃, hx₃, ht₃⟩ := assignment_reads a hr₂
      obtain ⟨r₄, hx₄, ht₄⟩ := close_reads (ht₃.rest hr₂)
      exact ⟨r₄, by rw [bind_of_ok hx₃, hx₄], (ht'.trans ht₃).trans ht₄⟩
    | loop left op right body =>
      have hw : t.spelling = (.keyword, "while") := (List.cons.inj hword).1
      rw [if_pos (Token.isWhile_iff.2 hw)]
      have hr₁ : r₁.ahead = (.bracketOrDot, "(") :: left.spelling ++ op.spelling ++ right.spelling
          ++ (.bracketOrDot, ")") :: body.spelling ++ (.semicolon, ";") :: tail := by
        refine (List.cons.inj hword).2.trans ?_
        simp
      obtain ⟨r₃, hx₃, ht₃⟩ := loop_reads left right op body hr₁
      obtain ⟨r₄, hx₄, ht₄⟩ := close_reads (ht₃.rest hr₁)
      refine ⟨r₄, by rw [bind_of_ok hx₃, hx₄], ?_⟩
      rw [hw] at ht
      simpa [Statement.spelling, Statement.actions] using (ht.trans ht₃).trans ht₄

/-- Where no word is ahead, no statement is read, and that is no fault. -/
theorem statement_stops {r : Reading} (hr : r.ahead = []) :
    ∃ r', statement r = .ok false r' ∧ Took r r' [] [] := by
  rcases next_took r with ⟨-, r₁, hn, ht⟩ | ⟨t, r₁, hn, ht, -⟩
  · exact ⟨r₁, by rw [statement, bind_of_ok hn]; rfl, ht⟩
  · rw [ht.ahead] at hr; cases hr

end Read

end LoopAsm
