/-
Reading that fails. A production that breaks off has taken a beginning of some tree's words and
asked for a beginning of that tree's actions: no token is taken, and no action asked for, before
it is certain that a statement can go on with it. Each production has one fact about that, over
the tree that it was in the middle of (`term_error`: a term was broken off).
-/
import LoopAsm.Proofs.Grammar.Parse

namespace LoopAsm

theorem bind_eq_error {ε σ α β : Type} {x : EStateM ε σ α} {f : α → EStateM ε σ β} {s s'' : σ}
    {e : ε} (h : (x >>= f) s = .error e s'') :
    x s = .error e s'' ∨ ∃ a s', x s = .ok a s' ∧ f a s' = .error e s'' := by
  simp only [Bind.bind, EStateM.bind] at h
  cases hx : x s with
  | ok a s' => rw [hx] at h; exact .inr ⟨a, s', rfl, h⟩
  | error e' s' => rw [hx] at h; cases h; exact .inl rfl

/-! ## Beginnings of trees -/

/-- Reading got from `r` to `r'` in the middle of something that is spelled `words` and asks for
`actions`. -/
def BrokeOff (r r' : Reading) (words : Spelling) (actions : List Action) : Prop :=
  ∃ taken asked, Took r r' taken asked ∧ taken <+: words ∧ asked <+: actions

section

variable {r r' r'' : Reading} {u v : Spelling} {a b : List Action}

/-- Nothing is the beginning of everything. -/
theorem Took.brokeOff (h : Took r r' [] []) (words : Spelling) (actions : List Action) :
    BrokeOff r r' words actions :=
  ⟨[], [], h, List.nil_prefix, List.nil_prefix⟩

theorem BrokeOff.behind (h : BrokeOff r' r'' v b) (ht : Took r r' u a) :
    BrokeOff r r'' (u ++ v) (a ++ b) := by
  obtain ⟨taken, asked, ht', hu, ha⟩ := h
  exact ⟨u ++ taken, a ++ asked, ht.trans ht', (List.prefix_append_right_inj u).2 hu,
    (List.prefix_append_right_inj a).2 ha⟩

theorem BrokeOff.before (h : BrokeOff r r' u a) (v : Spelling) (b : List Action) :
    BrokeOff r r' (u ++ v) (a ++ b) := by
  obtain ⟨taken, asked, ht, hu, ha⟩ := h
  exact ⟨taken, asked, ht, hu.trans (List.prefix_append u v), ha.trans (List.prefix_append a b)⟩

end

namespace Read

/-! ## Tokens -/

section

variable {α : Type} {r r' : Reading} {e : Expected}

theorem accept_ne_error {view : Token → Option α} : accept view r ≠ .error e r' := by
  intro h
  rcases accept_took view r with ⟨t, a, r₁, -, hx, -⟩ | ⟨-, r₁, hx, -⟩ <;> rw [hx] at h <;> cases h

/-- A missing token is still ahead, whatever it is. -/
theorem expect_error {expected : Expected} {view : Token → Option α}
    (h : expect expected view r = .error e r') : Took r r' [] [] := by
  rcases bind_eq_error h with h | ⟨o, r₁, hx, h⟩
  · exact absurd h accept_ne_error
  · rcases accept_ok hx with ⟨t, a, rfl, -, -⟩ | ⟨rfl, ht⟩
    · cases h
    · cases h; exact ht

theorem punctuation_error {p : Punctuation} (h : punctuation p r = .error e r') :
    Took r r' [] [] :=
  expect_error h

end

/-! ## Chains and links -/

section

variable {γ : Type} {spell : γ → Spelling} {acts : γ → List Action} {link : Read Bool}
  {r r' : Reading} {e : Expected}

theorem chain_error (hlink : ∀ {r r'}, link r = .ok true r' → ∃ l, Took r r' (spell l) (acts l))
    (herror : ∀ {r r' e}, link r = .error e r' → ∃ l, BrokeOff r r' (spell l) (acts l))
    {progress : Consumes link (· = true)} (h : chain link progress r = .error e r') :
    ∃ ls : List γ, BrokeOff r r' (ls.flatMap spell) (ls.flatMap acts) := by
  fun_induction chain link progress r with
  | case1 r r₁ hl ih =>
    obtain ⟨l, ht⟩ := hlink hl
    obtain ⟨ls, hb⟩ := ih h
    exact ⟨l :: ls, hb.behind ht⟩
  | case2 => cases h
  | case3 r e r₁ hl =>
    cases h
    obtain ⟨l, hb⟩ := herror hl
    exact ⟨[l], hb.before [] []⟩

end

section

variable {α γ : Type} {view : Token → Option α} {spell : α → Spelling} {operator : α → Operator}
  {body : Read Unit} {spellBody : γ → Spelling} {acts : γ → List Action} {last : Action}
  {r r' : Reading} {e : Expected}

/-- A link is broken off behind its operator. -/
theorem link_error (hview : ∀ {t a}, view t = some a ↔ spell a = [t.spelling])
    (hbody : ∀ {r r' e}, body r = .error e r' → ∃ b, BrokeOff r r' (spellBody b) (acts b))
    (h : link view operator body last r = .error e r') :
    ∃ l : α × γ, BrokeOff r r' (spell l.1 ++ spellBody l.2)
      (.operator (operator l.1) :: acts l.2 ++ [last]) := by
  rcases bind_eq_error h with h | ⟨o, r₁, hx, h⟩
  · exact absurd h accept_ne_error
  rcases accept_ok hx with ⟨t, op, rfl, hv, ht⟩ | ⟨rfl, -⟩
  · rcases bind_eq_error h with h | ⟨_, r₂, hpush, h⟩
    · cases h
    rcases bind_eq_error h with h | ⟨_, r₃, -, h⟩
    · obtain ⟨b, hb⟩ := hbody h
      rw [hview] at hv
      refine ⟨(op, b), ?_⟩
      simpa [hv] using (hb.before [] [last]).behind (ht.trans (act_ok hpush))
    · cases h
  · cases h

end

/-! ## Productions -/

variable {r r' : Reading} {e : Expected}

theorem operand_error (h : operand r = .error e r') :
    ∃ v : Value, BrokeOff r r' v.spelling [.operand v.operand] := by
  rcases bind_eq_error h with h | ⟨o, r₁, -, h⟩
  · exact ⟨default, (expect_error h).brokeOff _ _⟩
  · cases h

theorem term_error (h : term r = .error e r') :
    ∃ t : Term, BrokeOff r r' t.spelling t.actions := by
  rcases bind_eq_error h with h | ⟨_, r₁, hfirst, h⟩
  · obtain ⟨v, hb⟩ := operand_error h
    exact ⟨⟨v, []⟩, hb.before _ _⟩
  · obtain ⟨v, hv⟩ := operand_ok hfirst
    obtain ⟨ls, hb⟩ := chain_error
      (fun h => link_ok MulOp.ofToken?_eq_some_iff operand_ok (productLink_eq ▸ h))
      (fun h => link_error MulOp.ofToken?_eq_some_iff operand_error (productLink_eq ▸ h)) h
    exact ⟨⟨v, ls⟩, hb.behind hv⟩

theorem sum_error (h : sum r = .error e r') :
    ∃ x : Expr, BrokeOff r r' x.spelling x.actions := by
  rcases bind_eq_error h with h | ⟨_, r₁, hfirst, h⟩
  · obtain ⟨t, hb⟩ := term_error h
    exact ⟨⟨t, []⟩, hb.before _ _⟩
  · obtain ⟨t, ht⟩ := term_ok hfirst
    obtain ⟨ls, hb⟩ := chain_error
      (fun h => link_ok AddOp.ofToken?_eq_some_iff term_ok (sumLink_eq ▸ h))
      (fun h => link_error AddOp.ofToken?_eq_some_iff term_error (sumLink_eq ▸ h)) h
    exact ⟨⟨t, ls⟩, hb.behind ht⟩

theorem assignment_error (h : assignment r = .error e r') :
    ∃ a : Assignment, BrokeOff r r' a.spelling a.actions := by
  rcases bind_eq_error h with h | ⟨target, r₁, hx, h⟩
  · exact ⟨default, (expect_error h).brokeOff _ _⟩
  obtain ⟨t, hv, ht⟩ := expect_ok hx
  rw [variableName?_eq_some_iff.1 hv] at ht
  rcases bind_eq_error h with h | ⟨_, r₂, hequals, h⟩
  · exact ⟨⟨target, default⟩, ((punctuation_error h).brokeOff _ _).behind ht⟩
  rcases bind_eq_error h with h | ⟨_, r₃, hsum, h⟩
  · obtain ⟨x, hb⟩ := sum_error h
    refine ⟨⟨target, x⟩, ?_⟩
    simpa [Assignment.spelling, Assignment.actions, Punctuation.word] using
      (hb.before [] [.assign target]).behind (ht.trans (punctuation_ok hequals))
  · cases h

theorem condition_error (h : condition r = .error e r') :
    ∃ (left right : Value) (op : Comparison),
      BrokeOff r r' (left.spelling ++ op.spelling ++ right.spelling)
        [.operand left.operand, .operator (.comparison op), .operand right.operand, .compare] := by
  rcases bind_eq_error h with h | ⟨_, r₁, hleft, h⟩
  · obtain ⟨left, hb⟩ := operand_error h
    refine ⟨left, default, default, ?_⟩
    rw [List.append_assoc]
    exact hb.before _ _
  obtain ⟨left, hl⟩ := operand_ok hleft
  rcases bind_eq_error h with h | ⟨op, r₂, hop, h⟩
  · refine ⟨left, default, default, ?_⟩
    rw [List.append_assoc]
    exact ((expect_error h).brokeOff _ _).behind hl
  obtain ⟨t, hv, ht⟩ := expect_ok hop
  rw [Comparison.ofToken?_eq_some_iff] at hv
  rcases bind_eq_error h with h | ⟨_, r₃, hpush, h⟩
  · cases h
  rcases bind_eq_error h with h | ⟨_, r₄, -, h⟩
  · obtain ⟨right, hb⟩ := operand_error h
    refine ⟨left, right, op, ?_⟩
    simpa [hv] using (hb.before [] [.compare]).behind ((hl.trans ht).trans (act_ok hpush))
  · cases h

theorem close_error (h : close r = .error e r') : Took r r' [] [] := by
  rcases bind_eq_error h with h | ⟨_, r₁, -, h⟩
  · exact punctuation_error h
  rcases bind_eq_error h with h | ⟨_, r₂, -, h⟩ <;> cases h

theorem loop_error (h : loop r = .error e r') :
    ∃ (left right : Value) (op : Comparison) (body : Assignment),
      BrokeOff r r' ((.bracketOrDot, "(") :: left.spelling ++ op.spelling ++ right.spelling
        ++ (.bracketOrDot, ")") :: body.spelling)
      ([.loopBegin, .operand left.operand, .operator (.comparison op), .operand right.operand,
        .compare, .branch] ++ body.actions ++ [.loopEnd]) := by
  rcases bind_eq_error h with h | ⟨_, r₁, hbegin, h⟩
  · cases h
  rcases bind_eq_error h with h | ⟨_, r₂, hopen, h⟩
  · refine ⟨default, default, default, default, ?_⟩
    simpa using ((punctuation_error h).brokeOff _ _).behind (act_ok hbegin)
  have hfront := (act_ok hbegin).trans (punctuation_ok hopen)
  rcases bind_eq_error h with h | ⟨_, r₃, hcond, h⟩
  · obtain ⟨left, right, op, hb⟩ := condition_error h
    refine ⟨left, right, op, default, ?_⟩
    simpa [Punctuation.word] using (hb.before _ _).behind hfront
  obtain ⟨left, right, op, hc⟩ := condition_ok hcond
  rcases bind_eq_error h with h | ⟨_, r₄, hclose, h⟩
  · refine ⟨left, right, op, default, ?_⟩
    simpa [Punctuation.word] using
      ((punctuation_error h).brokeOff _ _).behind (hfront.trans hc)
  rcases bind_eq_error h with h | ⟨_, r₅, hbranch, h⟩
  · cases h
  have hcondition := ((hfront.trans hc).trans (punctuation_ok hclose)).trans (act_ok hbranch)
  rcases bind_eq_error h with h | ⟨_, r₆, hbody, h⟩
  · obtain ⟨body, hb⟩ := assignment_error h
    refine ⟨left, right, op, body, ?_⟩
    simpa [Punctuation.word] using (hb.before [] [.loopEnd]).behind hcondition
  · cases h

/-- A statement that could not be read breaks off in the middle of a statement of the grammar. -/
theorem statement_error (h : statement r = .error e r') :
    ∃ st : Statement, BrokeOff r r' st.spelling st.actions := by
  rcases bind_eq_error h with h | ⟨o, r₁, hx, h⟩
  · cases h
  rcases next_took r with ⟨-, r₂, hn, -⟩ | ⟨t, r₂, hn, ht, r₃, hu, ht'⟩ <;>
    rw [hn] at hx <;> cases hx
  · cases h
  dsimp only at h
  split at h
  · rename_i hw
    rw [Token.isWhile_iff.1 hw] at ht
    rcases bind_eq_error h with h | ⟨_, r₄, hl, h⟩
    · obtain ⟨left, right, op, body, hb⟩ := loop_error h
      refine ⟨.loop left op right body, ?_⟩
      simpa [Statement.spelling, Statement.actions] using
        (hb.before [(.semicolon, ";")] [.finish]).behind ht
    · obtain ⟨left, right, op, body, hloop⟩ := loop_ok hl
      refine ⟨.loop left op right body, ?_⟩
      simpa [Statement.spelling, Statement.actions] using
        ((close_error h).brokeOff [(.semicolon, ";")] [.finish]).behind (ht.trans hloop)
  · rw [bind_of_ok hu] at h
    rcases bind_eq_error h with h | ⟨_, r₄, ha, h⟩
    · obtain ⟨a, hb⟩ := assignment_error h
      exact ⟨.assignment a, (hb.before _ _).behind ht'⟩
    · obtain ⟨a, ha⟩ := assignment_ok ha
      exact ⟨.assignment a, ((close_error h).brokeOff _ _).behind (ht'.trans ha)⟩

/-- Read to its end or not, a statement asks for a beginning of what some tree asks for. -/
theorem statement_asks (c : Cursor) :
    match statement { cursor := c } with
    | .ok _ r => ∃ st : Statement, r.actions <+: st.actions
    | .error _ r => ∃ st : Statement, r.actions <+: st.actions := by
  cases h : statement { cursor := c } with
  | ok more r =>
    cases more with
    | true =>
      obtain ⟨st, ht⟩ := statement_ok h
      exact ⟨st, by rw [ht.actions]; exact List.prefix_rfl⟩
    | false => exact ⟨default, by rw [(statement_end h).2.actions]; exact List.nil_prefix⟩
  | error e r =>
    obtain ⟨st, taken, asked, ht, -, hasked⟩ := statement_error h
    exact ⟨st, by rw [ht.actions]; exact hasked⟩

end Read

end LoopAsm
