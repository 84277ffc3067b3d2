/-
Reading looks at the words that it takes and at one word behind them, and at nothing else: wherever
a reader has these words ahead, it comes to the same outcome, asks for the same actions and stops
before the same word, whatever stands further behind (`Narrow`). So what is read depends on the
words ahead alone, wherever they stand and whatever was passed over on the way (`Uniform`). If the
tokens ahead are the same, so are those still ahead.
-/
import LoopAsm.Proofs.Grammar.Parse
import LoopAsm.Proofs.Grammar.Places

namespace LoopAsm

/-- Two readers have the same words ahead and have asked for the same actions. -/
structure Reading.Alike (r r' : Reading) : Prop where
  ahead : r.ahead = r'.ahead
  actions : r.actions = r'.actions

/-- Two ends of one list of tokens that are spelled alike are the same. -/
theorem eq_of_suffix_of_spelling (tokens : List Token) {a b : List Token} (ha : a <:+ tokens)
    (hb : b <:+ tokens) (h : a.map Token.spelling = b.map Token.spelling) : a = b := by
  have hlength : a.length = b.length := by simpa using congrArg List.length h
  exact (List.suffix_of_suffix_length_le ha hb (Nat.le_of_eq hlength)).eq_of_length hlength

/-- Inside one list of tokens, the same words ahead are the same tokens. -/
theorem Reading.Alike.upcoming_eq {r r' : Reading} {tokens : List Token} (h : r.Alike r')
    (hr : r.Within tokens) (hr' : r'.Within tokens) : r.cursor.upcoming = r'.cursor.upcoming :=
  eq_of_suffix_of_spelling tokens hr.cursor hr'.cursor h.ahead

theorem Took.refl (r : Reading) : Took r r [] [] :=
  ⟨rfl, (List.append_nil _).symm⟩

theorem Took.alike {r r' s s' : Reading} {words : Spelling} {actions : List Action}
    (hr : r.Alike r') (h : Took r s words actions) (h' : Took r' s' words actions) :
    s.Alike s' := by
  constructor
  · have hahead := h.ahead.symm.trans (hr.ahead.trans h'.ahead)
    exact List.append_cancel_left hahead
  · rw [h.actions, h'.actions, hr.actions]

namespace Read

/-- Two outcomes of reading are the same, apart from where the readers are. -/
inductive Agree {α : Type} :
    EStateM.Result Expected Reading α → EStateM.Result Expected Reading α → Prop
  | ok (a : α) {r r' : Reading} (h : r.Alike r') : Agree (.ok a r) (.ok a r')
  | error (e : Expected) {r r' : Reading} (h : r.Alike r') : Agree (.error e r) (.error e r')

/-- Reading `x` depends on the words ahead alone. -/
def Uniform {α : Type} (x : Read α) : Prop :=
  ∀ r r' : Reading, r.Alike r' → Agree (x r) (x r')

/-- A view of tokens does not look at the line that they are on. -/
def Placeless {α : Type} (view : Token → Option α) : Prop :=
  ∀ (t : Token) (line : Nat), view { t with line } = view t

section

variable {α β : Type} {r r' s : Reading}

theorem Uniform.ok {x : Read α} (h : Uniform x) (hr : r.Alike r') {a : α} (hx : x r = .ok a s) :
    ∃ s', x r' = .ok a s' ∧ s.Alike s' := by
  have hagree := h r r' hr
  rw [hx] at hagree
  generalize x r' = outcome at hagree ⊢
  cases hagree with
  | ok _ hs => exact ⟨_, rfl, hs⟩

theorem Uniform.error {x : Read α} (h : Uniform x) (hr : r.Alike r') {e : Expected}
    (hx : x r = .error e s) : ∃ s', x r' = .error e s' ∧ s.Alike s' := by
  have hagree := h r r' hr
  rw [hx] at hagree
  generalize x r' = outcome at hagree ⊢
  cases hagree with
  | error _ hs => exact ⟨_, rfl, hs⟩

/-- What came of reading. -/
def verdict : EStateM.Result Expected Reading α → Except Expected α
  | .ok a _ => .ok a
  | .error e _ => .error e

/-- Where the reader is afterwards. -/
def reached : EStateM.Result Expected Reading α → Reading
  | .ok _ r => r
  | .error _ r => r

/-- From `r` on, reading `x` looks at the words that it takes and at the first one behind them
only. -/
def NarrowAt (x : Read α) (r : Reading) : Prop :=
  ∃ taken asked, Took r (reached (x r)) taken asked ∧
    ∀ s rest, s.ahead = taken ++ rest → rest.head? = (reached (x r)).ahead.head? →
      verdict (x s) = verdict (x r) ∧ Took s (reached (x s)) taken asked

/-- Reading `x` looks at no more than one word that it does not take. -/
def Narrow (x : Read α) : Prop :=
  ∀ r, NarrowAt x r

theorem Narrow.uniform {x : Read α} (h : Narrow x) : Uniform x := by
  intro r r' hr
  obtain ⟨taken, asked, ht, hsame⟩ := h r
  obtain ⟨hverdict, ht'⟩ := hsame r' _ (hr.ahead.symm.trans ht.ahead) rfl
  have halike := ht.alike hr ht'
  revert hverdict halike
  cases x r <;> cases x r' <;> rintro ⟨⟩ halike
  · exact .ok _ halike
  · exact .error _ halike

/-! ## Programs -/

theorem Narrow.pure (a : α) : Narrow (pure a : Read α) :=
  fun r => ⟨[], [], .refl r, fun s _ _ _ => ⟨rfl, .refl s⟩⟩

theorem Narrow.throw (e : Expected) : Narrow (throw e : Read α) :=
  fun r => ⟨[], [], .refl r, fun s _ _ _ => ⟨rfl, .refl s⟩⟩

theorem Narrow.act (a : Action) : Narrow (act a) :=
  fun _ => ⟨[], [a], act_ok rfl, fun _ _ _ _ => ⟨rfl, act_ok rfl⟩⟩

/-- Where `x` goes on as `y` behind words that it knows by looking at them and at the next one, it
looks no further than `y` does. -/
theorem NarrowAt.behind {x y : Read α} {words : Spelling} {actions : List Action}
    (hy : NarrowAt y r') (hx : x r = y r') (ht : Took r r' words actions)
    (hsame : ∀ s rest, s.ahead = words ++ rest → rest.head? = r'.ahead.head? →
      ∃ s', x s = y s' ∧ Took s s' words actions) : NarrowAt x r := by
  obtain ⟨taken, asked, ht', hsame'⟩ := hy
  refine ⟨words ++ taken, actions ++ asked, hx ▸ ht.trans ht', fun s rest hs hrest => ?_⟩
  rw [hx] at hrest ⊢
  rw [List.append_assoc] at hs
  have hnext : (taken ++ rest).head? = r'.ahead.head? := by
    rw [ht'.ahead, List.head?_append, List.head?_append, hrest]
  obtain ⟨s', hxs, hts⟩ := hsame s _ hs hnext
  obtain ⟨hverdict, hts'⟩ := hsame' s' rest (hts.rest hs) hrest
  rw [hxs]
  exact ⟨hverdict, hts.trans hts'⟩

theorem NarrowAt.bind {x : Read α} {f : α → Read β} (hx : NarrowAt x r)
    (hf : ∀ a r', x r = .ok a r' → NarrowAt (f a) r') : NarrowAt (x >>= f) r := by
  obtain ⟨taken, asked, ht, hsame⟩ := hx
  cases hr : x r with
  | ok a r' =>
    rw [hr] at ht hsame
    refine (hf a r' hr).behind (bind_of_ok hr f) ht fun s rest hs hrest => ?_
    obtain ⟨hverdict, hts⟩ := hsame s rest hs hrest
    cases hs' : x s with
    | ok b s' =>
      rw [hs'] at hverdict hts
      cases hverdict
      exact ⟨s', bind_of_ok hs' f, hts⟩
    | error e s' => rw [hs'] at hverdict; cases hverdict
  | error e r' =>
    have herror {s s' : Reading} {e : Expected} (h : x s = .error e s') :
        (x >>= f) s = .error e s' := by
      simp only [Bind.bind, EStateM.bind, h]
    rw [hr] at ht hsame
    refine ⟨taken, asked, by rw [herror hr]; exact ht, fun s rest hs hrest => ?_⟩
    rw [herror hr] at hrest ⊢
    obtain ⟨hverdict, hts⟩ := hsame s rest hs hrest
    cases hs' : x s with
    | ok b s' => rw [hs'] at hverdict; cases hverdict
    | error e' s' =>
      rw [hs'] at hverdict hts
      cases hverdict
      rw [herror hs']
      exact ⟨rfl, hts⟩

theorem Narrow.bind {x : Read α} {f : α → Read β} (hx : Narrow x) (hf : ∀ a, Narrow (f a)) :
    Narrow (x >>= f) :=
  fun r => (hx r).bind fun a r' _ => hf a r'

/-! ## Tokens -/

theorem Placeless.eq {view : Token → Option α} (h : Placeless view) {t t' : Token}
    (ht : t.spelling = t'.spelling) : view t = view t' := by
  obtain ⟨kind, lexeme, line⟩ := t
  obtain ⟨kind', lexeme', line'⟩ := t'
  cases ht
  exact h ⟨kind, lexeme, line'⟩ line

theorem accept_narrow {view : Token → Option α} (hview : Placeless view) :
    Narrow (accept view) := by
  intro r
  rcases accept_took view r with ⟨t, a, r', hv, hx, ht⟩ | ⟨hnone, r', hx, ht⟩
  · refine ⟨_, _, by rw [hx]; exact ht, fun s rest hs _ => ?_⟩
    obtain ⟨s', hxs, hts⟩ := accept_reads view hs fun t' hspell => (hview.eq hspell).trans hv
    rw [hx, hxs]
    exact ⟨rfl, hts⟩
  · refine ⟨_, _, by rw [hx]; exact ht, fun s rest hs hrest => ?_⟩
    have hnone' : ∀ t' : Token, t'.spelling ∈ s.ahead.head? → view t' = none := by
      intro t' hmem
      have hahead : (reached (accept view r)).ahead = r.ahead := by rw [hx]; exact ht.ahead.symm
      rw [hs, List.nil_append, hrest, hahead, Reading.ahead, Cursor.ahead, List.head?_map,
        Option.mem_def, Option.map_eq_some_iff] at hmem
      obtain ⟨t, hmem, hspell⟩ := hmem
      rw [← hview.eq hspell]
      exact hnone t hmem
    obtain ⟨s', hxs, hts⟩ := accept_stops hnone'
    rw [hx, hxs]
    exact ⟨rfl, hts⟩

theorem expect_narrow (e : Expected) {view : Token → Option α} (hview : Placeless view) :
    Narrow (expect e view) :=
  (accept_narrow hview).bind fun
    | some a => Narrow.pure a
    | none => Narrow.throw e

theorem punctuation_narrow (p : Punctuation) : Narrow (punctuation p) := by
  refine expect_narrow _ fun t line => ?_
  cases p <;> rfl

end

/-! ## Productions -/

theorem chain_narrow {link : Read Bool} (h : Narrow link) (progress : Consumes link (· = true)) :
    Narrow (chain link progress) := by
  intro r
  fun_induction chain link progress r with
  | case1 r r' hx ih =>
    rw [chain_eq]
    refine (h r).bind fun more s hs => ?_
    rw [hx] at hs
    cases hs
    exact ih
  | case2 r r' hx =>
    rw [chain_eq]
    refine (h r).bind fun more s hs => ?_
    rw [hx] at hs
    cases hs
    exact Narrow.pure () r'
  | case3 r e r' hx =>
    rw [chain_eq]
    refine (h r).bind fun more s hs => ?_
    rw [hx] at hs
    cases hs

theorem link_narrow {α : Type} {view : Token → Option α} (hview : Placeless view)
    (operator : α → Operator) {body : Read Unit} (hbody : Narrow body) (last : Action) :
    Narrow (link view operator body last) :=
  (accept_narrow hview).bind fun
    | none => Narrow.pure false
    | some _ => (Narrow.act _).bind fun _ => hbody.bind fun _ => (Narrow.act _).bind fun _ =>
        Narrow.pure true

theorem operand_narrow : Narrow operand :=
  (expect_narrow _ (fun _ _ => rfl)).bind fun _ =>
    Narrow.act _

theorem productLink_narrow : Narrow productLink := by
  rw [productLink_eq]
  exact link_narrow (fun _ _ => rfl) _ operand_narrow _

theorem term_narrow : Narrow term :=
  operand_narrow.bind fun _ => chain_narrow productLink_narrow _

theorem sumLink_narrow : Narrow sumLink := by
  rw [sumLink_eq]
  exact link_narrow (fun _ _ => rfl) _ term_narrow _

theorem assignment_narrow : Narrow assignment :=
  (expect_narrow _ (fun _ _ => rfl)).bind fun _ =>
    (punctuation_narrow _).bind fun _ =>
      (term_narrow.bind fun _ => chain_narrow sumLink_narrow _).bind fun _ => Narrow.act _

theorem condition_narrow : Narrow condition :=
  operand_narrow.bind fun _ =>
    (expect_narrow _ (fun _ _ => rfl)).bind fun _ =>
      (Narrow.act _).bind fun _ => operand_narrow.bind fun _ => Narrow.act _

theorem loop_narrow : Narrow loop :=
  (Narrow.act _).bind fun _ => (punctuation_narrow _).bind fun _ =>
    condition_narrow.bind fun _ => (punctuation_narrow _).bind fun _ =>
      (Narrow.act _).bind fun _ => assignment_narrow.bind fun _ => Narrow.act _

theorem close_narrow : Narrow close :=
  (punctuation_narrow _).bind fun _ => (Narrow.act _).bind fun _ => Narrow.pure true

/-- Of a statement, no more is looked at than its words up to the first that does not fit. -/
theorem statement_narrow : Narrow statement := by
  intro r
  rcases next_took r with ⟨hend, r₁, hn, ht⟩ | ⟨t, r₁, hn, ht, r₂, hu, ht₀⟩
  · have hx : statement r = .ok false r₁ := by rw [statement, bind_of_ok hn]; rfl
    refine ⟨_, _, by rw [hx]; exact ht, fun s rest hs hrest => ?_⟩
    have hs' : s.ahead = [] := by
      have hahead : (reached (statement r)).ahead = [] := by
        rw [hx, ← hend]
        exact ht.ahead.symm
      rw [hahead] at hrest
      rw [hs, List.nil_append]
      exact List.head?_eq_none_iff.1 hrest
    obtain ⟨s', hxs, hts⟩ := statement_stops hs'
    rw [hx, hxs]
    exact ⟨rfl, hts⟩
  -- A first word that is spelled the same begins a statement of the same sort.
  have hfirst (s : Reading) (tail : Spelling) (hs : s.ahead = t.spelling :: tail) :
      ∃ t' s₁, next s = .ok (some t') s₁ ∧ Took s s₁ [t.spelling] [] ∧
        (t'.isWhile = true ↔ t.isWhile = true) ∧
        ∃ s₂, unget t' s₁ = .ok () s₂ ∧ Took s s₂ [] [] := by
    rcases next_took s with ⟨hend, -⟩ | ⟨t', s₁, hns, hts, s₂, hus, hts₀⟩
    · rw [hs] at hend; cases hend
    · have hspell : t.spelling = t'.spelling := (List.cons.inj (hs.symm.trans hts.ahead)).1
      refine ⟨t', s₁, hns, hspell ▸ hts, ?_, s₂, hus, hts₀⟩
      rw [Token.isWhile_iff, Token.isWhile_iff, hspell]
  by_cases hw : t.isWhile = true
  · refine (loop_narrow.bind fun _ => close_narrow) r₁ |>.behind ?_ ht fun s rest hs _ => ?_
    · rw [statement, bind_of_ok hn]
      dsimp only
      rw [if_pos hw]
    · obtain ⟨t', s₁, hns, hts, hw', -⟩ := hfirst s rest hs
      refine ⟨s₁, ?_, hts⟩
      rw [statement, bind_of_ok hns]
      dsimp only
      rw [if_pos (hw'.2 hw)]
  · have body := (assignment_narrow.bind fun _ => close_narrow) r₂
    refine body.behind ?_ ht₀ fun s rest hs hrest => ?_
    · rw [statement, bind_of_ok hn]
      dsimp only
      rw [if_neg hw, bind_of_ok hu]
    · obtain ⟨tail, hs'⟩ : ∃ tail, s.ahead = t.spelling :: tail := by
        rw [show r₂.ahead = r.ahead from ht₀.ahead.symm, ht.ahead] at hrest
        obtain ⟨tail, htail⟩ := List.head?_eq_some_iff.1 hrest
        exact ⟨tail, hs.trans htail⟩
      obtain ⟨t', s₁, hns, -, hw', s₂, hus, hts₀⟩ := hfirst s tail hs'
      refine ⟨s₂, ?_, hts₀⟩
      rw [statement, bind_of_ok hns]
      dsimp only
      rw [if_neg (mt hw'.1 hw), bind_of_ok hus]

/-- What is read of a statement depends on the words ahead alone. -/
theorem statement_uniform : Uniform statement :=
  statement_narrow.uniform

end Read

end LoopAsm
