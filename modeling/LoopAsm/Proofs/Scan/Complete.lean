/-
The pending word as it stands: whether it is complete, and that it can be completed unless the mode
is `malformed`. A newline ends every pending word, so the class it is released with tells whether
the word is complete; this leaves no text with two categories.
-/
import LoopAsm.Proofs.Scan.Derivative

namespace LoopAsm.Scan

open Computability Lexicon

variable {c : Char} {v w : List Char} {k k' : Category} {m : Mode} {kind : Kind}

/-! ## Complete words -/

/-- The pending word is complete and of this category. -/
def Mode.Completes (m : Mode) (k : Category) : Prop :=
  ∃ kind, m.move '\n' = .release kind ∧ kind ≠ .malformed ∧ k = .ofKind kind

theorem completes_iff (h : m.move '\n' = .release kind) :
    m.Completes k ↔ kind ≠ .malformed ∧ k = .ofKind kind := by
  constructor
  · rintro ⟨kind', h', hkind⟩
    rw [h] at h'
    cases h'
    exact hkind
  · intro hkind
    exact ⟨kind, h, hkind⟩

theorem not_completes {t : Take} (h : m.move '\n' = .take t) : ¬ m.Completes k := by
  rintro ⟨kind, h', -⟩
  rw [h] at h'
  cases h'

@[simp] theorem nil_mem_mul {l l' : Language Char} : [] ∈ l * l' ↔ [] ∈ l ∧ [] ∈ l' := by
  rw [Language.mem_mul]
  constructor
  · rintro ⟨a, ha, b, hb, h⟩
    obtain ⟨rfl, rfl⟩ := List.append_eq_nil_iff.1 h
    exact ⟨ha, hb⟩
  · rintro ⟨hl, hl'⟩
    exact ⟨[], hl, [], hl', rfl⟩

theorem nil_mem_language : [] ∉ k.language := by
  cases k with
  | fixed kind =>
    have hall : ∀ entry ∈ Lexicon.fixed, entry.1 ≠ [] := by decide
    intro h
    exact hall _ h rfl
  | _ =>
    simp [-add_eq_sup, Category.language, words, ints, floats, pointed, plus, strings, characters,
      Language.mem_add]

theorem nil_mem_rest (q : Quote) : [] ∉ q.rest := by
  cases q <;> simp [Quote.rest]

theorem nil_mem_quote (q : Quote) (part : QuotePart) : [] ∉ q.residual part := by
  cases q <;> cases part <;> simp [Quote.residual, nil_mem_rest]

theorem nil_mem_number (part : NumberPart) :
    [] ∈ part.residual k ↔ (Mode.number part).Completes k := by
  cases part <;> rw [completes_iff rfl] <;> cases k
  all_goals
    simp [-add_eq_sup, NumberPart.residual, NumberPart.intRest, NumberPart.floatRest, floatEnd,
      wholeEnd, exponents, plus, Category.ofKind, Language.mem_add, Language.nil_mem_kstar]

theorem nil_mem_symbol (s : Symbol) : [] ∈ s.residual k ↔ (Mode.symbol s).Completes k := by
  cases s <;> rw [completes_iff rfl] <;> cases k
  all_goals simp [Symbol.residual, Symbol.endings, Category.ofKind]

theorem quote_newline (q : Quote) (part : QuotePart) :
    (Mode.quoted q part).move '\n' = .release .malformed := by
  cases q <;> cases part <;> rfl

/-- A pending word is complete if nothing more is what completes it. -/
theorem nil_mem_residual : [] ∈ m.residual k ↔ m.Completes k := by
  cases m with
  | initial => exact iff_of_false nil_mem_language (not_completes rfl)
  | word =>
    rw [completes_iff rfl]
    by_cases hk : k = .word <;> simp [Mode.residual, Category.ofKind, hk, Language.nil_mem_kstar]
  | quoted q part =>
    rw [completes_iff (quote_newline q part)]
    by_cases hk : k = q.category <;> simp [hk, nil_mem_quote]
  | number part => exact nil_mem_number part
  | symbol s => exact nil_mem_symbol s
  | blockComment star =>
    refine iff_of_false ?_ (not_completes rfl)
    by_cases hk : k = .blockComment <;> cases star <;>
      simp [Mode.residual, hk, mem_blockRest_true, mem_blockRest_false, cons_mem_blockEnds]
  | lineComment =>
    refine iff_of_false ?_ (not_completes rfl)
    by_cases hk : k = .lineComment <;> simp [Mode.residual, hk, lineEnds]
  | malformed =>
    rw [completes_iff rfl]
    simp [Mode.residual]

/-! ## The end of a word -/

/-- What ends a pending word: the class that it is released with does not depend on the character
behind it, a malformed word ends before a delimiter, and no complete word becomes malformed. -/
def Move.Stops (m : Mode) (c : Char) : Move → Prop
  | .release kind => m.move '\n' = .release kind ∧ (kind = .malformed → isDelimiter c = true)
  | .take (.grow .malformed) =>
    isDelimiter c = false ∧ (m = .initial ∨ m.move '\n' = .release .malformed)
  | _ => True

theorem stops_spoil (h : m.move '\n' = .release .malformed) : (Move.spoil c).Stops m c := by
  unfold Move.spoil
  split
  · rename_i hc
    exact ⟨h, fun _ => hc⟩
  · rename_i hc
    exact ⟨Bool.eq_false_of_not_eq_true hc, .inr h⟩

theorem stops_release (h : m.move '\n' = .release kind) (hkind : kind ≠ .malformed) :
    (Move.release kind).Stops m c :=
  ⟨h, fun hmal => absurd hmal hkind⟩

theorem stops_start (c : Char) : (Move.take (start c)).Stops .initial c := by
  unfold start
  repeat' split
  all_goals first | trivial | skip
  -- What is left is a character that starts no word.
  refine ⟨?_, .inl rfl⟩
  simp_all [isDelimiter]

theorem stops_quote (q : Quote) (part : QuotePart) (c : Char) :
    (q.move part c).Stops (.quoted q part) c := by
  have hspoil : (Move.spoil c).Stops (.quoted q part) c := stops_spoil (quote_newline q part)
  cases q <;> cases part <;> simp only [Quote.move, Quote.afterEscape] <;> repeat' split
  all_goals first | trivial | exact ⟨rfl, fun _ => by simp [*, isDelimiter]⟩

theorem stops_number (part : NumberPart) (c : Char) : (part.move c).Stops (.number part) c := by
  have hspoil (h : (Mode.number part).move '\n' = .release .malformed) :
      (Move.spoil c).Stops (.number part) c := stops_spoil h
  cases part <;> simp only [NumberPart.move] <;> repeat' split
  all_goals first | trivial | exact hspoil rfl | exact stops_release rfl (by decide)

theorem stops_symbol (s : Symbol) (c : Char) : (s.move c).Stops (.symbol s) c := by
  cases s <;> simp only [Symbol.move] <;> repeat' split
  all_goals first | trivial | exact stops_release rfl (by decide)

theorem move_stops (m : Mode) (c : Char) : (m.move c).Stops m c := by
  cases m with
  | initial => exact stops_start c
  | word =>
    simp only [Mode.move]
    split
    · trivial
    · exact stops_release rfl (by decide)
  | quoted q part => exact stops_quote q part c
  | number part => exact stops_number part c
  | symbol s => exact stops_symbol s c
  | blockComment star =>
    simp only [Mode.move]
    repeat' split
    all_goals trivial
  | lineComment =>
    simp only [Mode.move]
    split <;> trivial
  | malformed => exact stops_spoil rfl

/-! ## Words that can be completed -/

theorem exists_mem_mul {l l' : Language Char} (h : ∃ v, v ∈ l) (h' : ∃ v, v ∈ l') :
    ∃ v, v ∈ l * l' := by
  obtain ⟨a, ha⟩ := h
  obtain ⟨b, hb⟩ := h'
  exact ⟨a ++ b, Language.append_mem_mul ha hb⟩

theorem exists_mem_one {p : Char → Bool} (d : Char) (hd : p d = true) : ∃ v, v ∈ one p :=
  ⟨[d], d, rfl, hd⟩

theorem exists_mem_power {p : Char → Bool} (d : Char) (hd : p d = true) (n : Nat) :
    ∃ v, v ∈ one p ^ n := by
  induction n with
  | zero => exact ⟨[], rfl⟩
  | succ n ih =>
    rw [pow_succ]
    exact exists_mem_mul ih (exists_mem_one d hd)

/-- In the middle of a word that is not spoilt. No string waits for its closing quote alone. -/
def Mode.Live (m : Mode) : Prop :=
  m ≠ .malformed ∧ m ≠ .quoted .string .closing

theorem live_of_idle (h : m.idle = true) : m.Live := by
  constructor <;>
    · rintro rfl
      cases h

/-- A word that grows, and is not spoilt, goes on in the middle of a word. -/
theorem live_of_grow (hmove : m.move c = .grow next) (hnext : next ≠ .malformed) : next.Live := by
  refine ⟨hnext, ?_⟩
  rintro rfl
  have hspoil : Move.spoil c ≠ .grow (.quoted .string .closing) := by
    unfold Move.spoil
    split <;> simp
  cases m with
  | initial =>
    simp only [Mode.move, start] at hmove
    split_ifs at hmove <;> try cases hmove
    split at hmove <;> cases hmove
  | quoted q part =>
    cases q <;> cases part <;> simp only [Mode.move, Quote.move, Quote.afterEscape] at hmove
    all_goals repeat' split at hmove
    all_goals first | exact absurd hmove hspoil | cases hmove
  | number part =>
    cases part <;> simp only [Mode.move, NumberPart.move] at hmove
    all_goals split_ifs at hmove
    all_goals first | exact absurd hmove hspoil | cases hmove
  | symbol s =>
    cases s <;> simp only [Mode.move, Symbol.move] at hmove
    all_goals split_ifs at hmove
    all_goals cases hmove
  | malformed => exact absurd hmove hspoil
  | _ =>
    simp only [Mode.move] at hmove
    split_ifs at hmove
    all_goals cases hmove

theorem exists_mem_quote (q : Quote) {part : QuotePart} (h : (Mode.quoted q part).Live) :
    ∃ v, v ∈ q.residual part := by
  have hrest : ∃ v, v ∈ q.rest := by
    cases q with
    | string => exact ⟨['"'], by simp [Quote.rest, mem_kstar_mul]⟩
    | character => exact ⟨['\''], by simp [Quote.rest]⟩
  cases part with
  | body =>
    cases q with
    | string => exact hrest
    | character =>
      exact ⟨['a', '\''], by simp [Quote.residual, Quote.rest, cons_mem_unit_mul, isRaw]⟩
  | escape =>
    obtain ⟨v, hv⟩ := hrest
    exact ⟨'n' :: v, (cons_mem_escapes_mul _).2 (.inl ⟨rfl, hv⟩)⟩
  | octal n => exact exists_mem_mul (exists_mem_power '0' rfl _) hrest
  | unicode n => exact exists_mem_mul (exists_mem_power '0' rfl _) hrest
  | closing =>
    cases q with
    | string => exact absurd rfl h.2
    | character => exact hrest

theorem exists_mem_complete (h : m.Completes k) : ∃ k v, v ∈ m.residual k :=
  ⟨k, [], nil_mem_residual.2 h⟩

theorem exists_mem_number (part : NumberPart) : ∃ k v, v ∈ (Mode.number part).residual k := by
  have hnext (c : Char) {next : NumberPart} {k : Category}
      (hmove : part.move c = .grow (.number next)) (h : (Mode.number next).Completes k) :
      ∃ k v, v ∈ (Mode.number part).residual k := by
    refine ⟨k, [c], (derivative _).2 ?_⟩
    rw [Mode.move, hmove]
    exact nil_mem_residual.2 h
  cases part with
  | hexPrefix => exact hnext '0' rfl ⟨_, rfl, by decide, rfl⟩
  | exponent => exact hnext '0' rfl ⟨_, rfl, by decide, rfl⟩
  | exponentSign => exact hnext '0' rfl ⟨_, rfl, by decide, rfl⟩
  | badOctal => exact ⟨.float, ['f'], (derivative _).2 rfl⟩
  | _ => exact exists_mem_complete ⟨_, rfl, by decide, rfl⟩

theorem exists_mem_blockRest (star : Bool) : ∃ v, v ∈ blockRest star := by
  cases star with
  | false => exact ⟨['*', '/'], [], rfl, by simp⟩
  | true => exact ⟨['/'], [], rfl, by simp⟩

/-- Every pending word can be completed unless it is spoilt. -/
theorem exists_mem_residual (h : m.Live) : ∃ k v, v ∈ m.residual k := by
  cases m with
  | initial => exact ⟨.question, ['?'], cons_mem_chr.2 ⟨rfl, rfl⟩⟩
  | word => exact exists_mem_complete ⟨_, rfl, by decide, rfl⟩
  | quoted q part =>
    obtain ⟨v, hv⟩ := exists_mem_quote q h
    exact ⟨q.category, v, by simpa using hv⟩
  | number part => exact exists_mem_number part
  | symbol s => cases s <;> exact exists_mem_complete ⟨_, rfl, by decide, rfl⟩
  | blockComment star =>
    obtain ⟨v, hv⟩ := exists_mem_blockRest star
    exact ⟨.blockComment, v, hv⟩
  | lineComment => exact ⟨.lineComment, ['\n'], cons_mem_lineEnds.2 (.inl ⟨rfl, rfl⟩)⟩
  | malformed => exact absurd rfl h.1

/-! ## Categories -/

theorem category_unique_residual (h : v ∈ m.residual k) (h' : v ∈ m.residual k') : k = k' := by
  induction v generalizing m with
  | nil =>
    obtain ⟨kind, hmove, -, rfl⟩ := nil_mem_residual.1 h
    obtain ⟨kind', hmove', -, rfl⟩ := nil_mem_residual.1 h'
    rw [hmove] at hmove'
    cases hmove'
    rfl
  | cons c v ih =>
    rw [derivative] at h h'
    generalize m.move c = move at h h'
    have honly {l : Category} (h : v ∈ only l k) (h' : v ∈ only l k') : k = k' :=
      (mem_only.1 h).2.trans (mem_only.1 h').2.symm
    have hcomment {ended : Category} {next : Mode} (h : v ∈ commentRest ended next k)
        (h' : v ∈ commentRest ended next k') : k = k' := by
      unfold commentRest at h h'
      by_cases hnext : next = .initial
      · rw [if_pos hnext] at h h'
        exact honly h h'
      · rw [if_neg hnext] at h h'
        exact ih h h'
    cases move with
    | release kind => exact absurd h (Language.notMem_zero v)
    | take t =>
      cases t with
      | grow next => exact ih h h'
      | close kind => exact honly h h'
      | drop next => exact hcomment h h'
      | comment next => exact ih h h'
      | newline next => exact hcomment h h'
      | question => exact honly h h'
      | colon => exact honly h h'

/-- No text is a word of two categories. -/
theorem category_unique (h : w ∈ k.language) (h' : w ∈ k'.language) : k = k' :=
  category_unique_residual (m := .initial) h h'

end LoopAsm.Scan
