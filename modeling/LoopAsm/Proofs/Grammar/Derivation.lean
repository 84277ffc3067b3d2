/-
The grammar as a context-free grammar over the words that it tells apart, and its sentences: the
words of a statement tree are a sentence, and every sentence is the words of some statement tree.

    S → while ( E ) A ; | A ;      E → V O V      A → IDENT = C
    C → T C1                       C1 → + T C1 | - T C1 | ε
    T → V T1                       T1 → * V T1 | / V T1 | ε
    V → IDENT | INT                O → < | >
-/
import LoopAsm.Grammar.Tree
import Mathlib.Computability.ContextFreeGrammar

namespace LoopAsm

/-! ## The grammar -/

/-- The words that the grammar tells apart; `other` is any word that it has no use for. -/
inductive Terminal where
  | loop
  | openParen
  | closeParen
  | semicolon
  | equals
  | identifier
  | int
  | plus
  | minus
  | times
  | dividedBy
  | less
  | greater
  | other
  deriving DecidableEq, Repr, Inhabited

/-- What the grammar builds sentences of: `S`, `E`, `A`, `C`, `C1`, `T`, `T1`, `V` and `O`. -/
inductive Nonterminal where
  | statement
  | condition
  | assignment
  | sum
  | sumTail
  | product
  | productTail
  | value
  | comparison
  deriving DecidableEq, Repr, Inhabited

namespace Terminal

/-- The word of a terminal that has only one. -/
def word? : Terminal → Option (Kind × String)
  | loop => some (.keyword, "while")
  | openParen => some (.bracketOrDot, "(")
  | closeParen => some (.bracketOrDot, ")")
  | semicolon => some (.semicolon, ";")
  | equals => some (.assign, "=")
  | plus => some (.addSub, "+")
  | minus => some (.addSub, "-")
  | times => some (.mulDiv, "*")
  | dividedBy => some (.mulDiv, "/")
  | less => some (.compare, "<")
  | greater => some (.compare, ">")
  | identifier | int | other => none

/-- The terminals with only one word. -/
def fixed : List Terminal :=
  [loop, openParen, closeParen, semicolon, equals, plus, minus, times, dividedBy, less, greater]

/-- The terminal of a word. Variables and integers are known by their class, all other words by
class and spelling. -/
def ofWord (word : Kind × String) : Terminal :=
  if word.1 = .identifier then identifier
  else if word.1 = .intLiteral then int
  else (fixed.find? (·.word? == some word)).getD other

end Terminal

namespace Nonterminal

/-- Every nonterminal. -/
def all : List Nonterminal :=
  [statement, condition, assignment, sum, sumTail, product, productTail, value, comparison]

open Symbol (terminal nonterminal) in
/-- The right-hand sides of a nonterminal. -/
def productions : Nonterminal → List (List (Symbol Terminal Nonterminal))
  | statement =>
    [[terminal .loop, terminal .openParen, nonterminal condition, terminal .closeParen,
      nonterminal assignment, terminal .semicolon],
     [nonterminal assignment, terminal .semicolon]]
  | condition => [[nonterminal value, nonterminal comparison, nonterminal value]]
  | assignment => [[terminal .identifier, terminal .equals, nonterminal sum]]
  | sum => [[nonterminal product, nonterminal sumTail]]
  | sumTail =>
    [[terminal .plus, nonterminal product, nonterminal sumTail],
     [terminal .minus, nonterminal product, nonterminal sumTail],
     []]
  | product => [[nonterminal value, nonterminal productTail]]
  | productTail =>
    [[terminal .times, nonterminal value, nonterminal productTail],
     [terminal .dividedBy, nonterminal value, nonterminal productTail],
     []]
  | value => [[terminal .identifier], [terminal .int]]
  | comparison => [[terminal .less], [terminal .greater]]

end Nonterminal

/-- The grammar of a statement. -/
def statementGrammar : ContextFreeGrammar Terminal where
  NT := Nonterminal
  initial := .statement
  rules := (Nonterminal.all.flatMap fun n => n.productions.map fun output => ⟨n, output⟩).toFinset

theorem mem_rules_iff {n : Nonterminal} {output : List (Symbol Terminal Nonterminal)} :
    ⟨n, output⟩ ∈ statementGrammar.rules ↔ output ∈ n.productions := by
  have hn : n ∈ Nonterminal.all := by cases n <;> decide
  unfold statementGrammar
  rw [List.mem_toFinset, List.mem_flatMap]
  constructor
  · rintro ⟨n', -, h⟩
    obtain ⟨output', ho, heq⟩ := List.mem_map.1 h
    cases heq
    exact ho
  · intro h
    exact ⟨n, hn, List.mem_map.2 ⟨output, h, rfl⟩⟩

/-! ## Derivations, symbol by symbol -/

/-- Words that a row of symbols stands for: a terminal stands for a word of its own, and a
nonterminal for what one of its right-hand sides stands for. -/
inductive Spells : List (Symbol Terminal Nonterminal) → Spelling → Prop
  | nil : Spells [] []
  | terminal {word : Kind × String} {symbols : List (Symbol Terminal Nonterminal)}
      {words : Spelling} (rest : Spells symbols words) :
      Spells (.terminal (Terminal.ofWord word) :: symbols) (word :: words)
  | nonterminal {n : Nonterminal} {output symbols : List (Symbol Terminal Nonterminal)}
      {first words : Spelling} (h : output ∈ n.productions) (head : Spells output first)
      (rest : Spells symbols words) : Spells (.nonterminal n :: symbols) (first ++ words)

theorem Spells.append {u v : List (Symbol Terminal Nonterminal)} {w x : Spelling}
    (h : Spells u w) (h' : Spells v x) : Spells (u ++ v) (w ++ x) := by
  induction h with
  | nil => exact h'
  | terminal _ ih => exact .terminal ih
  | nonterminal hp hh _ _ ih =>
    rw [List.append_assoc]
    exact .nonterminal hp hh ih

theorem Spells.exists_append {u v : List (Symbol Terminal Nonterminal)} {w : Spelling}
    (h : Spells (u ++ v) w) : ∃ x y, w = x ++ y ∧ Spells u x ∧ Spells v y := by
  induction u generalizing w with
  | nil => exact ⟨[], w, rfl, .nil, h⟩
  | cons s u ih =>
    cases h with
    | terminal rest =>
      obtain ⟨x, y, rfl, hx, hy⟩ := ih rest
      exact ⟨_ :: x, y, rfl, .terminal hx, hy⟩
    | nonterminal hp hh rest =>
      obtain ⟨x, y, rfl, hx, hy⟩ := ih rest
      exact ⟨_ ++ x, y, by rw [List.append_assoc], .nonterminal hp hh hx, hy⟩

theorem spells_terminals (words : Spelling) :
    Spells ((words.map Terminal.ofWord).map Symbol.terminal) words := by
  induction words with
  | nil => exact .nil
  | cons word words ih => exact .terminal ih

/-- What a rewriting step leads to, the symbols before it stand for as well. -/
theorem Spells.of_produces {u v : List (Symbol Terminal Nonterminal)} {w : Spelling}
    (hp : statementGrammar.Produces u v) (h : Spells v w) : Spells u w := by
  obtain ⟨rule, hr, hw⟩ := hp
  obtain ⟨p, q, rfl, rfl⟩ := hw.exists_parts
  obtain ⟨xy, z, rfl, hxy, hz⟩ := h.exists_append
  obtain ⟨x, y, rfl, hx, hy⟩ := hxy.exists_append
  have hn : Spells [.nonterminal rule.input] y := by
    simpa using Spells.nonterminal (mem_rules_iff.1 hr) hy .nil
  exact (hx.append hn).append hz

theorem Spells.derives {u : List (Symbol Terminal Nonterminal)} {w : Spelling} (h : Spells u w) :
    statementGrammar.Derives u ((w.map Terminal.ofWord).map Symbol.terminal) := by
  induction h with
  | nil => exact .refl _
  | @terminal word _ _ _ ih => exact ih.append_left [.terminal (Terminal.ofWord word)]
  | @nonterminal n output symbols first words hp _ _ ih ih' =>
    have hstep : statementGrammar.Produces (.nonterminal n :: symbols) (output ++ symbols) :=
      ⟨⟨n, output⟩, mem_rules_iff.2 hp, .head symbols⟩
    rw [List.map_append, List.map_append]
    exact (hstep.trans_derives (ih.append_right symbols)).trans (ih'.append_left _)

theorem Spells.of_derives {u : List (Symbol Terminal Nonterminal)} {w : Spelling}
    (h : statementGrammar.Derives u ((w.map Terminal.ofWord).map Symbol.terminal)) :
    Spells u w := by
  induction h using Relation.ReflTransGen.head_induction_on with
  | refl => exact spells_terminals w
  | head hp _ ih => exact ih.of_produces hp

/-- Words are a sentence if they can be read off the grammar symbol by symbol. -/
theorem mem_language_iff_spells {words : Spelling} :
    words.map Terminal.ofWord ∈ statementGrammar.language ↔
      Spells [.nonterminal .statement] words :=
  ⟨Spells.of_derives, Spells.derives⟩

/-! ## Sentences are the words of trees -/

theorem spells_nil_iff {words : Spelling} : Spells [] words ↔ words = [] := by
  constructor
  · rintro ⟨⟩; rfl
  · rintro rfl; exact .nil

theorem spells_terminal_iff {t : Terminal} {symbols : List (Symbol Terminal Nonterminal)}
    {words : Spelling} :
    Spells (.terminal t :: symbols) words ↔
      ∃ word rest, words = word :: rest ∧ Terminal.ofWord word = t ∧ Spells symbols rest := by
  constructor
  · intro h
    cases h with
    | terminal rest => exact ⟨_, _, rfl, rfl, rest⟩
  · rintro ⟨word, rest, rfl, rfl, h⟩
    exact .terminal h

theorem spells_single_iff {n : Nonterminal} {words : Spelling} :
    Spells [.nonterminal n] words ↔ ∃ output ∈ n.productions, Spells output words := by
  constructor
  · intro h
    cases h with
    | nonterminal hp hh rest =>
      cases rest
      exact ⟨_, hp, by rwa [List.append_nil]⟩
  · rintro ⟨output, hp, h⟩
    simpa using Spells.nonterminal hp h .nil

theorem spells_nonterminal_iff {n : Nonterminal} (symbols : List (Symbol Terminal Nonterminal))
    {words : Spelling} :
    Spells (.nonterminal n :: symbols) words ↔
      ∃ first rest, words = first ++ rest ∧ Spells [.nonterminal n] first ∧ Spells symbols rest := by
  constructor
  · intro h
    exact h.exists_append (u := [.nonterminal n])
  · rintro ⟨first, rest, rfl, h, h'⟩
    exact h.append h'

theorem Terminal.ofWord_cases (word : Kind × String) :
    ofWord word = identifier ∧ word.1 = .identifier ∨ ofWord word = int ∧ word.1 = .intLiteral ∨
      (ofWord word).word? = some word ∨ ofWord word = other := by
  unfold ofWord
  split
  · rename_i h
    exact .inl ⟨rfl, h⟩
  · split
    · rename_i h
      exact .inr (.inl ⟨rfl, h⟩)
    · cases hf : fixed.find? (·.word? == some word) with
      | none => exact .inr (.inr (.inr rfl))
      | some t => exact .inr (.inr (.inl (by simpa using List.find?_some hf)))

theorem Terminal.ofWord_eq_iff {t : Terminal} {fixed word : Kind × String}
    (h : t.word? = some fixed) : ofWord word = t ↔ word = fixed := by
  constructor
  · rintro rfl
    rcases ofWord_cases word with ⟨h', -⟩ | ⟨h', -⟩ | h' | h' <;> rw [h'] at h <;> cases h
    rfl
  · rintro rfl
    cases t <;> cases h <;> decide

theorem Terminal.ofWord_eq_identifier_iff {word : Kind × String} :
    ofWord word = identifier ↔ word.1 = .identifier := by
  constructor
  · intro h
    rcases ofWord_cases word with ⟨-, h'⟩ | ⟨h', -⟩ | h' | h'
    · exact h'
    all_goals rw [h] at h'; cases h'
  · intro h
    rw [ofWord, if_pos h]

theorem Terminal.ofWord_eq_int_iff {word : Kind × String} :
    ofWord word = int ↔ word.1 = .intLiteral := by
  constructor
  · intro h
    rcases ofWord_cases word with ⟨h', -⟩ | ⟨-, h'⟩ | h' | h'
    · rw [h] at h'; cases h'
    · exact h'
    all_goals rw [h] at h'; cases h'
  · intro h
    rw [ofWord, if_neg (by simp [h]), if_pos h]

theorem spells_value_iff {words : Spelling} :
    Spells [.nonterminal .value] words ↔ ∃ v : Value, v.spelling = words := by
  simp only [spells_single_iff, Nonterminal.productions, List.mem_cons, List.not_mem_nil, or_false,
    exists_eq_or_imp, exists_eq_left, spells_terminal_iff, spells_nil_iff,
    Terminal.ofWord_eq_identifier_iff, Terminal.ofWord_eq_int_iff]
  constructor
  · rintro (⟨⟨kind, name⟩, _, rfl, h, rfl⟩ | ⟨⟨kind, text⟩, _, rfl, h, rfl⟩)
    · exact ⟨.var name, by simp only at h; subst h; rfl⟩
    · exact ⟨.int text, by simp only at h; subst h; rfl⟩
  · rintro ⟨v, rfl⟩
    cases v with
    | var name => exact .inl ⟨_, _, rfl, rfl, rfl⟩
    | int text => exact .inr ⟨_, _, rfl, rfl, rfl⟩

theorem spells_comparison_iff {words : Spelling} :
    Spells [.nonterminal .comparison] words ↔ ∃ op : Comparison, op.spelling = words := by
  simp only [spells_single_iff, Nonterminal.productions, List.mem_cons, List.not_mem_nil, or_false,
    exists_eq_or_imp, exists_eq_left, spells_terminal_iff, spells_nil_iff,
    Terminal.ofWord_eq_iff (t := .less) rfl, Terminal.ofWord_eq_iff (t := .greater) rfl]
  constructor
  · rintro (⟨_, _, rfl, rfl, rfl⟩ | ⟨_, _, rfl, rfl, rfl⟩)
    · exact ⟨.less, rfl⟩
    · exact ⟨.greater, rfl⟩
  · rintro ⟨op, rfl⟩
    cases op with
    | less => exact .inl ⟨_, _, rfl, rfl, rfl⟩
    | greater => exact .inr ⟨_, _, rfl, rfl, rfl⟩

/-- A tail of links: `tail → op₁ item tail | op₂ item tail | ε` stands for any number of links, each
of one operator and one item. -/
theorem spells_tail_iff {α β : Type} {op : α → Spelling} {spell : β → Spelling} {x y : α}
    {tx ty : Terminal} {wx wy : Kind × String} {item tail : Nonterminal}
    (hp : tail.productions = [[.terminal tx, .nonterminal item, .nonterminal tail],
      [.terminal ty, .nonterminal item, .nonterminal tail], []])
    (htx : tx.word? = some wx) (hty : ty.word? = some wy) (hx : op x = [wx]) (hy : op y = [wy])
    (hall : ∀ a, a = x ∨ a = y)
    (hitem : ∀ {words}, Spells [.nonterminal item] words ↔ ∃ b, spell b = words)
    {words : Spelling} :
    Spells [.nonterminal tail] words ↔
      ∃ links : List (α × β), links.flatMap (fun l => op l.1 ++ spell l.2) = words := by
  have hstep : ∀ {words}, Spells [.nonterminal tail] words ↔ words = [] ∨
      ∃ (a : α) (b : β) (rest : Spelling), words = op a ++ spell b ++ rest ∧
        Spells [.nonterminal tail] rest := by
    intro words
    rw [spells_single_iff, hp]
    simp only [List.mem_cons, List.not_mem_nil, or_false, exists_eq_or_imp, exists_eq_left,
      spells_terminal_iff, spells_nonterminal_iff [.nonterminal tail], spells_nil_iff,
      Terminal.ofWord_eq_iff htx, Terminal.ofWord_eq_iff hty, hitem]
    constructor
    · rintro (⟨_, _, rfl, rfl, _, rest, rfl, ⟨b, rfl⟩, h⟩ |
        ⟨_, _, rfl, rfl, _, rest, rfl, ⟨b, rfl⟩, h⟩ | rfl)
      · exact .inr ⟨x, b, rest, by rw [hx]; rfl, h⟩
      · exact .inr ⟨y, b, rest, by rw [hy]; rfl, h⟩
      · exact .inl rfl
    · rintro (rfl | ⟨a, b, rest, rfl, h⟩)
      · exact .inr (.inr rfl)
      · rcases hall a with rfl | rfl
        · exact .inl ⟨_, _, by rw [hx]; rfl, rfl, _, _, rfl, ⟨b, rfl⟩, h⟩
        · exact .inr (.inl ⟨_, _, by rw [hy]; rfl, rfl, _, _, rfl, ⟨b, rfl⟩, h⟩)
  constructor
  · -- every link takes a word, so the rest of the tail is shorter
    intro h
    induction hn : words.length using Nat.strong_induction_on generalizing words with
    | _ n ih =>
      rcases hstep.1 h with rfl | ⟨a, b, rest, rfl, hrest⟩
      · exact ⟨[], rfl⟩
      · have hlen : 0 < (op a).length := by rcases hall a with rfl | rfl <;> simp [hx, hy]
        obtain ⟨links, hl⟩ := ih rest.length (by simp at hn; omega) hrest rfl
        exact ⟨(a, b) :: links, by rw [List.flatMap_cons, hl]⟩
  · rintro ⟨links, rfl⟩
    induction links with
    | nil => exact hstep.2 (.inl rfl)
    | cons l links ih => exact hstep.2 (.inr ⟨l.1, l.2, _, List.flatMap_cons, ih⟩)

theorem spells_product_iff {words : Spelling} :
    Spells [.nonterminal .product] words ↔ ∃ t : Term, t.spelling = words := by
  have htail := @spells_tail_iff MulOp Value MulOp.spelling Value.spelling .times .dividedBy
    .times .dividedBy _ _ .value .productTail rfl rfl rfl rfl rfl (by rintro ⟨⟩ <;> simp)
    spells_value_iff
  simp only [spells_single_iff (n := .product), Nonterminal.productions, List.mem_singleton,
    exists_eq_left, spells_nonterminal_iff [.nonterminal .productTail],
    spells_value_iff, htail]
  constructor
  · rintro ⟨_, _, rfl, ⟨v, rfl⟩, links, rfl⟩
    exact ⟨⟨v, links⟩, rfl⟩
  · rintro ⟨⟨v, links⟩, rfl⟩
    exact ⟨_, _, rfl, ⟨v, rfl⟩, links, rfl⟩

theorem spells_sum_iff {words : Spelling} :
    Spells [.nonterminal .sum] words ↔ ∃ e : Expr, e.spelling = words := by
  have htail := @spells_tail_iff AddOp Term AddOp.spelling Term.spelling .plus .minus
    .plus .minus _ _ .product .sumTail rfl rfl rfl rfl rfl (by rintro ⟨⟩ <;> simp)
    spells_product_iff
  simp only [spells_single_iff (n := .sum), Nonterminal.productions, List.mem_singleton,
    exists_eq_left, spells_nonterminal_iff [.nonterminal .sumTail],
    spells_product_iff, htail]
  constructor
  · rintro ⟨_, _, rfl, ⟨t, rfl⟩, links, rfl⟩
    exact ⟨⟨t, links⟩, rfl⟩
  · rintro ⟨⟨t, links⟩, rfl⟩
    exact ⟨_, _, rfl, ⟨t, rfl⟩, links, rfl⟩

theorem spells_assignment_iff {words : Spelling} :
    Spells [.nonterminal .assignment] words ↔ ∃ a : Assignment, a.spelling = words := by
  simp only [spells_single_iff (n := .assignment), Nonterminal.productions, List.mem_singleton,
    exists_eq_left, spells_terminal_iff, spells_sum_iff, Terminal.ofWord_eq_identifier_iff,
    Terminal.ofWord_eq_iff (t := .equals) rfl]
  constructor
  · rintro ⟨⟨kind, target⟩, _, rfl, h, _, _, rfl, rfl, e, rfl⟩
    simp only at h
    subst h
    exact ⟨⟨target, e⟩, rfl⟩
  · rintro ⟨⟨target, e⟩, rfl⟩
    exact ⟨_, _, rfl, rfl, _, _, rfl, rfl, e, rfl⟩

theorem spells_condition_iff {words : Spelling} :
    Spells [.nonterminal .condition] words ↔ ∃ (left right : Value) (op : Comparison),
      left.spelling ++ op.spelling ++ right.spelling = words := by
  simp only [spells_single_iff (n := .condition), Nonterminal.productions, List.mem_singleton,
    exists_eq_left, spells_nonterminal_iff [_, _],
    spells_nonterminal_iff [.nonterminal .value], spells_value_iff,
    spells_comparison_iff]
  constructor
  · rintro ⟨_, _, rfl, ⟨left, rfl⟩, _, _, rfl, ⟨op, rfl⟩, right, rfl⟩
    exact ⟨left, right, op, List.append_assoc ..⟩
  · rintro ⟨left, right, op, rfl⟩
    exact ⟨_, _, List.append_assoc .., ⟨left, rfl⟩, _, _, rfl, ⟨op, rfl⟩, right, rfl⟩

theorem spells_statement_iff {words : Spelling} :
    Spells [.nonterminal .statement] words ↔ ∃ st : Statement, st.spelling = words := by
  simp only [spells_single_iff (n := .statement), Nonterminal.productions, List.mem_cons,
    List.not_mem_nil, or_false, exists_eq_or_imp, exists_eq_left, spells_terminal_iff,
    spells_nonterminal_iff (.terminal _ :: _), spells_condition_iff,
    spells_assignment_iff, spells_nil_iff, Terminal.ofWord_eq_iff (t := .loop) rfl,
    Terminal.ofWord_eq_iff (t := .openParen) rfl, Terminal.ofWord_eq_iff (t := .closeParen) rfl,
    Terminal.ofWord_eq_iff (t := .semicolon) rfl]
  constructor
  · rintro (⟨_, _, rfl, rfl, _, _, rfl, rfl, _, _, rfl, ⟨left, right, op, rfl⟩, _, _, rfl, rfl, _,
      _, rfl, ⟨body, rfl⟩, _, _, rfl, rfl, rfl⟩ | ⟨_, _, rfl, ⟨a, rfl⟩, _, _, rfl, rfl, rfl⟩)
    · exact ⟨.loop left op right body, by simp [Statement.spelling]⟩
    · exact ⟨.assignment a, rfl⟩
  · rintro ⟨st, rfl⟩
    cases st with
    | assignment a => exact .inr ⟨_, _, rfl, ⟨a, rfl⟩, _, _, rfl, rfl, rfl⟩
    | loop left op right body =>
      exact .inl ⟨_, _, rfl, rfl, _, left.spelling ++ op.spelling ++ right.spelling ++
        (.bracketOrDot, ")") :: (body.spelling ++ [(.semicolon, ";")]), by simp, rfl, _, _, rfl,
        ⟨left, right, op, rfl⟩, _, _, rfl, rfl, _, _, rfl, ⟨body, rfl⟩, _, _, rfl, rfl, rfl⟩

/-- The sentences of the grammar are the words of statements. -/
theorem mem_language_iff_statement {words : Spelling} :
    words.map Terminal.ofWord ∈ statementGrammar.language ↔
      ∃ st : Statement, st.spelling = words :=
  mem_language_iff_spells.trans spells_statement_iff

/-- Sentences one after the other are the words of as many statements. -/
theorem mem_language_pow_iff {words : Spelling} {n : Nat} :
    words.map Terminal.ofWord ∈ statementGrammar.language ^ n ↔
      ∃ program : List Statement, program.length = n ∧
        program.flatMap Statement.spelling = words := by
  induction n generalizing words with
  | zero =>
    rw [pow_zero, Language.mem_one, List.map_eq_nil_iff]
    constructor
    · rintro rfl; exact ⟨[], rfl, rfl⟩
    · rintro ⟨program, hn, rfl⟩
      rw [List.length_eq_zero_iff.1 hn]
      rfl
  | succ n ih =>
    rw [pow_succ', Language.mem_mul]
    constructor
    · rintro ⟨u, hu, v, hv, huv⟩
      obtain ⟨x, y, rfl, rfl, rfl⟩ := List.map_eq_append_iff.1 huv.symm
      obtain ⟨st, rfl⟩ := mem_language_iff_statement.1 hu
      obtain ⟨program, rfl, rfl⟩ := ih.1 hv
      exact ⟨st :: program, rfl, rfl⟩
    · rintro ⟨_ | ⟨st, program⟩, hn, rfl⟩
      · cases hn
      · exact ⟨_, mem_language_iff_statement.2 ⟨st, rfl⟩, _,
          ih.2 ⟨program, by simpa using hn, rfl⟩, by simp⟩

end LoopAsm
