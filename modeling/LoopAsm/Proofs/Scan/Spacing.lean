/-
The space between words means nothing. A blank ends every complete word, whatever else may end it,
so each word of a text is a word again if it stands alone before a blank, and of the same class. A
text can thus be written anew with its words a single blank apart: it has the same words, and it
compiles to the same code.
-/
import LoopAsm.Proofs.Scan.LongestMatch
import LoopAsm.Proofs.Translate.Significance

namespace LoopAsm

open Scan

/-! ## Words apart from their places -/

/-- The words among tokens, malformed ones too, without the blanks and apart from their places. -/
def wordsOf (tokens : List Token) : List (Kind × String) :=
  (tokens.filter fun t => !t.kind.isTrivia).map Token.spelling

@[simp] theorem wordsOf_append (a b : List Token) : wordsOf (a ++ b) = wordsOf a ++ wordsOf b := by
  simp [wordsOf]

theorem wordsOf_singleton (kind : Kind) (lexeme : String) (line : Nat) :
    wordsOf [⟨kind, lexeme, line⟩] = if kind.isTrivia then [] else [(kind, lexeme)] := by
  cases h : kind.isTrivia <;> simp [wordsOf, h, Token.spelling]

/-- Malformed words are no blanks. -/
theorem forall_ne_malformed_iff {tokens : List Token} :
    (∀ t ∈ tokens, t.kind ≠ .malformed) ↔ ∀ word ∈ wordsOf tokens, word.1 ≠ .malformed := by
  constructor
  · intro h word hword
    obtain ⟨t, ht, rfl⟩ := List.mem_map.1 hword
    exact h t (List.mem_filter.1 ht).1
  · intro h t ht hkind
    refine h t.spelling (List.mem_map_of_mem (List.mem_filter.2 ⟨ht, ?_⟩)) hkind
    rw [hkind]
    rfl

/-- What the parser reads are the words that are not malformed. -/
theorem map_spelling_significant (records : List Record) :
    (significant records).map Token.spelling =
      (wordsOf (tokensOf records)).filter (·.1 != .malformed) := by
  unfold significant wordsOf
  rw [List.filter_map, List.filter_filter]
  congr 2
  funext t
  exact Bool.and_comm _ _

/-- Texts with the same words are compiled alike. -/
theorem compileText_of_same_words {text text' : String}
    (h : wordsOf (tokensOf (scan text)) = wordsOf (tokensOf (scan text'))) :
    SameVerdict (compileText text) (compileText text') := by
  have hwords : (significant (scan text)).map Token.spelling =
      (significant (scan text')).map Token.spelling := by
    rw [map_spelling_significant, map_spelling_significant, h]
  have hvalidators : Validator.Alike (.ofRecords (scan text)) (.ofRecords (scan text')) :=
    ⟨hwords, rfl⟩
  have htranslators : Translator.Alike (.ofRecords (scan text) defaultCapacity)
      (.ofRecords (scan text') defaultCapacity) := ⟨hwords, rfl⟩
  have hverdict : SameVerdict (validate (scan text)) (validate (scan text')) := hvalidators.run
  have htranslate : translate (scan text) defaultCapacity =
      translate (scan text') defaultCapacity := htranslators.run 0
  have hcode := translate_verdict (scan text) defaultCapacity (by decide)
  unfold compileText
  rw [compile_eq, compile_eq]
  generalize validate (scan text) = verdict, validate (scan text') = verdict' at hverdict hcode
  cases hverdict with
  | ok n =>
    obtain ⟨-, code, hcode, -⟩ := hcode
    dsimp only
    rw [← htranslate, hcode]
    exact .ok code
  | grammar k hfound => exact .grammar k hfound

/-! ## Complete words before a blank -/

variable {v w rest : List Char} {m : Mode} {k k' : Category} {kind : Kind} {b : Char}
  {ternary : Bool}

/-- A complete word is released before every blank, as it is before a newline. -/
theorem Scan.move_blank (h : m.move '\n' = .release kind) (hkind : kind ≠ .malformed)
    (hb : b ∈ blanks) : m.move b = .release kind := by
  cases m with
  | initial => cases h
  | word =>
    cases h
    rcases mem_blanks.1 hb with rfl | rfl | rfl | rfl <;> rfl
  | quoted q part =>
    rw [quote_newline] at h
    cases h
    exact absurd rfl hkind
  | number part =>
    cases part <;> cases h <;> first
      | exact absurd rfl hkind
      | rcases mem_blanks.1 hb with rfl | rfl | rfl | rfl <;> rfl
  | symbol s =>
    cases s <;> cases h <;> rcases mem_blanks.1 hb with rfl | rfl | rfl | rfl <;> rfl
  | blockComment star => cases h
  | lineComment => cases h
  | malformed =>
    cases h
    exact absurd rfl hkind

/-- Behind a move a word is complete with nothing more, or it goes on from a mode. -/
theorem Scan.Move.residual_cases (move : Move) :
    (∃ next : Mode, ∀ k, move.residual k = next.residual k) ∨
      ∃ k, ∀ k', move.residual k' = only k k' := by
  have hcomment (ended : Category) (next : Mode) :
      (∃ next' : Mode, ∀ k, commentRest ended next k = next'.residual k) ∨
        ∃ k, ∀ k', commentRest ended next k' = only k k' := by
    by_cases hnext : next = .initial
    · exact .inr ⟨ended, fun k' => if_pos hnext⟩
    · exact .inl ⟨next, fun k => if_neg hnext⟩
  cases move with
  | release kind => exact .inl ⟨.malformed, fun k => rfl⟩
  | take t =>
    cases t with
    | grow next => exact .inl ⟨next, fun k => rfl⟩
    | close kind => exact .inr ⟨.ofKind kind, fun k' => rfl⟩
    | drop next => exact hcomment .blockComment next
    | comment next => exact .inl ⟨next, fun k => rfl⟩
    | newline next => exact hcomment .lineComment next
    | question => exact .inr ⟨.question, fun k' => rfl⟩
    | colon => exact .inr ⟨.colon, fun k' => rfl⟩

/-- No word goes on with a blank behind what is a word already. -/
theorem blank_not_mem_residual (h : v ∈ m.residual k) (hb : b ∈ blanks) :
    v ++ b :: rest ∉ m.residual k' := by
  induction v generalizing m with
  | nil =>
    obtain ⟨kind, hmove, hkind, -⟩ := nil_mem_residual.1 h
    rw [List.nil_append, derivative, move_blank hmove hkind hb]
    exact Language.notMem_zero rest
  | cons c v ih =>
    rw [derivative] at h
    rw [List.cons_append, derivative]
    rcases (m.move c).residual_cases with ⟨next, hnext⟩ | ⟨l, honly⟩
    · rw [hnext] at h ⊢
      exact ih h
    · rw [honly] at h ⊢
      obtain ⟨rfl, -⟩ := mem_only.1 h
      intro hmem
      cases (mem_only.1 hmem).1

theorem longest_before_blank (hw : w ∈ k.language) (hb : b ∈ blanks) (rest : List Char) :
    Longest (w ++ b :: rest) w (b :: rest) := by
  refine Reads.longest (r := fun k => {v | w ++ v ∈ k.language}) (fun _ _ => Iff.rfl) ?_ ?_
  · refine ⟨k, [], ?_⟩
    show w ++ [] ∈ k.language
    rwa [List.append_nil]
  · rintro _ _ ⟨⟩ k' v hv
    exact blank_not_mem_residual (m := .initial) hw hb hv

/-! ## Words that are read again -/

/-- A text, behind whatever lines, is cut into these words and blanks. -/
def CutsInto (ternary : Bool) (text : List Char) (words : List (Kind × String)) : Prop :=
  ∀ line, ∃ tokens, Lexed ternary line text tokens ∧ wordsOf tokens = words

/-- The words that a word of a category stands for are the same on every line. -/
theorem wordsOf_tokens (k : Category) (line : Nat) :
    wordsOf (k.tokens ternary line w) = wordsOf (k.tokens ternary 0 w) := by
  cases k with
  | colon => cases ternary <;> rfl
  | blockComment | lineComment | question => rfl
  | _ => simp only [Category.tokens, wordsOf_singleton]

theorem CutsInto.word {text : List Char} {words : List (Kind × String)}
    (hlong : Longest text w rest) (hw : w ∈ k.language) (hk : ¬ (k = .question ∧ ternary = true))
    (more : CutsInto (k.waits ternary) rest words) :
    CutsInto ternary text (wordsOf (k.tokens ternary 0 w) ++ words) := by
  intro line
  obtain ⟨tokens, hlexed, hwords⟩ := more (line + w.count '\n')
  refine ⟨k.tokens ternary line w ++ tokens, .word hlong hw hk hlexed, ?_⟩
  rw [wordsOf_append, wordsOf_tokens, hwords]

theorem cutsInto_nil : CutsInto ternary [] [] :=
  fun _ => ⟨[], .done, rfl⟩

/-- A blank adds no word. -/
theorem CutsInto.blank {words : List (Kind × String)} (hb : b ∈ blanks)
    (h : CutsInto ternary rest words) : CutsInto ternary (b :: rest) words := by
  have hreads : Reads [b] (only (.fixed .whitespace)) := by
    have hmove := Reads.initial.move b
    rcases mem_blanks.1 hb with rfl | rfl | rfl | rfl <;> exact hmove
  obtain ⟨hlong, hw⟩ := hreads.longest_only rest
  have hcuts := CutsInto.word hlong hw (by simp) h
  exact hcuts

/-- A word that is read as the same word again if a blank is behind it. -/
def ReadsBack (word : Kind × String) : Prop :=
  ∀ b ∈ blanks, ∀ rest words, CutsInto false (b :: rest) words →
    CutsInto false (word.2.toList ++ b :: rest) (word :: words)

theorem readsBack_conditional : ReadsBack (.ternaryColon, "?:") := by
  intro b hb rest words h
  have hquestion : Reads ['?'] (only .question) := Reads.initial.move '?'
  have hcolon : Reads [':'] (only .colon) := Reads.initial.move ':'
  obtain ⟨hlong, hw⟩ := hquestion.longest_only (':' :: b :: rest)
  obtain ⟨hlong', hw'⟩ := hcolon.longest_only (b :: rest)
  have hhalf : CutsInto true (':' :: b :: rest) ((.ternaryColon, "?:") :: words) :=
    CutsInto.word hlong' hw' (by simp) h
  exact CutsInto.word hlong hw (by simp) hhalf

/-- A word of the language stands for itself, or for a conditional operator. -/
theorem mem_wordsOf_tokens {word : Kind × String} (h : word ∈ wordsOf (k.tokens ternary 0 w)) :
    word = (.ternaryColon, "?:") ∨
      wordsOf (k.tokens false 0 w) = [word] ∧ word.2 = String.ofList w ∧ k.waits false = false := by
  have hsingle {kind : Kind} (h : word ∈ wordsOf [⟨kind, String.ofList w, 0⟩]) :
      wordsOf [⟨kind, String.ofList w, 0⟩] = [word] ∧ word.2 = String.ofList w := by
    rw [wordsOf_singleton] at h ⊢
    split at h
    · cases h
    · rename_i hkind
      rw [List.mem_singleton.1 h, if_neg hkind]
      exact ⟨rfl, rfl⟩
  cases k with
  | colon =>
    cases ternary with
    | true => exact .inl (List.mem_singleton.1 h)
    | false => exact .inr ⟨(hsingle h).1, (hsingle h).2, rfl⟩
  | blockComment | lineComment | question => cases h
  | _ => exact .inr ⟨(hsingle h).1, (hsingle h).2, rfl⟩

theorem readsBack_of_category {word : Kind × String} (hw : w ∈ k.language)
    (hword : word ∈ wordsOf (k.tokens ternary 0 w)) : ReadsBack word := by
  rcases mem_wordsOf_tokens hword with rfl | ⟨hwords, hlexeme, hwaits⟩
  · exact readsBack_conditional
  · intro b hb rest words h
    rw [hlexeme, String.toList_ofList]
    rw [← hwaits] at h
    have hcuts := CutsInto.word (longest_before_blank hw hb rest) hw (by simp) h
    rwa [hwords] at hcuts

/-- Every word of a text is read back, unless it is malformed. -/
theorem Lexed.readsBack {line : Nat} {text : List Char} {tokens : List Token}
    (h : Lexed ternary line text tokens) :
    ∀ word ∈ wordsOf tokens, word.1 ≠ .malformed → ReadsBack word := by
  induction h with
  | done => exact fun word hword => nomatch hword
  | word hlong hw hk more ih =>
    intro word hword hkind
    rw [wordsOf_append] at hword
    rcases List.mem_append.1 hword with hword | hword
    · rw [wordsOf_tokens] at hword
      exact readsBack_of_category hw hword
    · exact ih word hword hkind
  | malformed hlong hw hopen more ih =>
    intro word hword hkind
    rcases List.mem_cons.1 hword with rfl | hword
    · exact absurd rfl hkind
    · exact ih word hword hkind
  | openComment hlong hw hopen => exact fun word hword => nomatch hword

/-! ## Words a blank apart -/

/-- Words that are read back, with a blank between each two, are the words of the text. -/
theorem cutsInto_intercalate {words : List (Kind × String)} (h : ∀ word ∈ words, ReadsBack word) :
    CutsInto false ([' '].intercalate (words.map (·.2.toList)) ++ ['\n']) words := by
  have hend : CutsInto false ['\n'] [] := cutsInto_nil.blank (by decide)
  induction words with
  | nil => exact hend
  | cons word words ih =>
    obtain ⟨hword, hwords⟩ := List.forall_mem_cons.1 h
    cases words with
    | nil =>
      rw [List.map_singleton, List.intercalate_singleton]
      exact hword '\n' (by decide) [] [] hend
    | cons next words =>
      rw [List.map_cons, List.map_cons, List.intercalate_cons_cons, List.append_assoc,
        List.append_assoc]
      exact hword ' ' (by decide) _ _ ((ih hwords).blank (by decide))

/-- A text written anew with its words a blank apart. -/
def respaced (text : String) : String :=
  " ".intercalate ((wordsOf (tokensOf (scan text))).map Prod.snd)

/-- The space between the words of a text without malformed words means nothing. Written anew with
a single blank between each two of them, they are read as the same words, none of them malformed, so
that the same code is compiled, or the same word is found not to fit in the same statement. -/
theorem respaced_keeps_words (text : String)
    (h : ∀ t ∈ tokensOf (scan text), t.kind ≠ .malformed) :
    (∀ t ∈ tokensOf (scan (respaced text)), t.kind ≠ .malformed) ∧
    wordsOf (tokensOf (scan (respaced text))) = wordsOf (tokensOf (scan text)) ∧
    SameVerdict (compileText (respaced text)) (compileText text) := by
  rw [forall_ne_malformed_iff] at h ⊢
  have hback : ∀ word ∈ wordsOf (tokensOf (scan text)), ReadsBack word :=
    fun word hword => (lexed_scan text).readsBack word hword (h word hword)
  have htext : [' '].intercalate ((wordsOf (tokensOf (scan text))).map (·.2.toList)) =
      (respaced text).toList := by
    rw [respaced, String.toList_intercalate, List.map_map]
    rfl
  obtain ⟨tokens, hlexed, htokens⟩ := cutsInto_intercalate hback 1
  rw [htext] at hlexed
  have hwords : wordsOf (tokensOf (scan (respaced text))) = wordsOf (tokensOf (scan text)) := by
    rw [(lexed_scan (respaced text)).unique hlexed, htokens]
  refine ⟨?_, hwords, compileText_of_same_words hwords⟩
  rwa [hwords]

/-- A product, a conditional between literals that have blanks, quotes and a comment's opening in
them, and operators with nothing but comments between them. -/
theorem respaced_keeps_crowded_words :
    let text := "x=a*0x1F;s=c?'\\'':\"b /* \";//c\n.5e-1+++=/**/i"
    (∀ t ∈ tokensOf (scan text), t.kind ≠ .malformed) ∧
    respaced text = "x = a * 0x1F ; s = c '\\'' ?: \"b /* \" ; .5e-1 ++ += i" ∧
    (∀ t ∈ tokensOf (scan (respaced text)), t.kind ≠ .malformed) ∧
    wordsOf (tokensOf (scan (respaced text))) = wordsOf (tokensOf (scan text)) ∧
    SameVerdict (compileText (respaced text)) (compileText text) := by
  intro text
  have h : ∀ t ∈ tokensOf (scan text), t.kind ≠ .malformed := by decide +kernel
  have htext : respaced text = "x = a * 0x1F ; s = c '\\'' ?: \"b /* \" ; .5e-1 ++ += i" := by
    decide +kernel
  exact ⟨h, htext, respaced_keeps_words text h⟩

end LoopAsm
