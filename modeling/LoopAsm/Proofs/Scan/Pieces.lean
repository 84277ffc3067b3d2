/-
Cutting a text into words leaves no choice: the longest piece in front is unique, no text is a word
of two categories, and so there is at most one list of tokens for a text.
-/
import LoopAsm.Proofs.Scan.Complete

namespace LoopAsm

open Scan

variable {w rest : List Char} {r : Category → Language Char} {m : Mode} {k : Category}
  {ternary : Bool} {line : Nat}

/-! ## Longest pieces -/

theorem Longest.unique {text w' rest' : List Char} (h : Longest text w rest)
    (h' : Longest text w' rest') : w = w' ∧ rest = rest' := by
  have hw : w <+: text := ⟨rest, h.split.symm⟩
  have hw' : w' <+: text := ⟨rest', h'.split.symm⟩
  have hlength : w.length = w'.length :=
    Nat.le_antisymm (h'.longest w hw h.viable) (h.longest w' hw' h'.viable)
  have heq : w ++ rest = w' ++ rest' := by rw [← h.split, ← h'.split]
  exact List.append_inj heq hlength

/-- What `r` completes are the words that begin with `w`. -/
def Reads (w : List Char) (r : Category → Language Char) : Prop :=
  ∀ k v, v ∈ r k ↔ w ++ v ∈ k.language

theorem Reads.initial : Reads [] Mode.initial.residual :=
  fun _ _ => Iff.rfl

theorem Reads.move (h : Reads w m.residual) (c : Char) : Reads (w ++ [c]) (m.move c).residual := by
  intro k v
  rw [← derivative, h, List.append_assoc]
  rfl

theorem Reads.mem_iff (h : Reads w r) : w ∈ k.language ↔ [] ∈ r k := by
  rw [h, List.append_nil]

/-- A comment ends or goes on. -/
theorem Reads.comment {ended : Category} {next : Mode} (h : Reads w (commentRest ended next)) :
    next = .initial ∧ Reads w (only ended) ∨ next ≠ .initial ∧ Reads w next.residual := by
  by_cases hnext : next = .initial
  · refine .inl ⟨hnext, fun k v => ?_⟩
    rw [← h k v, commentRest, if_pos hnext]
  · refine .inr ⟨hnext, fun k v => ?_⟩
    rw [← h k v, commentRest, if_neg hnext]

/-- Between two words, and where a newline leaves a malformed word, nothing is complete. -/
theorem Reads.not_word (h : Reads w m.residual)
    (hm : m = .initial ∨ m.move '\n' = .release .malformed) (k : Category) : w ∉ k.language := by
  intro hk
  rw [h.mem_iff, nil_mem_residual] at hk
  rcases hm with rfl | hm
  · exact not_completes rfl hk
  · exact ((completes_iff hm).1 hk).1 rfl

/-- A piece is the longest one if it can be completed, but not behind the next character. -/
theorem Reads.longest (h : Reads w r) (hlive : ∃ k v, v ∈ r k)
    (hstop : ∀ c rest', rest = c :: rest' → ∀ k v, c :: v ∉ r k) : Longest (w ++ rest) w rest := by
  refine ⟨rfl, ?_, ?_⟩
  · obtain ⟨k, v, hv⟩ := hlive
    exact ⟨k, v, (h k v).1 hv⟩
  · intro u hu hviable
    by_contra hlt
    have hwu : w <+: u :=
      List.prefix_of_prefix_length_le (List.prefix_append w rest) hu (by omega)
    obtain ⟨x, rfl⟩ := hwu
    obtain ⟨rest', hrest⟩ := (List.prefix_append_right_inj w).1 hu
    cases x with
    | nil => simp at hlt
    | cons c x =>
      obtain ⟨k, v, hv⟩ := hviable
      refine hstop c (x ++ rest') hrest.symm k (x ++ v) ?_
      rw [h]
      simpa using hv

/-- A word of which nothing is left to complete. -/
theorem Reads.longest_only (h : Reads w (only k)) (rest : List Char) :
    Longest (w ++ rest) w rest ∧ w ∈ k.language := by
  refine ⟨h.longest ⟨k, [], mem_only.2 ⟨rfl, rfl⟩⟩ ?_, h.mem_iff.2 (mem_only.2 ⟨rfl, rfl⟩)⟩
  intro c rest' _ k' v hv
  cases (mem_only.1 hv).1

/-! ## There is one way to cut a text -/

theorem Misplaced.not_word (h : Misplaced ternary w) (hw : w ∈ k.language) :
    k = .question ∧ ternary = true := by
  rcases h with h | ⟨hquestion, hternary⟩
  · exact absurd hw (h k)
  · exact ⟨category_unique hw hquestion, hternary⟩

theorem leftOpen_nil : LeftOpen [] [] :=
  ⟨rfl, ['/', '*', '*', '/'], by simp [Category.language, mul_assoc, Lexicon.cons_mem_blockEnds]⟩

theorem Lexed.of_word {tokens : List Token} {text : List Char} (hlong : Longest text w rest)
    (hw : w ∈ k.language) (hk : ¬ (k = .question ∧ ternary = true))
    (h : Lexed ternary line text tokens) : ∃ tokens', tokens = k.tokens ternary line w ++ tokens' ∧
      Lexed (k.waits ternary) (line + w.count '\n') rest tokens' := by
  cases h with
  | done =>
    obtain ⟨rfl, -⟩ := List.append_eq_nil_iff.1 hlong.split.symm
    exact absurd hw nil_mem_language
  | word hlong' hw' hk' more =>
    obtain ⟨rfl, rfl⟩ := hlong.unique hlong'
    cases category_unique hw hw'
    exact ⟨_, rfl, more⟩
  | malformed hlong' hw' hopen more =>
    obtain ⟨rfl, rfl⟩ := hlong.unique hlong'
    exact absurd (Misplaced.not_word hw' hw) hk
  | openComment hlong' hw' hopen =>
    obtain ⟨rfl, rfl⟩ := hlong.unique hlong'
    exact absurd hw (hw' k)

theorem Lexed.of_malformed {tokens : List Token} {text : List Char} (hlong : Longest text w rest)
    (hw : Misplaced ternary w) (hopen : ¬ LeftOpen w rest) (h : Lexed ternary line text tokens) :
    ∃ tokens', tokens =
      ⟨.malformed, String.ofList (w ++ rest.takeWhile isStray), line⟩ :: tokens' ∧
      Lexed ternary line (rest.dropWhile isStray) tokens' := by
  cases h with
  | done =>
    obtain ⟨rfl, rfl⟩ := List.append_eq_nil_iff.1 hlong.split.symm
    exact absurd leftOpen_nil hopen
  | word hlong' hw' hk' more =>
    obtain ⟨rfl, rfl⟩ := hlong.unique hlong'
    exact absurd (hw.not_word hw') hk'
  | malformed hlong' hw' hopen' more =>
    obtain ⟨rfl, rfl⟩ := hlong.unique hlong'
    exact ⟨_, rfl, more⟩
  | openComment hlong' hw' hopen' =>
    obtain ⟨rfl, rfl⟩ := hlong.unique hlong'
    exact absurd hopen' hopen

theorem Lexed.of_leftOpen {tokens : List Token} (hlong : Longest w w [])
    (hw : ∀ k : Category, w ∉ k.language) (hopen : LeftOpen w [])
    (h : Lexed ternary line w tokens) : tokens = [] := by
  cases h with
  | done => rfl
  | word hlong' hw' hk' more =>
    obtain ⟨rfl, rfl⟩ := hlong.unique hlong'
    exact absurd hw' (hw _)
  | malformed hlong' hw' hopen' more =>
    obtain ⟨rfl, rfl⟩ := hlong.unique hlong'
    exact absurd hopen hopen'
  | openComment => rfl

/-- There is one way to cut a text. -/
theorem Lexed.unique {text : List Char} {tokens tokens' : List Token}
    (h : Lexed ternary line text tokens) (h' : Lexed ternary line text tokens') :
    tokens = tokens' := by
  induction h generalizing tokens' with
  | done =>
    have hlong : Longest [] [] [] :=
      ⟨rfl, ⟨_, leftOpen_nil.2⟩, fun u hu _ => hu.length_le⟩
    exact (h'.of_leftOpen hlong (fun _ => nil_mem_language) leftOpen_nil).symm
  | word hlong hw hk more ih =>
    obtain ⟨tokens, rfl, more'⟩ := h'.of_word hlong hw hk
    rw [ih more']
  | malformed hlong hw hopen more ih =>
    obtain ⟨tokens, rfl, more'⟩ := h'.of_malformed hlong hw hopen
    rw [ih more']
  | openComment hlong hw hopen => exact (h'.of_leftOpen hlong hw hopen).symm

end LoopAsm
