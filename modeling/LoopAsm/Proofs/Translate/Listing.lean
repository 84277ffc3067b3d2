/-
Reading a listing back. A line is read by its shape alone: what ends in a colon is a label, all
else a mnemonic and its operands, and an operand is told by its spelling: the name of a register is
that register, what begins with a digit is an integer, and the rest are variables. So registers and
variables share one space of names, and a variable that is called like a register is read as the
register. Nothing else is lost: the words and integers of a source hold none of the characters that
structure a line.

The variables of the code are the identifiers of the source, each of them, so a listing is read
back as it was written exactly if no identifier of the source is the name of a register.
-/
import LoopAsm.Compile
import LoopAsm.Proofs.Grammar.Acceptance
import LoopAsm.Proofs.Scan.Lexemes
import LoopAsm.Proofs.Translate.Emission
import LoopAsm.Proofs.Wire.RoundTrip

namespace LoopAsm

/-! ## Reading lines -/

namespace Listing

open Split (behind? before? atFirst?)

/-- The lines of a text; an empty text has none. -/
def lines (text : List Char) : List (List Char) :=
  if text.isEmpty then [] else text.splitOn '\n'

/-- The number that a row of digits stands for. -/
def number? (digits : List Char) : Option Nat :=
  if digits ≠ [] ∧ digits.all (Numeral.isDigitOf 10) = true then some (Numeral.value 10 digits)
  else none

/-- The label that is called `front` and then a number. -/
def numbered? (front : String) (label : Nat → Label) (name : List Char) : Option Label :=
  ((behind? front.toList name).bind number?).map label

/-- The label of a given name. -/
def label? (name : List Char) : Option Label :=
  numbered? "begin_" .begin name <|> numbered? "true_" .body name <|> numbered? "false_" .exit name

/-- The operand of a given spelling: a register by its name, an integer by its first digit, and a
variable otherwise. -/
def operand (text : List Char) : Operand :=
  match Register.ofName? (String.ofList text) with
  | some r => .register r
  | none =>
    if text.head?.any Char.isDigit then .int (String.ofList text) else .ident (String.ofList text)

/-- The operands on both sides of the first comma. -/
def operands? (text : List Char) : Option (Operand × Operand) :=
  (atFirst? ", ".toList text).map fun (left, right) => (operand left, operand right)

/-- An instruction whose left operand has to be a register. -/
def inRegister? (instr : Register → Operand → Instr) : Operand × Operand → Option Instr
  | (.register r, src) => some (instr r src)
  | _ => none

/-- The condition of a jump with a given mnemonic. -/
def condition? (mnemonic : String) : Option Condition :=
  [.less, .greaterOrEqual, .greater, .lessOrEqual, .always].find? (·.mnemonic == mnemonic)

/-- The instruction of a given mnemonic, with the text of its operands. -/
def instr? (mnemonic : String) (text : List Char) : Option Instr :=
  if mnemonic = "mov" then (operands? text).map fun (dst, src) => .mov dst src
  else if mnemonic = "cmp" then (operands? text).map fun (left, right) => .cmp left right
  else if mnemonic = "add" then (operands? text).bind (inRegister? .add)
  else if mnemonic = "sub" then (operands? text).bind (inRegister? .sub)
  else if mnemonic = "mul" then some (.mul (operand text))
  else if mnemonic = "div" then some (.div (operand text))
  else (condition? mnemonic).bind fun condition => (label? text).map (.jump condition)

/-- The instruction of a line: a label before a colon, or behind a tab a mnemonic, another tab and
the operands. -/
def line? (line : List Char) : Option Instr :=
  match before? [':'] line with
  | some name => (label? name).map .label
  | none =>
    (behind? ['\t'] line).bind fun rest =>
      (atFirst? ['\t'] rest).bind fun (mnemonic, text) => instr? (String.ofList mnemonic) text

/-- The instructions of a listing. -/
def read? (text : String) : Option (List Instr) :=
  (lines text.toList).mapM line?

end Listing

/-! ## What is read for an instruction -/

/-- What an operand is taken for by its spelling. -/
def Operand.asRead : Operand → Operand
  | ident name =>
    match Register.ofName? name with
    | some r => register r
    | none => ident name
  | o => o

namespace Instr

/-- An instruction with its operands taken by their spelling. -/
def asRead : Instr → Instr
  | label l => label l
  | mov dst src => mov dst.asRead src.asRead
  | add dst src => add dst src.asRead
  | sub dst src => sub dst src.asRead
  | mul src => mul src.asRead
  | div src => div src.asRead
  | cmp left right => cmp left.asRead right.asRead
  | jump condition target => jump condition target

/-- The operands of an instruction. -/
def operands : Instr → List Operand
  | label _ => []
  | mov dst src => [dst, src]
  | add dst src => [.register dst, src]
  | sub dst src => [.register dst, src]
  | mul src => [src]
  | div src => [src]
  | cmp left right => [left, right]
  | jump .. => []

theorem asRead_eq_self_iff {i : Instr} : i.asRead = i ↔ ∀ o ∈ i.operands, o.asRead = o := by
  cases i <;> simp [asRead, operands, Operand.asRead]

end Instr

theorem Register.ofName?_name (r : Register) : ofName? r.name = some r := by
  cases r <;> decide

theorem Register.name_of_ofName? {s : String} {r : Register} (h : ofName? s = some r) :
    r.name = s := by
  simpa using List.find?_some h

/-! ## Operands of a source -/

open Lexicon (words ints)

/-- A variable is spelled as a word and an integer as one of the integers. -/
def Operand.Lexical : Operand → Prop
  | register _ => True
  | ident name => name.toList ∈ words
  | int text => text.toList ∈ ints

theorem Operand.Lexical.isWordPart_text {o : Operand} (h : o.Lexical) :
    ∀ c ∈ o.text.toList, isWordPart c = true := by
  cases o with
  | register r => exact List.all_eq_true.1 (by cases r <;> decide)
  | ident name => exact Lexicon.over_words _ h
  | int text => exact Lexicon.over_ints _ h

theorem Label.isWordPart_text (l : Label) : ∀ c ∈ l.text.toList, isWordPart c = true := by
  have hnumbered (front : String) (n : Nat) (hfront : front.toList.all isWordPart = true) :
      ∀ c ∈ (front ++ Numeral.decimal n).toList, isWordPart c = true := by
    intro c hc
    rw [String.toList_append] at hc
    rcases List.mem_append.1 hc with hc | hc
    · exact List.all_eq_true.1 hfront c hc
    · rw [Numeral.decimal, String.toList_ofList] at hc
      exact Lexicon.isWordPart_of_isDigit (Nat.isDigit_of_mem_toDigits (by decide) (by decide) hc)
  cases l with
  | begin n => exact hnumbered "begin_" n (by decide)
  | body n => exact hnumbered "true_" n (by decide)
  | exit n => exact hnumbered "false_" n (by decide)

/-! What structures a line is in none of its words. -/

theorem Operand.Lexical.not_mem_text {o : Operand} (h : o.Lexical) {c : Char}
    (hc : isWordPart c = false) : c ∉ o.text.toList := by
  intro hmem
  rw [h.isWordPart_text c hmem] at hc
  cases hc

theorem Label.not_mem_text (l : Label) {c : Char} (hc : isWordPart c = false) :
    c ∉ l.text.toList := by
  intro hmem
  rw [l.isWordPart_text c hmem] at hc
  cases hc

namespace Listing

open Split (behind? before? atFirst?)

theorem operand_text {o : Operand} (h : o.Lexical) : operand o.text.toList = o.asRead := by
  unfold operand
  rw [String.ofList_toList]
  cases o with
  | register r =>
    rw [Operand.text, Register.ofName?_name]
    rfl
  | ident name =>
    obtain ⟨c, v, hname, hc⟩ := Lexicon.exists_head_words h
    unfold Operand.asRead
    dsimp only [Operand.text]
    cases Register.ofName? name with
    | some r => rfl
    | none => simp [hname, hc]
  | int text =>
    obtain ⟨c, v, htext, hc⟩ := Lexicon.exists_head_ints h
    have hnone : Register.ofName? text = none := by
      cases hr : Register.ofName? text with
      | none => rfl
      | some r =>
        rw [← Register.name_of_ofName? hr] at htext
        cases r <;> cases htext <;> cases hc
    dsimp only [Operand.text]
    rw [hnone]
    simp [htext, hc, Operand.asRead]

theorem numbered?_decimal (front : String) (label : Nat → Label) (n : Nat) :
    numbered? front label (front ++ Numeral.decimal n).toList = some (label n) := by
  obtain ⟨hdigits, hvalue⟩ := Numeral.toDigits_spec (show 1 < 10 by decide) (by decide) n
  have hbehind : behind? front.toList (front ++ Numeral.decimal n).toList =
      some (Nat.toDigits 10 n) := by
    rw [Split.behind?_eq_some_iff, String.toList_append, Numeral.decimal, String.toList_ofList]
  unfold numbered? number?
  rw [hbehind, Option.bind_some, hvalue, if_pos ⟨Nat.toDigits_ne_nil, List.all_eq_true.2 hdigits⟩]
  rfl

/-- A label is told from the others by the beginning of its name. -/
theorem numbered?_other {front other : String} (label : Nat → Label) (n : Nat)
    (h : ∀ digits, behind? front.toList (other.toList ++ digits) = none) :
    numbered? front label (other ++ Numeral.decimal n).toList = none := by
  rw [numbered?, String.toList_append, h]
  rfl

theorem label?_text (l : Label) : label? l.text.toList = some l := by
  unfold label?
  cases l with
  | begin n =>
    rw [Label.text, numbered?_decimal]
    rfl
  | body n =>
    rw [Label.text, numbered?_decimal, numbered?_other .begin n fun _ => rfl]
    rfl
  | exit n =>
    rw [Label.text, numbered?_decimal, numbered?_other .begin n fun _ => rfl,
      numbered?_other .body n fun _ => rfl]
    rfl

theorem line?_label {name : String} :
    line? (name ++ ":").toList = (label? name.toList).map .label := by
  have hbefore : before? [':'] (name ++ ":").toList = some name.toList := by
    rw [Split.before?_eq_some_iff, String.toList_append]
    rfl
  rw [line?, hbefore]

theorem line?_unary {mnemonic text : String} (hm : mnemonic.toList.all isWordPart = true)
    (htext : ':' ∉ text.toList) :
    line? (Instr.unary mnemonic text).toList = instr? mnemonic text.toList := by
  have hcolon : ':' ∉ mnemonic.toList := fun h => absurd (List.all_eq_true.1 hm _ h) (by decide)
  have htab : '\t' ∉ mnemonic.toList := fun h => absurd (List.all_eq_true.1 hm _ h) (by decide)
  have hline : (Instr.unary mnemonic text).toList =
      ['\t'] ++ (mnemonic.toList ++ (['\t'] ++ text.toList)) := by
    simp [Instr.unary, String.toList_append]
  have hbefore : before? [':'] (Instr.unary mnemonic text).toList = none := by
    cases h : before? [':'] (Instr.unary mnemonic text).toList with
    | none => rfl
    | some name =>
      rw [Split.before?_eq_some_iff, hline] at h
      have hmem : ':' ∈ ['\t'] ++ (mnemonic.toList ++ (['\t'] ++ text.toList)) := by
        rw [h]
        simp
      simp [hcolon, htext] at hmem
  rw [line?, hbefore, hline]
  dsimp only
  rw [Split.behind?_eq_some_iff.2 rfl, Option.bind_some]
  have hfirst : atFirst? ['\t'] (mnemonic.toList ++ (['\t'] ++ text.toList)) =
      some (mnemonic.toList, text.toList) := Split.atFirst?_append [] text.toList htab
  rw [hfirst, Option.bind_some, String.ofList_toList]

theorem operands?_text {left right : Operand} (hl : left.Lexical) (hr : right.Lexical) :
    operands? (left.text ++ ", " ++ right.text).toList = some (left.asRead, right.asRead) := by
  have hcomma : ',' ∉ left.text.toList := hl.not_mem_text (by decide)
  have hfirst : atFirst? ", ".toList (left.text.toList ++ (", ".toList ++ right.text.toList)) =
      some (left.text.toList, right.text.toList) :=
    Split.atFirst?_append [' '] right.text.toList hcomma
  rw [operands?, String.toList_append, String.toList_append, List.append_assoc, hfirst,
    Option.map_some]
  dsimp only
  rw [operand_text hl, operand_text hr]

theorem line?_binary {mnemonic : String} {left right : Operand}
    (hm : mnemonic.toList.all isWordPart = true) (hl : left.Lexical) (hr : right.Lexical) :
    line? (Instr.binary mnemonic left.text right.text).toList =
      instr? mnemonic (left.text ++ ", " ++ right.text).toList := by
  have hleft : ':' ∉ left.text.toList := hl.not_mem_text (by decide)
  have hright : ':' ∉ right.text.toList := hr.not_mem_text (by decide)
  exact line?_unary hm (by simp [String.toList_append, hleft, hright])

theorem instr?_jump (condition : Condition) (text : List Char) :
    instr? condition.mnemonic text = (label? text).map (.jump condition) := by
  cases condition <;> rfl

/-- A line is read as its instruction, with the operands taken by their spelling. -/
theorem line?_text {i : Instr} (h : ∀ o ∈ i.operands, o.Lexical) :
    line? i.text.toList = some i.asRead := by
  cases i with
  | label l => rw [Instr.text, line?_label, label?_text]; rfl
  | mov dst src =>
    obtain ⟨hdst, hsrc⟩ : dst.Lexical ∧ src.Lexical := by simpa [Instr.operands] using h
    rw [Instr.text, line?_binary (by decide) hdst hsrc]
    show (operands? _).map _ = _
    rw [operands?_text hdst hsrc]
    rfl
  | cmp left right =>
    obtain ⟨hleft, hright⟩ : left.Lexical ∧ right.Lexical := by simpa [Instr.operands] using h
    rw [Instr.text, line?_binary (by decide) hleft hright]
    show (operands? _).map _ = _
    rw [operands?_text hleft hright]
    rfl
  | add dst src =>
    obtain ⟨hdst, hsrc⟩ : (Operand.register dst).Lexical ∧ src.Lexical := by
      simpa [Instr.operands] using h
    show line? (Instr.binary "add" (Operand.register dst).text src.text).toList = _
    rw [line?_binary (by decide) hdst hsrc]
    show (operands? _).bind (inRegister? .add) = _
    rw [operands?_text hdst hsrc]
    rfl
  | sub dst src =>
    obtain ⟨hdst, hsrc⟩ : (Operand.register dst).Lexical ∧ src.Lexical := by
      simpa [Instr.operands] using h
    show line? (Instr.binary "sub" (Operand.register dst).text src.text).toList = _
    rw [line?_binary (by decide) hdst hsrc]
    show (operands? _).bind (inRegister? .sub) = _
    rw [operands?_text hdst hsrc]
    rfl
  | mul src =>
    have hsrc : src.Lexical := by simpa [Instr.operands] using h
    rw [Instr.text, line?_unary (by decide) (hsrc.not_mem_text (by decide))]
    exact congrArg (some ∘ Instr.mul) (operand_text hsrc)
  | div src =>
    have hsrc : src.Lexical := by simpa [Instr.operands] using h
    rw [Instr.text, line?_unary (by decide) (hsrc.not_mem_text (by decide))]
    exact congrArg (some ∘ Instr.div) (operand_text hsrc)
  | jump condition target =>
    have hm : condition.mnemonic.toList.all isWordPart = true := by
      cases condition <;> decide
    rw [Instr.text, line?_unary hm (target.not_mem_text (by decide)), instr?_jump, label?_text]
    rfl

theorem newline_not_mem_text {i : Instr} (h : ∀ o ∈ i.operands, o.Lexical) :
    '\n' ∉ i.text.toList := by
  have hlabel (l : Label) : '\n' ∉ l.text.toList := l.not_mem_text (by decide)
  have hoperand (o : Operand) (ho : o ∈ i.operands) : '\n' ∉ o.text.toList :=
    (h o ho).not_mem_text (by decide)
  have hname (r : Register) : '\n' ∉ r.name.toList := by cases r <;> decide
  have hmnemonic (c : Condition) : '\n' ∉ c.mnemonic.toList := by cases c <;> decide
  cases i <;>
    simp_all [Instr.text, Instr.binary, Instr.unary, Instr.operands, String.toList_append]

theorem text_ne_nil (i : Instr) : i.text.toList ≠ [] := by
  cases i <;> simp [Instr.text, Instr.binary, Instr.unary, String.toList_append]

theorem lines_listing {code : List Instr} (h : ∀ i ∈ code, ∀ o ∈ i.operands, o.Lexical) :
    lines (listing code).toList = code.map fun i => i.text.toList := by
  cases code with
  | nil => rfl
  | cons i code =>
    have htexts : (listing (i :: code)).toList =
        ['\n'].intercalate ((i :: code).map fun i => i.text.toList) := by
      rw [listing, String.toList_intercalate, List.map_map]
      rfl
    have hsplit : (listing (i :: code)).toList.splitOn '\n' =
        (i :: code).map fun i => i.text.toList := by
      rw [htexts]
      refine List.splitOn_intercalate '\n' (fun line hline => ?_) (List.cons_ne_nil _ _)
      obtain ⟨j, hj, rfl⟩ := List.mem_map.1 hline
      exact newline_not_mem_text (h j hj)
    have hne : (listing (i :: code)).toList ≠ [] := by
      intro hempty
      rw [hempty, List.splitOn_nil] at hsplit
      exact text_ne_nil i (List.cons.inj hsplit).1.symm
    rw [lines, if_neg (by simpa using hne), hsplit]

/-- A listing is read back line by line. -/
theorem read?_listing {code : List Instr} (h : ∀ i ∈ code, ∀ o ∈ i.operands, o.Lexical) :
    read? (listing code) = some (code.map Instr.asRead) := by
  rw [read?, lines_listing h]
  induction code with
  | nil => rfl
  | cons i code ih =>
    obtain ⟨hi, hcode⟩ := List.forall_mem_cons.1 h
    simp [line?_text hi, ih hcode]

end Listing

/-! ## The values of a tree -/

/-- The values of a product. -/
def Term.values (t : Term) : List Value :=
  t.first :: t.rest.map Prod.snd

/-- The values of a sum. -/
def Expr.values (e : Expr) : List Value :=
  e.first.values ++ e.rest.flatMap fun (_, t) => t.values

/-- The values of an assignment, with the variable that it assigns to. -/
def Assignment.values (a : Assignment) : List Value :=
  .var a.target :: a.value.values

/-- The values of a statement. -/
def Statement.values : Statement → List Value
  | assignment a => a.values
  | loop left _ right body => left :: right :: body.values

/-- The word of a value. -/
def Value.word : Value → Kind × String
  | var name => (.identifier, name)
  | int text => (.intLiteral, text)

namespace Value

variable {v : Value}

theorem mem_spelling (v v' : Value) : v.word ∈ v'.spelling ↔ v = v' := by
  cases v <;> cases v' <;> simp [word, spelling]

theorem operand_inj (v v' : Value) : v.operand = v'.operand ↔ v = v' := by
  cases v <;> cases v' <;> simp [operand]

/-- A word of any other sort is no value. -/
theorem word_ne (v : Value) {word : Kind × String} (h : word.1 ∉ [.identifier, .intLiteral]) :
    v.word ≠ word := by
  rintro rfl
  cases v <;> simp [Value.word] at h

/-- The values of a tree are the variables and integers among its words. -/
theorem mem_term_spelling {t : Term} : v.word ∈ t.spelling ↔ v ∈ t.values := by
  have hop (op : MulOp) : v.word ∉ op.spelling := by
    cases op <;> simpa [MulOp.spelling] using v.word_ne (by decide)
  simp [Term.spelling, Term.values, mem_spelling, hop]

theorem mem_assignment_spelling {a : Assignment} : v.word ∈ a.spelling ↔ v ∈ a.values := by
  have hop (op : AddOp) : v.word ∉ op.spelling := by
    cases op <;> simpa [AddOp.spelling] using v.word_ne (by decide)
  have htarget : v.word = (.identifier, a.target) ↔ v = .var a.target := by
    simpa [spelling] using mem_spelling v (.var a.target)
  have hassign : v.word ≠ (.assign, "=") := v.word_ne (by decide)
  simp [Assignment.spelling, Assignment.values, Expr.spelling, Expr.values, mem_term_spelling, hop,
    htarget, hassign]

theorem mem_statement_spelling {st : Statement} : v.word ∈ st.spelling ↔ v ∈ st.values := by
  have hsemicolon : v.word ≠ (.semicolon, ";") := v.word_ne (by decide)
  cases st with
  | assignment a =>
    simp [Statement.spelling, Statement.values, mem_assignment_spelling, hsemicolon]
  | loop left op right body =>
    have hop : v.word ∉ op.spelling := by
      cases op <;> simpa [Comparison.spelling] using v.word_ne (by decide)
    have hwhile : v.word ≠ (.keyword, "while") := v.word_ne (by decide)
    have hopen : v.word ≠ (.bracketOrDot, "(") := v.word_ne (by decide)
    have hclose : v.word ≠ (.bracketOrDot, ")") := v.word_ne (by decide)
    simp [Statement.spelling, Statement.values, mem_assignment_spelling, mem_spelling, hsemicolon,
      hop, hwhile, hopen, hclose]

end Value

/-! ## The operands of code -/

/-- Some instruction has the operand. -/
def Mentions (code : List Instr) (o : Operand) : Prop :=
  ∃ i ∈ code, o ∈ i.operands

@[simp] theorem mentions_nil {o : Operand} : ¬ Mentions [] o := by
  simp [Mentions]

@[simp] theorem mentions_cons {i : Instr} {code : List Instr} {o : Operand} :
    Mentions (i :: code) o ↔ o ∈ i.operands ∨ Mentions code o := by
  simp [Mentions]

@[simp] theorem mentions_append {front back : List Instr} {o : Operand} :
    Mentions (front ++ back) o ↔ Mentions front o ∨ Mentions back o := by
  simp [Mentions, or_and_right, exists_or]

namespace Value

variable {v : Value} {r : Register} {left right : Operand}

theorem operand_eq_ident {name : String} : v.operand = .ident name ↔ v = .var name :=
  operand_inj v (.var name)

theorem operand_eq_int {text : String} : v.operand = .int text ↔ v = .int text :=
  operand_inj v (.int text)

theorem mem_operands_mov : v.operand ∈ (Instr.mov left right).operands ↔
    v.operand = left ∨ v.operand = right := by
  simp [Instr.operands]

theorem mem_operands_mul {op : MulOp} :
    v.operand ∈ (op.instr right).operands ↔ v.operand = right := by
  cases op <;> simp [MulOp.instr, Instr.operands]

theorem mem_operands_add {op : AddOp} :
    v.operand ∈ (op.instr r right).operands ↔ v.operand = right := by
  cases op <;> simp [AddOp.instr, Instr.operands, v.operand_ne_register]

theorem mentions_productCode {op : MulOp} {v' : Value} :
    Mentions (productCode r left op v') v.operand ↔ v.operand = left ∨ v = v' := by
  cases v' with
  | var name =>
    simp [productCode, mem_operands_mov, mem_operands_mul, v.operand_ne_register, operand_eq_ident]
  | int text =>
    simp [productCode, mem_operands_mov, mem_operands_mul, v.operand_ne_register, operand_eq_int]

/-- A product that is computed has its first value in the code; one that is not is that value. -/
theorem mentions_productLinks (links : List (MulOp × Value)) :
    Mentions (productLinksCode r left links) v.operand ↔
      links ≠ [] ∧ v.operand = left ∨ v ∈ links.map Prod.snd := by
  induction links generalizing left with
  | nil => simp [productLinksCode]
  | cons link links ih =>
    obtain ⟨op, v'⟩ := link
    simp [productLinksCode, mentions_productCode, ih, v.operand_ne_register, or_assoc]

theorem mentions_term (v : Value) (r : Register) (t : Term) :
    Mentions (t.code r) v.operand ∨ v.operand = t.operand r ↔ v ∈ t.values := by
  obtain ⟨first, rest⟩ := t
  cases rest with
  | nil => simp [Term.code, Term.operand, Term.values, mentions_productLinks, operand_inj]
  | cons link links =>
    simp [Term.code, Term.operand, Term.values, mentions_productLinks, operand_inj,
      v.operand_ne_register]

theorem mentions_sumCode {op : AddOp} :
    Mentions (sumCode left right op) v.operand ↔ v.operand = left ∨ v.operand = right := by
  unfold sumCode
  cases left with
  | register q => simp [Operand.register?, mem_operands_add, v.operand_ne_register]
  | ident name =>
    simp [Operand.register?, mem_operands_mov, mem_operands_add, v.operand_ne_register]
  | int text => simp [Operand.register?, mem_operands_mov, mem_operands_add, v.operand_ne_register]

theorem mentions_sumLinks (v : Value) (left : Operand) (links : List (AddOp × Term)) :
    Mentions (sumLinksCode left links) v.operand ∨ v.operand = sumOperand left links ↔
      v.operand = left ∨ v ∈ links.flatMap fun (_, t) => t.values := by
  induction links generalizing left with
  | nil => simp [sumLinksCode, sumOperand]
  | cons link links ih =>
    obtain ⟨op, t⟩ := link
    have hterm := mentions_term v (spare left.register?) t
    have hrest := ih (.register (sumRegister left (t.operand (spare left.register?))))
    simp only [v.operand_ne_register, false_or] at hrest
    rw [List.flatMap_cons, List.mem_append, ← hterm, ← hrest, sumLinksCode, sumOperand,
      mentions_append, mentions_append, mentions_sumCode]
    grind

theorem mentions_assignment {a : Assignment} : Mentions a.code v.operand ↔ v ∈ a.values := by
  have hfirst := mentions_term v .ebx a.value.first
  have hrest := mentions_sumLinks v (a.value.first.operand .ebx) a.value.rest
  rw [Assignment.code, Expr.code, Assignment.values, Expr.values, List.mem_cons, List.mem_append,
    ← hfirst, mentions_append, mentions_append, mentions_cons, mem_operands_mov, operand_eq_ident]
  simp only [mentions_nil, or_false]
  show _ ∨ _ ∨ v.operand = sumOperand _ _ ↔ _
  grind

theorem mentions_statement {st : Statement} {n : Nat} :
    Mentions (st.code n) v.operand ↔ v ∈ st.values := by
  cases st with
  | assignment a => exact mentions_assignment
  | loop left op right body =>
    simp [Statement.code, Statement.values, conditionCode, Instr.operands, mentions_assignment,
      operand_inj, or_assoc]

theorem mentions_programCode {program : List Statement} {n : Nat} :
    Mentions (programCode n program) v.operand ↔ v.word ∈ program.flatMap Statement.spelling := by
  induction program generalizing n with
  | nil => simp [programCode]
  | cons st program ih =>
    rw [programCode, mentions_append, mentions_statement, ih, List.flatMap_cons, List.mem_append,
      mem_statement_spelling]

end Value

/-! ## Listings of a source -/

theorem Operand.asRead_eq_self_iff {o : Operand} :
    o.asRead = o ↔ ∀ name, o = .ident name → Register.ofName? name = none := by
  cases o with
  | register r => simp [asRead]
  | int text => simp [asRead]
  | ident name =>
    unfold asRead
    cases h : Register.ofName? name <;> simp [h]

/-- The values in the code of a source are the variables and integers of the source. -/
theorem mentions_of_compileText {text : String} {code : Array Instr}
    (h : compileText text = .ok code) (v : Value) :
    Mentions code.toList v.operand ↔ ∃ t ∈ significant (scan text), t.spelling = v.word := by
  rw [compileText, compile_eq] at h
  split at h
  · cases h
  · rename_i n hvalid
    obtain ⟨program, -, hspell⟩ := validate_eq_ok_iff.1 hvalid
    have hroom (st : Statement) : st.depth ≤ defaultCapacity :=
      Nat.le_trans st.depth_le (by decide)
    rw [translate_eq_programCode hspell fun st _ => hroom st] at h
    cases h
    rw [← List.mem_map, ← hspell]
    exact Value.mentions_programCode

theorem lexical_of_compileText {text : String} {code : Array Instr}
    (h : compileText text = .ok code) : ∀ i ∈ code.toList, ∀ o ∈ i.operands, o.Lexical := by
  intro i hi o ho
  cases o with
  | register r => trivial
  | ident name =>
    obtain ⟨t, ht, hspell⟩ := (mentions_of_compileText h (.var name)).1 ⟨i, hi, ho⟩
    obtain ⟨hkind, rfl⟩ := Prod.mk.inj hspell
    exact (lexical_of_scan ht).word hkind
  | int text =>
    obtain ⟨t, ht, hspell⟩ := (mentions_of_compileText h (.int text)).1 ⟨i, hi, ho⟩
    obtain ⟨hkind, rfl⟩ := Prod.mk.inj hspell
    exact (lexical_of_scan ht).int hkind

/-- The operands of the code are what they look like exactly if no identifier looks like a
register. -/
theorem map_asRead_eq_self_iff {text : String} {code : Array Instr}
    (h : compileText text = .ok code) : code.toList.map Instr.asRead = code.toList ↔
      ∀ t ∈ significant (scan text), t.kind = .identifier → Register.ofName? t.lexeme = none := by
  have hmap : code.toList.map Instr.asRead = code.toList ↔ ∀ i ∈ code.toList, i.asRead = i := by
    simpa using List.map_inj_left (f := Instr.asRead) (g := id) (l := code.toList)
  rw [hmap]
  constructor
  · intro hself t ht hkind
    have hspell : t.spelling = (Value.var t.lexeme).word := congrArg (·, t.lexeme) hkind
    obtain ⟨i, hi, ho⟩ := (mentions_of_compileText h _).2 ⟨t, ht, hspell⟩
    exact Operand.asRead_eq_self_iff.1 (Instr.asRead_eq_self_iff.1 (hself i hi) _ ho) _ rfl
  · intro hnone i hi
    refine Instr.asRead_eq_self_iff.2 fun o ho => Operand.asRead_eq_self_iff.2 ?_
    rintro name rfl
    obtain ⟨t, ht, hspell⟩ := (mentions_of_compileText h (.var name)).1 ⟨i, hi, ho⟩
    obtain ⟨hkind, rfl⟩ := Prod.mk.inj hspell
    exact hnone t ht hkind

/-- The listing of a source is read back as its code, up to variables that are called like a
register: they are read as that register. So it is read back as it is exactly if no identifier of
the source is called so. -/
theorem read_listing_of_compileText (text : String) {code : Array Instr}
    (h : compileText text = .ok code) :
    Listing.read? (listing code.toList) = some (code.toList.map Instr.asRead) ∧
    (Listing.read? (listing code.toList) = some code.toList ↔
      ∀ t ∈ significant (scan text), t.kind = .identifier → Register.ofName? t.lexeme = none) := by
  have hread := Listing.read?_listing (lexical_of_compileText h)
  refine ⟨hread, ?_⟩
  rw [hread, Option.some_inj]
  exact map_asRead_eq_self_iff h

/-- One variable begins like a register, and one is called like a label of its own loop. -/
theorem read_listing_of_loop :
    ∃ code, compileText "while (eaxx < 0x1F) begin_1 = 7 - eaxx;" = .ok code ∧ code.size = 10 ∧
      Listing.read? (listing code.toList) = some code.toList := by
  obtain ⟨code, hcode, hsize⟩ : ∃ code,
      compileText "while (eaxx < 0x1F) begin_1 = 7 - eaxx;" = .ok code ∧ code.size = 10 :=
    ⟨#[.label (.begin 1), .cmp (.ident "eaxx") (.int "0x1F"), .jump .less (.body 1),
      .jump .greaterOrEqual (.exit 1), .label (.body 1), .mov (.register .ebx) (.int "7"),
      .sub .ebx (.ident "eaxx"), .mov (.ident "begin_1") (.register .ebx),
      .jump .always (.begin 1), .label (.exit 1)], by decide +kernel, rfl⟩
  exact ⟨code, hcode, hsize, (read_listing_of_compileText _ hcode).2.2 (by decide +kernel)⟩

/-- A variable that is called like the accumulator is printed like it, and is read as it. -/
theorem read_listing_of_register_name :
    compileText "x = eax;" = .ok #[.mov (.ident "x") (.ident "eax")] ∧
    Listing.read? (listing [.mov (.ident "x") (.ident "eax")]) =
      some [.mov (.ident "x") (.register .eax)] ∧
    Listing.read? (listing [.mov (.ident "x") (.ident "eax")]) ≠
      some [.mov (.ident "x") (.ident "eax")] := by
  decide +kernel

end LoopAsm
