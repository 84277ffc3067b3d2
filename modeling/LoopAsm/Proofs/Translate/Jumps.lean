/-
Where the labels of compiled code are, and where its jumps go. Every loop is laid out the same way:
its first label, the comparison of its condition, a jump for either answer, the label and the code
of its body, the jump back and its last label. Between the loops, and in their bodies, stands code
without labels. So the loops are found in the code one after the other, with the labels numbered
from one on, and a jump never leaves the loop that it is in.
-/
import LoopAsm.Proofs.Translate.Concatenation
import LoopAsm.Proofs.Translate.Room

namespace LoopAsm

/-! ## The code of a loop -/

/-- The condition of a loop. -/
structure Guard where
  left : Value
  op : Comparison
  right : Value
  deriving DecidableEq, Repr, Inhabited

/-- The condition of a statement that is a loop. -/
def Statement.guard? : Statement → Option Guard
  | assignment _ => none
  | loop left op right _ => some ⟨left, op, right⟩

/-- The conditions of the loops among statements, in order. -/
def guards (program : List Statement) : List Guard :=
  program.filterMap Statement.guard?

/-- The labels of the loop with the number `k`. -/
def loopLabels (k : Nat) : List Label :=
  [.begin k, .body k, .exit k]

namespace Guard

/-- The jump into the body of loop `k` and the jump past it. -/
def jumps (k : Nat) (g : Guard) : List Instr :=
  match g.op with
  | .less => [.jump .less (.body k), .jump .greaterOrEqual (.exit k)]
  | .greater => [.jump .greater (.body k), .jump .lessOrEqual (.exit k)]

/-- The code of loop `k`, around the code of its body. -/
def loopCode (k : Nat) (g : Guard) (body : List Instr) : List Instr :=
  [.label (.begin k), .cmp g.left.operand g.right.operand] ++ g.jumps k
    ++ [.label (.body k)] ++ body ++ [.jump .always (.begin k), .label (.exit k)]

/-- The labels and the jumps of loop `k`, in order. -/
def control (k : Nat) (g : Guard) : List Instr :=
  [.label (.begin k)] ++ g.jumps k
    ++ [.label (.body k), .jump .always (.begin k), .label (.exit k)]

end Guard

/-- The code of loop `k` stands between two places, and that of its body is without labels. -/
def LoopAt (code : List Instr) (k : Nat) (g : Guard) (start stop : Nat) : Prop :=
  ∃ before body behind, code = before ++ (g.loopCode k body ++ behind) ∧ LabelFree body ∧
    start = before.length ∧ stop = before.length + (g.loopCode k body).length

/-! ## Labels and jumps among instructions -/

/-- Whether an instruction stands for a label or jumps to one. -/
def Instr.isControl (i : Instr) : Bool :=
  i.label?.isSome

theorem LabelFree.filter_isControl {code : List Instr} (h : LabelFree code) :
    code.filter Instr.isControl = [] := by
  refine List.filter_eq_nil_iff.2 fun i hi => ?_
  simp [Instr.isControl, h i hi]

theorem LabelFree.filterMap_defines? {code : List Instr} (h : LabelFree code) :
    code.filterMap Instr.defines? = [] :=
  List.filterMap_eq_nil_iff.2 fun i hi => Instr.defines?_of_label? (h i hi)

namespace Guard

variable {k : Nat} {g : Guard} {body : List Instr}

theorem filter_loopCode (h : LabelFree body) :
    (g.loopCode k body).filter Instr.isControl = g.control k := by
  obtain ⟨left, op, right⟩ := g
  rw [loopCode, List.filter_append, List.filter_append, h.filter_isControl]
  cases op <;> rfl

theorem filterMap_loopCode (h : LabelFree body) :
    (g.loopCode k body).filterMap Instr.defines? = loopLabels k := by
  obtain ⟨left, op, right⟩ := g
  rw [loopCode, List.filterMap_append, List.filterMap_append, h.filterMap_defines?]
  cases op <;> rfl

/-- A jump in the code of a loop goes to one of its labels. -/
theorem mem_loopLabels_of_jump (h : LabelFree body) {c : Condition} {target : Label}
    (hjump : .jump c target ∈ g.loopCode k body) : target ∈ loopLabels k := by
  have hcontrol : .jump c target ∈ g.control k := by
    rw [← filter_loopCode h]
    exact List.mem_filter.2 ⟨hjump, rfl⟩
  have hlabel : ∀ i ∈ g.control k, ∀ l, i.label? = some l → l ∈ loopLabels k := by
    obtain ⟨left, op, right⟩ := g
    cases op <;> simp [control, jumps, loopLabels, Instr.label?]
  exact hlabel _ hcontrol target rfl

theorem label_mem_loopCode {l : Label} (hl : l ∈ loopLabels k) :
    .label l ∈ g.loopCode k body := by
  simp only [loopLabels, List.mem_cons, List.not_mem_nil, or_false] at hl
  rcases hl with rfl | rfl | rfl <;> simp [loopCode]

end Guard

/-- A loop is found behind other code, where its number is counted from one earlier. -/
theorem LoopAt.next {code : List Instr} {n i start stop : Nat} {g : Guard}
    (h : LoopAt code (n + 1 + i) g start stop) (front piece : List Instr) :
    LoopAt (front ++ (piece ++ code)) (n + (i + 1)) g (front.length + piece.length + start)
      (front.length + piece.length + stop) := by
  obtain ⟨before, body, behind, rfl, hbody, rfl, rfl⟩ := h
  rw [Nat.add_right_comm, Nat.add_assoc]
  refine ⟨front ++ piece ++ before, body, behind, ?_, hbody, ?_, ?_⟩
  · simp only [List.append_assoc]
  · simp only [List.length_append]
  · simp only [List.length_append, Nat.add_assoc]

/-- The labels of a loop are defined in its code. -/
theorem LoopAt.exists_label {code : List Instr} {k start stop : Nat} {g : Guard} {l : Label}
    (h : LoopAt code k g start stop) (hl : l ∈ loopLabels k) :
    ∃ place, code[place]? = some (.label l) ∧ start ≤ place ∧ place < stop := by
  obtain ⟨before, body, behind, rfl, -, rfl, rfl⟩ := h
  have hmem : .label l ∈ g.loopCode k body := Guard.label_mem_loopCode hl
  obtain ⟨i, hi⟩ := List.mem_iff_getElem?.1 hmem
  obtain ⟨hlength, -⟩ := List.getElem?_eq_some_iff.1 hi
  refine ⟨before.length + i, ?_, Nat.le_add_right _ _, Nat.add_lt_add_left hlength _⟩
  rw [List.getElem?_append_right (Nat.le_add_right _ _), Nat.add_sub_cancel_left,
    List.getElem?_append_left hlength, hi]

/-! ## Loops one after the other -/

/-- Loops with the numbers from `n + 1` on, and code without labels between them. -/
inductive Arranged : Nat → List Guard → List Instr → Prop
  | straight {n : Nat} {code : List Instr} (h : LabelFree code) : Arranged n [] code
  | loop {n : Nat} {g : Guard} {gs : List Guard} {front body rest : List Instr}
      (hfront : LabelFree front) (hbody : LabelFree body) (hrest : Arranged (n + 1) gs rest) :
    Arranged n (g :: gs) (front ++ (g.loopCode (n + 1) body ++ rest))

/-- More code without labels may stand in front. -/
theorem Arranged.behind {n : Nat} {gs : List Guard} {front code : List Instr}
    (hfront : LabelFree front) (h : Arranged n gs code) : Arranged n gs (front ++ code) := by
  cases h with
  | straight h => exact .straight (labelFree_append.2 ⟨hfront, h⟩)
  | loop hfront' hbody hrest =>
    rw [← List.append_assoc]
    exact .loop (labelFree_append.2 ⟨hfront, hfront'⟩) hbody hrest

theorem Statement.code_loop (n : Nat) (left : Value) (op : Comparison) (right : Value)
    (body : Assignment) :
    (Statement.loop left op right body).code n = Guard.loopCode n ⟨left, op, right⟩ body.code := by
  cases op <;> simp [code, conditionCode, Guard.loopCode, Guard.jumps, Generate.inside, Generate.past]

theorem arranged_programCode (program : List Statement) (n : Nat) :
    Arranged n (guards program) (programCode n program) := by
  induction program generalizing n with
  | nil => exact .straight fun i hi => absurd hi List.not_mem_nil
  | cons st program ih =>
    cases st with
    | assignment a => exact (ih n).behind (labelFree_assignment a)
    | loop left op right body =>
      have hnil : LabelFree [] := fun i hi => absurd hi List.not_mem_nil
      rw [programCode, Statement.code_loop]
      exact .loop hnil (labelFree_assignment body) (ih (n + 1))

namespace Arranged

variable {n : Nat} {gs : List Guard} {code : List Instr}

/-- There are no labels and no jumps but those of the loops. -/
theorem filter_isControl (h : Arranged n gs code) :
    code.filter Instr.isControl = (gs.zipIdx (n + 1)).flatMap fun (g, k) => g.control k := by
  induction h with
  | straight h => exact h.filter_isControl
  | loop hfront hbody _ ih =>
    rw [List.filter_append, List.filter_append, hfront.filter_isControl,
      Guard.filter_loopCode hbody, ih, List.zipIdx_cons, List.flatMap_cons, List.nil_append]

/-- The labels are those of the loops, in order. -/
theorem filterMap_defines? (h : Arranged n gs code) :
    code.filterMap Instr.defines? = (List.range' (n + 1) gs.length).flatMap loopLabels := by
  induction h with
  | straight h => exact h.filterMap_defines?
  | loop hfront hbody _ ih =>
    rw [List.filterMap_append, List.filterMap_append, hfront.filterMap_defines?,
      Guard.filterMap_loopCode hbody, ih, List.length_cons, List.range'_succ, List.flatMap_cons,
      List.nil_append]

/-- Every loop is found in the code. -/
theorem exists_loopAt (h : Arranged n gs code) {i : Nat} {g : Guard} (hg : gs[i]? = some g) :
    ∃ start stop, LoopAt code (n + 1 + i) g start stop := by
  induction h generalizing i with
  | straight => cases hg
  | @loop n g' gs front body rest hfront hbody _ ih =>
    cases i with
    | zero =>
      cases hg
      exact ⟨_, _, front, body, rest, rfl, hbody, rfl, rfl⟩
    | succ i =>
      obtain ⟨start, stop, hloop⟩ := ih hg
      exact ⟨_, _, hloop.next front _⟩

/-- Every jump is in one of the loops and goes to one of its labels. -/
theorem loopAt_of_jump (h : Arranged n gs code) {place : Nat} {c : Condition} {target : Label}
    (hjump : code[place]? = some (.jump c target)) :
    ∃ i g start stop, gs[i]? = some g ∧ LoopAt code (n + 1 + i) g start stop ∧ start ≤ place ∧
      place < stop ∧ target ∈ loopLabels (n + 1 + i) := by
  induction h generalizing place with
  | straight h => cases h _ (List.mem_of_getElem? hjump)
  | @loop n g gs front body rest hfront hbody _ ih =>
    by_cases hbefore : place < front.length
    · rw [List.getElem?_append_left hbefore] at hjump
      cases hfront _ (List.mem_of_getElem? hjump)
    rw [List.getElem?_append_right (Nat.not_lt.1 hbefore)] at hjump
    by_cases hinside : place - front.length < (g.loopCode (n + 1) body).length
    · rw [List.getElem?_append_left hinside] at hjump
      have hloop : LoopAt (front ++ (g.loopCode (n + 1) body ++ rest)) (n + 1) g front.length
          (front.length + (g.loopCode (n + 1) body).length) :=
        ⟨front, body, rest, rfl, hbody, rfl, rfl⟩
      refine ⟨0, g, _, _, rfl, hloop, Nat.not_lt.1 hbefore, by omega, ?_⟩
      exact Guard.mem_loopLabels_of_jump hbody (List.mem_of_getElem? hjump)
    · rw [List.getElem?_append_right (Nat.not_lt.1 hinside)] at hjump
      obtain ⟨i, g', start, stop, hg', hloop, hstart, hstop, htarget⟩ := ih hjump
      refine ⟨i + 1, g', _, _, hg', hloop.next front _, by omega, by omega, ?_⟩
      rwa [← Nat.add_right_comm (n + 1) i 1] at htarget

end Arranged

/-! ## Programs -/

theorem nodup_flatMap_loopLabels (start count : Nat) :
    ((List.range' start count).flatMap loopLabels).Nodup := by
  refine List.nodup_flatMap.2 ⟨fun k _ => by simp [loopLabels], ?_⟩
  refine (List.pairwise_lt_range' 1).imp fun {j k} hlt => ?_
  intro l hj hk
  simp only [loopLabels, List.mem_cons, List.not_mem_nil, or_false] at hj hk
  rcases hj with rfl | rfl | rfl <;> simp at hk <;> omega

theorem length_guards (program : List Statement) :
    (guards program).length = (program.map Statement.loops).sum := by
  induction program with
  | nil => rfl
  | cons st program ih =>
    rw [List.map_cons, List.sum_cons, ← ih]
    cases st with
    | assignment a => exact (Nat.zero_add _).symm
    | loop left op right body => exact Nat.add_comm _ 1

/-- Code that was compiled is the code of the statements that the records spell. -/
theorem eq_programCode_of_compile {records : List Record} {program : List Statement}
    {capacity : Nat} {code : Array Instr} (h : compile records capacity = .ok code)
    (hspell : program.flatMap Statement.spelling = (significant records).map Token.spelling) :
    code.toList = programCode 0 program := by
  rw [compile_eq, translate_of_room hspell] at h
  split at h
  · cases h
  · split at h <;> cases h
    rfl

theorem exists_program_of_compile {records : List Record} {capacity : Nat} {code : Array Instr}
    (h : compile records capacity = .ok code) : ∃ program : List Statement,
      program.flatMap Statement.spelling = (significant records).map Token.spelling := by
  rw [compile_eq] at h
  split at h
  · cases h
  · rename_i n hvalid
    obtain ⟨program, -, hspell⟩ := validate_eq_ok_iff.1 hvalid
    exact ⟨program, hspell⟩

/-- In compiled code every label is defined once, and every jump stays in its loop. The labels
are those of as many loops as there are words `while`, in order; the loops of the statements that
the records spell stand in the code one after the other, and there is no label and no jump beside
theirs. -/
theorem compile_resolves_jumps (records : List Record) (capacity : Nat) {code : Array Instr}
    (h : compile records capacity = .ok code) :
    definedLabels code = (List.range' 1 (whileWords records)).flatMap loopLabels ∧
    (definedLabels code).Nodup ∧
    (∃ program : List Statement,
      program.flatMap Statement.spelling = (significant records).map Token.spelling) ∧
    ∀ program : List Statement,
      program.flatMap Statement.spelling = (significant records).map Token.spelling →
      (guards program).length = whileWords records ∧
      (∀ i g, (guards program)[i]? = some g →
        ∃ start stop, LoopAt code.toList (i + 1) g start stop) ∧
      code.toList.filter Instr.isControl =
        ((guards program).zipIdx 1).flatMap (fun (g, k) => g.control k) ∧
      ∀ place c target, code[place]? = some (.jump c target) →
        (definedLabels code).count target = 1 ∧
        ∃ i g start stop definition, (guards program)[i]? = some g ∧
          LoopAt code.toList (i + 1) g start stop ∧ start ≤ place ∧ place < stop ∧
          code[definition]? = some (.label target) ∧ start ≤ definition ∧ definition < stop := by
  obtain ⟨program, hspell⟩ := exists_program_of_compile h
  have hlabels : definedLabels code = (List.range' 1 (whileWords records)).flatMap loopLabels := by
    rw [whileWords_eq hspell, ← length_guards, definedLabels, eq_programCode_of_compile h hspell]
    exact (arranged_programCode program 0).filterMap_defines?
  have hnodup : (definedLabels code).Nodup := hlabels ▸ nodup_flatMap_loopLabels 1 _
  refine ⟨hlabels, hnodup, ⟨program, hspell⟩, fun program hspell => ?_⟩
  have harranged := arranged_programCode program 0
  rw [← eq_programCode_of_compile h hspell] at harranged
  refine ⟨?_, ?_, harranged.filter_isControl, ?_⟩
  · rw [whileWords_eq hspell, length_guards]
  · intro i g hg
    rw [Nat.add_comm i 1]
    exact harranged.exists_loopAt hg
  · intro place c target hjump
    rw [← Array.getElem?_toList] at hjump
    obtain ⟨i, g, start, stop, hg, hloop, hstart, hstop, htarget⟩ :=
      harranged.loopAt_of_jump hjump
    rw [Nat.add_right_comm, Nat.zero_add] at hloop htarget
    obtain ⟨definition, hdefinition, hfirst, hlast⟩ := hloop.exists_label htarget
    refine ⟨List.count_eq_one_of_mem hnodup ?_, i, g, start, stop, definition, hg, hloop, hstart,
      hstop, ?_, hfirst, hlast⟩
    · exact List.mem_filterMap.2 ⟨_, List.mem_of_getElem? hdefinition, rfl⟩
    · rwa [← Array.getElem?_toList]

/-- Two loops with an assignment between them. The second one compares an integer with a variable,
and jumps back to its own first label. -/
theorem compile_resolves_two_loops :
    ∃ code, compile (scan "while (i < n) i = i + 1; x = i; while (1 > x) x = n;") 2 = .ok code ∧
      definedLabels code = [.begin 1, .body 1, .exit 1, .begin 2, .body 2, .exit 2] ∧
      (∃ start stop, LoopAt code.toList 2 ⟨.int "1", .greater, .var "x"⟩ start stop) ∧
      code[17]? = some (.jump .always (.begin 2)) ∧ (definedLabels code).count (.begin 2) = 1 := by
  obtain ⟨code, hcode, hjump⟩ : ∃ code,
      compile (scan "while (i < n) i = i + 1; x = i; while (1 > x) x = n;") 2 = .ok code ∧
      code[17]? = some (.jump .always (.begin 2)) :=
    ⟨#[.label (.begin 1), .cmp (.ident "i") (.ident "n"), .jump .less (.body 1),
      .jump .greaterOrEqual (.exit 1), .label (.body 1), .mov (.register .ebx) (.ident "i"),
      .add .ebx (.int "1"), .mov (.ident "i") (.register .ebx), .jump .always (.begin 1),
      .label (.exit 1), .mov (.ident "x") (.ident "i"), .label (.begin 2),
      .cmp (.int "1") (.ident "x"), .jump .greater (.body 2), .jump .lessOrEqual (.exit 2),
      .label (.body 2), .mov (.ident "x") (.ident "n"), .jump .always (.begin 2),
      .label (.exit 2)], by decide +kernel, rfl⟩
  have hwhiles : whileWords (scan "while (i < n) i = i + 1; x = i; while (1 > x) x = n;") = 2 := by
    decide +kernel
  obtain ⟨hlabels, -, -, hloops⟩ := compile_resolves_jumps _ 2 hcode
  obtain ⟨-, hfound, -, hresolved⟩ := hloops
    [.loop (.var "i") .less (.var "n") ⟨"i", ⟨⟨.var "i", []⟩, [(.plus, ⟨.int "1", []⟩)]⟩⟩,
      .assignment ⟨"x", ⟨⟨.var "i", []⟩, []⟩⟩,
      .loop (.int "1") .greater (.var "x") ⟨"x", ⟨⟨.var "n", []⟩, []⟩⟩] (by decide +kernel)
  rw [hwhiles] at hlabels
  exact ⟨code, hcode, hlabels, hfound 1 _ rfl, hjump, (hresolved 17 _ _ hjump).1⟩

end LoopAsm
