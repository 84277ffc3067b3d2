/-
Cutting lists: what stands behind a given beginning or before a given end, the two sides of a
separator, and the lines of a text.
-/

namespace LoopAsm.Split

variable {α : Type} [DecidableEq α]

/-- What follows `front` in a list that begins with it. -/
def behind? : (front xs : List α) → Option (List α)
  | [], xs => some xs
  | _ :: _, [] => none
  | a :: front, x :: xs => if a = x then behind? front xs else none

/-- What precedes `back` in a list that ends with it. -/
def before? (back xs : List α) : Option (List α) :=
  (behind? back.reverse xs.reverse).map List.reverse

/-- The two sides of the first place where `sep` stands. -/
def atFirst? (sep xs : List α) : Option (List α × List α) :=
  go [] xs
where
  /-- `left` holds what was passed so far, the last element first. -/
  go (left : List α) (xs : List α) : Option (List α × List α) :=
    match behind? sep xs with
    | some right => some (left.reverse, right)
    | none =>
      match xs with
      | [] => none
      | x :: xs => go (x :: left) xs

/-- The two sides of the last place where `sep` stands. -/
def atLast? (sep xs : List α) : Option (List α × List α) :=
  (atFirst? sep.reverse xs.reverse).map fun (right, left) => (left.reverse, right.reverse)

/-- Puts an element in front of the first line. -/
def prepend (x : α) : List (List α) → List (List α)
  | [] => [[x]]
  | l :: ls => (x :: l) :: ls

/-- The lines of a text, where `newline` ends a line; an unended last line counts if it is not
empty. -/
def lines (newline : α) (xs : List α) : List (List α) :=
  xs.foldr (fun x ls => if x = newline then [] :: ls else prepend x ls) []

/-! ## Laws -/

@[simp] theorem lines_nil (newline : α) : lines newline [] = [] := rfl

@[simp] theorem lines_cons (newline x : α) (xs : List α) :
    lines newline (x :: xs) =
      if x = newline then [] :: lines newline xs else prepend x (lines newline xs) := rfl

theorem behind?_eq_some_iff {front xs rest : List α} :
    behind? front xs = some rest ↔ xs = front ++ rest := by
  fun_induction behind? front xs with
  | case1 xs => simp
  | case2 => simp
  | case3 a front xs ih => simp [ih]
  | case4 a front x xs h => simp [Ne.symm h]

theorem before?_eq_some_iff {back xs rest : List α} :
    before? back xs = some rest ↔ xs = rest ++ back := by
  unfold before?
  rw [Option.map_eq_some_iff]
  constructor
  · rintro ⟨r, hr, rfl⟩
    rw [behind?_eq_some_iff] at hr
    rw [← List.reverse_reverse xs, hr]
    simp
  · rintro rfl
    exact ⟨rest.reverse, by simp [behind?_eq_some_iff], by simp⟩

theorem atFirst?_go_eq_some {sep left xs a b : List α} (h : atFirst?.go sep left xs = some (a, b)) :
    left.reverse ++ xs = a ++ sep ++ b := by
  fun_induction atFirst?.go sep left xs with
  | case1 left xs right hb =>
    cases h
    simp [behind?_eq_some_iff.1 hb]
  | case2 => cases h
  | case3 left _ x xs ih => simpa using ih h

theorem eq_append_of_atFirst? {sep xs a b : List α} (h : atFirst? sep xs = some (a, b)) :
    xs = a ++ sep ++ b := by
  simpa using atFirst?_go_eq_some h

theorem eq_append_of_atLast? {sep xs a b : List α} (h : atLast? sep xs = some (a, b)) :
    xs = a ++ sep ++ b := by
  unfold atLast? at h
  obtain ⟨⟨r, l⟩, hrl, heq⟩ := Option.map_eq_some_iff.1 h
  cases heq
  rw [← List.reverse_reverse xs, eq_append_of_atFirst? hrl]
  simp

end LoopAsm.Split
