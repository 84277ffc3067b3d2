/-
A stack that holds a bounded number of items, as the translator keeps its operands and operators
in. The bound is part of the type's promise: no stack ever holds more than its capacity.
-/
import LoopAsm.Error

namespace LoopAsm

/-- A bounded stack. -/
structure Stack (α : Type) where
  /-- The items, the top one first. -/
  items : List α
  capacity : Nat
  length_le : items.length ≤ capacity := by simp

namespace Stack

variable {α : Type}

/-- The empty stack of a given capacity. -/
def empty (capacity : Nat) : Stack α where
  items := []
  capacity

/-- The number of items. -/
def size (s : Stack α) : Nat :=
  s.items.length

/-- Whether there is no item. -/
def isEmpty (s : Stack α) : Bool :=
  s.items.isEmpty

/-- Puts an item on top, unless the stack is full. -/
def push (s : Stack α) (a : α) : Except Error (Stack α) :=
  if h : s.items.length < s.capacity then
    .ok { items := a :: s.items, capacity := s.capacity, length_le := h }
  else .error (.stackOverflow s.capacity)

/-- Takes the top item. -/
def pop (s : Stack α) : Except Error (α × Stack α) :=
  match s with
  | ⟨[], _, _⟩ => .error .stackUnderflow
  | ⟨a :: items, capacity, h⟩ => .ok (a, ⟨items, capacity, Nat.le_of_succ_le h⟩)

/-- Takes all items away. -/
def clear (s : Stack α) : Stack α :=
  empty s.capacity

/-! ## The items after each operation -/

@[ext] theorem ext {s t : Stack α} (hi : s.items = t.items) (hc : s.capacity = t.capacity) :
    s = t := by
  cases s
  cases t
  simp_all

theorem push_eq_ok_iff {s t : Stack α} {a : α} :
    s.push a = .ok t ↔
      s.items.length < s.capacity ∧ t.items = a :: s.items ∧ t.capacity = s.capacity := by
  unfold push
  split
  · rename_i h
    constructor
    · rintro ⟨⟩
      exact ⟨h, rfl, rfl⟩
    · rintro ⟨-, hi, hc⟩
      exact congrArg Except.ok (ext hi.symm hc.symm)
  · rename_i h
    simp [h]

theorem push_eq_error_iff {s : Stack α} {a : α} {e : Error} :
    s.push a = .error e ↔ s.items.length = s.capacity ∧ e = .stackOverflow s.capacity := by
  have := s.length_le
  unfold push
  split
  · simp only [reduceCtorEq, false_iff, not_and]
    omega
  · have : s.items.length = s.capacity := by omega
    simp [this, eq_comm]

theorem pop_eq_ok_iff {s t : Stack α} {a : α} :
    s.pop = .ok (a, t) ↔ s.items = a :: t.items ∧ t.capacity = s.capacity := by
  obtain ⟨_ | ⟨b, items⟩, capacity, h⟩ := s
  · simp [pop]
  · constructor
    · rintro ⟨⟩
      exact ⟨rfl, rfl⟩
    · rintro ⟨hi, hc⟩
      cases hi
      exact congrArg (fun u => Except.ok (_, u)) (ext rfl hc.symm)

theorem pop_eq_error_iff {s : Stack α} {e : Error} :
    s.pop = .error e ↔ s.items = [] ∧ e = .stackUnderflow := by
  obtain ⟨_ | ⟨b, items⟩, capacity, h⟩ := s
  · simp [pop, eq_comm]
  · simp [pop]

@[simp] theorem isEmpty_iff (s : Stack α) : s.isEmpty = true ↔ s.items = [] := by
  simp [isEmpty]

end Stack

end LoopAsm
