/-
Numbers as text: how counters, line numbers and tags are written, and which texts are read back
as a number. A number may be written with a plus sign in front and with leading zeros; what it
may not do is reach the limit that its reader sets.
-/

namespace LoopAsm.Numeral

/-- A number in decimal. -/
def decimal (n : Nat) : String :=
  String.ofList (Nat.toDigits 10 n)

/-- A number in hexadecimal, in small letters. -/
def hexadecimal (n : Nat) : String :=
  String.ofList (Nat.toDigits 16 n)

/-- The value of a digit, of either case. -/
def digitValue? (c : Char) : Option Nat :=
  if '0' ≤ c ∧ c ≤ '9' then some (c.toNat - '0'.toNat)
  else if 'a' ≤ c ∧ c ≤ 'f' then some (c.toNat - 'a'.toNat + 10)
  else if 'A' ≤ c ∧ c ≤ 'F' then some (c.toNat - 'A'.toNat + 10)
  else none

/-- Whether a character is a digit of the given base. -/
def isDigitOf (base : Nat) (c : Char) : Bool :=
  match digitValue? c with
  | some d => d < base
  | none => false

/-- The value of a row of digits; characters that are no digits count as zero. -/
def value (base : Nat) (digits : List Char) : Nat :=
  digits.foldl (fun n c => base * n + (digitValue? c).getD 0) 0

/-- A text without one plus sign in front. -/
def dropPlus : List Char → List Char
  | '+' :: cs => cs
  | cs => cs

/-- Reads a number below `limit`: an optional plus sign, then at least one digit and nothing
else. -/
def read? (base limit : Nat) (text : List Char) : Option Nat :=
  let digits := dropPlus text
  if digits ≠ [] ∧ digits.all (isDigitOf base) = true ∧ value base digits < limit then
    some (value base digits)
  else none

/-- The bound of counters and line numbers, which are words of 64 bits. -/
def counterLimit : Nat := 0x10000000000000000

/-- The bound of tags, which are words of 16 bits. -/
def tagLimit : Nat := 0x10000

/-! ## Reading back what was written -/

theorem digitValue?_digitChar {d : Nat} (h : d < 16) : digitValue? d.digitChar = some d := by
  have : ∀ d : Fin 16, digitValue? d.val.digitChar = some d.val := by decide
  exact this ⟨d, h⟩

theorem isDigitOf_digitChar {base d : Nat} (hb : base ≤ 16) (h : d < base) :
    isDigitOf base d.digitChar = true := by
  simp [isDigitOf, digitValue?_digitChar (Nat.lt_of_lt_of_le h hb), h]

@[simp] theorem value_append_singleton (base : Nat) (ds : List Char) (c : Char) :
    value base (ds ++ [c]) = base * value base ds + (digitValue? c).getD 0 := by
  simp [value]

theorem toDigits_spec {base : Nat} (h1 : 1 < base) (h16 : base ≤ 16) (n : Nat) :
    (∀ c ∈ Nat.toDigits base n, isDigitOf base c = true) ∧ value base (Nat.toDigits base n) = n := by
  induction n using Nat.strongRecOn with
  | _ n ih =>
    by_cases hn : n < base
    · rw [Nat.toDigits_of_lt_base hn]
      simp [isDigitOf_digitChar h16 hn, value, digitValue?_digitChar (Nat.lt_of_lt_of_le hn h16)]
    · rw [Nat.toDigits_of_base_le h1 (Nat.le_of_not_lt hn)]
      obtain ⟨hd, hv⟩ := ih (n / base) (Nat.div_lt_self (by omega) h1)
      have hm : n % base < base := Nat.mod_lt _ (by omega)
      constructor
      · intro c hc
        rcases List.mem_append.1 hc with hc | hc
        · exact hd c hc
        · rw [List.mem_singleton.1 hc]
          exact isDigitOf_digitChar h16 hm
      · simp [hv, digitValue?_digitChar (Nat.lt_of_lt_of_le hm h16), Nat.div_add_mod]

theorem dropPlus_of_isDigitOf {base : Nat} {cs : List Char}
    (h : ∀ c ∈ cs, isDigitOf base c = true) : dropPlus cs = cs := by
  unfold dropPlus
  split
  · have := h '+' (List.mem_cons_self ..)
    simp [isDigitOf, digitValue?] at this
  · rfl

/-- A number below the limit is read back from its digits. -/
theorem read?_toDigits {base limit n : Nat} (h1 : 1 < base) (h16 : base ≤ 16) (hn : n < limit) :
    read? base limit (Nat.toDigits base n) = some n := by
  obtain ⟨hd, hv⟩ := toDigits_spec h1 h16 n
  have hne : Nat.toDigits base n ≠ [] := Nat.toDigits_ne_nil
  unfold read?
  rw [dropPlus_of_isDigitOf hd]
  simp only [hv]
  rw [if_pos ⟨hne, List.all_eq_true.2 hd, hn⟩]

@[simp] theorem read?_decimal {limit n : Nat} (hn : n < limit) :
    read? 10 limit (decimal n).toList = some n := by
  simpa [decimal] using read?_toDigits (by decide) (by decide) hn

@[simp] theorem read?_hexadecimal {limit n : Nat} (hn : n < limit) :
    read? 16 limit (hexadecimal n).toList = some n := by
  simpa [hexadecimal] using read?_toDigits (by decide) (by decide) hn

end LoopAsm.Numeral
