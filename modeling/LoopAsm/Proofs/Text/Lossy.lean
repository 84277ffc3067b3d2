/-
Decoding bytes that may have faults, against the rule for it: where no character can be read, the
longest row of bytes that a character could begin with is a fault, or a single byte if there is
none, and every fault is replaced by U+FFFD. The rule speaks of the bytes of characters alone, and
of the rest of the text; that the decoder follows it byte by byte, with at most three bytes held
back, is shown here.

The bytes of a character are told by their first byte and the ranges of the others (`WellFormed`),
which is what the decoder looks at.
-/
import LoopAsm.Text.Utf8

namespace LoopAsm.Utf8

open String (utf8EncodeChar)

/-! ## Ranges -/

theorem width_eq_one {a : Nat} : width a = 1 ↔ a < 0x80 := by
  unfold width
  repeat' split
  all_goals omega

theorem width_eq_two {a : Nat} : width a = 2 ↔ 0xC2 ≤ a ∧ a ≤ 0xDF := by
  unfold width
  repeat' split
  all_goals omega

theorem width_eq_three {a : Nat} : width a = 3 ↔ 0xE0 ≤ a ∧ a ≤ 0xEF := by
  unfold width
  repeat' split
  all_goals omega

theorem width_eq_four {a : Nat} : width a = 4 ↔ 0xF0 ≤ a ∧ a ≤ 0xF4 := by
  unfold width
  repeat' split
  all_goals omega

theorem isTail_iff {b : Nat} : isTail b = true ↔ 0x80 ≤ b ∧ b ≤ 0xBF := by
  simp [isTail]

theorem isSecond_iff {a b : Nat} : isSecond a b = true ↔
    0x80 ≤ b ∧ b ≤ 0xBF ∧ (a = 0xE0 → 0xA0 ≤ b) ∧ (a = 0xED → b ≤ 0x9F) ∧
      (a = 0xF0 → 0x90 ≤ b) ∧ (a = 0xF4 → b ≤ 0x8F) := by
  simp only [isSecond, Bool.and_eq_true, decide_eq_true_eq]
  repeat' split
  all_goals omega

/-! ## The bytes of a character -/

/-- The bytes of the character number `v`, by their ranges. -/
inductive WellFormed : List Byte → Nat → Prop
  | one {a : Byte} (ha : width a.toNat = 1) : WellFormed [a] a.toNat
  | two {a b : Byte} (ha : width a.toNat = 2) (hb : isSecond a.toNat b.toNat = true) :
    WellFormed [a, b] (a.toNat % 32 * 64 + b.toNat % 64)
  | three {a b c : Byte} (ha : width a.toNat = 3) (hb : isSecond a.toNat b.toNat = true)
      (hc : isTail c.toNat = true) :
    WellFormed [a, b, c] (a.toNat % 16 * 4096 + b.toNat % 64 * 64 + c.toNat % 64)
  | four {a b c d : Byte} (ha : width a.toNat = 4) (hb : isSecond a.toNat b.toNat = true)
      (hc : isTail c.toNat = true) (hd : isTail d.toNat = true) :
    WellFormed [a, b, c, d]
      (a.toNat % 8 * 262144 + b.toNat % 64 * 4096 + c.toNat % 64 * 64 + d.toNat % 64)

theorem toNat_ofNat_of_valid {v : Nat} (h : v.isValidChar) : (Char.ofNat v).toNat = v := by
  unfold Char.ofNat
  rw [dif_pos h]
  rfl

theorem toNat_ofNat_of_lt {n : Nat} (h : n < 256) : (UInt8.ofNat n).toNat = n := by
  rw [UInt8.toNat_ofNat']
  exact Nat.mod_eq_of_lt h

theorem ofNat_eq {n : Nat} {a : Byte} (h : n = a.toNat) : UInt8.ofNat n = a := by
  rw [h, UInt8.ofNat_toNat]

/-- A value is put together again from the bytes that it is cut into. -/
theorem wellFormed_encode (c : Char) : WellFormed (utf8EncodeChar c) c.toNat := by
  have hvalid : c.toNat.isValidChar := c.valid
  generalize hv : c.toNat = v at hvalid
  unfold Nat.isValidChar at hvalid
  unfold utf8EncodeChar
  simp only [Char.toNat_val, hv]
  by_cases h1 : v ≤ 0x7f
  · have ha := toNat_ofNat_of_lt (n := v) (by omega)
    have h := WellFormed.one (a := UInt8.ofNat v) (by rw [ha, width_eq_one]; omega)
    rw [if_pos h1]
    rwa [ha] at h
  by_cases h2 : v ≤ 0x7ff
  · have ha := toNat_ofNat_of_lt (n := v / 64 % 0x20 + 0xc0) (by omega)
    have hb := toNat_ofNat_of_lt (n := v % 0x40 + 0x80) (by omega)
    have h := WellFormed.two (a := UInt8.ofNat (v / 64 % 0x20 + 0xc0))
      (b := UInt8.ofNat (v % 0x40 + 0x80)) (by rw [ha, width_eq_two]; omega)
      (by rw [ha, hb, isSecond_iff]; omega)
    have hvalue : (v / 64 % 0x20 + 0xc0) % 32 * 64 + (v % 0x40 + 0x80) % 64 = v := by omega
    rw [if_neg h1, if_pos h2]
    rwa [ha, hb, hvalue] at h
  by_cases h3 : v ≤ 0xffff
  · have ha := toNat_ofNat_of_lt (n := v / 4096 % 0x10 + 0xe0) (by omega)
    have hb := toNat_ofNat_of_lt (n := v / 64 % 0x40 + 0x80) (by omega)
    have hc := toNat_ofNat_of_lt (n := v % 0x40 + 0x80) (by omega)
    have h := WellFormed.three (a := UInt8.ofNat (v / 4096 % 0x10 + 0xe0))
      (b := UInt8.ofNat (v / 64 % 0x40 + 0x80)) (c := UInt8.ofNat (v % 0x40 + 0x80))
      (by rw [ha, width_eq_three]; omega) (by rw [ha, hb, isSecond_iff]; omega)
      (by rw [hc, isTail_iff]; omega)
    have hvalue : (v / 4096 % 0x10 + 0xe0) % 16 * 4096 + (v / 64 % 0x40 + 0x80) % 64 * 64
        + (v % 0x40 + 0x80) % 64 = v := by omega
    rw [if_neg h1, if_neg h2, if_pos h3]
    rwa [ha, hb, hc, hvalue] at h
  · have ha := toNat_ofNat_of_lt (n := v / 262144 % 0x08 + 0xf0) (by omega)
    have hb := toNat_ofNat_of_lt (n := v / 4096 % 0x40 + 0x80) (by omega)
    have hc := toNat_ofNat_of_lt (n := v / 64 % 0x40 + 0x80) (by omega)
    have hd := toNat_ofNat_of_lt (n := v % 0x40 + 0x80) (by omega)
    have h := WellFormed.four (a := UInt8.ofNat (v / 262144 % 0x08 + 0xf0))
      (b := UInt8.ofNat (v / 4096 % 0x40 + 0x80)) (c := UInt8.ofNat (v / 64 % 0x40 + 0x80))
      (d := UInt8.ofNat (v % 0x40 + 0x80)) (by rw [ha, width_eq_four]; omega)
      (by rw [ha, hb, isSecond_iff]; omega) (by rw [hc, isTail_iff]; omega)
      (by rw [hd, isTail_iff]; omega)
    have hvalue : (v / 262144 % 0x08 + 0xf0) % 8 * 262144 + (v / 4096 % 0x40 + 0x80) % 64 * 4096
        + (v / 64 % 0x40 + 0x80) % 64 * 64 + (v % 0x40 + 0x80) % 64 = v := by omega
    rw [if_neg h1, if_neg h2, if_neg h3]
    rwa [ha, hb, hc, hd, hvalue] at h

/-- Bytes in their ranges are those of a character. -/
theorem WellFormed.encode_ofNat {bytes : List Byte} {v : Nat} (h : WellFormed bytes v) :
    utf8EncodeChar (Char.ofNat v) = bytes := by
  have cut (hvalid : v.isValidChar) : (Char.ofNat v).val.toNat = v := toNat_ofNat_of_valid hvalid
  unfold utf8EncodeChar
  cases h with
  | @one a ha =>
    rw [width_eq_one] at ha
    simp only [cut (by unfold Nat.isValidChar; omega)]
    rw [if_pos (by omega), ofNat_eq rfl]
  | @two a b ha hb =>
    rw [width_eq_two] at ha
    rw [isSecond_iff] at hb
    simp only [cut (by unfold Nat.isValidChar; omega)]
    rw [if_neg (by omega), if_pos (by omega), ofNat_eq (a := a) (by omega),
      ofNat_eq (a := b) (by omega)]
  | @three a b c ha hb hc =>
    rw [width_eq_three] at ha
    rw [isSecond_iff] at hb
    rw [isTail_iff] at hc
    simp only [cut (by unfold Nat.isValidChar; omega)]
    rw [if_neg (by omega), if_neg (by omega), if_pos (by omega), ofNat_eq (a := a) (by omega),
      ofNat_eq (a := b) (by omega), ofNat_eq (a := c) (by omega)]
  | @four a b c d ha hb hc hd =>
    rw [width_eq_four] at ha
    rw [isSecond_iff] at hb
    rw [isTail_iff] at hc hd
    simp only [cut (by unfold Nat.isValidChar; omega)]
    rw [if_neg (by omega), if_neg (by omega), if_neg (by omega), ofNat_eq (a := a) (by omega),
      ofNat_eq (a := b) (by omega), ofNat_eq (a := c) (by omega), ofNat_eq (a := d) (by omega)]

/-! ## What the decoder sees -/

theorem WellFormed.examine_eq {bytes : List Byte} {v : Nat} (h : WellFormed bytes v) :
    examine bytes = .char (Char.ofNat v) := by
  cases h <;> simp_all [examine]

theorem WellFormed.examine_beginning {bytes p : List Byte} {v : Nat} (h : WellFormed bytes v)
    (hp : p <+: bytes) (hnil : p ≠ []) (hne : p ≠ bytes) : examine p = .incomplete := by
  cases h with
  | one ha =>
    simp only [List.prefix_cons_iff, List.prefix_nil] at hp
    rcases hp with rfl | ⟨_, rfl, rfl⟩
    · exact absurd rfl hnil
    · exact absurd rfl hne
  | two ha hb =>
    simp only [List.prefix_cons_iff, List.prefix_nil] at hp
    rcases hp with rfl | ⟨_, rfl, rfl | ⟨_, rfl, rfl⟩⟩
    · exact absurd rfl hnil
    · simp [examine, ha]
    · exact absurd rfl hne
  | three ha hb hc =>
    simp only [List.prefix_cons_iff, List.prefix_nil] at hp
    rcases hp with rfl | ⟨_, rfl, rfl | ⟨_, rfl, rfl | ⟨_, rfl, rfl⟩⟩⟩
    · exact absurd rfl hnil
    · simp [examine, ha]
    · simp [examine, ha, hb]
    · exact absurd rfl hne
  | four ha hb hc hd =>
    simp only [List.prefix_cons_iff, List.prefix_nil] at hp
    rcases hp with rfl | ⟨_, rfl, rfl | ⟨_, rfl, rfl | ⟨_, rfl, rfl | ⟨_, rfl, rfl⟩⟩⟩⟩
    · exact absurd rfl hnil
    · simp [examine, ha]
    · simp [examine, ha, hb]
    · simp [examine, ha, hc]
    · exact absurd rfl hne

/-- The bytes of a character are seen to be complete. -/
theorem examine_encode (c : Char) : examine (utf8EncodeChar c) = .char c := by
  rw [(wellFormed_encode c).examine_eq, Char.ofNat_toNat]

/-- Fewer of them are seen to be incomplete. -/
theorem examine_of_beginning {p : List Byte} {c : Char} (hp : p <+: utf8EncodeChar c)
    (hnil : p ≠ []) (hne : p ≠ utf8EncodeChar c) : examine p = .incomplete :=
  (wellFormed_encode c).examine_beginning hp hnil hne

/-- No character's bytes begin with those of another. -/
theorem encode_prefix_free {c d : Char} (h : utf8EncodeChar c <+: utf8EncodeChar d) : c = d := by
  by_cases he : utf8EncodeChar c = utf8EncodeChar d
  · have hc := examine_encode c
    rw [he, examine_encode d] at hc
    cases hc
    rfl
  · have hc := examine_of_beginning h String.utf8EncodeChar_ne_nil he
    rw [examine_encode c] at hc
    cases hc

/-- Bytes that can be held back. -/
inductive Begun : List Byte → Prop
  | nil : Begun []
  | one {a : Byte} (ha : 2 ≤ width a.toNat) : Begun [a]
  | two {a b : Byte} (ha : 3 ≤ width a.toNat) (hb : isSecond a.toNat b.toNat = true) : Begun [a, b]
  | three {a b c : Byte} (ha : width a.toNat = 4) (hb : isSecond a.toNat b.toNat = true)
      (hc : isTail c.toNat = true) : Begun [a, b, c]

theorem width_le_four (a : Nat) : width a ≤ 4 := by
  unfold width
  repeat' split
  all_goals omega

theorem Begun.encode_of_char {held : List Byte} (h : Begun held) {b : Byte} {c : Char}
    (he : examine (held ++ [b]) = .char c) : utf8EncodeChar c = held ++ [b] := by
  cases h with
  | nil =>
    simp only [List.nil_append, examine] at he
    split at he
    · cases he
    · split at he
      · cases he
        exact (WellFormed.one ‹_›).encode_ofNat
      · cases he
  | one ha =>
    simp only [List.cons_append, List.nil_append, examine] at he
    split at he
    · split at he
      · cases he
        exact (WellFormed.two ‹_› ‹_›).encode_ofNat
      · cases he
    · cases he
  | two ha hb =>
    simp only [List.cons_append, List.nil_append, examine] at he
    split at he
    · split at he
      · cases he
        exact (WellFormed.three ‹_› hb ‹_›).encode_ofNat
      · cases he
    · cases he
  | three ha hb hc =>
    simp only [List.cons_append, List.nil_append, examine] at he
    split at he
    · cases he
      exact (WellFormed.four ha hb hc ‹_›).encode_ofNat
    · cases he

theorem Begun.of_incomplete {held : List Byte} (h : Begun held) {b : Byte}
    (he : examine (held ++ [b]) = .incomplete) : Begun (held ++ [b]) := by
  cases h with
  | nil =>
    simp only [List.nil_append, examine] at he
    split at he
    · cases he
    · split at he
      · cases he
      · exact .one (by omega)
  | one ha =>
    simp only [List.cons_append, List.nil_append, examine] at he
    split at he
    · split at he
      · cases he
      · exact .two (by omega) ‹_›
    · cases he
  | @two a b' ha hb =>
    have := width_le_four a.toNat
    simp only [List.cons_append, List.nil_append, examine] at he
    split at he
    · split at he
      · cases he
      · exact .three (by omega) hb ‹_›
    · cases he
  | three ha hb hc =>
    simp only [List.cons_append, List.nil_append, examine] at he
    split at he <;> cases he

/-- The least byte that can stand behind a first byte. -/
def leastSecond (a : Byte) : Byte :=
  if a.toNat = 0xE0 then 0xA0 else if a.toNat = 0xF0 then 0x90 else 0x80

theorem isSecond_leastSecond (a : Byte) : isSecond a.toNat (leastSecond a).toNat = true := by
  rw [isSecond_iff]
  unfold leastSecond
  repeat' split
  all_goals
    simp
    omega

theorem WellFormed.begins (held : List Byte) {more : List Byte} {v : Nat}
    (h : WellFormed (held ++ more) v) (hmore : more ≠ []) :
    ∃ c, held <+: utf8EncodeChar c ∧ held ≠ utf8EncodeChar c := by
  refine ⟨Char.ofNat v, ?_, ?_⟩ <;> rw [h.encode_ofNat]
  · exact List.prefix_append held more
  · simpa using hmore

/-- Bytes that are held back are the beginning of a character, and not all of it. -/
theorem Begun.begins {held : List Byte} (h : Begun held) :
    ∃ c, held <+: utf8EncodeChar c ∧ held ≠ utf8EncodeChar c := by
  have htail : isTail (0x80 : Byte).toNat = true := by decide
  cases h with
  | nil => exact ⟨'a', List.nil_prefix, String.utf8EncodeChar_ne_nil.symm⟩
  | @one a ha =>
    have hle := width_le_four a.toNat
    have hsecond := isSecond_leastSecond a
    obtain h2 | h3 | h4 : width a.toNat = 2 ∨ width a.toNat = 3 ∨ width a.toNat = 4 := by omega
    · exact WellFormed.begins [a] (WellFormed.two h2 hsecond) (by simp)
    · exact WellFormed.begins [a] (WellFormed.three h3 hsecond htail) (by simp)
    · exact WellFormed.begins [a] (WellFormed.four h4 hsecond htail htail) (by simp)
  | @two a b ha hb =>
    have hle := width_le_four a.toNat
    obtain h3 | h4 : width a.toNat = 3 ∨ width a.toNat = 4 := by omega
    · exact WellFormed.begins [a, b] (WellFormed.three h3 hb htail) (by simp)
    · exact WellFormed.begins [a, b] (WellFormed.four h4 hb htail htail) (by simp)
  | @three a b c ha hb hc =>
    exact WellFormed.begins [a, b, c] (WellFormed.four ha hb hc htail) (by simp)

/-! ## The rule for faults -/

/-- Bytes that the bytes of a character begin with. -/
def Begins (bytes : List Byte) : Prop :=
  ∃ c, bytes <+: utf8EncodeChar c

/-- What is wrong at the start of `bytes`: no character can be read there, and `bad` is the longest
row of bytes there that a character could begin with, or one byte if there is none. -/
structure Fault (bad bytes : List Byte) : Prop where
  unreadable : ∀ c, ¬ utf8EncodeChar c <+: bytes
  start : bad <+: bytes
  subpart : bad.length = 1 ∨ bad ≠ [] ∧ Begins bad
  longest : ∀ other, other <+: bytes → Begins other → other.length ≤ bad.length

/-- The characters of bytes, with U+FFFD for each fault. -/
inductive Lossy : List Byte → List Char → Prop
  | nil : Lossy [] []
  | char {rest : List Byte} {cs : List Char} (c : Char) (h : Lossy rest cs) :
    Lossy (utf8EncodeChar c ++ rest) (c :: cs)
  | fault {bad rest : List Byte} {cs : List Char} (hbad : Fault bad (bad ++ rest))
      (h : Lossy rest cs) : Lossy (bad ++ rest) ('\uFFFD' :: cs)

theorem Fault.ne_nil {bad bytes : List Byte} (h : Fault bad bytes) : bad ≠ [] := by
  rcases h.subpart with hone | ⟨hne, -⟩
  · rintro rfl
    cases hone
  · exact hne

theorem Fault.length_le {bad bad' bytes : List Byte} (h : Fault bad bytes) (h' : Fault bad' bytes) :
    bad'.length ≤ bad.length := by
  rcases h'.subpart with hone | ⟨-, hbegins⟩
  · rw [hone]
    exact List.length_pos_iff.2 h.ne_nil
  · exact h.longest bad' h'.start hbegins

/-- The rule leaves no choice. -/
theorem Fault.unique {bad bad' bytes : List Byte} (h : Fault bad bytes) (h' : Fault bad' bytes) :
    bad = bad' := by
  have hlength : bad.length = bad'.length := Nat.le_antisymm (h'.length_le h) (h.length_le h')
  exact (List.prefix_of_prefix_length_le h.start h'.start (Nat.le_of_eq hlength)).eq_of_length
    hlength

theorem Lossy.unique {bytes : List Byte} {cs cs' : List Char} (h : Lossy bytes cs)
    (h' : Lossy bytes cs') : cs = cs' := by
  induction h generalizing cs' with
  | nil =>
    generalize hb : ([] : List Byte) = bytes at h'
    cases h' with
    | nil => rfl
    | char c _ =>
      exact absurd (List.append_eq_nil_iff.1 hb.symm).1 String.utf8EncodeChar_ne_nil
    | fault hbad _ => exact absurd (List.append_eq_nil_iff.1 hb.symm).1 hbad.ne_nil
  | @char rest cs c h ih =>
    generalize hb : utf8EncodeChar c ++ rest = bytes at h'
    cases h' with
    | nil => exact absurd (List.append_eq_nil_iff.1 hb).1 String.utf8EncodeChar_ne_nil
    | @char rest' cs' d h' =>
      obtain rfl : c = d := by
        rcases List.prefix_or_prefix_of_prefix (List.prefix_append _ rest)
          (hb ▸ List.prefix_append _ rest') with hp | hp
        · exact encode_prefix_free hp
        · exact (encode_prefix_free hp).symm
      rw [ih (List.append_cancel_left hb ▸ h')]
    | fault hbad _ => exact absurd (hb ▸ List.prefix_append _ rest) (hbad.unreadable c)
  | @fault bad rest cs hbad h ih =>
    generalize hb : bad ++ rest = bytes at h'
    cases h' with
    | nil => exact absurd (List.append_eq_nil_iff.1 hb).1 hbad.ne_nil
    | char c _ => exact absurd (hb ▸ List.prefix_append _ _) (hbad.unreadable c)
    | @fault bad' rest' cs' hbad' h' =>
      obtain rfl : bad = bad' := hbad.unique (hb ▸ hbad')
      rw [ih (List.append_cancel_left hb ▸ h')]

/-! ## The decoder follows the rule -/

/-- The pieces of bytes behind held ones. -/
def piecesFrom (held bytes : List Byte) : List Piece :=
  (steps held bytes).2.toList ++ atEnd (steps held bytes).1

theorem pieces_eq (bytes : List Byte) : pieces bytes = piecesFrom [] bytes := by
  simp [pieces, piecesFrom]

theorem piecesFrom_cons (held : List Byte) (b : Byte) (bytes : List Byte) :
    piecesFrom held (b :: bytes) = (step held b).2 ++ piecesFrom (step held b).1 bytes := by
  simp [piecesFrom, steps, Transducer.run_cons]

/-- Behind held bytes that do not go on with `b`, `b` is looked at afresh. -/
theorem step_of_invalid {held : List Byte} {b : Byte} (hheld : held ≠ [])
    (h : examine (held ++ [b]) = .invalid) :
    step held b = ((step [] b).1, none :: (step [] b).2) := by
  unfold step
  rw [h, List.nil_append]
  simp only [hheld, if_false, if_true]
  split <;> rfl

theorem not_begins_of_invalid {held : List Byte} {b : Byte}
    (h : examine (held ++ [b]) = .invalid) : ¬ Begins (held ++ [b]) := by
  rintro ⟨c, hc⟩
  by_cases he : held ++ [b] = utf8EncodeChar c
  · rw [he, examine_encode] at h
    cases h
  · rw [examine_of_beginning hc (by simp) he] at h
    cases h

/-- Held bytes are a fault where the next byte, if there is one, does not go on with them. -/
theorem Begun.fault {held rest : List Byte} (h : Begun held) (hheld : held ≠ [])
    (hrest : ∀ b ∈ rest.head?, ¬ Begins (held ++ [b])) : Fault held (held ++ rest) := by
  obtain ⟨d, hd, hne⟩ := h.begins
  have hlongest (other : List Byte) (ho : other <+: held ++ rest) (hother : Begins other) :
      other.length ≤ held.length := by
    refine Nat.le_of_not_lt fun hlt => ?_
    obtain ⟨more, rfl⟩ :=
      List.prefix_of_prefix_length_le (List.prefix_append held rest) ho (Nat.le_of_lt hlt)
    obtain ⟨tail, rfl⟩ := (List.prefix_append_right_inj held).1 ho
    cases more with
    | nil => simp at hlt
    | cons b more =>
      obtain ⟨c, hc⟩ := hother
      refine hrest b (by simp) ⟨c, List.IsPrefix.trans ?_ hc⟩
      exact (List.prefix_append_right_inj held).2 (by simp)
  refine ⟨fun c hc => ?_, List.prefix_append held rest, .inr ⟨hheld, d, hd⟩, hlongest⟩
  -- A character there would be no longer than the held bytes, which are not all of one.
  have hle := hlongest _ hc ⟨c, List.prefix_rfl⟩
  have hheld' := List.prefix_of_prefix_length_le hc (List.prefix_append held rest) hle
  obtain rfl := encode_prefix_free (hheld'.trans hd)
  exact hne (hd.eq_of_length_le hheld'.length_le)

/-- A byte that no character begins with is a fault by itself. -/
theorem fault_of_not_begins {b : Byte} (h : ¬ Begins [b]) (rest : List Byte) :
    Fault [b] ([b] ++ rest) := by
  have hnone (other : List Byte) (ho : other <+: [b] ++ rest) (hother : Begins other) :
      other = [] := by
    rcases List.prefix_cons_iff.1 ho with rfl | ⟨more, rfl, -⟩
    · rfl
    · obtain ⟨c, hc⟩ := hother
      exact absurd ⟨c, List.IsPrefix.trans (by simp) hc⟩ h
  refine ⟨fun c hc => ?_, List.prefix_append [b] rest, .inl rfl, fun other ho hother => ?_⟩
  · exact String.utf8EncodeChar_ne_nil (hnone _ hc ⟨c, List.prefix_rfl⟩)
  · rw [hnone other ho hother]
    exact Nat.zero_le 1

/-- Behind held bytes, the decoder goes on as the rule says. -/
theorem lossy_piecesFrom (bytes : List Byte) {held : List Byte} (h : Begun held) :
    Lossy (held ++ bytes) ((piecesFrom held bytes).map Piece.toChar) := by
  induction bytes generalizing held with
  | nil =>
    by_cases hheld : held = []
    · subst hheld
      exact .nil
    · rw [show piecesFrom held [] = [none] by simp [piecesFrom, steps, atEnd, hheld]]
      exact .fault (h.fault hheld (by simp)) .nil
  | cons b bytes ih =>
    have taken {held : List Byte} (h : Begun held)
        (hb : held = [] ∨ examine (held ++ [b]) ≠ .invalid) :
        Lossy (held ++ b :: bytes) ((piecesFrom held (b :: bytes)).map Piece.toChar) := by
      rw [piecesFrom_cons, List.append_cons]
      cases he : examine (held ++ [b]) with
      | char c =>
        rw [show step held b = ([], [some c]) by simp [step, he], ← h.encode_of_char he]
        exact .char c (ih .nil)
      | incomplete =>
        rw [show step held b = (held ++ [b], []) by simp [step, he]]
        exact ih (h.of_incomplete he)
      | invalid =>
        obtain rfl : held = [] := hb.resolve_right (absurd he)
        rw [show step [] b = ([], [none]) by unfold step; rw [he]; rfl]
        exact .fault (fault_of_not_begins (not_begins_of_invalid he) bytes) (ih .nil)
    by_cases hb : held = [] ∨ examine (held ++ [b]) ≠ .invalid
    · exact taken h hb
    · -- The held bytes are a fault, and `b` is the next one behind nothing.
      obtain ⟨hheld, he⟩ := not_or.1 hb
      rw [Decidable.not_not] at he
      rw [piecesFrom_cons, step_of_invalid hheld he]
      refine .fault (h.fault hheld ?_) ?_
      · rintro _ ⟨⟩
        exact not_begins_of_invalid he
      · have := taken .nil (.inl rfl)
        rwa [piecesFrom_cons] at this

/-- Lossy decoding is decoding by the rule for faults. -/
theorem lossy_iff_decodeLossy {bytes : List Byte} {cs : List Char} :
    Lossy bytes cs ↔ cs = (decodeLossy bytes).toList := by
  have hdecode : Lossy bytes (decodeLossy bytes).toList := by
    rw [decodeLossy, String.toList_ofList, pieces_eq]
    exact lossy_piecesFrom bytes .nil
  constructor
  · intro h
    exact h.unique hdecode
  · rintro rfl
    exact hdecode

/-! ## Texts without a fault -/

theorem lossy_encode (cs : List Char) : Lossy (cs.flatMap utf8EncodeChar) cs := by
  induction cs with
  | nil => exact .nil
  | cons c cs ih => exact .char c ih

theorem decodeLossy_encode (text : String) : decodeLossy (encode text) = text := by
  have h := lossy_iff_decodeLossy.1 (lossy_encode text.toList)
  exact (String.toList_inj.1 h).symm

/-- A character comes out of its bytes once the last of them is taken. -/
theorem piecesFrom_encode {held more : List Byte} {c : Char} (h : held ++ more = utf8EncodeChar c)
    (hmore : more ≠ []) (bytes : List Byte) :
    piecesFrom held (more ++ bytes) = some c :: piecesFrom [] bytes := by
  induction more generalizing held with
  | nil => exact absurd rfl hmore
  | cons b more ih =>
    rw [List.cons_append, piecesFrom_cons]
    rw [List.append_cons] at h
    cases more with
    | nil =>
      have he : examine (held ++ [b]) = .char c := by
        rw [← examine_encode c, ← h, List.append_nil]
      rw [show step held b = ([], [some c]) by simp [step, he]]
      rfl
    | cons d more =>
      have he : examine (held ++ [b]) = .incomplete :=
        examine_of_beginning (c := c) ⟨d :: more, h⟩ (by simp) (by simp [← h])
      rw [show step held b = (held ++ [b], []) by simp [step, he]]
      exact ih h (by simp)

theorem pieces_encode (text : String) : pieces (encode text) = text.toList.map some := by
  rw [pieces_eq, encode]
  induction text.toList with
  | nil => rfl
  | cons c cs ih =>
    rw [List.flatMap_cons, List.map_cons, ← ih]
    exact @piecesFrom_encode [] _ c rfl String.utf8EncodeChar_ne_nil _

theorem decode?_encode (text : String) : decode? (encode text) = some text := by
  have hall : (text.toList.map some).mapM id = some text.toList := by
    rw [List.mapM_map]
    exact (List.mapM_pure (m := Option) (f := id)).trans (by simp)
  rw [decode?, pieces_encode, hall]
  simp

end LoopAsm.Utf8
