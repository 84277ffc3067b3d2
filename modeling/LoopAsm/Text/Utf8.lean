/-
UTF-8, one byte at a time. The decoder holds back the bytes of a character that is still
incomplete, at most three, so a text may be cut anywhere between two reads. A byte that cannot
continue the held ones shows that they were no character: they count as one fault together, and
the byte is looked at afresh.
-/
import LoopAsm.Transducer

namespace LoopAsm.Utf8

/-- A byte of a text. -/
abbrev Byte := UInt8

/-! ## Writing -/

/-- The bytes of a text. -/
def encode (s : String) : List Byte :=
  s.toList.flatMap String.utf8EncodeChar

/-! ## What a few bytes can be -/

/-- How many bytes the character has that starts with `a`, and zero if none does. -/
def width (a : Nat) : Nat :=
  if a < 0x80 then 1
  else if 0xC2 ≤ a ∧ a ≤ 0xDF then 2
  else if 0xE0 ≤ a ∧ a ≤ 0xEF then 3
  else if 0xF0 ≤ a ∧ a ≤ 0xF4 then 4
  else 0

/-- Any byte behind the first one. -/
def isTail (b : Nat) : Bool :=
  0x80 ≤ b && b ≤ 0xBF

/-- The second byte, which the first one may restrict: a character takes no more bytes than it
needs, is no surrogate and does not pass the last code point. -/
def isSecond (a b : Nat) : Bool :=
  (if a = 0xE0 then 0xA0 else if a = 0xF0 then 0x90 else 0x80) ≤ b &&
    b ≤ (if a = 0xED then 0x9F else if a = 0xF4 then 0x8F else 0xBF)

/-- What a row of bytes is. -/
inductive Verdict where
  | char (c : Char)
  /-- The beginning of a character. -/
  | incomplete
  | invalid
  deriving DecidableEq, Repr

/-- What bytes are whose beginnings are all incomplete. -/
def examine : List Byte → Verdict
  | [a] =>
    let a := a.toNat
    if width a = 0 then .invalid
    else if width a = 1 then .char (Char.ofNat a)
    else .incomplete
  | [a, b] =>
    let a := a.toNat
    let b := b.toNat
    if isSecond a b then
      if width a = 2 then .char (Char.ofNat (a % 32 * 64 + b % 64)) else .incomplete
    else .invalid
  | [a, b, c] =>
    let a := a.toNat
    let b := b.toNat
    let c := c.toNat
    if isTail c then
      if width a = 3 then .char (Char.ofNat (a % 16 * 4096 + b % 64 * 64 + c % 64))
      else .incomplete
    else .invalid
  | [a, b, c, d] =>
    let a := a.toNat
    let b := b.toNat
    let c := c.toNat
    let d := d.toNat
    if isTail d then
      .char (Char.ofNat (a % 8 * 262144 + b % 64 * 4096 + c % 64 * 64 + d % 64))
    else .invalid
  | _ => .invalid

/-! ## Reading -/

/-- A character, or `none` where the bytes are no character. -/
abbrev Piece := Option Char

/-- Takes a byte behind the ones held back. -/
def step (held : List Byte) (b : Byte) : List Byte × List Piece :=
  match examine (held ++ [b]) with
  | .char c => ([], [some c])
  | .incomplete => (held ++ [b], [])
  | .invalid =>
    if held = [] then ([], [none])
    else
      match examine [b] with
      | .char c => ([], [none, some c])
      | .incomplete => ([b], [none])
      | .invalid => ([], [none, none])

/-- Takes bytes one after the other. -/
def steps (held bytes : List Byte) : List Byte × Array Piece :=
  Transducer.run step held bytes

theorem length_of_examine_incomplete {bytes : List Byte} (h : examine bytes = .incomplete) :
    bytes.length ≤ 3 := by
  unfold examine at h
  split at h
  · simp
  · simp
  · simp
  · simp only at h
    split at h <;> cases h
  · cases h

theorem length_step_le (held : List Byte) (b : Byte) : (step held b).1.length ≤ 3 := by
  unfold step
  split
  · simp
  · rename_i hi
    exact length_of_examine_incomplete hi
  · split
    · simp
    · split <;> simp

/-- At most three bytes are held back. -/
theorem length_steps_le {held : List Byte} (bytes : List Byte) (h : held.length ≤ 3) :
    (steps held bytes).1.length ≤ 3 :=
  Transducer.run_invariant (P := fun held => held.length ≤ 3)
    (fun held b _ => length_step_le held b) h bytes

/-- What held bytes become when no more follow: one fault. -/
def atEnd (held : List Byte) : List Piece :=
  if held = [] then [] else [none]

/-- The pieces of a whole text. -/
def pieces (bytes : List Byte) : List Piece :=
  let (held, out) := steps [] bytes
  (out ++ atEnd held).toList

/-- The character that stands for bytes that are none. -/
def replacement : Char := '\uFFFD'

/-- A piece as a character. -/
def Piece.toChar (p : Piece) : Char :=
  p.getD replacement

/-- The text of bytes, with faults replaced. -/
def decodeLossy (bytes : List Byte) : String :=
  String.ofList ((pieces bytes).map Piece.toChar)

/-- The text of bytes that have no fault. -/
def decode? (bytes : List Byte) : Option String :=
  ((pieces bytes).mapM id).map String.ofList

end LoopAsm.Utf8
