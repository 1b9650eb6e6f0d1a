/-!
# UTF-8

Encodes characters as bytes and reads them back, byte by byte. Reading tells where the first fault
is: a byte that cannot stand where it does, or an end in the middle of a character.
-/
namespace KernelForge.Text.Utf8

def encode (text : List Char) : List UInt8 := text.flatMap String.utf8EncodeChar

def bytes (text : String) : List UInt8 := encode text.toList

inductive Fault
  /-- Bytes that start no character, though more bytes follow, or one byte that never does. -/
  | invalid (count index : Nat)
  /-- The bytes end inside the character that starts at the index. -/
  | incomplete (index : Nat)
  deriving DecidableEq

def Fault.message : Fault → String
  | invalid count index =>
    "invalid utf-8 sequence of " ++ toString count ++ " bytes from index " ++ toString index
  | incomplete index => "incomplete utf-8 byte sequence from index " ++ toString index

/-- A character of which some bytes were read. The next byte lies between `low` and `high`. -/
structure Pending where
  seen : Nat
  needed : Nat
  low : Nat
  high : Nat
  value : Nat

/-- What the first byte of a character of more than one byte announces. -/
def lead? (b : Nat) : Option Pending :=
  if b < 0xc2 then none
  else if b ≤ 0xdf then some ⟨1, 1, 0x80, 0xbf, b - 0xc0⟩
  else if b = 0xe0 then some ⟨1, 2, 0xa0, 0xbf, 0⟩
  else if b = 0xed then some ⟨1, 2, 0x80, 0x9f, 0xd⟩
  else if b ≤ 0xef then some ⟨1, 2, 0x80, 0xbf, b - 0xe0⟩
  else if b = 0xf0 then some ⟨1, 3, 0x90, 0xbf, 0⟩
  else if b ≤ 0xf3 then some ⟨1, 3, 0x80, 0xbf, b - 0xf0⟩
  else if b = 0xf4 then some ⟨1, 3, 0x80, 0x8f, 4⟩
  else none

/-- Reads on after the characters `done`, latest first. `index` is where the current character
starts. -/
def decodeFrom (index : Nat) (done : List Char) :
    Option Pending → List UInt8 → Except Fault (List Char)
  | none, [] => .ok done.reverse
  | some _, [] => .error (.incomplete index)
  | none, b :: rest =>
    if b.toNat < 0x80 then decodeFrom (index + 1) (Char.ofNat b.toNat :: done) none rest
    else
      match lead? b.toNat with
      | none => .error (.invalid 1 index)
      | some p => decodeFrom index done (some p) rest
  | some p, b :: rest =>
    if b.toNat < p.low ∨ p.high < b.toNat then .error (.invalid p.seen index)
    else
      let value := p.value * 64 + (b.toNat - 0x80)
      if p.needed ≤ 1 then
        decodeFrom (index + p.seen + 1) (Char.ofNat value :: done) none rest
      else decodeFrom index done (some ⟨p.seen + 1, p.needed - 1, 0x80, 0xbf, value⟩) rest

/-- The text of bytes, or the first fault in them. -/
def decode (bs : List UInt8) : Except Fault (List Char) := decodeFrom 0 [] none bs

end KernelForge.Text.Utf8
