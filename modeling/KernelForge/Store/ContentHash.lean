import KernelForge.Text.Hex
import KernelForge.Text.Utf8
/-!
# Content hashes

A 64-bit hash of a text, under which the store keeps a kernel. The bytes of the text are folded into
two words by multiplications of 64 by 64 bits; the result is scrambled once more with the length.
A hash is written as sixteen lowercase hexadecimal digits.
-/
namespace KernelForge

structure ContentHash where
  value : UInt64
  deriving DecidableEq

namespace ContentHash

/-- The word of bytes whose first byte is the lowest. -/
def littleEndian (bytes : List UInt8) : UInt64 :=
  UInt64.ofNat (bytes.foldr (fun b n => b.toNat + 256 * n) 0)

/-- Multiplies two words and folds the upper half of the product into the lower one. -/
def mix (x y : UInt64) : UInt64 :=
  let product := x.toNat * y.toNat
  UInt64.ofNat product ^^^ UInt64.ofNat (product / UInt64.size)

def rotateLeft (x : UInt64) (n : UInt64) : UInt64 := x <<< n ||| x >>> (64 - n)

/-- The two words into which bytes are folded. -/
structure Lanes where
  first : UInt64
  second : UInt64

def seed : Lanes := ⟨0x243f6a8885a308d3, 0x13198a2e03707344⟩

def Lanes.xor (l : Lanes) (x y : UInt64) : Lanes := ⟨l.first ^^^ x, l.second ^^^ y⟩

/-- Folds in a number of blocks of sixteen bytes. -/
def Lanes.blocks (l : Lanes) : Nat → List UInt8 → Lanes
  | 0, _ => l
  | count + 1, bytes =>
    let x := littleEndian (bytes.take 8)
    let y := littleEndian ((bytes.drop 8).take 8)
    Lanes.blocks ⟨l.second, mix (l.first ^^^ x) (0xa4093822299f31d0 ^^^ y)⟩ count (bytes.drop 16)

/-- Folds in up to sixteen bytes by their first and last parts, which may overlap. -/
def Lanes.short (l : Lanes) (bytes : List UInt8) : Lanes :=
  let n := bytes.length
  if 8 ≤ n then l.xor (littleEndian (bytes.take 8)) (littleEndian (bytes.drop (n - 8)))
  else if 4 ≤ n then l.xor (littleEndian (bytes.take 4)) (littleEndian (bytes.drop (n - 4)))
  else if n = 0 then l
  else
    l.xor (littleEndian (bytes.take 1))
      (littleEndian ((bytes.drop (n / 2)).take 1 ++ bytes.drop (n - 1)))

/-- Folds in bytes. Of more than sixteen bytes the last sixteen come last and on their own. -/
def Lanes.absorb (l : Lanes) (bytes : List UInt8) : Lanes :=
  let n := bytes.length
  if n ≤ 16 then l.short bytes
  else (l.blocks ((n - 1) / 16) bytes).short (bytes.drop (n - 16))

def multiplier : UInt64 := 0xf1357aea2e62a9c5

/-- The byte 255, which no text holds, ends every text. -/
def ofBytes (bytes : List UInt8) : ContentHash :=
  let l := seed.absorb bytes
  let h := mix l.first l.second ^^^ UInt64.ofNat bytes.length
  ⟨rotateLeft ((h * multiplier + 0xff) * multiplier) 26⟩

def ofText (text : String) : ContentHash := ofBytes (Text.Utf8.bytes text)

/-- Sixteen lowercase hexadecimal digits. -/
def text (h : ContentHash) : String := String.ofList (Text.Hex.fixed 16 h.value.toNat)

/-- Drops one leading plus. -/
def dropPlus : List Char → List Char
  | '+' :: rest => rest
  | text => text

/-- The hash of a hexadecimal number of 64 bits. A plus may stand before its digits, of which there
may be any number. -/
def ofHex? (s : String) : Option ContentHash :=
  (Text.Hex.parse? (dropPlus s.toList)).bind fun n =>
    if n < UInt64.size then some ⟨UInt64.ofNat n⟩ else none

end ContentHash

end KernelForge
