import KernelForge.Store.ContentHash
import KernelForge.Table
/-!
# The index file

The index says for each hash which file holds the kernel and who wrote it. It is written as a
version number, the number of entries and the entries. Numbers have a fixed width, the lowest byte
first, and a text is its length in bytes and its bytes in UTF-8. On reading, a later entry replaces
an earlier one of the same hash, bytes behind the last entry count for nothing, and the version is
looked at last.
-/
namespace KernelForge

/-- What the index records of a kernel. -/
structure Entry where
  /-- The name of the kernel's file in the directory of the store. -/
  file : String
  role : String
  provenance : String
  deriving DecidableEq

abbrev Entries := Table ContentHash Entry

namespace Index

def version : Nat := 1

/-! ## Writing -/

/-- The lowest `width` bytes of a number. -/
def numberBytes : Nat → Nat → List UInt8
  | 0, _ => []
  | width + 1, n => UInt8.ofNat n :: numberBytes width (n / 256)

def textBytes (s : String) : List UInt8 :=
  let bytes := Text.Utf8.bytes s
  numberBytes 8 bytes.length ++ bytes

def entryBytes (hash : ContentHash) (e : Entry) : List UInt8 :=
  numberBytes 8 hash.value.toNat ++ textBytes e.file ++ textBytes e.role ++ textBytes e.provenance

/-- The index of entries in a given order. -/
def encode (pairs : List (ContentHash × Entry)) : List UInt8 :=
  numberBytes 4 version ++ numberBytes 8 pairs.length ++ pairs.flatMap fun (h, e) => entryBytes h e

/-! ## Reading -/

inductive Fault
  | endInNumber
  | endInText
  | badText (fault : Text.Utf8.Fault)
  | wrongVersion (found : Nat)
  deriving DecidableEq

def Fault.message : Fault → String
  | endInNumber => "io error: unexpected end of file"
  | endInText => "io error: "
  | badText fault => "string is not valid utf8: " ++ fault.message
  | wrongVersion found =>
    "index version " ++ toString found ++ " (expected " ++ toString version ++ ")"

/-- Reads a value from the front of bytes and leaves the rest. -/
abbrev Reader := StateT (List UInt8) (Except Fault)

def value (bytes : List UInt8) : Nat := bytes.foldr (fun b n => b.toNat + 256 * n) 0

def readNumber (width : Nat) : Reader Nat := fun bytes =>
  if bytes.length < width then .error .endInNumber
  else .ok (value (bytes.take width), bytes.drop width)

def readChars (length : Nat) : Reader String := fun bytes =>
  if bytes.length < length then .error .endInText
  else
    match Text.Utf8.decode (bytes.take length) with
    | .error fault => .error (.badText fault)
    | .ok cs => .ok (String.ofList cs, bytes.drop length)

def readText : Reader String := do readChars (← readNumber 8)

def readEntries : Nat → Entries → Reader Entries
  | 0, entries => return entries
  | count + 1, entries => do
    let hash ← readNumber 8
    let file ← readText
    let role ← readText
    let provenance ← readText
    readEntries count (entries.insert ⟨UInt64.ofNat hash⟩ ⟨file, role, provenance⟩)

def readIndex : Reader Entries := do
  let found ← readNumber 4
  let count ← readNumber 8
  let entries ← readEntries count .empty
  if found = version then return entries else throw (.wrongVersion found)

def decode (bytes : List UInt8) : Except Fault Entries := (readIndex bytes).map Prod.fst

end Index

end KernelForge
