import KernelForge.Text.Unprintable
/-!
# Quoted text

A text in double quotes, on one line and with every character visible. A quote, a backslash and the
common controls have escapes of their own; other unprintable characters are shown by their code
point.
-/
namespace KernelForge.Text

/-- The characters that stand for one character between quotes. -/
def escape (c : Char) : List Char :=
  if c = '"' then ['\\', '"']
  else if c = '\\' then ['\\', '\\']
  else if c = '\n' then ['\\', 'n']
  else if c = '\r' then ['\\', 'r']
  else if c = '\t' then ['\\', 't']
  else if c.toNat = 0 then ['\\', '0']
  else if isUnprintable c then
    ['\\', 'u', '\x7b'] ++ Nat.toDigits 16 c.toNat ++ ['\x7d']
  else [c]

def quoted (text : String) : String :=
  "\"" ++ String.ofList (text.toList.flatMap escape) ++ "\""

end KernelForge.Text
