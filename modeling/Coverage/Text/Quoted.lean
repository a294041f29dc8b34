import Coverage.Text.Printable

/-!
# Quoted text

A string as a literal of the language: between single quotes, unless it holds a single quote and no double
quote. Backslashes, the quote in use and everything that is not printable are escaped.
-/

namespace Coverage.Text

def hexDigit (n : Nat) : Char := ("0123456789abcdef".toList[n % 16]?).getD '0'

/-- The last `width` hexadecimal digits of a number. -/
def hex (width n : Nat) : List Char :=
  (List.range width).reverse.map fun i ↦ hexDigit (n / Nat.pow 16 i)

/-- A character that is not printable, by its code point in the shortest of the three forms. -/
def escapeCode (c : Char) : List Char :=
  let n := c.toNat
  if n < 0x100 then ['\\', 'x'] ++ hex 2 n
  else if n < 0x10000 then ['\\', 'u'] ++ hex 4 n
  else ['\\', 'U'] ++ hex 8 n

/-- One character between quotes of the given kind. -/
def escape (quote c : Char) : List Char :=
  if c = quote || c = '\\' then ['\\', c]
  else if c = '\n' then ['\\', 'n']
  else if c = '\r' then ['\\', 'r']
  else if c = '\t' then ['\\', 't']
  else if isPrintable c then [c]
  else escapeCode c

def quoteFor (cs : List Char) : Char :=
  if cs.contains '\'' && !cs.contains '"' then '"' else '\''

/-- Bytes between quotes; only those of printable ASCII characters stand for themselves. -/
def quotedBytes (bytes : List UInt8) : String :=
  let cs := bytes.map fun b ↦ Char.ofNat b.toNat
  let q := quoteFor cs
  String.ofList (q :: ((cs.flatMap fun c ↦ if c.toNat < 0x80 then escape q c else escapeCode c) ++ [q]))

def quoted (s : String) : String :=
  let cs := s.toList
  let q := quoteFor cs
  String.ofList (q :: (cs.flatMap (escape q) ++ [q]))

end Coverage.Text
