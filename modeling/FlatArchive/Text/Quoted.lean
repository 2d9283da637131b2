import FlatArchive.Bytes.Hexadecimal

/-!
# Quoted text

Text between double quotes, as JSON writes it.  The quote, the backslash and the
control characters are written with a backslash, the five common control
characters by a letter and the others by four digits; every other character
stands for itself.

`escape` takes over the table by which the library `serde_json` writes strings; JSON
itself would allow more, such as numbers for characters that stand for themselves.
-/

namespace FlatArchive.Quoted

/-- How one character is written. -/
def escape (c : Char) : List Char :=
  if c = '"' then ['\\', '"']
  else if c = '\\' then ['\\', '\\']
  else if c = '\n' then ['\\', 'n']
  else if c = '\r' then ['\\', 'r']
  else if c = '\t' then ['\\', 't']
  else if c.toNat = 8 then ['\\', 'b']
  else if c.toNat = 12 then ['\\', 'f']
  else if c.toNat < 32 then ['\\', 'u'] ++ Hexadecimal.digits 4 c.toNat
  else [c]

/-- A text as JSON writes it. -/
def encode (text : String) : String :=
  String.ofList ('"' :: (text.toList.flatMap escape ++ ['"']))

end FlatArchive.Quoted
