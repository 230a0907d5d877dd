import RegexScan.Text.Unprintable

/-!
# Text between quotes
-/

namespace RegexScan.Text

/-- How a character is written between quotes of the given kind: the quote, the backslash and the
common controls behind a backslash, other unprintable characters as hexadecimal code points. -/
def escape (quote c : Char) : List Char :=
  if c = quote ∨ c = '\\' then ['\\', c]
  else if c = '\x00' then ['\\', '0']
  else if c = '\t' then ['\\', 't']
  else if c = '\n' then ['\\', 'n']
  else if c = '\r' then ['\\', 'r']
  else if unprintable c then '\\' :: 'u' :: '\x7b' :: Nat.toDigits 16 c.toNat ++ ['\x7d']
  else [c]

/-- A text in double quotes. -/
def quoted (s : List Char) : List Char :=
  '"' :: s.flatMap (escape '"') ++ ['"']

/-- A text in double quotes. -/
def quotedString (s : String) : String :=
  String.ofList (quoted s.toList)

/-- A character in single quotes. -/
def quotedChar (c : Char) : String :=
  String.ofList ('\'' :: escape '\'' c ++ ['\''])

end RegexScan.Text
