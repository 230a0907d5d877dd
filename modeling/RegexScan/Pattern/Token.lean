import RegexScan.Text.Quoted

/-!
# Tokens of a pattern

A pattern is split into its tokens character by character, and a backslash takes the character
behind it along.  The last token marks the end.
-/

namespace RegexScan.Pattern

/-- A character that stands for itself, an operator, the empty string, or the end. -/
inductive TokenKind where
  | char (c : Char)
  | operator (c : Char)
  | emptyString
  | endOfPattern
deriving DecidableEq, Repr

/-- A token and the place of its first character. -/
structure Token where
  kind : TokenKind
  offset : Nat
deriving DecidableEq, Repr

namespace TokenKind

/-- The character a token stands for by itself: `^` and `-` have a meaning of their own only at
certain places of a class. -/
def literal? : TokenKind → Option Char
  | .char c => some c
  | .operator c => if c = '^' ∨ c = '-' then some c else none
  | .emptyString => none
  | .endOfPattern => none

/-- How a token is named in a message. -/
def message : TokenKind → String
  | .char c => "character " ++ Text.quotedChar c
  | .operator c => "operator '" ++ c.toString ++ "'"
  | .emptyString => "empty-string marker"
  | .endOfPattern => "end of pattern"

end TokenKind

def Token.message (t : Token) : String :=
  t.kind.message ++ " at offset " ++ toString t.offset

/-! ## Splitting a pattern -/

/-- What an unescaped character means. -/
def plain (c : Char) : TokenKind :=
  if c ∈ ['(', ')', '[', ']', '|', '*', '^', '-'] then .operator c else .char c

/-- What a character behind a backslash means. -/
def escaped : Char → TokenKind
  | 's' => .char ' '
  | 't' => .char '\t'
  | 'n' => .char '\n'
  | 'e' => .emptyString
  | c => .char c

/-- The tokens of a pattern whose first character stands at `offset`.  A backslash with nothing
behind it is dropped. -/
def lexFrom (offset : Nat) : List Char → List Token
  | [] => [⟨.endOfPattern, offset⟩]
  | ['\\'] => [⟨.endOfPattern, offset + 1⟩]
  | '\\' :: c :: cs => ⟨escaped c, offset⟩ :: lexFrom (offset + 2) cs
  | c :: cs => ⟨plain c, offset⟩ :: lexFrom (offset + 1) cs

/-- The tokens of a pattern. -/
def lex (pattern : String) : List Token := lexFrom 0 pattern.toList

end RegexScan.Pattern
