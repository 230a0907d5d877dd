import RegexScan.CharSet.Basic

/-!
# Regular expressions
-/

namespace RegexScan

/-- A sequence without terms stands for the empty string, an alternation without branches matches
nothing. -/
inductive Regex where
  | seq (terms : List Regex)
  | alt (branches : List Regex)
  | star (body : Regex)
  | set (chars : CharSet)
  | empty

namespace Regex

/-- One character. -/
def literal (c : Char) : Regex := .set (.singleton c)

end Regex

end RegexScan
