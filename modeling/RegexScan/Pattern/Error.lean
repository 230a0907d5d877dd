import RegexScan.Pattern.Token

/-!
# Errors of a pattern
-/

namespace RegexScan.Pattern

/-- Why a pattern is not well formed.  Each error names the first token that no well-formed pattern
could have in its place. -/
inductive ParseError where
  | expectedOperand (found : Token)
  | unclosedGroup (opened : Nat) (found : Token)
  | unclosedClass (opened : Nat) (found : Token)
  | danglingRange (offset : Nat) (found : Token)
  | unexpectedInClass (found : Token)
  | trailingInput (found : Token)
deriving DecidableEq, Repr

namespace ParseError

/-- The token at which reading stopped. -/
def found : ParseError → Token
  | .expectedOperand t | .unclosedGroup _ t | .unclosedClass _ t
  | .danglingRange _ t | .unexpectedInClass t | .trailingInput t => t

/-- What was expected and what was found, with its place. -/
def message : ParseError → String
  | .expectedOperand t => "expected an operand, found " ++ t.message
  | .unclosedGroup opened t =>
    "unclosed group: expected operator ')', found " ++ t.message ++
      " (group opened at offset " ++ toString opened ++ ")"
  | .unclosedClass opened t =>
    "unclosed character class: found " ++ t.message ++
      " (class opened at offset " ++ toString opened ++ ")"
  | .danglingRange offset t =>
    "range operator at offset " ++ toString offset ++ " requires two operands, found " ++ t.message
  | .unexpectedInClass t => "unexpected " ++ t.message ++ " in character class"
  | .trailingInput t => "unexpected " ++ t.message ++ " after the end of the expression"

end ParseError

end RegexScan.Pattern
