import RegexScan.Pattern.CharClass
import RegexScan.Regex.Basic

/-!
# Reading a pattern

The tokens are read from left to right, and the state holds what is still open: the groups, the
alternatives of each, and at most one character class.  A state takes a token or refuses it, and
which error a refusal is depends on the state and the token alone.

```
expr  ::=  str ('|' str?)*
str   ::=  (term '*'?)+
term  ::=  '(' expr ')'  |  '[' '^'? item* ']'  |  char  |  '^'  |  '-'  |  empty string
```
-/

namespace RegexScan.Pattern

/-- The part of an expression read so far, newest first: the finished alternatives and the terms of
the last one.  A star may follow only a term that has none. -/
structure Branches where
  finished : List Regex
  terms : List Regex
  starrable : Bool

namespace Branches

/-- Nothing has been read. -/
def start : Branches := ⟨[], [], false⟩

/-- Whether nothing of the expression has been read. -/
def isBlank (b : Branches) : Bool := b.finished.isEmpty && b.terms.isEmpty

/-- Read one term more. -/
def push (b : Branches) (r : Regex) : Branches :=
  { b with terms := r :: b.terms, starrable := true }

/-- Repeat the last term, if there is one without a star. -/
def star? (b : Branches) : Option Branches :=
  match b.starrable, b.terms with
  | true, r :: rs => some { b with terms := .star r :: rs, starrable := false }
  | _, _ => none

/-- The last alternative.  One without terms is the empty string. -/
def last (b : Branches) : Regex :=
  match b.terms with
  | [] => .empty
  | [r] => r
  | rs => .seq rs.reverse

/-- End the last alternative and begin one more. -/
def next (b : Branches) : Branches := ⟨b.last :: b.finished, [], false⟩

/-- The alternatives as one expression.  A single one stands for itself. -/
def expr (b : Branches) : Regex :=
  match b.finished with
  | [] => b.last
  | rs => .alt (b.last :: rs).reverse

end Branches

/-- The innermost expression, the groups around it with the place of each opening operator, and the
class being read. -/
structure State where
  inner : Branches
  groups : List (Nat × Branches)
  openClass : Option OpenClass

namespace State

/-- No group and no class is open. -/
def start : State := ⟨.start, [], none⟩

/-- Read one term more of the innermost expression, which may be a class that is closed. -/
def push (st : State) (r : Regex) : State := { st with inner := st.inner.push r, openClass := none }

/-- The state after an operator outside of classes. -/
def operate (st : State) (offset : Nat) : (operator : Char) → Option State
  | '^' => some (st.push (.literal '^'))
  | '-' => some (st.push (.literal '-'))
  | '(' => some ⟨.start, (offset, st.inner) :: st.groups, none⟩
  | '[' => some { st with openClass := some (.start offset) }
  | '*' => st.inner.star?.map fun b ↦ { st with inner := b }
  | '|' => if st.inner.isBlank then none else some { st with inner := st.inner.next }
  | ')' =>
    match st.groups with
    | (_, outer) :: groups =>
      if st.inner.isBlank then none else some ⟨outer.push st.inner.expr, groups, none⟩
    | [] => none
  | _ => none

/-- The state after a token, if the token can follow. -/
def step (st : State) (t : Token) : Option State :=
  match st.openClass with
  | some k => (k.step t).map fun
    | .inl k => { st with openClass := some k }
    | .inr s => st.push (.set s)
  | none =>
    match t.kind with
    | .char c => some (st.push (.literal c))
    | .emptyString => some (st.push .empty)
    | .operator c => st.operate t.offset c
    | .endOfPattern => none

/-- The error if a token can not follow. -/
def refuse (st : State) (t : Token) : ParseError :=
  match st.openClass with
  | some k => k.refuse t
  | none =>
    if st.inner.isBlank then .expectedOperand t
    else match st.groups with
      | (opened, _) :: _ => .unclosedGroup opened t
      | [] => .trailingInput t

/-- The whole expression, if the pattern may end here. -/
def result? (st : State) : Option Regex :=
  match st.openClass, st.groups with
  | none, [] => if st.inner.isBlank then none else some st.inner.expr
  | _, _ => none

/-- The whole expression, or the error if the pattern may not end here. -/
def finish (st : State) (t : Token) : Except ParseError Regex :=
  match st.result? with
  | some r => .ok r
  | none => .error (st.refuse t)

/-- Read tokens up to the first end of the pattern.  A stream without one ends where its last token
stands. -/
def run (st : State) (lastOffset : Nat) : List Token → Except ParseError Regex
  | [] => st.finish ⟨.endOfPattern, lastOffset⟩
  | t :: ts =>
    if t.kind = .endOfPattern then st.finish t
    else match st.step t with
      | some st => st.run t.offset ts
      | none => .error (st.refuse t)

end State

/-- The tree of a stream of tokens. -/
def parseTokens (ts : List Token) : Except ParseError Regex := State.start.run 0 ts

/-- The tree of a pattern. -/
def parse (pattern : String) : Except ParseError Regex := parseTokens (lex pattern)

end RegexScan.Pattern
