import RegexScan.CharSet.Basic
import RegexScan.Pattern.Error

/-!
# Reading a character class

A `^` right behind the opening bracket negates the class.  Elsewhere it is an item like any other
character, and so is a dash unless it stands between two of them.

```
class  ::=  '[' '^'? item* ']'
item   ::=  c  |  c '-' c
c      ::=  char  |  '^'  |  '-'
```
-/

namespace RegexScan.Pattern

/-- How far the item at hand of a character class has been read. -/
inductive ClassItem where
  /-- The class has just been opened, and a `^` negates it. -/
  | opening
  | none
  | first (c : Char)
  /-- The character is followed by a dash. -/
  | range (c : Char) (dash : Nat)
deriving DecidableEq

/-- A class being read: the place of its bracket, whether it is negated, and the
characters of the items that are complete. -/
structure OpenClass where
  opened : Nat
  negated : Bool
  members : CharSet
  item : ClassItem
deriving DecidableEq

namespace OpenClass

/-- A class behind its bracket. -/
def start (opened : Nat) : OpenClass := ⟨opened, false, .empty, .opening⟩

/-- Complete an item. -/
def add (k : OpenClass) (s : CharSet) : OpenClass :=
  { k with members := k.members ∪ s, item := .none }

/-- The set of the class if it is closed here. -/
def set (k : OpenClass) : CharSet := if k.negated then k.members.compl else k.members

/-- The class after a token, or its set if the token closes it. -/
def step (k : OpenClass) (t : Token) : Option (OpenClass ⊕ CharSet) :=
  match k.item with
  | .opening =>
    if t.kind = .operator '^' then some (.inl { k with negated := true, item := .none })
    else begin k
  | .none => begin k
  | .first c =>
    if t.kind = .operator '-' then some (.inl { k with item := .range c t.offset })
    else begin (k.add (.singleton c))
  | .range c _ =>
    match t.kind.literal? with
    | some d => some (.inl (k.add (.range c d)))
    | none => close ((k.add (.singleton c)).add (.singleton '-'))
where
  close (k : OpenClass) : Option (OpenClass ⊕ CharSet) :=
    if t.kind = .operator ']' then some (.inr k.set) else none
  begin (k : OpenClass) : Option (OpenClass ⊕ CharSet) :=
    match t.kind.literal? with
    | some c => some (.inl { k with item := .first c })
    | none => close k

/-- The error if a token can not go on with the class. -/
def refuse (k : OpenClass) (t : Token) : ParseError :=
  match k.item with
  | .range _ dash => .danglingRange dash t
  | _ => if t.kind = .endOfPattern then .unclosedClass k.opened t else .unexpectedInClass t

end OpenClass

end RegexScan.Pattern
