import RegexScan.Pattern.Parser

/-!
# The grammar of patterns

Which words over the kinds of tokens are expressions, and of which tree.

```
expr  ::=  str ('|' str?)*
str   ::=  rep rep*
rep   ::=  term '*'?
term  ::=  '(' expr ')'  |  '[' '^'? item* ']'  |  literal  |  empty string
item  ::=  literal  |  literal '-' literal
```

A `^` at the beginning of a class always negates.  An item of one literal is not followed by a
dash, except that a dash at the end of the class is a literal too.
-/

namespace RegexScan

namespace Pattern

/-- Characters stand for themselves, and so do `^` and `-` where they mean nothing else. -/
inductive IsLiteral : TokenKind → Char → Prop
  | char (c : Char) : IsLiteral (.char c) c
  | caret : IsLiteral (.operator '^') '^'
  | dash : IsLiteral (.operator '-') '-'

/-- The items of a character class and the characters they list.  A range lists the characters
between its ends, which may come in either order. -/
inductive IsItems : List TokenKind → List Char → Prop
  | nil : IsItems [] []
  | single {k : TokenKind} {w : List TokenKind} {c : Char} {cs : List Char} :
      IsLiteral k c → w.head? ≠ some (.operator '-') → IsItems w cs → IsItems (k :: w) (c :: cs)
  | range {k l : TokenKind} {w : List TokenKind} {c d : Char} {cs : List Char} :
      IsLiteral k c → IsLiteral l d → IsItems w cs →
        IsItems (k :: .operator '-' :: l :: w) ((CharSet.range c d).items ++ cs)
  | dangling {k : TokenKind} {c : Char} :
      IsLiteral k c → IsItems [k, .operator '-'] [c, '-']

/-- What stands between the brackets of a character class, and the set it denotes. -/
inductive IsClass : List TokenKind → CharSet → Prop
  | listed {w : List TokenKind} {cs : List Char} :
      w.head? ≠ some (.operator '^') → IsItems w cs → IsClass w (.ofList cs)
  | negated {w : List TokenKind} {cs : List Char} :
      IsItems w cs → IsClass (.operator '^' :: w) (CharSet.ofList cs).compl

/-- The tree of terms in a row. -/
def ofTerms : List Regex → Regex
  | [] => .empty
  | [r] => r
  | rs => .seq rs

/-- The tree of alternatives. -/
def ofBranches : List Regex → Regex
  | [r] => r
  | rs => .alt rs

/-- Two terms or more make a sequence. -/
theorem ofTerms_of_two_le {rs : List Regex} (h : 2 ≤ rs.length) : ofTerms rs = .seq rs := by
  match rs with
  | _ :: _ :: _ => rfl

/-- Two branches or more make an alternative. -/
theorem ofBranches_of_two_le {bs : List Regex} (h : 2 ≤ bs.length) : ofBranches bs = .alt bs := by
  match bs with
  | _ :: _ :: _ => rfl

mutual

/-- The first alternative may not be hollow. -/
inductive IsExpr : List TokenKind → Regex → Prop
  | branches {v w : List TokenKind} {rs bs : List Regex} :
      IsReps v rs → rs ≠ [] → IsBranches w bs → IsExpr (v ++ w) (ofBranches (ofTerms rs :: bs))

/-- The further alternatives, each behind its bar. -/
inductive IsBranches : List TokenKind → List Regex → Prop
  | nil : IsBranches [] []
  | cons {v w : List TokenKind} {rs bs : List Regex} :
      IsReps v rs → IsBranches w bs → IsBranches (.operator '|' :: v ++ w) (ofTerms rs :: bs)

inductive IsReps : List TokenKind → List Regex → Prop
  | nil : IsReps [] []
  | cons {v w : List TokenKind} {r : Regex} {rs : List Regex} :
      IsRep v r → IsReps w rs → IsReps (v ++ w) (r :: rs)

inductive IsRep : List TokenKind → Regex → Prop
  | once {w : List TokenKind} {r : Regex} : IsTerm w r → IsRep w r
  | star {w : List TokenKind} {r : Regex} : IsTerm w r → IsRep (w ++ [.operator '*']) (.star r)

inductive IsTerm : List TokenKind → Regex → Prop
  | group {w : List TokenKind} {r : Regex} :
      IsExpr w r → IsTerm (.operator '(' :: w ++ [.operator ')']) r
  | charClass {w : List TokenKind} {s : CharSet} :
      IsClass w s → IsTerm (.operator '[' :: w ++ [.operator ']']) (.set s)
  | literal {k : TokenKind} {c : Char} : IsLiteral k c → IsTerm [k] (.literal c)
  | empty : IsTerm [.emptyString] .empty

end

/-- The kinds of the tokens before the first end of the pattern. -/
def body (ts : List Token) : List TokenKind :=
  (ts.map (·.kind)).takeWhile (· ≠ .endOfPattern)

theorem body_nil : body [] = [] := rfl

theorem body_cons {t : Token} (ht : t.kind ≠ .endOfPattern) (ts : List Token) :
    body (t :: ts) = t.kind :: body ts := by
  rw [body, List.map_cons, List.takeWhile_cons_of_pos (by simpa using ht), body]

theorem body_cons_of_end {t : Token} (ht : t.kind = .endOfPattern) (ts : List Token) :
    body (t :: ts) = [] := by
  rw [body, List.map_cons, List.takeWhile_cons_of_neg (by simp [ht])]

/-! ## Literals -/

/-- A token reads as a character when it is a literal. -/
theorem literal?_eq_some_iff {k : TokenKind} {c : Char} :
    k.literal? = some c ↔ IsLiteral k c := by
  constructor
  · intro h
    cases k with
    | char d =>
      cases h
      exact .char c
    | operator d =>
      rw [TokenKind.literal?] at h
      split at h
      · next hd =>
        cases h
        rcases hd with rfl | rfl
        · exact .caret
        · exact .dash
      · cases h
    | emptyString => cases h
    | endOfPattern => cases h
  · intro h
    cases h with
    | char => rfl
    | caret => rfl
    | dash => rfl

/-- A token reads as no character when it is no literal. -/
theorem literal?_eq_none_iff {k : TokenKind} : k.literal? = none ↔ ∀ c, ¬IsLiteral k c := by
  rw [Option.eq_none_iff_forall_ne_some]
  exact forall_congr' fun c ↦ not_congr literal?_eq_some_iff

/-! ## Words in a row -/

theorem IsReps.singleton {w : List TokenKind} {r : Regex} (h : IsRep w r) : IsReps w [r] := by
  have hcons := IsReps.cons h .nil
  rwa [List.append_nil] at hcons

/-- Two sequences of terms in a row are one. -/
theorem IsReps.append {v w : List TokenKind} {rs ss : List Regex} (h : IsReps v rs)
    (h' : IsReps w ss) : IsReps (v ++ w) (rs ++ ss) := by
  match h with
  | .nil => exact h'
  | .cons hrep h =>
    rw [List.append_assoc]
    exact .cons hrep (h.append h')

/-- A branch behind a bar goes on with branches. -/
theorem IsBranches.concat {v w : List TokenKind} {rs bs : List Regex} (h : IsBranches v bs)
    (h' : IsReps w rs) : IsBranches (v ++ .operator '|' :: w) (bs ++ [ofTerms rs]) := by
  match h with
  | .nil =>
    have hcons := IsBranches.cons h' .nil
    rwa [List.append_nil] at hcons
  | .cons hreps h =>
    rw [List.append_assoc]
    exact .cons hreps (h.concat h')

end Pattern

/-! ## No tree has a sequence or an alternation of fewer than two -/

namespace Regex

mutual

/-- Every sequence and every alternation has at least two children. -/
def Branching : Regex → Prop
  | .seq rs => 2 ≤ rs.length ∧ AllBranching rs
  | .alt rs => 2 ≤ rs.length ∧ AllBranching rs
  | .star r => r.Branching
  | .set _ => True
  | .empty => True

def AllBranching : List Regex → Prop
  | [] => True
  | r :: rs => r.Branching ∧ AllBranching rs

end

/-- Terms with enough children in their nodes make such a tree. -/
theorem branching_ofTerms {rs : List Regex} (h : AllBranching rs) :
    (Pattern.ofTerms rs).Branching := by
  match rs with
  | [] => trivial
  | [_] => exact h.1
  | _ :: _ :: _ => exact ⟨Nat.le_add_left .., h⟩

/-- Branches with enough children in their nodes make such a tree. -/
theorem branching_ofBranches {r : Regex} {bs : List Regex} (h : AllBranching (r :: bs)) :
    (Pattern.ofBranches (r :: bs)).Branching := by
  match bs with
  | [] => exact h.1
  | _ :: _ => exact ⟨Nat.le_add_left .., h⟩

end Regex

namespace Pattern

open Regex

mutual

/-- In the tree of an expression every sequence and alternative has two children or more. -/
theorem IsExpr.branching {w : List TokenKind} {r : Regex} (h : IsExpr w r) : r.Branching := by
  match h with
  | .branches hreps _ hbranches =>
    exact branching_ofBranches ⟨branching_ofTerms hreps.branching, hbranches.branching⟩

/-- So it is in the trees of branches. -/
theorem IsBranches.branching {w : List TokenKind} {bs : List Regex} (h : IsBranches w bs) :
    AllBranching bs := by
  match h with
  | .nil => trivial
  | .cons hreps hbranches => exact ⟨branching_ofTerms hreps.branching, hbranches.branching⟩

theorem IsReps.branching {w : List TokenKind} {rs : List Regex} (h : IsReps w rs) :
    AllBranching rs := by
  match h with
  | .nil => trivial
  | .cons hrep hreps => exact ⟨hrep.branching, hreps.branching⟩

theorem IsRep.branching {w : List TokenKind} {r : Regex} (h : IsRep w r) : r.Branching := by
  match h with
  | .once hterm => exact hterm.branching
  | .star hterm => exact hterm.branching

theorem IsTerm.branching {w : List TokenKind} {r : Regex} (h : IsTerm w r) : r.Branching := by
  match h with
  | .group hexpr => exact hexpr.branching
  | .charClass _ => trivial
  | .literal _ => trivial
  | .empty => trivial

end

end Pattern

end RegexScan
