import RegexScan.Regex.Basic

/-!
# Matching without an automaton

From a position of the text, a tree can stop at several others.  Following the tree finds all of
them, which says what an expression matches without building anything.
-/

namespace RegexScan.Regex

mutual

/-- The positions at which a match that begins at `start` can end, ascending.  The body of a star is
tried from every position reached, from left to right. -/
def ends (text : Array Char) : Regex → (start : Nat) → List Nat
  | .set s, start =>
    match text[start]? with
    | some c => if s.contains c then [start + 1] else []
    | none => []
  | .empty, start => [start]
  | .seq rs, start => endsOfSeq text rs [start]
  | .alt rs, start => endsOfAlt text rs start
  | .star r, start =>
    (List.range' start (text.size + 1 - start)).foldl
      (fun reached p ↦
        if Ascending.mem p reached then Ascending.union reached (r.ends text p) else reached)
      [start]

/-- The positions behind trees in a row, from each of some positions. -/
def endsOfSeq (text : Array Char) : List Regex → (starts : List Nat) → List Nat
  | [], starts => starts
  | r :: rs, starts => endsOfSeq text rs (Ascending.ofList (starts.flatMap (r.ends text)))

/-- The positions behind one of several trees. -/
def endsOfAlt (text : Array Char) : List Regex → (start : Nat) → List Nat
  | [], _ => []
  | r :: rs, start => Ascending.union (r.ends text start) (endsOfAlt text rs start)

end

/-- Whether a tree matches all of a text. -/
def fullMatch (r : Regex) (text : String) : Bool :=
  let chars := text.toList.toArray
  (r.ends chars 0).contains chars.size

/-- The longest matches from left to right, each with its offset.  The next one is looked for behind
the last one, and at least one character further on. -/
def matchesFrom (r : Regex) (text : Array Char) (start : Nat) : List (Nat × String) :=
  if start < text.size then
    match (r.ends text start).getLast? with
    | some stop =>
      (start, String.ofList (text.extract start stop).toList) ::
        r.matchesFrom text (max stop (start + 1))
    | none => r.matchesFrom text (start + 1)
  else []
termination_by text.size - start

/-- The longest matches in a text. -/
def findAll (r : Regex) (text : String) : List (Nat × String) :=
  r.matchesFrom text.toList.toArray 0

end RegexScan.Regex
