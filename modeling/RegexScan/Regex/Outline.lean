import RegexScan.Regex.Basic

/-!
# Regular expressions as indented outlines
-/

namespace RegexScan.Regex

/-- The line of a node by itself. -/
def label : Regex → List Char
  | .seq _ => "\x7band\x7d".toList
  | .alt _ => "\x7bor\x7d".toList
  | .star _ => "\x7bstar\x7d".toList
  | .set s => '\x7b' :: s.text ++ ":set\x7d".toList
  | .empty => "\x7bempty string\x7d".toList

mutual

/-- The labels of a tree with the depth of each, every node above its children. -/
def outline (depth : Nat) : Regex → List (Nat × List Char)
  | .seq rs => (depth, label (.seq rs)) :: outlines (depth + 1) rs
  | .alt rs => (depth, label (.alt rs)) :: outlines (depth + 1) rs
  | .star r => (depth, label (.star r)) :: outline (depth + 1) r
  | .set s => [(depth, label (.set s))]
  | .empty => [(depth, label .empty)]

/-- The outlines of siblings, one below the other. -/
def outlines (depth : Nat) : List Regex → List (Nat × List Char)
  | [] => []
  | r :: rs => outline depth r ++ outlines depth rs

end

/-- A line of the outline: below the root, an arrow stands before the label. -/
def outlineLine : Nat × List Char → List Char
  | (0, label) => label ++ ['\n']
  | (depth + 1, label) => List.replicate (3 * depth) ' ' ++ "└─>".toList ++ label ++ ['\n']

/-- The outline of a tree, line by line. -/
def text (r : Regex) : List Char := (r.outline 0).flatMap outlineLine

end RegexScan.Regex
