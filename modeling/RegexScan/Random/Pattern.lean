import RegexScan.Random.Dice

/-!
# Random patterns

Patterns that are well formed whatever the dice say: a first alternative is never hollow, a star
follows a term that has none, and a dash stands between two characters.
-/

namespace RegexScan.Dice

variable {σ : Type} (dice : Dice σ) (alphabet : List Char) (ha : 0 < alphabet.length)

/-- A character of a class, or two with a dash between them. -/
def classItem : StateM σ (List Char) := do
  let c ← dice.sample alphabet ha
  if ← dice.chance 40 then
    let d ← dice.sample alphabet ha
    return [c, '-', d]
  else return [c]

/-- Up to two items between brackets, at times behind a `^`. -/
def charClass : StateM σ (List Char) := do
  let negated ← dice.chance 30
  let count ← dice.range 0 3 (by decide)
  let items ← repeated (dice.classItem alphabet ha) count
  return '[' :: (if negated then ['^'] else []) ++ items.flatten ++ [']']

/-- A character, a class or the empty string, or a group if there is an expression to put in it. -/
def term (inner : Option (StateM σ (List Char))) : StateM σ (List Char) := do
  let kind ← dice.below (if inner.isSome then 5 else 4) (by split <;> decide)
  match kind.val, inner with
  | 0, _ | 1, _ => return [← dice.sample alphabet ha]
  | 2, _ => dice.charClass alphabet ha
  | 4, some expr => return '(' :: (← expr) ++ [')']
  | _, _ => return ['\\', 'e']

/-- A term, at times with a star. -/
def starred (inner : Option (StateM σ (List Char))) : StateM σ (List Char) := do
  let t ← dice.term alphabet ha inner
  return if ← dice.chance 25 then t ++ ['*'] else t

/-- One to three terms in a row. -/
def sequence (inner : Option (StateM σ (List Char))) : StateM σ (List Char) := do
  let count ← dice.range 1 4 (by decide)
  return (← repeated (dice.starred alphabet ha inner) count).flatten

/-- A further alternative, at times a hollow one. -/
def alternative (inner : Option (StateM σ (List Char))) : StateM σ (List Char) := do
  if ← dice.chance 10 then return [] else dice.sequence alphabet ha inner

/-- A sequence, at times with further alternatives. -/
def expression (inner : Option (StateM σ (List Char))) : StateM σ (List Char) := do
  let count ← if ← dice.chance 30 then dice.range 2 4 (by decide) else pure 1
  let first ← dice.sequence alphabet ha inner
  let others ← repeated (dice.alternative alphabet ha inner) (count - 1)
  return ['|'].intercalate (first :: others)

/-- A pattern over an alphabet whose groups are nested at most so deep. -/
def pattern : (depth : Nat) → StateM σ (List Char)
  | 0 => dice.expression alphabet ha none
  | depth + 1 => dice.expression alphabet ha (some (pattern depth))

end RegexScan.Dice
