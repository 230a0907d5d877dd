import RegexScan.Machine.Scan
import RegexScan.Text.Quoted

/-!
# Patterns and what to do with their matches
-/

namespace RegexScan

/-- An action runs in some monad and answers whether the scan is to stop. -/
abbrev Action (m : Type → Type) := Match → m Bool

/-- A pattern and what is to be done with its matches. -/
structure Rule (m : Type → Type) where
  pattern : String
  action : Action m

/-- Rules in the order of their priority, and how many states an automaton for them may have. -/
structure RuleSet (m : Type → Type) where
  rules : List (Rule m)
  maxStates : Option Nat

namespace RuleSet

variable {m : Type → Type}

/-- No rules and no limit. -/
def empty : RuleSet m := ⟨[], none⟩

/-- Replace the rule with the same pattern, or else add the rule at the end. -/
def put (rule : Rule m) : List (Rule m) → List (Rule m)
  | [] => [rule]
  | r :: rs => if r.pattern = rule.pattern then rule :: rs else r :: put rule rs

/-- Add a pattern with its action.  A pattern that is there already keeps its place and gets the new
action. -/
def insert (rules : RuleSet m) (pattern : String) (action : Action m) : RuleSet m :=
  { rules with rules := put ⟨pattern, action⟩ rules.rules }

/-- Set the limit, in place of any other. -/
def withMaxStates (rules : RuleSet m) (limit : Nat) : RuleSet m :=
  { rules with maxStates := some limit }

/-- The patterns in the order of their priority. -/
def patterns (rules : RuleSet m) : List String := rules.rules.map (·.pattern)

/-- The number of rules. -/
def length (rules : RuleSet m) : Nat := rules.rules.length

/-- Whether there are no rules. -/
def isEmpty (rules : RuleSet m) : Bool := rules.rules.isEmpty

def summary (rules : RuleSet m) : String :=
  let limit := match rules.maxStates with
    | some n => "Some(" ++ toString n ++ ")"
    | none => "None"
  "Syntax \x7b patterns: [" ++ ", ".intercalate (rules.patterns.map Text.quotedString) ++
    "], max_states: " ++ limit ++ " \x7d"

end RuleSet

end RegexScan
