import RegexScan.Dfa.Determinize
import RegexScan.Machine.Rules
import RegexScan.Nfa.Thompson
import RegexScan.Pattern.Parser

/-!
# Machines

A machine is built from rules: their patterns become one deterministic automaton, whose accepting
states carry the index of the first rule that accepts.
-/

namespace RegexScan

/-- Why a machine cannot be built, or a scan not go on. -/
inductive MachineError where
  | badPattern (pattern : String) (cause : Pattern.ParseError)
  | tooManyStates (cause : TooManyStates)
  | unreadable (cause : ReadError)
deriving DecidableEq, Repr

namespace MachineError

/-- The message of an error, with that of its cause. -/
def message : MachineError → String
  | .badPattern pattern cause =>
    "invalid pattern " ++ Text.quotedString pattern ++ ": " ++ cause.message
  | .tooManyStates cause => cause.message
  | .unreadable cause => "failed to read input: " ++ cause.message

/-- The message of the error behind this one, if there is one. -/
def cause? : MachineError → Option String
  | .badPattern _ cause => some cause.message
  | .tooManyStates _ => none
  | .unreadable cause => some cause.message

end MachineError

/-- A deterministic automaton that accepts with the indices of rules, and the rules. -/
structure Machine (m : Type → Type) where
  dfa : Dfa Nat
  rules : List (Rule m)

namespace Machine

variable {m : Type → Type}

/-- Add patterns to an automaton, each accepting its index. -/
def addPatterns (nfa : Nfa Nat) (index : Nat) : List String → Except MachineError (Nfa Nat)
  | [] => .ok nfa
  | p :: ps =>
    match Pattern.parse p with
    | .ok r => addPatterns (nfa.addRegex r index).1 (index + 1) ps
    | .error e => .error (.badPattern p e)

/-- Build a machine.  The first pattern that is not well formed is an error, and only then the
number of states is. -/
def build (rules : RuleSet m) : Except MachineError (Machine m) := do
  let nfa ← addPatterns .initial 0 rules.patterns
  match Dfa.determinize nfa rules.maxStates with
  | .ok dfa => return ⟨dfa, rules.rules⟩
  | .error e => throw (.tooManyStates e)

/-- A machine for a single pattern. -/
def buildOne (pattern : String) (action : Action m) : Except MachineError (Machine m) :=
  build (RuleSet.empty.insert pattern action)

/-- The patterns in the order of their rules. -/
def patterns (machine : Machine m) : List String := machine.rules.map (·.pattern)

/-- The patterns as the alternatives of one. -/
def pattern (machine : Machine m) : String := "|".intercalate machine.patterns

/-- The number of states. -/
def stateCount (machine : Machine m) : Nat := machine.dfa.size

/-- The joined pattern as it is, above the listing of the states. -/
def text (machine : Machine m) : String :=
  machine.pattern ++ "\n" ++ String.ofList machine.dfa.text

def summary (machine : Machine m) : String :=
  "Machine \x7b pattern: " ++ Text.quotedString machine.pattern ++ ", states: " ++
    toString machine.stateCount ++ " \x7d"

/-! ## Running -/

/-- Whether some pattern matches the whole text. -/
def fullMatch (machine : Machine m) (text : String) : Bool :=
  match machine.dfa.steps machine.dfa.start text.toList with
  | some s => (machine.dfa.accepting? s).isSome
  | none => false

/-- Run the action of the rule that a match belongs to.  A match of no rule is passed over; to look
its rule up would be an error. -/
def dispatch [Monad m] (machine : Machine m) (found : Match) : m Bool :=
  match machine.rules[found.pattern]? with
  | some rule => rule.action found
  | none => pure false

/-- The answers of a source that holds a text. -/
def textPolls (text : String) : List (Poll Empty) := text.toList.map .char

/-- Scan what a reader serves. -/
def scan [Monad m] (machine : Machine m) (reads : List Read) : m (Except MachineError Unit) := do
  match ← Scan.run machine.dfa machine.dispatch 0 (Reader.polls [] reads) with
  | .ok () => return .ok ()
  | .error e => return .error (.unreadable e)

/-- Scan a text, which cannot fail. -/
def scanText [Monad m] (machine : Machine m) (text : String) : m Unit := do
  let _ ← Scan.run machine.dfa machine.dispatch 0 (textPolls text)

/-- Every match in a text, without running any action. -/
def findAll (machine : Machine m) (text : String) : List Match :=
  let collect : Match → StateM (List Match) Bool := fun found ↦ do
    modify (found :: ·)
    return false
  ((Scan.run machine.dfa collect 0 (textPolls text)).run []).2.reverse

end Machine

end RegexScan
