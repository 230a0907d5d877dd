import RegexScan.Grep.Options
import RegexScan.Machine.Basic
import RegexScan.Reader.Lines

/-!
# Searching an input
-/

namespace RegexScan.Grep

/-- Why a file cannot be opened. -/
inductive OpenError where
  | notFound
  | notADirectory
  | other (message : String)
deriving DecidableEq, Repr

def OpenError.message : OpenError → String
  | .notFound => "No such file or directory (os error 2)"
  | .notADirectory => "Not a directory (os error 20)"
  | .other message => message

/-- What a search writes and its exit code. -/
structure Report where
  code : Nat
  output : String
  errors : String
deriving DecidableEq, Repr

/-- What keeps a search from going on. -/
inductive Failure where
  | machine (cause : MachineError)
  | unopened (path : String) (cause : OpenError)
  | unreadable (cause : ReadError)
deriving DecidableEq, Repr

namespace Failure

/-- The message of a failure, without its cause. -/
def message : Failure → String
  | .machine cause => cause.message
  | .unopened path _ => "can not open " ++ path
  | .unreadable cause => cause.message

/-- The message of the error behind a failure, if there is one. -/
def cause? : Failure → Option String
  | .machine cause => cause.cause?
  | .unopened _ cause => some cause.message
  | .unreadable _ => none

/-- A failure as it is reported, above its cause. -/
def report (e : Failure) : String :=
  "Error: " ++ e.message ++ "\n" ++
    match e.cause? with
    | some cause => "\nCaused by:\n    " ++ cause ++ "\n"
    | none => ""

end Failure

/-- A search writes its output as it goes. -/
abbrev Output := StateM String

/-- Write behind what is written. -/
def write (text : String) : Output Unit := modify (· ++ text)

/-- Write a match behind the pattern and the offset, and go on. -/
def writeMatch (pattern : String) : Action Output := fun found ↦ do
  write (pattern ++ ":" ++ toString found.offset ++ ": " ++ Text.quotedString found.text ++ "\n")
  return false

/-- A rule for each pattern that writes its matches. -/
def rules (o : Options) : RuleSet Output :=
  let rules := o.patterns.foldl (fun rules p ↦ rules.insert p (writeMatch p)) .empty
  match o.maxStates with
  | some limit => rules.withMaxStates limit
  | none => rules

/-- The numbered patterns, above the machine's listing. -/
def dumpText (machine : Machine Output) : String :=
  let line (index : Nat) (pattern : String) : String :=
    "#" ++ toString index ++ ": " ++ pattern ++ "\n"
  String.join (machine.patterns.mapIdx line) ++ machine.text

/-- Write the lines that are matched as a whole. -/
def writeFullLines (machine : Machine Output) (reads : List Read) :
    Output (Except Failure Unit) := do
  let (lines, failure) := Reader.lines reads
  for line in lines do
    if machine.fullMatch line then write (line ++ "\n")
  match failure with
  | some e => return .error (.unreadable e)
  | none => return .ok ()

/-- Search an input, which is opened only after the machine is built and, if that is asked for,
listed. -/
def search (o : Options) (input : Except OpenError (List Read)) : Output (Except Failure Unit) := do
  match Machine.build (rules o) with
  | .error e => return .error (.machine e)
  | .ok machine =>
    if o.dump then write (dumpText machine)
    match input with
    | .error e => return .error (.unopened (o.file.getD "") e)
    | .ok reads =>
      if o.full then writeFullLines machine reads
      else return (← machine.scan reads).mapError .machine

/-- Search an input, and report what is written and the failure, if there is one. -/
def run (o : Options) (input : Except OpenError (List Read)) : Report :=
  match (search o input).run "" with
  | (.ok (), output) => ⟨0, output, ""⟩
  | (.error e, output) => ⟨1, output, e.report⟩

end RegexScan.Grep
