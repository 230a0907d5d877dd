import RegexScan.Text.Decimal

/-!
# Command line of the search

Options and patterns may come in any order.  What stands behind `--` is a pattern, and so is a lone
dash.
-/

namespace RegexScan.Grep

/-- What to search for, and how. -/
structure Options where
  patterns : List String
  dump : Bool
  full : Bool
  file : Option String
  maxStates : Option Nat
deriving DecidableEq, Repr

/-- Why arguments are refused. -/
inductive UsageError where
  | noPattern
  | unknownOption (option : String)
  | repeatedOption (option : String)
  | missingValue (option : String)
  | unexpectedValue (option : String)
  | badValue (option value : String)
deriving DecidableEq, Repr

def UsageError.message : UsageError → String
  | .noPattern => "a pattern is required"
  | .unknownOption option => "unknown option '" ++ option ++ "'"
  | .repeatedOption option => "option '" ++ option ++ "' is given twice"
  | .missingValue option => "option '" ++ option ++ "' requires a value"
  | .unexpectedValue option => "option '" ++ option ++ "' takes no value"
  | .badValue option value => "bad value '" ++ value ++ "' for option '" ++ option ++ "'"

/-- What the arguments ask for. -/
inductive Request where
  | search (options : Options)
  | help
deriving DecidableEq, Repr

namespace Options

/-- Nothing is asked for yet. -/
def blank : Options := ⟨[], false, false, none, none⟩

/-- Names of the options with a value. -/
inductive Valued where
  | file
  | maxStates
deriving DecidableEq, Repr

def Valued.name : Valued → String
  | .file => "--file"
  | .maxStates => "--max-states"

/-- Give an option its value, which it may get only once. -/
def set (o : Options) (option : Valued) (value : String) : Except UsageError Options :=
  match option with
  | .file =>
    if o.file.isSome then .error (.repeatedOption option.name)
    else if value.isEmpty then .error (.badValue option.name value)
    else .ok { o with file := some value }
  | .maxStates =>
    if o.maxStates.isSome then .error (.repeatedOption option.name)
    else match Text.unsigned64? value with
      | some n => .ok { o with maxStates := some n }
      | none => .error (.badValue option.name value)

/-- Turn on the listing, which may be asked for only once. -/
def setDump (o : Options) : Except UsageError Options :=
  if o.dump then .error (.repeatedOption "--dump") else .ok { o with dump := true }

/-- Turn on the matching of whole lines, which may be asked for only once. -/
def setFull (o : Options) : Except UsageError Options :=
  if o.full then .error (.repeatedOption "--full") else .ok { o with full := true }

/-- One argument, taken apart. -/
inductive Argument where
  | pattern (text : String)
  | dump
  | full
  | help
  | valued (option : Valued) (value : Option String)
  /-- All further arguments are patterns. -/
  | separator
deriving DecidableEq, Repr

/-- A name and the value attached to it by an equals sign. -/
def splitValue (cs : List Char) : List Char × Option String :=
  match cs.dropWhile (· ≠ '=') with
  | '=' :: value => (cs.takeWhile (· ≠ '='), some (String.ofList value))
  | _ => (cs, none)

/-- Take an argument apart.  A short option may carry its value right behind it. -/
def Argument.ofString (s : String) : Except UsageError Argument :=
  let flag (a : Argument) (value : Option String) : Except UsageError Argument :=
    if value.isSome then .error (.unexpectedValue s) else .ok a
  match s.toList with
  | ['-', '-'] => .ok .separator
  | '-' :: '-' :: cs =>
    let (name, value) := splitValue cs
    match String.ofList name with
    | "dump" => flag .dump value
    | "full" => flag .full value
    | "help" => flag .help value
    | "file" => .ok (.valued .file value)
    | "max-states" => .ok (.valued .maxStates value)
    | _ => .error (.unknownOption s)
  | ['-', 'f'] => .ok (.valued .file none)
  | '-' :: 'f' :: '=' :: cs | '-' :: 'f' :: cs => .ok (.valued .file (some (String.ofList cs)))
  | '-' :: 'h' :: _ => .ok .help
  | '-' :: _ :: _ => .error (.unknownOption s)
  | _ => .ok (.pattern s)

/-- Whether an argument may be the value of the option before it. -/
def isValue (s : String) : Bool :=
  match s.toList with
  | '-' :: _ :: _ => false
  | _ => true

/-- A search needs a pattern. -/
def finish (o : Options) : Except UsageError Request :=
  if o.patterns.isEmpty then .error .noPattern else .ok (.search o)

/-- Read arguments into options. -/
def read (o : Options) : List String → Except UsageError Request
  | [] => o.finish
  | arg :: args =>
    match Argument.ofString arg with
    | .error e => .error e
    | .ok .help => .ok .help
    | .ok .separator => { o with patterns := o.patterns ++ args : Options }.finish
    | .ok (.pattern p) => read { o with patterns := o.patterns ++ [p] } args
    | .ok .dump => o.setDump >>= fun o ↦ read o args
    | .ok .full => o.setFull >>= fun o ↦ read o args
    | .ok (.valued option (some value)) => o.set option value >>= fun o ↦ read o args
    | .ok (.valued option none) =>
      match args with
      | value :: args =>
        if isValue value then o.set option value >>= fun o ↦ read o args
        else .error (.missingValue option.name)
      | [] => .error (.missingValue option.name)

end Options

def Request.ofArguments (args : List String) : Except UsageError Request := Options.blank.read args

end RegexScan.Grep
