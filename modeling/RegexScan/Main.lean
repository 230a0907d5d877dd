import RegexScan.Fuzz
import RegexScan.Grep.Run

/-!
# Command line
-/

namespace RegexScan.Main

def usage : String :=
  "usage: regexscan grep [--dump] [--full] [-f FILE] [--max-states COUNT] PATTERN...\n" ++
  "       regexscan fuzz [SEED] [CASES]\n"

def openError : IO.Error → Grep.OpenError
  | .noFileOrDirectory .. => .notFound
  | .inappropriateType .. => .notADirectory
  | e => .other (toString e)

/-- All of a stream as one read. -/
def readAll (stream : IO.FS.Stream) : IO (List Read) := do
  let mut reads := #[]
  let mut more := true
  while more do
    let bytes ← stream.read 8192
    if bytes.isEmpty then more := false else reads := reads.push (.bytes bytes.toList)
  return reads.toList

def openInput (o : Grep.Options) : IO (Except Grep.OpenError (List Read)) :=
  match o.file with
  | none => return .ok (← readAll (← IO.getStdin))
  | some path =>
    try return .ok [.bytes (← IO.FS.readBinFile path).toList]
    catch e => return .error (openError e)

def grep (args : List String) : IO UInt32 :=
  match Grep.Request.ofArguments args with
  | .ok .help => do
    IO.print usage
    return 0
  | .error e => do
    IO.eprint ("error: " ++ e.message ++ "\n\n" ++ usage)
    return 2
  | .ok (.search o) => do
    let report := Grep.run o (← openInput o)
    IO.print report.output
    IO.eprint report.errors
    return UInt32.ofNat report.code

def fuzz (args : List String) : IO UInt32 := do
  let seed ← match args[0]?.bind Text.unsigned64? with
    | some seed => pure (UInt64.ofNat seed)
    | none => pure (UInt64.ofNat (← IO.monoMsNow))
  let cases := (args[1]?.bind Text.unsigned64?).getD Fuzz.defaultCases
  let report := Fuzz.run seed cases
  IO.print report.output
  return UInt32.ofNat report.code

end RegexScan.Main

def main (args : List String) : IO UInt32 :=
  match args with
  | "grep" :: args => RegexScan.Main.grep args
  | "fuzz" :: args => RegexScan.Main.fuzz args
  | _ => do
    IO.eprint RegexScan.Main.usage
    return 2
