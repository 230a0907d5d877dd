import RegexScan.Reader.Basic

/-!
# Lines of a reader
-/

namespace RegexScan.Reader

/-- The bytes a reader serves up to the end of its input or a failure. -/
def contents : List Read → List UInt8 × Option ReadError
  | [] => ([], none)
  | .bytes [] :: _ => ([], none)
  | .bytes bs :: reads =>
    let (rest, failure) := contents reads
    (bs ++ rest, failure)
  | .failure e :: reads => if e.kind = .interrupted then contents reads else ([], some e)

/-- A line without the carriage return that may stand before its end; newest byte first. -/
def dropReturn : List UInt8 → List UInt8
  | 0x0D :: line => line
  | line => line

/-- The ended lines in some bytes and what stands behind the last of them. `line` is the part of the
first line before these bytes, newest byte first. -/
def splitLines (line : List UInt8) : List UInt8 → List (List UInt8) × List UInt8
  | [] => ([], line.reverse)
  | 0x0A :: bs =>
    let (lines, last) := splitLines [] bs
    ((dropReturn line).reverse :: lines, last)
  | b :: bs => splitLines (b :: line) bs

/-- The texts of lines up to the first that is not text. -/
def lineTexts (failure : Option ReadError) : List (List UInt8) → List String × Option ReadError
  | [] => ([], failure)
  | line :: lines =>
    let d := Text.Utf8.decode line
    if d.rest.isEmpty then
      let (texts, failure) := lineTexts failure lines
      (String.ofList d.chars :: texts, failure)
    else ([], some .notUtf8)

/-- The lines a reader serves, and what kept it from serving more.  The last line needs no end, but
a failure takes it away. -/
def lines (reads : List Read) : List String × Option ReadError :=
  let (bytes, failure) := contents reads
  let (ended, last) := splitLines [] bytes
  lineTexts failure (if last.isEmpty || failure.isSome then ended else ended ++ [last])

end RegexScan.Reader
