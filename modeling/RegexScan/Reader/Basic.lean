import RegexScan.Text.Utf8

/-!
# Sources of characters

A source is asked for one character after the other.  A reader serves bytes instead, read by read,
and its answers become those of a source by decoding.
-/

namespace RegexScan

/-- Why a read fails.  Only interrupted reads are treated apart, and all other kinds are handed on.
A kind without a constructor of its own goes by its name. -/
inductive ReadErrorKind where
  | interrupted
  | invalidData
  | unexpectedEof
  | timedOut
  | other (name : String)
deriving DecidableEq, Repr

/-- A failed read, with its message. -/
structure ReadError where
  kind : ReadErrorKind
  message : String
deriving DecidableEq, Repr

/-- The bytes read are not text. -/
def ReadError.notUtf8 : ReadError := ⟨.invalidData, "stream did not contain valid UTF-8"⟩

/-- What a source answers when it is asked for a character.  It may have more after an end of the
input, but nothing after a failure. -/
inductive Poll (ε : Type) where
  | char (c : Char)
  | endOfInput
  | failure (e : ε)
deriving DecidableEq, Repr

namespace Poll

/-- The character that is answered, if it is one. -/
def char? {ε : Type} : Poll ε → Option Char
  | .char c => some c
  | _ => none

end Poll

/-- What a reader answers to one read.  A read of no bytes is the end of the input as far as it is
known by then. -/
inductive Read where
  | bytes (bs : List UInt8)
  | failure (e : ReadError)
deriving DecidableEq

namespace Reader

/-- The answers of a source that has `pending` bytes and then asks the reader. -/
def pollsWith (pending : List UInt8) (more : List UInt8 → List (Poll ReadError)) :
    List (Poll ReadError) :=
  let d := Text.Utf8.decode pending
  d.chars.map .char ++ if d.malformed then [.failure .notUtf8] else more d.rest

/-- The answers of a source over a reader that serves the given reads and then no more bytes.
Bytes that may still become a character wait for the next read.  Interrupted reads are repeated. -/
def polls (pending : List UInt8) : List Read → List (Poll ReadError)
  | [] => pollsWith pending fun rest ↦ if rest.isEmpty then [] else [.failure .notUtf8]
  | .bytes [] :: reads => pollsWith pending fun rest ↦
    if rest.isEmpty then .endOfInput :: polls [] reads else [.failure .notUtf8]
  | .bytes bs :: reads => pollsWith pending fun rest ↦ polls (rest ++ bs) reads
  | .failure e :: reads => pollsWith pending fun rest ↦
    if e.kind = .interrupted then polls rest reads else [.failure e]

end Reader

end RegexScan
