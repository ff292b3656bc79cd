import LanguageServer.Text.Blank
import LanguageServer.Text.Utf8

set_option autoImplicit false

/-! # Frames

A message body travels behind a header that gives its length in bytes. `Frame.write` puts a body
on the wire; `Frame.read` takes the next frame off a stream of bytes, of which more may still
come.

Header lines end at a line feed and are trimmed; a blank one ends the header. A line counts when its
name is `Content-Length`, whatever its case, and the last such line decides. Other lines are passed
over. -/

namespace LanguageServer.Frame

/-- Why a stream of frames breaks off. -/
inductive Fault where
  /-- A header line is not UTF-8. -/
  | headerNotText
  /-- The input ended inside a header. -/
  | endInsideHeader
  /-- A header gave no length. -/
  | missingLength
  /-- A length is not a number. -/
  | invalidLength
  /-- A body is longer than allowed. -/
  | tooLong (length limit : Nat)
  /-- The input ended inside a body. -/
  | bodyCutShort
deriving DecidableEq, Repr, Inhabited

def Fault.message : Fault → String
  | .headerNotText => "reading header line"
  | .endInsideHeader => "unexpected EOF while reading headers"
  | .missingLength => "missing Content-Length header"
  | .invalidLength => "invalid Content-Length value"
  | .tooLong length limit => s!"Content-Length {length} exceeds maximum {limit}"
  | .bodyCutShort => "reading frame body"

/-- The largest body accepted unless a limit is given. -/
def defaultLimit : Nat := 4194304

/-! ## Writing -/

/-- The header of a body of this many bytes. -/
def header (length : Nat) : List UInt8 :=
  Text.Utf8.encode "Content-Length: " ++
    Text.Utf8.bytes (Nat.toDigits 10 length) ++ Text.Utf8.encode "\r\n\r\n"

/-- A body behind its header. -/
def write (body : List UInt8) : List UInt8 := header body.length ++ body

/-! ## Header lines -/

/-- What one header line says. -/
inductive Line where
  /-- The header ends here. -/
  | separator
  /-- The body has this many bytes. -/
  | length (n : Nat)
  /-- Some other header. -/
  | other
deriving DecidableEq, Repr

/-- A number of at most 64 bits in decimal; a plus sign may stand before it. -/
def parseLength (cs : List Char) : Option Nat :=
  let digits := match cs with
    | '+' :: rest => rest
    | cs => cs
  if digits.isEmpty || !digits.all Char.isDigit then none
  else
    let n := digits.foldl (fun n c => n * 10 + (c.toNat - 0x30)) 0
    if n < 18446744073709551616 then some n else none

/-- What a line, given as text, says. -/
def parseLine (text : List Char) : Except Fault Line :=
  if (Text.trim text).isEmpty then .ok .separator
  else
    match text.dropWhile (· != ':') with
    | [] => .ok .other
    | _ :: value =>
      let name := Text.trim (text.takeWhile (· != ':'))
      if name.map Char.toLower = "content-length".toList then
        match parseLength (Text.trim value) with
        | some n => .ok (.length n)
        | none => .error .invalidLength
      else .ok .other

/-- What a line, given as bytes, says. -/
def readLine (line : List UInt8) : Except Fault Line :=
  match Text.Utf8.decode? line with
  | none => .error .headerNotText
  | some text => parseLine text.toList

/-! ## Reading -/

/-- What a stream of bytes starts with. -/
inductive Progress where
  /-- A whole frame: its body, and the bytes after it. -/
  | frame (body rest : List UInt8)
  /-- The end, between two frames. -/
  | finished
  /-- Something that is not a frame. -/
  | failed (fault : Fault)
  /-- The beginning of a frame, or nothing yet; at least so many bytes are missing. -/
  | waiting (missing : Nat)
deriving DecidableEq, Repr

/-- The body, once the header has been read. -/
def readBody (limit : Nat) (ended : Bool) (length : Option Nat) (input : List UInt8) : Progress :=
  match length with
  | none => .failed .missingLength
  | some n =>
    if n > limit then .failed (.tooLong n limit)
    else if n ≤ input.length then .frame (input.take n) (input.drop n)
    else if ended then .failed .bodyCutShort
    else .waiting (n - input.length)

/-- The rest of a header: `line` holds the bytes of the current line, last first, and `length` the
last length given. At the end of the input an unfinished line counts as a line. -/
def readHeader (limit : Nat) (ended : Bool) :
    (line : List UInt8) → (length : Option Nat) → List UInt8 → Progress
  | line, length, [] =>
    if !ended then .waiting 1
    else if line.isEmpty then .failed .endInsideHeader
    else
      match readLine line.reverse with
      | .error e => .failed e
      | .ok .separator => readBody limit ended length []
      | .ok (.length _) | .ok .other => .failed .endInsideHeader
  | line, length, b :: rest =>
    if b = 0x0A then
      match readLine (b :: line).reverse with
      | .error e => .failed e
      | .ok .separator => readBody limit ended length rest
      | .ok (.length n) => readHeader limit ended [] (some n) rest
      | .ok .other => readHeader limit ended [] length rest
    else readHeader limit ended (b :: line) length rest

/-- The next frame of the input; `ended` says that no more bytes will come. -/
def read (limit : Nat) (ended : Bool) (input : List UInt8) : Progress :=
  match input with
  | [] => if ended then .finished else .waiting 1
  | input => readHeader limit ended [] none input

/-- All frames of a finished input, and the fault that broke it off, if any. Every frame takes at
least one byte, so as many steps as there are bytes are enough. -/
def readFrames (limit : Nat) : (fuel : Nat) → List UInt8 → List (List UInt8) × Option Fault
  | 0, _ => ([], none)
  | fuel + 1, input =>
    match read limit true input with
    | .frame body rest =>
      let (bodies, fault) := readFrames limit fuel rest
      (body :: bodies, fault)
    | .failed fault => ([], some fault)
    | .finished | .waiting _ => ([], none)

/-- All frames of a finished input, and the fault that broke it off, if any. -/
def readAll (limit : Nat) (input : List UInt8) : List (List UInt8) × Option Fault :=
  readFrames limit (input.length + 1) input

end LanguageServer.Frame
