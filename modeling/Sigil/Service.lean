import Sigil.Json.Reader
import Sigil.Session
import Sigil.Text.Utf8

/-!
# The service

Sessions for programs instead of users: a connection carries lines of JSON,
each a request, and every request is answered by one line. One session lasts
through all requests, until a request asks for a new one.

How the bytes of a connection are cut into chunks on their way does not
matter: a line is handled once it is complete, and bytes after the last line
end are kept until more of them come. An integer too long to be read is not
answered: it breaks the connection off.
-/

namespace Sigil.Service

/-- The answer to a request that has failed. -/
def refusal (reason : String) : Json :=
  .object [("ok", .bool false), ("error", .string reason)]

/-- A session in place of another, of which the host remembers the calls. -/
def renew (s : Session) : Session :=
  { Session.initial with world := { World.initial with calls := s.world.calls } }

/-- The answer to a submission. -/
def answer (r : Submission) : Json :=
  let diagnostics : Json := .array (r.diagnostics.map (.string ·.text))
  match r.outcome with
  | .done _ display =>
    .object [("ok", .bool true), ("result", (display.map Json.string).getD .null),
      ("diagnostics", diagnostics)]
  | _ =>
    let error := if r.formatError = "" then r.status else r.formatError
    .object [("ok", .bool false), ("error", .string error), ("diagnostics", diagnostics)]

/-- Handles a request. -/
def handle (host : Option Host) (s : Session) (request : Json) : Json × Session :=
  match request with
  | .object _ =>
    match (request.field? "cmd").getD .null with
    | .string "eval" =>
      match (request.field? "code").getD (.string "") with
      | .string code =>
        let (r, s) := s.runScript host code.toList
        (answer r, s)
      | _ => (refusal "Invalid request: code must be a string", s)
    | .string "reset" => (.object [("ok", .bool true), ("result", .null)], renew s)
    | cmd => (refusal ("Unknown cmd: " ++ cmd.describe), s)
  | _ => (refusal "Invalid request: expected a JSON object", s)

/-- Why a connection was broken off: an integer in a line has so many digits. -/
structure Breakdown where
  digits : Nat
deriving DecidableEq, Repr

/-- Handles a request in a line of bytes. -/
def handleLine (host : Option Host) (s : Session) (line : List UInt8) :
    Except Breakdown (Json × Session) :=
  match Text.decodeUtf8 line with
  | .error e => .ok (refusal ("Invalid request: " ++ e.message), s)
  | .ok text =>
    match Json.read text with
    | .error (.malformed e) => .ok (refusal ("Invalid request: " ++ e.message text), s)
    | .error (.longInteger digits) => .error ⟨digits⟩
    | .ok request => .ok (handle host s request)

/-! ## Connections -/

/-- Whether a byte is blank. -/
def isBlankByte (b : UInt8) : Bool :=
  b = 0x20 || (0x09 ≤ b && b ≤ 0x0D)

/-- A line without the blanks at its two ends. -/
def trimBytes (line : List UInt8) : List UInt8 :=
  ((line.dropWhile isBlankByte).reverse.dropWhile isBlankByte).reverse

/-- The complete lines of some bytes, without their ends, and what comes after the last of them. -/
def cutLines : List UInt8 → List (List UInt8) × List UInt8
  | [] => ([], [])
  | b :: bs =>
    let (lines, rest) := cutLines bs
    if b = 0x0A then ([] :: lines, rest)
    else match lines with
      | [] => ([], b :: rest)
      | line :: lines => ((b :: line) :: lines, rest)

/-- What became of what came over a connection: the replies to it, the session after it, and why the
connection was broken off, if it was. -/
structure Served where
  replies : List Json
  session : Session
  broken : Option Breakdown

/-- What became of more that came over a connection, unless it was broken off before. -/
def Served.andThen (r : Served) (next : Session → Served) : Served :=
  match r.broken with
  | some _ => r
  | none =>
    let more := next r.session
    ⟨r.replies ++ more.replies, more.session, more.broken⟩

/-- Handles lines in order; blank ones are passed over. -/
def handleLines (host : Option Host) (s : Session) : List (List UInt8) → Served
  | [] => ⟨[], s, none⟩
  | line :: lines =>
    let line := trimBytes line
    if line.isEmpty then handleLines host s lines
    else
      match handleLine host s line with
      | .error b => ⟨[], s, some b⟩
      | .ok (reply, s) => Served.andThen ⟨[reply], s, none⟩ (handleLines host · lines)

/-- Handles the chunks of a connection; `kept` are the bytes of a line that is not complete. A chunk
without bytes is the end of the connection. -/
def serve (host : Option Host) (s : Session) (kept : List UInt8) : List (List UInt8) → Served
  | [] | [] :: _ => ⟨[], s, none⟩
  | chunk :: chunks =>
    let (lines, kept) := cutLines (kept ++ chunk)
    (handleLines host s lines).andThen (serve host · kept chunks)

/-- A reply as it is sent. -/
def replyText (reply : Json) : String :=
  reply.render ++ "\n"

end Sigil.Service
