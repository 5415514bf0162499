import Riley.Library.Numerals
import Riley.Library.Offsets
import Riley.Library.Substrings
import Riley.Machine
import Riley.Server.Json

/-!
Reading one HTTP/1.1 request. The reader hands over the bytes of a connection in reads of its
own choosing; an index, a slice or a subtraction that would panic is an error of its own.
-/

namespace Riley.Http

open Offsets (slice)
open Utf8 (Text)

def READ_CHUNK_BYTES : Nat := 4096

def HEADER_TERMINATOR : List UInt8 := [13, 10, 13, 10]

structure HttpLimits where
  maximumHeaderBytes : Nat
  maximumHeaderFields : Nat
  maximumBodyBytes : Nat
  maximumTargetBytes : Nat
  deriving DecidableEq, Repr

def HttpLimits.default : HttpLimits where
  maximumHeaderBytes := 16 * 1024
  maximumHeaderFields := 64
  maximumBodyBytes := 1048576
  maximumTargetBytes := 2048

inductive HttpMethod
  | get
  | post
  deriving DecidableEq, Repr

structure HttpRequest where
  method : HttpMethod
  target : Text
  authorization : Option Text
  body : List UInt8
  deriving DecidableEq, Repr

inductive HttpReadError
  | invalidLimits (field : String)
  | unexpectedEof (stage : String)
  | headerTooLarge (maximumBytes : Nat)
  | tooManyHeaders (maximumFields : Nat)
  | bodyTooLarge (maximumBytes declaredBytes : Nat)
  | malformed (reason : String)
  | unsupportedMethod
  | lengthRequired
  | unsupportedFraming
  | unsupportedMediaType
  /-- No error of the source: it would panic. -/
  | panicked
  deriving DecidableEq, Repr

def orError {α : Type} (value : Option α) (error : HttpReadError) : Except HttpReadError α :=
  match value with
  | some value => .ok value
  | none => .error error

def HttpLimits.validate (limits : HttpLimits) : Except HttpReadError HttpLimits :=
  if limits.maximumHeaderBytes < HEADER_TERMINATOR.length then
    .error (.invalidLimits "maximum_header_bytes")
  else if limits.maximumHeaderFields = 0 then .error (.invalidLimits "maximum_header_fields")
  else if limits.maximumBodyBytes = 0 then .error (.invalidLimits "maximum_body_bytes")
  else if limits.maximumTargetBytes = 0 then .error (.invalidLimits "maximum_target_bytes")
  else do
    let _ ← orError (checkedAdd usizeMax limits.maximumHeaderBytes limits.maximumBodyBytes)
      (.invalidLimits "maximum_header_bytes + maximum_body_bytes")
    .ok limits

theorem HttpLimits.validate_default : HttpLimits.default.validate = .ok .default := rfl

section Head

structure ParsedHeaders where
  contentLength : Option Nat
  contentTypeJson : Bool
  authorization : Option Text
  deriving DecidableEq, Repr

/-- The headers so far, and whether a host and a type of the content were among them. -/
structure HeadState where
  parsed : ParsedHeaders
  hostSeen : Bool
  contentTypeSeen : Bool
  deriving DecidableEq, Repr

def eqIgnoreAsciiCase (text : Text) (other : String) : Bool :=
  text.map Char.toLower = other.toList.map Char.toLower

def isBlank (c : Char) : Bool := c = ' ' || c = '\t'

def trimBlanks (text : Text) : Text := (text.dropWhile isBlank).rdropWhile isBlank

def isHeaderNameByte (c : Char) : Bool :=
  c.isAlphanum || c ∈ "!#$%&'*+-.^_\x60|~".toList

def isAsciiGraphic (c : Char) : Bool := 33 ≤ c.toNat && c.toNat ≤ 126

def parseDecimalUsize (value : Text) : Except HttpReadError Nat :=
  if value.all Char.isDigit then
    if value ≠ [] ∧ Numerals.value value ≤ usizeMax then .ok (Numerals.value value)
    else .error (.malformed "Content-Length does not fit the platform")
  else .error (.malformed "Content-Length must contain decimal digits")

def isCharsetUtf8 (parameter : Text) : Bool :=
  let parameter := Server.trim parameter
  parameter ≠ [] &&
    (Substrings.splitOnce ['='] parameter).any fun (name, value) =>
      eqIgnoreAsciiCase (Server.trim name) "charset" &&
        eqIgnoreAsciiCase (Server.trim value) "utf-8"

def isJsonContentType (value : Text) : Bool :=
  match Substrings.split [';'] value with
  | media :: parameters =>
      eqIgnoreAsciiCase (Server.trim media) "application/json" && parameters.all isCharsetUtf8
  | [] => false

/-- A header by its name. -/
def takeHeader (state : HeadState) (name value : Text) : Except HttpReadError HeadState :=
  if eqIgnoreAsciiCase name "host" then
    if state.hostSeen ∨ value = [] then
      .error (.malformed "Host must occur exactly once and be non-empty")
    else .ok { state with hostSeen := true }
  else if eqIgnoreAsciiCase name "content-length" then
    if state.parsed.contentLength.isSome ∨ value = [] then
      .error (.malformed "Content-Length must occur at most once")
    else do
      let length ← parseDecimalUsize value
      .ok { state with parsed := { state.parsed with contentLength := some length } }
  else if eqIgnoreAsciiCase name "authorization" then
    if state.parsed.authorization.isSome then
      .error (.malformed "Authorization must occur at most once")
    else .ok { state with parsed := { state.parsed with authorization := some value } }
  else if eqIgnoreAsciiCase name "content-type" then
    if state.contentTypeSeen then
      .error (.malformed "Content-Type must occur at most once")
    else .ok { state with
      parsed := { state.parsed with contentTypeJson := isJsonContentType value }
      contentTypeSeen := true }
  else if eqIgnoreAsciiCase name "transfer-encoding" || eqIgnoreAsciiCase name "trailer" ||
      eqIgnoreAsciiCase name "upgrade" || eqIgnoreAsciiCase name "expect" then
    .error .unsupportedFraming
  else .ok state

def headerField (limits : HttpLimits) (index : Nat) (state : HeadState) (line : Text) :
    Except HttpReadError HeadState :=
  if limits.maximumHeaderFields ≤ index then .error (.tooManyHeaders limits.maximumHeaderFields)
  else if line.isEmpty || line.head?.any isBlank then
    .error (.malformed "empty or folded header field")
  else
    match Substrings.splitOnce [':'] line with
    | none => .error (.malformed "header field is missing a colon")
    | some (name, rawValue) =>
        if name.isEmpty || name.getLast?.any isBlank || !name.all isHeaderNameByte then
          .error (.malformed "invalid header field name")
        else
          let value := trimBlanks rawValue
          if !value.all fun c => c = '\t' || ' ' ≤ c then
            .error (.malformed "invalid header field value")
          else takeHeader state name value

def headerFields (limits : HttpLimits) :
    Nat → HeadState → List Text → Except HttpReadError HeadState
  | _, state, [] => .ok state
  | index, state, line :: lines => do
      headerFields limits (index + 1) (← headerField limits index state line) lines

def methodOf (rawMethod : Text) : Except HttpReadError HttpMethod :=
  if rawMethod = "GET".toList then .ok .get
  else if rawMethod = "POST".toList then .ok .post
  else .error .unsupportedMethod

def requestLine (limits : HttpLimits) (line : Text) : Except HttpReadError (HttpMethod × Text) :=
  let parts := Substrings.split [' '] line
  let rawMethod := parts[0]?.getD []
  let target := parts[1]?.getD []
  let version := parts[2]?.getD []
  if parts[3]?.isSome ∨ rawMethod = [] ∨ target = [] ∨ version ≠ "HTTP/1.1".toList then
    .error (.malformed "request line must be METHOD target HTTP/1.1")
  else do
    let method ← methodOf rawMethod
    if target.head? ≠ some '/' ∨ limits.maximumTargetBytes < (Utf8.encode target).length ∨
        ¬ target.all isAsciiGraphic then
      .error (.malformed "request target must be bounded ASCII origin-form")
    else .ok (method, target)

def isControl (c : Char) : Bool := c.toNat < 32 || c.toNat = 127

/-- A text of bytes, which the source has checked to be one. -/
def textOr (bytes : List UInt8) (error : HttpReadError) : Except HttpReadError Text :=
  match Utf8.fromUtf8 bytes with
  | .ok text => .ok text
  | .error _ => .error error

def parseHead (head : List UInt8) (limits : HttpLimits) :
    Except HttpReadError (HttpMethod × Text × ParsedHeaders) := do
  let text ← textOr head (.malformed "headers must be UTF-8 ASCII")
  if text.any fun c => isControl c && c ≠ '\r' && c ≠ '\n' then
    .error (.malformed "headers contain a control byte")
  else do
    let stop ← orError (checkedSub head.length HEADER_TERMINATOR.length) .panicked
    let lines ← textOr (head.take stop) .panicked
    match Substrings.split ['\r', '\n'] lines with
    | [] => .error (.malformed "request line is missing")
    | line :: lines => do
        let (method, target) ← requestLine limits line
        let state ← headerFields limits 0 ⟨⟨none, false, none⟩, false, false⟩ lines
        if state.hostSeen then .ok (method, target, state.parsed)
        else .error (.malformed "HTTP/1.1 Host header is required")

end Head

section Reading

/-- How a reader splits what it reads: how many bytes it would give, from how many it gave and
how many it is asked for at most. -/
abbrev Splits := Nat → Nat → Nat

/-- A read. It gives no byte only where none is left. -/
def read (splits : Splits) (given bound : Nat) (unread : List UInt8) :
    List UInt8 × List UInt8 :=
  unread.splitAt (min (max 1 (splits given bound)) bound)

theorem read_length {splits : Splits} {given bound : Nat} {unread : List UInt8}
    (h : (read splits given bound unread).1 ≠ []) :
    (read splits given bound unread).2.length < unread.length := by
  have hpos := List.length_pos_iff.mpr h
  simp only [read, List.splitAt_eq, List.length_take, List.length_drop] at hpos ⊢
  omega

/-- The end of the head, with the bytes that came in so far and those that did not. -/
def readHead (limits : HttpLimits) (splits : Splits) (bytes unread : List UInt8) :
    Except HttpReadError (Nat × List UInt8 × List UInt8) :=
  match Substrings.find HEADER_TERMINATOR bytes with
  | some offset =>
      let stop := offset + HEADER_TERMINATOR.length
      if limits.maximumHeaderBytes < stop then
        .error (.headerTooLarge limits.maximumHeaderBytes)
      else .ok (stop, bytes, unread)
  | none =>
      if limits.maximumHeaderBytes ≤ bytes.length then
        .error (.headerTooLarge limits.maximumHeaderBytes)
      else
        match checkedSub limits.maximumHeaderBytes bytes.length with
        | none => .error .panicked
        | some remainingHeader =>
            let next := read splits bytes.length (min remainingHeader READ_CHUNK_BYTES) unread
            if next.1 = [] then .error (.unexpectedEof "headers")
            else readHead limits splits (bytes ++ next.1) next.2
termination_by unread.length
decreasing_by exact read_length ‹_›

def readBody (splits : Splits) (requestLen : Nat) (bytes unread : List UInt8) :
    Except HttpReadError (List UInt8) :=
  if bytes.length < requestLen then
    match checkedSub requestLen bytes.length with
    | none => .error .panicked
    | some remaining =>
        let next := read splits bytes.length (min remaining READ_CHUNK_BYTES) unread
        if next.1 = [] then .error (.unexpectedEof "body")
        else readBody splits requestLen (bytes ++ next.1) next.2
  else .ok bytes
termination_by unread.length
decreasing_by exact read_length ‹_›

/-- The length that the headers give the body. -/
def bodyLength (method : HttpMethod) (headers : ParsedHeaders) : Except HttpReadError Nat :=
  match method, headers.contentLength with
  | .post, none => .error .lengthRequired
  | .post, some length => .ok length
  | .get, none => .ok 0
  | .get, some 0 => .ok 0
  | .get, some (_ + 1) => .error (.malformed "GET bodies are not accepted")

/-- The bytes from one place to another, moved to the front. -/
def copyWithin (bytes : List UInt8) (start stop : Nat) : Option (List UInt8) :=
  (slice bytes start stop).map fun part => part ++ bytes.drop part.length

/-- Whether memory for so many bytes can be had is up to the allocator. -/
def readRequest (reserve : Nat → Bool) (splits : Splits) (limits : HttpLimits)
    (stream : List UInt8) : Except HttpReadError HttpRequest := do
  let limits ← limits.validate
  let totalCapacity ← orError
    (checkedAdd usizeMax limits.maximumHeaderBytes limits.maximumBodyBytes)
    (.invalidLimits "maximum_header_bytes + maximum_body_bytes")
  if !reserve totalCapacity then .error (.invalidLimits "HTTP request buffer allocation")
  else do
    let (headerEnd, bytes, unread) ← readHead limits splits [] stream
    let head ← orError (slice bytes 0 headerEnd) .panicked
    let (method, target, headers) ← parseHead head limits
    let contentLength ← bodyLength method headers
    if method = .post ∧ headers.contentTypeJson = false then .error .unsupportedMediaType
    else if limits.maximumBodyBytes < contentLength then
      .error (.bodyTooLarge limits.maximumBodyBytes contentLength)
    else do
      let requestLen ← orError (checkedAdd usizeMax headerEnd contentLength)
        (.bodyTooLarge limits.maximumBodyBytes contentLength)
      let bytes ← readBody splits requestLen bytes unread
      if requestLen < bytes.length then
        .error (.malformed "request pipelining is not accepted")
      else do
        let moved ← orError (copyWithin bytes headerEnd requestLen) .panicked
        .ok ⟨method, target, headers.authorization, moved.take contentLength⟩

end Reading

end Riley.Http
