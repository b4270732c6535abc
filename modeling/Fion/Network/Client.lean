import Fion.Http.Response

/-!
# Client connections

A `Client` owns a descriptor, a request buffer and a response buffer.  A `Buffer`
is a vector of bytes behind a mutex, here the bytes alone.

What `recv` and `send` return is up to the kernel, so the functions that call
them take the result as an argument.  `recv` is given 4096 bytes of room, and a
result that carries data respects it (`Chunk`).  `send` accepts a prefix of what
it is offered.

`requestReady` is the text of `Client::is_request_ready` over the contents of the
request buffer.  It searches the whole buffer for the text `Content-Length:`,
without regard to where the header block begins or ends.
-/

namespace Fion.Network

open Cpp (Bytes Exn ascii cr lf chr stoull)
open Text (find findFrom)
open Http (Response)

/-! ## The kernel's answers -/

/-- A file descriptor. -/
abbrev Fd := Int

/-- The room `readRequest` offers to `recv`. -/
def recvCapacity : Nat := 4096

/-- The data of one successful `recv`. -/
structure Chunk where
  bytes : Bytes
  ne_nil : bytes ≠ []
  length_le : bytes.length ≤ recvCapacity

/-- The outcome of `recv`. -/
inductive RecvResult where
  | received (chunk : Chunk)
  /-- The peer closed its side: `0`. -/
  | closed
  /-- `-1`, which would-block is a case of. -/
  | failed

/-- The value `recv` returns. -/
def RecvResult.count : RecvResult → Int
  | .received chunk => chunk.bytes.length
  | .closed => 0
  | .failed => -1

/-- The outcome of a non-blocking `send`. -/
inductive SendResult where
  /-- The first `count` bytes were accepted. -/
  | accepted (count : Nat)
  | wouldBlock
  /-- A hard error: the connection is broken. -/
  | failed
deriving DecidableEq

/-- The value `send` returns. -/
def SendResult.count : SendResult → Int
  | .accepted n => n
  | .wouldBlock => -1
  | .failed => -1

/-- The bytes the socket took of what it was offered. -/
def SendResult.taken (data : Bytes) : SendResult → Bytes
  | .accepted n => data.take n
  | .wouldBlock => []
  | .failed => []

/-! ## The class -/

inductive ClientState where
  | readingRequest
  | processing
  | writingResponse
  | closed
deriving DecidableEq, Repr

/-- The class `Client`. -/
structure Client where
  fd : Fd
  requestBuffer : Bytes := []
  responseBuffer : Bytes := []
  state : ClientState := .readingRequest
deriving DecidableEq

/-! ## Readiness -/

/-- The blanks skipped in front of a `Content-Length` value. -/
def isBlank (b : UInt8) : Bool := b = chr ' ' || b = chr '\t'

/-- The position behind the blanks at `pos`. -/
def skipBlanks (str : Bytes) (pos : Nat) : Nat :=
  pos + ((str.drop pos).takeWhile isBlank).length

/-- Whether a request buffer holds a complete request. -/
def requestReady (data : Bytes) : Bool :=
  if data = [] then false
  else
    match find [cr, lf, cr, lf] data with
    | none => false
    | some headersEnd =>
        match find (ascii "Content-Length:") data with
        | none => true
        | some contentLengthPos =>
            let valueStart := skipBlanks data (contentLengthPos + 15)
            match findFrom [cr, lf] data valueStart with
            | none => false
            | some valueEnd =>
                match stoull ((data.drop valueStart).take (valueEnd - valueStart)) with
                -- a value that does not convert is treated as ready
                | .error _ => true
                | .ok contentLength =>
                    let bodyStart := headersEnd + 4
                    contentLength ≤ data.length - bodyStart

namespace Client

/-- The constructor. -/
def make (fd : Fd) : Except Exn Client :=
  if fd < 0 then .error (.invalidArgument "Invalid file descriptor") else .ok { fd := fd }

def isRequestReady (c : Client) : Bool := requestReady c.requestBuffer

def setState (c : Client) (state : ClientState) : Client := { c with state := state }

/-- `_requestBuffer.append`. -/
def appendRequest (c : Client) (data : Bytes) : Client :=
  { c with requestBuffer := c.requestBuffer ++ data }

/-- `_responseBuffer.clear` and `_responseBuffer.append`. -/
def setResponse (c : Client) (data : Bytes) : Client := { c with responseBuffer := data }

/-- `readRequest`: one `recv`, whose data is appended. -/
def readRequest (c : Client) : RecvResult → Client
  | .received chunk => c.appendRequest chunk.bytes
  | .closed => c
  | .failed => c

/-- `prepareResponse`: nothing is stored when printing throws. -/
def prepareResponse (c : Client) (response : Response) : Except Exn Client := do
  let rawResponse ← response.toRawResponse
  return c.setResponse rawResponse

/-- `writeResponse`: the new client, the value returned and the bytes the socket
took.  The buffer is cleared as soon as anything was sent. -/
def writeResponse (c : Client) (send : SendResult) : Client × Int × Bytes :=
  if c.responseBuffer = [] then (c, 0, [])
  else if 0 < send.count then
    (c.setResponse [], send.count, send.taken c.responseBuffer)
  else (c, send.count, send.taken c.responseBuffer)

section Fields

variable (c : Client) (data : Bytes) (state : ClientState)

@[simp] theorem appendRequest_fd : (c.appendRequest data).fd = c.fd := rfl

@[simp] theorem appendRequest_requestBuffer :
    (c.appendRequest data).requestBuffer = c.requestBuffer ++ data := rfl

@[simp] theorem appendRequest_responseBuffer :
    (c.appendRequest data).responseBuffer = c.responseBuffer := rfl

@[simp] theorem appendRequest_state : (c.appendRequest data).state = c.state := rfl

@[simp] theorem setResponse_fd : (c.setResponse data).fd = c.fd := rfl

@[simp] theorem setResponse_responseBuffer : (c.setResponse data).responseBuffer = data := rfl

@[simp] theorem setState_fd : (c.setState state).fd = c.fd := rfl

@[simp] theorem setState_requestBuffer :
    (c.setState state).requestBuffer = c.requestBuffer := rfl

end Fields

/-- Only the response buffer changes, and only when printing succeeds. -/
theorem prepareResponse_eq_ok_iff {c c' : Client} {response : Response} :
    c.prepareResponse response = .ok c' ↔
      ∃ raw, response.toRawResponse = .ok raw ∧ c' = c.setResponse raw := by
  rw [prepareResponse, Cpp.bind_eq_ok]
  constructor
  · rintro ⟨raw, hraw, h⟩
    exact ⟨raw, hraw, (Except.ok.inj h).symm⟩
  · rintro ⟨raw, hraw, rfl⟩
    exact ⟨raw, hraw, rfl⟩

end Client

/-! ## The empty line -/

/-- The empty line begins with a line end. -/
theorem lineEnd_isPrefix : [cr, lf] <+: [cr, lf, cr, lf] := ⟨[cr, lf], rfl⟩

/-- So data with an empty line has a first line. -/
theorem exists_find_lineEnd {data : Bytes} {headersEnd : Nat}
    (hend : find [cr, lf, cr, lf] data = some headersEnd) :
    ∃ firstCrlf, find [cr, lf] data = some firstCrlf := by
  obtain ⟨firstCrlf, -, hfirst⟩ := Text.exists_find_of_prefix lineEnd_isPrefix hend
  exact ⟨firstCrlf, hfirst⟩

/-- The header block ends at a carriage return. -/
theorem getElem?_headersEnd {data : Bytes} {headersEnd : Nat}
    (hend : find [cr, lf, cr, lf] data = some headersEnd) : data[headersEnd]? = some cr := by
  obtain ⟨rest, hrest⟩ := (Text.find_eq_some_iff.mp hend).1
  rw [← List.head?_drop, ← hrest]
  rfl

/-! ## Before the header block is complete -/

@[simp] theorem requestReady_nil : requestReady [] = false := rfl

/-- A buffer without an empty line is not ready. -/
theorem requestReady_of_find_none {data : Bytes} (h : find [cr, lf, cr, lf] data = none) :
    requestReady data = false := by
  unfold requestReady
  split_ifs
  · rfl
  · rw [h]

end Fion.Network
