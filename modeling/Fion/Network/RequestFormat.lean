import Fion.Network.HeaderBlock

/-!
# Decoding undoes encoding

A `Message` is a request as a peer writes it: three words, header fields, a body,
each in the form the server accepts.  `Message.encode` are its bytes and
`Message.request` is the request it means.  Cutting the bytes apart with
`splitRequest` and reading the parts with `Request.make` gives that request back.

Where the cuts are and what the header block is read as is shown for all messages in
`splitRequest_message`; here it is applied to fields that are read back as they are.
-/

namespace Fion.Network

open Cpp (Bytes ascii cr lf sizeSub)
open Text (find lines)
open Http (Request Method Version URL Headers)

/-! ## Messages -/

/-- A header field that fits on one line and is read back from it. -/
structure Field where
  key : Bytes
  value : Bytes
  key_line : lf ∉ key
  key_sep : find (ascii ": ") key = none
  value_line : lf ∉ value
  value_end : value.getLast? ≠ some cr

namespace Field

/-- The field as text, without a line end. -/
def text (f : Field) : Bytes := f.key ++ ascii ": " ++ f.value

/-- The key and the value, as the map stores them. -/
theorem oneLine (f : Field) : OneLine (f.key, f.value) :=
  ⟨f.key_line, f.key_sep, f.value_line⟩

end Field

/-- A request in the form the server accepts. -/
structure Message where
  methodName : Bytes
  method : Method
  target : Bytes
  url : URL
  versionName : Bytes
  version : Version
  headers : List Field
  body : Bytes
  method_accepted : Http.stringToMethod methodName = .ok method
  target_word : target ≠ [] ∧ ∀ b ∈ target, Cpp.isspace b = false
  target_accepted : URL.parse target = .ok url
  version_accepted : Http.stringToVersion versionName = .ok version
  headers_distinct : (headers.map Field.key).Nodup

/-- The header fields, one on each line. -/
def headerLines (fields : List Field) : Bytes := fields.flatMap fun f => f.text ++ [cr, lf]

namespace Message

/-- The first line, without its line end. -/
def startLine (m : Message) : Bytes :=
  m.methodName ++ ascii " " ++ m.target ++ ascii " " ++ m.versionName

/-- The bytes of the message. -/
def encode (m : Message) : Bytes :=
  m.startLine ++ [cr, lf] ++ headerLines m.headers ++ [cr, lf] ++ m.body

/-- The request the message means. -/
def request (m : Message) : Request where
  method := m.method
  url := m.url
  version := m.version
  headers := .ofList (m.headers.map fun f => (f.key, f.value))
  body := m.body

end Message

/-! ## Header blocks -/

/-- The text between the first line and the empty line. -/
def headerBlock : List Field → Bytes
  | [] => []
  | [f] => f.text
  | f :: g :: fields => f.text ++ [cr, lf] ++ headerBlock (g :: fields)

/-- It is the header lines of the keys and values. -/
theorem headerBlock_eq (fields : List Field) :
    headerBlock fields =
      [cr, lf].intercalate ((fields.map fun f => (f.key, f.value)).map headerLine) := by
  induction fields with
  | nil => rfl
  | cons f fields ih =>
      cases fields with
      | nil => simp [headerBlock, Field.text, headerLine]
      | cons g fields =>
          rw [headerBlock, ih]
          simp only [List.map_cons, List.intercalate_cons_cons]
          rfl

/-- The block is all header lines but for the last line end. -/
theorem headerLines_eq (f : Field) (fields : List Field) :
    headerLines (f :: fields) = headerBlock (f :: fields) ++ [cr, lf] := by
  have hlines := Text.flatMap_line_end (c := cr) (d := lf) f.text (fields.map Field.text)
  rw [← List.map_cons, List.flatMap_map] at hlines
  rw [headerBlock_eq, List.map_map]
  exact hlines

/-- No value ends in a carriage return, so the last one is read back as well. -/
theorem popLast_fields (fields : List Field) :
    popLast (fields.map fun f => (f.key, f.value)) = fields.map fun f => (f.key, f.value) := by
  induction fields with
  | nil => rfl
  | cons f fields ih =>
      cases fields with
      | nil => rw [List.map_singleton, popLast, Headers.popCR_of_getLast?_ne f.value_end]
      | cons g fields =>
          rw [List.map_cons] at ih
          rw [List.map_cons, List.map_cons, popLast, ih]

/-- Keys and values fit on their lines. -/
theorem oneLine_fields {fields : List Field} {kv : Bytes × Bytes}
    (hkv : kv ∈ fields.map fun f => (f.key, f.value)) : OneLine kv := by
  obtain ⟨f, -, rfl⟩ := List.mem_map.mp hkv
  exact f.oneLine

/-! ## The round trip -/

namespace Message

/-- No word of the first line contains a line feed. -/
theorem lf_not_mem_startLine (m : Message) : lf ∉ m.startLine := by
  have hspace : ∀ {w : Bytes}, (∀ b ∈ w, Cpp.isspace b = false) → lf ∉ w := by
    intro w hw hmem
    exact absurd (hw lf hmem) (by decide)
  have hmethod : lf ∉ m.methodName := by
    rw [Http.stringToMethod_eq_ok_iff.mp m.method_accepted]
    exact hspace m.method.name_word.2
  have hblank : lf ∉ ascii " " := by decide
  simp only [startLine, List.mem_append, not_or]
  exact ⟨⟨⟨⟨hmethod, hblank⟩, hspace m.target_word.2⟩, hblank⟩,
    hspace (Http.not_isspace_of_stringToVersion m.version_accepted).2⟩

/-- The first line is read back. -/
theorem parseStartLine_startLine (m : Message) :
    Http.parseStartLine m.startLine = .ok (m.method, m.url, m.version) := by
  have hname := Http.stringToMethod_eq_ok_iff.mp m.method_accepted
  have hword : m.methodName ≠ [] ∧ ∀ b ∈ m.methodName, Cpp.isspace b = false := by
    rw [hname]
    exact m.method.name_word
  rw [startLine, Http.parseStartLine_words hword m.target_word
    (Http.not_isspace_of_stringToVersion m.version_accepted), m.method_accepted,
    m.target_accepted, m.version_accepted]
  rfl

/-- Without headers the length of the block wraps around, and the block is the
empty line and as much of the body as fits. -/
theorem splitRequest_encode_bare (m : Message) (hheaders : m.headers = []) :
    splitRequest m.encode =
      .ok (.parts m.startLine (cr :: lf :: m.body.take (2 ^ 64 - 4)) m.body) := by
  rw [encode, hheaders, headerLines, List.flatMap_nil, List.append_nil]
  exact splitRequest_bare m.lf_not_mem_startLine m.body

/-- With headers the block is their lines. -/
theorem splitRequest_encode_fields (m : Message) {f : Field} {fields : List Field}
    (hheaders : m.headers = f :: fields) :
    splitRequest m.encode =
      .ok (.parts m.startLine (headerBlock (f :: fields)) m.body) := by
  rw [encode, hheaders, headerLines_eq, headerBlock_eq, ← List.append_assoc]
  exact splitRequest_block m.lf_not_mem_startLine (by simp) (fun _ => oneLine_fields) m.body

/-- The message is cut into its first line, a header block that is read back, and
its body. -/
theorem splitRequest_encode (m : Message) :
    ∃ block, splitRequest m.encode = .ok (.parts m.startLine block m.body) ∧
      Headers.parseFromRaw ∅ block = m.request.headers := by
  cases hheaders : m.headers with
  | nil =>
      refine ⟨_, m.splitRequest_encode_bare hheaders, ?_⟩
      rw [parseFromRaw_empty_line]
      simp [request, hheaders]
  | cons f fields =>
      refine ⟨_, m.splitRequest_encode_fields hheaders, ?_⟩
      rw [headerBlock_eq, parseFromRaw_block (by simp) (fun _ => oneLine_fields), popLast_fields,
        request, hheaders, Std.ExtTreeMap.ofList_eq_insertMany_empty]

/-- The map holds exactly the fields of the message. -/
theorem getElem?_headers (m : Message) (key value : Bytes) :
    m.request.headers[key]? = some value ↔ ∃ f ∈ m.headers, f.key = key ∧ f.value = value := by
  have hkeys : ((m.headers.map fun f => (f.key, f.value)).map Prod.fst).Nodup := by
    rw [List.map_map]
    exact m.headers_distinct
  rw [request, Std.ExtTreeMap.ofList_eq_insertMany_empty, Headers.getElem?_insertMany_iff hkeys]
  simp [List.mem_map]

/-- Cutting the bytes of a message apart and reading the parts gives the request
the message means, with exactly its header fields and its body.  The server
dispatches that request. -/
theorem decode_encode (m : Message) :
    (∃ block, splitRequest m.encode = .ok (.parts m.startLine block m.body) ∧
      Request.make m.startLine block m.body = .ok m.request) ∧
    (∀ key value, m.request.headers[key]? = some value ↔
      ∃ f ∈ m.headers, f.key = key ∧ f.value = value) ∧
    ∀ {W : Type} (regex : RegexEngine) (routes : List (Route W)) (w : W),
      respond regex routes m.encode w = dispatch regex routes m.request w := by
  obtain ⟨block, hsplit, hblock⟩ := m.splitRequest_encode
  have hmake : Request.make m.startLine block m.body = .ok m.request := by
    rw [Request.make, m.parseStartLine_startLine]
    simp only [Cpp.rethrowInvalid_ok, Cpp.ok_bind, hblock]
    rfl
  exact ⟨⟨block, hsplit, hmake⟩, m.getElem?_headers,
    respond_of_decodes ⟨_, block, m.body, hsplit, hmake⟩⟩

/-- A message without headers whose body looks like a header. -/
def bareMessage : Message where
  methodName := ascii "PATCH"
  method := .patch
  target := ascii "/a"
  url := ⟨[], [], 0, ascii "/a", ∅, []⟩
  versionName := ascii "HTTP/1.1"
  version := .http11
  headers := []
  body := ascii "X: y\r\n\r\n"
  method_accepted := rfl
  target_word := ⟨by decide, Cpp.not_isspace_of_all (by decide)⟩
  target_accepted := by rfl
  version_accepted := by rfl
  headers_distinct := .nil

/-- Its header block begins with the empty line and goes on with the body. -/
example : splitRequest bareMessage.encode =
    .ok (.parts (ascii "PATCH /a HTTP/1.1") (ascii "\r\nX: y\r\n\r\n") (ascii "X: y\r\n\r\n")) := by
  decide

end Message

end Fion.Network
