import Fion.Network.ErrorStatus
import Fion.Network.LengthField
import Fion.Text.Cut

/-!
# Lengths that are no numbers

A length line whose value is not a number is to be answered with an error at once.
`is_request_ready` leaves it to `stoull` what a number is, and counts only what that
refuses as an invalid length.  A value with a number in front is a length, so the
connection waits for that many bytes (`requestReady_iff_lengthText`).

`process_request` does not look at the length again.  It prepares an error without any
user code exactly when it would without the length line: when the request is not given
to a handler (`preparesError_iff`).
-/

namespace Fion.Network

open Cpp (Bytes ascii chr cr lf isdigit decimal stoull)
open Text (find findFrom lines)
open Http (Request Response Headers)

variable {W : Type} {regex : RegexEngine} {routes : List (Route W)}

/-! ## The length line -/

/-- The value on the first line of a block that begins with `Content-Length:`. -/
def lengthValue (block : Bytes) : Option Bytes :=
  ((lines lf block).find? fun line => (ascii "Content-Length:").isPrefixOf line).map fun line =>
    Headers.popCR ((line.drop 15).dropWhile isBlank)

/-- The data has a complete head, and the first length line of its header block has a
value that is not a number below `2 ^ 64` in decimal digits. -/
structure MalformedLength (data : Bytes) (firstCrlf headersEnd : Nat) (value : Bytes) : Prop where
  first : find [cr, lf] data = some firstCrlf
  head : find [cr, lf, cr, lf] data = some headersEnd
  line : lengthValue (blockBetween data firstCrlf headersEnd) = some value
  malformed : ¬ (value ≠ [] ∧ (∀ b ∈ value, isdigit b = true) ∧ decimal value < 2 ^ 64)

/-- The text that `is_request_ready` converts: what stands behind the first occurrence
of `Content-Length:` and the blanks there, up to the next line end. -/
def lengthText (data : Bytes) : Option Bytes := do
  let pos ← find (ascii "Content-Length:") data
  let valueStart := skipBlanks data (pos + 15)
  let valueEnd ← findFrom [cr, lf] data valueStart
  return (data.drop valueStart).take (valueEnd - valueStart)

/-- As many bytes have been received as `stoull` reads from a text, if it reads a
number. -/
def Received (text : Bytes) (received : Nat) : Prop :=
  ∀ n, stoull text = .ok n → n ≤ received

/-- With a length line, the first occurrence of the text ends in the head. -/
theorem MalformedLength.exists_find {data value : Bytes} {firstCrlf headersEnd : Nat}
    (h : MalformedLength data firstCrlf headersEnd value) :
    ∃ pos, find (ascii "Content-Length:") data = some pos ∧ pos + 15 ≤ headersEnd := by
  obtain ⟨line, hfind, -⟩ := Option.map_eq_some_iff.mp h.line
  have hline : line ∈ lines lf (blockBetween data firstCrlf headersEnd) :=
    List.mem_of_find?_eq_some hfind
  have hprefix : ascii "Content-Length:" <+: line :=
    List.isPrefixOf_iff_prefix.mp (by simpa using List.find?_some hfind)
  have hwithin : ascii "Content-Length:" <:+: data.take headersEnd :=
    hprefix.isInfix.trans
      ((Text.infix_of_mem_lines hline).trans (List.drop_suffix _ _).isInfix)
  obtain ⟨pos, hpos⟩ : ∃ pos, find (ascii "Content-Length:") (data.take headersEnd) = some pos := by
    refine Option.ne_none_iff_exists'.mp fun hnone => ?_
    exact Text.find_eq_none_iff_not_infix.mp hnone hwithin
  have hle := Text.find_le (by decide) hpos
  have hlen : (ascii "Content-Length:").length = 15 := rfl
  rw [List.length_take, hlen] at hle
  exact ⟨pos, Text.find_mono (by decide) (List.take_prefix _ _) hpos, by omega⟩

/-- The blanks behind a position in the head end in the head. -/
theorem skipBlanks_le {data : Bytes} {headersEnd pos : Nat}
    (hend : find [cr, lf, cr, lf] data = some headersEnd) (hpos : pos ≤ headersEnd) :
    skipBlanks data pos ≤ headersEnd := by
  by_contra hlt
  have hindex : headersEnd - pos < ((data.drop pos).takeWhile isBlank).length := by
    unfold skipBlanks at hlt
    omega
  obtain ⟨behind, hbehind⟩ := List.takeWhile_prefix (l := data.drop pos) isBlank
  have hcr : ((data.drop pos).takeWhile isBlank)[headersEnd - pos]? = some cr := by
    have happend : ((data.drop pos).takeWhile isBlank ++ behind)[headersEnd - pos]? =
        ((data.drop pos).takeWhile isBlank)[headersEnd - pos]? :=
      List.getElem?_append_left hindex
    rw [← happend, hbehind, List.getElem?_drop, Nat.add_sub_cancel' hpos,
      getElem?_headersEnd hend]
  exact absurd (List.mem_takeWhile_imp (List.mem_of_getElem? hcr)) (by decide)

/-- So a line end follows the text. -/
theorem MalformedLength.exists_lengthText {data value : Bytes} {firstCrlf headersEnd : Nat}
    (h : MalformedLength data firstCrlf headersEnd value) :
    ∃ text, lengthText data = some text := by
  obtain ⟨pos, hpos, hle⟩ := h.exists_find
  have hstart := skipBlanks_le h.head hle
  have hlong := Text.find_le (by simp) h.head
  obtain ⟨valueEnd, hvalueEnd⟩ :
      ∃ valueEnd, findFrom [cr, lf] data (skipBlanks data (pos + 15)) = some valueEnd := by
    rw [findFrom, if_pos (by omega)]
    obtain ⟨i, hi⟩ : ∃ i, find [cr, lf] (data.drop (skipBlanks data (pos + 15))) = some i := by
      refine Option.ne_none_iff_exists'.mp fun hnone => ?_
      refine Text.find_eq_none_iff.mp hnone (headersEnd - skipBlanks data (pos + 15)) ?_
      rw [List.drop_drop, Nat.add_sub_cancel' hstart]
      exact lineEnd_isPrefix.trans (Text.find_eq_some_iff.mp h.head).1
    exact ⟨_, by rw [hi, Option.map_some]⟩
  exact ⟨_, by simp only [lengthText, hpos, hvalueEnd, Option.bind_eq_bind, Option.bind_some]; rfl⟩

/-- The connection does not wait when as many bytes have been received as `stoull` reads
from the text, or when it reads no number. -/
theorem requestReady_iff_lengthText {data text : Bytes} {headersEnd : Nat}
    (hend : find [cr, lf, cr, lf] data = some headersEnd) (htext : lengthText data = some text) :
    requestReady data = true ↔ Received text (data.length - (headersEnd + 4)) := by
  obtain ⟨pos, hpos, htext⟩ := Option.bind_eq_some_iff.mp htext
  obtain ⟨valueEnd, hvalueEnd, htext⟩ := Option.bind_eq_some_iff.mp htext
  obtain rfl := Option.some.inj htext
  rw [requestReady_iff_rawDemand hend, rawDemand]
  simp only [hpos, hvalueEnd, Received]
  generalize stoull _ = number
  cases number with
  | error e => simp
  | ok n => simp only [Nat.cast_le, Except.ok.injEq, forall_eq']

/-! ## The answer -/

/-- `process_request` prepares a response with an error status, and no user code runs. -/
def PreparesError (regex : RegexEngine) (routes : List (Route W)) (client : Client) (w : W) :
    Prop :=
  ∃ (response : Response) (raw : Bytes), 400 ≤ response.statusCode ∧
    response.toRawResponse = .ok raw ∧
    processRequest regex routes client w = (.ok (client.setResponse raw), w, [])

/-- A request that no handler gets is answered by `process_request` itself, and it has
only errors to answer with. -/
theorem preparesError_of_not_dispatched {client : Client} (w : W)
    (h : ¬ ∃ request found handler,
      Dispatched regex routes client.requestBuffer request found handler) :
    PreparesError regex routes client w := by
  have hway := respond_way regex routes client.requestBuffer w
  generalize hrespond : respond regex routes client.requestBuffer w = outcome at hway
  cases hway with
  | unsplit _ _ => exact ⟨badRequest, _, by decide, rfl, by rw [processRequest, hrespond]; rfl⟩
  | rejected _ =>
      exact ⟨internalServerError, _, by decide, rfl, by rw [processRequest, hrespond]; rfl⟩
  | unsearched _ _ =>
      exact ⟨internalServerError, _, by decide, rfl, by rw [processRequest, hrespond]; rfl⟩
  | unrouted _ _ _ => exact ⟨notFound, _, by decide, rfl, by rw [processRequest, hrespond]; rfl⟩
  | dispatched hdispatched => exact absurd ⟨_, _, _, hdispatched⟩ h

/-- A request that a handler gets runs user code. -/
theorem Dispatched.calls_ne_nil {client : Client} {request : Request} {found : Found W}
    {handler : Handler W} (h : Dispatched regex routes client.requestBuffer request found handler)
    (w : W) : (processRequest regex routes client w).2.2 ≠ [] := by
  rw [processRequest_calls, respond_of_decodes h.decodes]
  simp only [dispatch, h.lookup, h.handler]
  obtain ⟨call, calls, hcalls, -⟩ :=
    exists_runHandler_cons request found.outParams found.outMiddleware handler w
  rw [hcalls]
  exact List.cons_ne_nil call calls

theorem preparesError_iff {client : Client} {w : W} :
    PreparesError regex routes client w ↔
      ¬ ∃ request found handler,
        Dispatched regex routes client.requestBuffer request found handler := by
  refine ⟨?_, preparesError_of_not_dispatched w⟩
  rintro ⟨response, raw, -, -, hprocess⟩ ⟨request, found, handler, hdispatched⟩
  exact hdispatched.calls_ne_nil w (by rw [hprocess])

/-- A malformed length is answered with an error at once, without any user code, exactly
when as many bytes have been received as `stoull` reads from the text behind the first
occurrence of `Content-Length:`, if it reads a number there, and the request is not
given to a handler. -/
theorem malformedLength_answered_iff {client : Client} {value : Bytes}
    {firstCrlf headersEnd : Nat}
    (h : MalformedLength client.requestBuffer firstCrlf headersEnd value) {w : W} :
    (client.isRequestReady = true ∧ PreparesError regex routes client w) ↔
      (∃ text, lengthText client.requestBuffer = some text ∧
        Received text (client.requestBuffer.length - (headersEnd + 4))) ∧
      ¬ ∃ request found handler,
        Dispatched regex routes client.requestBuffer request found handler := by
  obtain ⟨text, htext⟩ := h.exists_lengthText
  have hready : client.isRequestReady = true ↔
      Received text (client.requestBuffer.length - (headersEnd + 4)) :=
    requestReady_iff_lengthText h.head htext
  rw [hready, preparesError_iff, htext]
  simp

/-- A value with a byte that is no digit is malformed. -/
theorem malformed_of_all {value : Bytes} (h : value.all isdigit = false) :
    ¬ (value ≠ [] ∧ (∀ b ∈ value, isdigit b = true) ∧ decimal value < 2 ^ 64) := by
  rintro ⟨-, hdigits, -⟩
  rw [List.all_eq_true.mpr hdigits] at h
  cases h

/-- A request for `/` with a length line and a body of five bytes. -/
def lengthRequest (value : String) : Bytes :=
  ascii ("POST / HTTP/1.1\r\nContent-Length: " ++ value ++ "\r\n\r\nhello")

/-- Letters, in a request that no route takes. -/
theorem malformedLength_answered_letters :
    (clientWith (lengthRequest "five")).isRequestReady = true ∧
      PreparesError starEngine ([] : List (Route Unit)) (clientWith (lengthRequest "five")) () := by
  have hmalformed : MalformedLength (clientWith (lengthRequest "five")).requestBuffer 15 37
      (ascii "five") := ⟨by decide, by decide, by decide, malformed_of_all (by decide)⟩
  refine (malformedLength_answered_iff hmalformed).mpr ⟨?_, ?_⟩
  · refine ⟨ascii "five", by decide, fun n hn => ?_⟩
    cases hn
  · rintro ⟨request, found, handler, hdispatched⟩
    obtain rfl := Except.ok.inj hdispatched.lookup
    cases hdispatched.handler

/-- With a number in front of a letter, the handler runs when as many bytes are there,
and the connection waits when they are not. -/
theorem malformedLength_not_answered :
    MalformedLength (lengthRequest "5x") 15 35 (ascii "5x") ∧
    ¬ ((clientWith (lengthRequest "5x")).isRequestReady = true ∧
      PreparesError starEngine (oneRoute (ascii "POST")) (clientWith (lengthRequest "5x")) ()) ∧
    MalformedLength (lengthRequest "9x") 15 35 (ascii "9x") ∧
    (clientWith (lengthRequest "9x")).isRequestReady = false := by
  refine ⟨⟨by decide, by decide, by decide, malformed_of_all (by decide)⟩, ?_,
    ⟨by decide, by decide, by decide, malformed_of_all (by decide)⟩, by decide⟩
  rintro ⟨-, response, raw, -, -, hprocess⟩
  obtain ⟨call, calls, hcalls⟩ : ∃ call calls, (processRequest starEngine (oneRoute (ascii "POST"))
      (clientWith (lengthRequest "5x")) ()).2.2 = call :: calls := ⟨_, _, rfl⟩
  rw [hprocess] at hcalls
  cases hcalls

end Fion.Network
