import Fion.Network.Framing
import Fion.Network.Pool
import Mathlib.Data.ENat.Basic

/-!
# Two readers of one header block

The length of a body is announced by a header field.  Two parts of the server
read it.  `is_request_ready` searches the whole buffer for the text
`Content-Length:`, and `parseFromRaw` reads the header block line by line.  The
header block itself is described here a third time, by its fields: a field is a
line with a colon, whatever the spelling of its name (`fieldOf`, `Declares`).

The search and the block agree when the first occurrence of the text begins a
line of the block (`requestReady_of_ownLine`), and when there is neither text nor
field (`requestReady_of_unmentioned`).  Otherwise the search answers for another
number, `rawDemand`, and agrees only by coincidence: when the bytes received are on
the same side of both numbers.  The line parser agrees when exactly one blank
follows the colon and no line in front of the field is a bare carriage return.
`framing_agrees_iff` puts the two conditions together.
-/

namespace Fion.Network

open Cpp (Bytes ascii chr cr lf isdigit decimal stoull tolower sizeSub)
open Text (find findFrom lines)
open Http (Headers)

/-! ## The fields of a header block -/

/-- The name and the value of a header line.  Blanks in front of the value and a
carriage return behind it are not part of it. -/
def fieldOf (line : Bytes) : Option (Bytes × Bytes) :=
  (find [chr ':'] line).map fun colon =>
    (line.take colon, Headers.popCR ((line.drop (colon + 1)).dropWhile isBlank))

/-- The line is a field named `Content-Length`, in any spelling. -/
def isLengthField (line : Bytes) : Bool :=
  match fieldOf line with
  | some (name, _) => name.map tolower = ascii "content-length"
  | none => false

/-- The fields of a header block with that name. -/
def lengthFields (block : Bytes) : List Bytes := (lines lf block).filter isLengthField

/-- The header block: what stands between the first line and the empty line. -/
def blockBetween (data : Bytes) (firstCrlf headersEnd : Nat) : Bytes :=
  (data.take headersEnd).drop (firstCrlf + 2)

/-- The block announces a body of `n` bytes: it has no length field and `n` is
zero, or it has one, whose value is the number `n`. -/
inductive Declares (block : Bytes) : Option (Bytes × Bytes) → Nat → Prop where
  | absent : lengthFields block = [] → Declares block none 0
  | present {line name digits : Bytes} :
      lengthFields block = [line] →
      fieldOf line = some (name, digits) →
      digits ≠ [] →
      (∀ b ∈ digits, isdigit b = true) →
      decimal digits < 2 ^ 64 →
      Declares block (some (name, digits)) (decimal digits)

/-! ## What the search demands -/

/-- The number behind the first occurrence of the text `Content-Length:`.  It is
zero without the text, and when what stands there is not a number.  Without a
line end behind the text nothing is ever enough. -/
def rawDemand (data : Bytes) : ℕ∞ :=
  match find (ascii "Content-Length:") data with
  | none => 0
  | some pos =>
      let valueStart := skipBlanks data (pos + 15)
      match findFrom [cr, lf] data valueStart with
      | none => ⊤
      | some valueEnd =>
          match stoull ((data.drop valueStart).take (valueEnd - valueStart)) with
          | .error _ => 0
          | .ok n => n

/-- With a complete head, a request is complete when the search gets what it
demands. -/
theorem requestReady_iff_rawDemand {data : Bytes} {headersEnd : Nat}
    (hend : find [cr, lf, cr, lf] data = some headersEnd) :
    requestReady data = true ↔ rawDemand data ≤ (data.length - (headersEnd + 4) : Nat) := by
  have hne : data ≠ [] := fun hnil => by rw [hnil] at hend; cases hend
  unfold requestReady rawDemand
  rw [if_neg hne]
  simp only [hend]
  cases find (ascii "Content-Length:") data with
  | none => simp
  | some pos =>
      simp only
      cases findFrom [cr, lf] data (skipBlanks data (pos + 15)) with
      | none => simp
      | some valueEnd =>
          simp only
          generalize stoull _ = number
          cases number with
          | error e => simp
          | ok n => simp only [decide_eq_true_eq, Nat.cast_le]

/-! ## A length field that the search finds -/

/-- The first occurrence of the text begins a line of the header block. -/
def OwnLine (data : Bytes) (firstCrlf headersEnd : Nat) : Prop :=
  ∃ pos, find (ascii "Content-Length:") data = some pos ∧ firstCrlf + 2 ≤ pos ∧
    pos < headersEnd ∧ data[pos - 1]? = some lf

/-- A line that begins with the text is a length field. -/
theorem fieldOf_length (rest : Bytes) :
    fieldOf (ascii "Content-Length:" ++ rest) =
      some (ascii "Content-Length", Headers.popCR (rest.dropWhile isBlank)) := by
  have hcolon : find [chr ':'] (ascii "Content-Length:") = some 14 := by decide
  rw [fieldOf, Text.find_append_of_some (by simp) hcolon]
  rfl

/-- The text does not reach beyond the head. -/
theorem length_text_le {data : Bytes} {headersEnd pos : Nat}
    (hend : find [cr, lf, cr, lf] data = some headersEnd)
    (hpos : find (ascii "Content-Length:") data = some pos) (hlt : pos < headersEnd) :
    pos + 15 ≤ headersEnd := by
  by_contra hle
  obtain ⟨t, ht⟩ := (Text.find_eq_some_iff.mp hpos).1
  have htext : (ascii "Content-Length:" ++ t)[headersEnd - pos]? = some cr := by
    rw [ht, List.getElem?_drop, Nat.add_sub_cancel' (Nat.le_of_lt hlt),
      getElem?_headersEnd hend]
  have hlen : (ascii "Content-Length:").length = 15 := rfl
  rw [List.getElem?_append_left (by omega)] at htext
  exact absurd (List.mem_of_getElem? htext) (by decide)

/-- The block up to a position behind a line feed is whole lines. -/
theorem eq_lf_of_getLast?_take {data : Bytes} {firstCrlf headersEnd pos : Nat}
    (hge : firstCrlf + 2 ≤ pos) (hlt : pos < headersEnd) (hlf : data[pos - 1]? = some lf) :
    ∀ b ∈ ((blockBetween data firstCrlf headersEnd).take (pos - (firstCrlf + 2))).getLast?,
      b = lf := by
  intro b hb
  rw [List.getLast?_take] at hb
  split_ifs at hb with hzero
  · cases hb
  · have hindex : firstCrlf + 2 + (pos - (firstCrlf + 2) - 1) = pos - 1 := by omega
    rw [blockBetween, List.getElem?_drop, hindex, List.getElem?_take_of_lt (by omega), hlf] at hb
    exact (Option.some.inj hb).symm

/-- Where the first occurrence begins a line of the block, that line is one of the
fields, and the rest of the block and the empty line follow it. -/
theorem exists_line_of_ownLine {data : Bytes} {firstCrlf headersEnd : Nat}
    (hend : find [cr, lf, cr, lf] data = some headersEnd)
    (hown : OwnLine data firstCrlf headersEnd) :
    ∃ pos rest, find (ascii "Content-Length:") data = some pos ∧
      data.drop pos = ascii "Content-Length:" ++ (rest ++ data.drop headersEnd) ∧
      ascii "Content-Length:" ++ rest.takeWhile (· ≠ lf) ∈
        lengthFields (blockBetween data firstCrlf headersEnd) := by
  obtain ⟨pos, hpos, hge, hlt, hlf⟩ := hown
  have hfit := length_text_le hend hpos hlt
  have hle := Text.find_le (by simp) hend
  have hsplit : data.drop pos = (data.take headersEnd).drop pos ++ data.drop headersEnd := by
    conv_lhs => rw [← List.take_append_drop headersEnd data]
    refine List.drop_append_of_le_length ?_
    rw [List.length_take]
    omega
  obtain ⟨rest, hrest⟩ : ascii "Content-Length:" <+: (data.take headersEnd).drop pos := by
    refine List.prefix_of_prefix_length_le (Text.find_eq_some_iff.mp hpos).1
      (hsplit ▸ List.prefix_append _ _) ?_
    have hlen : (ascii "Content-Length:").length = 15 := rfl
    rw [List.length_drop, List.length_take]
    omega
  refine ⟨pos, rest, hpos, by rw [hsplit, ← hrest, List.append_assoc], ?_⟩
  have hblock : blockBetween data firstCrlf headersEnd =
      (blockBetween data firstCrlf headersEnd).take (pos - (firstCrlf + 2)) ++
        (ascii "Content-Length:" ++ rest) := by
    have hdrop : (blockBetween data firstCrlf headersEnd).drop (pos - (firstCrlf + 2)) =
        (data.take headersEnd).drop pos := by
      rw [blockBetween, List.drop_drop, Nat.add_sub_cancel' hge]
    rw [hrest, ← hdrop, List.take_append_drop]
  have hne : ascii "Content-Length:" ++ rest ≠ [] := by simp [ascii]
  have hline := Text.takeWhile_mem_lines (d := lf) hne
  rw [List.takeWhile_append_of_pos (List.all_eq_true.mp (by decide))] at hline
  refine List.mem_filter.mpr ⟨?_, ?_⟩
  · rw [hblock, Text.lines_append (eq_lf_of_getLast?_take hge hlt hlf)]
    exact List.mem_append_right _ hline
  · rw [isLengthField, fieldOf_length]
    exact decide_eq_true (by decide)

/-- What stands behind the colon of a field: blanks, the value, perhaps a carriage
return, and the other lines. -/
theorem exists_eq_of_value {rest value : Bytes}
    (h : Headers.popCR ((rest.takeWhile (· ≠ lf)).dropWhile isBlank) = value) :
    ∃ crs, (crs = [] ∨ crs = [cr]) ∧ rest = (rest.takeWhile (· ≠ lf)).takeWhile isBlank ++
      (value ++ (crs ++ rest.dropWhile (· ≠ lf))) := by
  obtain ⟨crs, hcrs, hafter⟩ : ∃ crs, (crs = [] ∨ crs = [cr]) ∧
      (rest.takeWhile (· ≠ lf)).dropWhile isBlank = value ++ crs := by
    rcases Headers.eq_of_popCR h with h | h
    · exact ⟨[], .inl rfl, by rw [h, List.append_nil]⟩
    · exact ⟨[cr], .inr rfl, h⟩
  refine ⟨crs, hcrs, ?_⟩
  conv_lhs => rw [← List.takeWhile_append_dropWhile (p := (· ≠ lf)) (l := rest),
    ← List.takeWhile_append_dropWhile (p := isBlank) (l := rest.takeWhile (· ≠ lf)), hafter]
  simp only [List.append_assoc]

/-- No digit follows the value of a field: there is a carriage return, a line feed,
or the empty line. -/
theorem not_isdigit_head?_of_crs {crs rest emptyLine : Bytes} (hcrs : crs = [] ∨ crs = [cr])
    (hempty : [cr, lf, cr, lf] <+: emptyLine) :
    ∀ b ∈ (crs ++ rest.dropWhile (· ≠ lf) ++ emptyLine).head?, isdigit b = false := by
  obtain ⟨u, rfl⟩ := hempty
  intro b hb
  rcases hcrs with rfl | rfl
  · have hnot := List.head?_dropWhile_not (· ≠ lf) rest
    cases hdrop : rest.dropWhile (· ≠ lf) with
    | nil =>
        rw [hdrop] at hb
        obtain rfl := Option.some.inj hb
        exact Cpp.not_isdigit_cr
    | cons c tail =>
        rw [hdrop] at hb hnot
        obtain rfl := Option.some.inj hb
        obtain rfl : c = lf := by simpa using hnot
        decide
  · obtain rfl := Option.some.inj hb
    exact Cpp.not_isdigit_cr

/-- With a length field that begins at the first occurrence of the text, the
request is complete when as many bytes as the field says follow the empty line. -/
theorem requestReady_of_ownLine {data : Bytes} {firstCrlf headersEnd : Nat}
    (hend : find [cr, lf, cr, lf] data = some headersEnd)
    (hown : OwnLine data firstCrlf headersEnd) {field : Option (Bytes × Bytes)} {n : Nat}
    (hdeclares : Declares (blockBetween data firstCrlf headersEnd) field n) :
    requestReady data = true ↔ n ≤ data.length - (headersEnd + 4) := by
  obtain ⟨pos, rest, hpos, hdata, hmem⟩ := exists_line_of_ownLine hend hown
  cases hdeclares with
  | absent hnone => rw [hnone] at hmem; cases hmem
  | @present line name digits hone hfield hne hdigits hlt =>
      rw [hone, List.mem_singleton] at hmem
      rw [← hmem, fieldOf_length] at hfield
      have hvalue : Headers.popCR ((rest.takeWhile (· ≠ lf)).dropWhile isBlank) = digits :=
        (Prod.mk.inj (Option.some.inj hfield)).2
      have hempty := (Text.find_eq_some_iff.mp hend).1
      obtain ⟨crs, hcrs, hrest⟩ := exists_eq_of_value hvalue
      have htake : (data.take pos).length = pos := by
        have hle := Text.find_le (by decide) hpos
        rw [List.length_take]
        omega
      have hwhole : data = data.take pos ++ ascii "Content-Length:" ++
          ((rest.takeWhile (· ≠ lf)).takeWhile isBlank ++
            (digits ++ (crs ++ rest.dropWhile (· ≠ lf) ++ data.drop headersEnd))) := by
        conv_lhs => rw [← List.take_append_drop pos data, hdata, hrest]
        simp only [List.append_assoc]
      refine requestReady_of_digits hwhole hend (htake.symm ▸ hpos)
        (fun b hb => List.mem_takeWhile_imp hb) hne hdigits hlt
        (not_isdigit_head?_of_crs hcrs hempty) ?_
      refine Option.isSome_iff_exists.mp (Option.isSome_iff_ne_none.mpr fun hnone => ?_)
      refine Text.find_eq_none_iff.mp hnone (crs ++ rest.dropWhile (· ≠ lf)).length ?_
      rw [List.drop_left]
      exact lineEnd_isPrefix.trans hempty

/-! ## A length field that the line parser stores -/

/-- The field is on a line in front of any bare carriage return, and exactly one
blank follows its colon. -/
def ReadLine (block name value : Bytes) : Prop :=
  ∃ line ∈ Headers.linesRead (lines lf block),
    line = name ++ ascii ": " ++ value ∨ line = name ++ ascii ": " ++ (value ++ [cr])

/-- The name of a field contains no colon. -/
theorem colon_not_mem_of_fieldOf {line name value : Bytes} (h : fieldOf line = some (name, value)) :
    chr ':' ∉ name := by
  obtain ⟨colon, hfind, heq⟩ := Option.map_eq_some_iff.mp h
  obtain ⟨rfl, -⟩ := Prod.mk.inj heq
  rw [(Text.take_of_find_singleton hfind).1]
  intro hmem
  simpa using List.mem_takeWhile_imp hmem

/-- A stored line with the name of a length field is one. -/
theorem isLengthField_of_stores {line line' name value value' : Bytes}
    (hfield : fieldOf line = some (name, value)) (hlength : isLengthField line = true)
    (hstores : Headers.Stores line' name value') : isLengthField line' = true := by
  obtain ⟨delimiterPos, hfind, hname, -⟩ := hstores
  have hsplit := Text.eq_append_of_find hfind
  rw [← hname] at hsplit
  have hcolon : find [chr ':'] line' = some name.length := by
    rw [hsplit, List.append_assoc]
    refine Text.find_append_self_of_skip [chr ':'] ([32] ++ _) fun j hj => ?_
    exact Text.not_prefix_drop_of_first rfl (colon_not_mem_of_fieldOf hfield) hj
  have htake : line'.take name.length = name := by
    rw [hsplit, List.append_assoc, List.take_left]
  simp only [isLengthField, hfield] at hlength
  simp only [isLengthField, fieldOf, hcolon, Option.map_some, htake]
  exact hlength

/-- The value of the one length field of a block is stored under its name exactly
when its line is read and has the form the parser expects. -/
theorem getElem?_parseFromRaw_iff {block line name digits : Bytes}
    (hone : lengthFields block = [line]) (hfield : fieldOf line = some (name, digits))
    (hdigits : ∀ b ∈ digits, isdigit b = true) :
    (Headers.parseFromRaw ∅ block)[name]? = some digits ↔ ReadLine block name digits := by
  constructor
  · intro hget
    rcases Headers.exists_stores_of_parseLines hget with hempty | ⟨line', hread, hstores⟩
    · simp at hempty
    · obtain ⟨delimiterPos, hfind, rfl, hvalue⟩ := hstores
      have hsplit := Text.eq_append_of_find hfind
      refine ⟨line', hread, ?_⟩
      rcases Headers.eq_of_popCR hvalue.symm with h | h
      · exact .inl (by rw [← h]; exact hsplit)
      · exact .inr (by rw [← h]; exact hsplit)
  · rintro ⟨line', hread, hline'⟩
    have hlength : isLengthField line = true := by
      have hmem : line ∈ lengthFields block := by rw [hone]; exact List.mem_singleton_self line
      exact (List.mem_filter.mp hmem).2
    have hkey : find (ascii ": ") name = none := by
      refine Text.find_eq_none_iff.mpr fun i hocc => colon_not_mem_of_fieldOf hfield ?_
      exact List.mem_of_mem_drop (hocc.subset (by decide))
    have hnocr : digits.getLast? ≠ some cr := fun hlast => by
      have hcr := hdigits cr (List.mem_of_getLast? hlast)
      rw [Cpp.not_isdigit_cr] at hcr
      cases hcr
    have hstores : Headers.Stores line' name digits := by
      rcases hline' with rfl | rfl
      · have h := Headers.stores_sep hkey digits
        rwa [Headers.popCR_of_getLast?_ne hnocr] at h
      · have h := Headers.stores_sep hkey (digits ++ [cr])
        rwa [Headers.popCR_append_cr] at h
    -- a line that stores something under this name is the one length field
    have honly : ∀ l ∈ Headers.linesRead (lines lf block), ∀ v, Headers.Stores l name v →
        l = line := by
      intro l hl v hv
      have hmem : l ∈ lengthFields block :=
        List.mem_filter.mpr ⟨(List.takeWhile_subset _) hl,
          isLengthField_of_stores hfield hlength hv⟩
      rwa [hone, List.mem_singleton] at hmem
    refine Headers.parseLines_of_stores (.inr ⟨line', hread, hstores⟩) fun l hl v hv => ?_
    obtain rfl : l = line' := (honly l hl v hv).trans (honly line' hread _ hstores).symm
    exact (hv.unique hstores).2

/-- A block that is not empty is what the parser is given. -/
theorem splitRequest_of_blockBetween {data : Bytes} {firstCrlf headersEnd : Nat}
    (hfirst : find [cr, lf] data = some firstCrlf)
    (hend : find [cr, lf, cr, lf] data = some headersEnd)
    (hne : blockBetween data firstCrlf headersEnd ≠ []) :
    splitRequest data = .ok (.parts (data.take firstCrlf) (blockBetween data firstCrlf headersEnd)
      (data.drop (headersEnd + 4))) := by
  have hlt : firstCrlf + 2 < headersEnd := by
    by_contra hle
    refine hne (List.drop_eq_nil_of_le ?_)
    rw [List.length_take]
    omega
  have hsub : sizeSub headersEnd firstCrlf = headersEnd - firstCrlf :=
    Cpp.sizeSub_of_le (by omega)
  rw [splitRequest_of_find hfirst hend, hsub, Cpp.sizeSub_of_le (by omega), Nat.sub_sub,
    blockBetween, List.drop_take]

/-! ## Both readers -/

/-- Neither the text nor a length field is there. -/
def Unmentioned (data : Bytes) (field : Option (Bytes × Bytes)) : Prop :=
  find (ascii "Content-Length:") data = none ∧ field = none

/-- The bytes that follow the head are enough for the number of the search and for `n`, or
for neither. -/
def Coincides (data : Bytes) (headersEnd n : Nat) : Prop :=
  (rawDemand data ≤ (data.length - (headersEnd + 4) : Nat) ∧ n ≤ data.length - (headersEnd + 4)) ∨
    ((data.length - (headersEnd + 4) : Nat) < rawDemand data ∧
      data.length - (headersEnd + 4) < n)

/-- Without the text and a field, the request is complete when its head is. -/
theorem requestReady_of_unmentioned {data block : Bytes} {headersEnd n : Nat}
    (hend : find [cr, lf, cr, lf] data = some headersEnd) {field : Option (Bytes × Bytes)}
    (hdeclares : Declares block field n) (h : Unmentioned data field) :
    requestReady data = true ↔ n ≤ data.length - (headersEnd + 4) := by
  obtain ⟨htext, rfl⟩ := h
  have hdemand : rawDemand data = 0 := by simp only [rawDemand, htext]
  cases hdeclares with
  | absent =>
      have hready := (requestReady_iff_rawDemand hend).mpr (by rw [hdemand]; exact zero_le)
      exact iff_of_true hready (Nat.zero_le _)

/-- Whatever the search reads, it decides like `n` exactly when both numbers coincide. -/
theorem requestReady_iff_coincides {data : Bytes} {headersEnd n : Nat}
    (hend : find [cr, lf, cr, lf] data = some headersEnd) :
    (requestReady data = true ↔ n ≤ data.length - (headersEnd + 4)) ↔
      Coincides data headersEnd n := by
  rw [requestReady_iff_rawDemand hend, Coincides, ← not_le, ← not_le (a := n)]
  exact iff_iff_and_or_not_and_not

/-- The header block decides.  For a buffer with a complete head whose header block
announces a body of `n` bytes, the request counts as complete exactly when `n`
bytes follow the head, and the announced number is stored for the handler,
exactly under two conditions.  The first occurrence of the text `Content-Length:`
begins a line of the block, or there is neither text nor field, or the bytes that
follow the head coincide with both numbers.  And the line of the field, if there is
one, can be read by the parser. -/
theorem framing_agrees_iff {data : Bytes} {firstCrlf headersEnd : Nat}
    (hfirst : find [cr, lf] data = some firstCrlf)
    (hend : find [cr, lf, cr, lf] data = some headersEnd) {field : Option (Bytes × Bytes)} {n : Nat}
    (hdeclares : Declares (blockBetween data firstCrlf headersEnd) field n) :
    ((requestReady data = true ↔ n ≤ data.length - (headersEnd + 4)) ∧
      ∀ name value, field = some (name, value) → ∀ startLine headers body,
        splitRequest data = .ok (.parts startLine headers body) →
        (Headers.parseFromRaw ∅ headers)[name]? = some value) ↔
    ((OwnLine data firstCrlf headersEnd ∨ Unmentioned data field ∨ Coincides data headersEnd n) ∧
      ∀ name value, field = some (name, value) →
        ReadLine (blockBetween data firstCrlf headersEnd) name value) := by
  refine and_congr ?_ ?_
  · constructor
    · exact fun h => .inr (.inr ((requestReady_iff_coincides hend).mp h))
    · rintro (hown | hno | hcoincides)
      · exact requestReady_of_ownLine hend hown hdeclares
      · exact requestReady_of_unmentioned hend hdeclares hno
      · exact (requestReady_iff_coincides hend).mpr hcoincides
  · refine forall_congr' fun name => forall_congr' fun value => imp_congr_right fun hfield => ?_
    cases hdeclares with
    | absent => cases hfield
    | @present line _ _ hone hline _ hdigits _ =>
        obtain ⟨rfl, rfl⟩ := Prod.mk.inj (Option.some.inj hfield)
        have hblock : blockBetween data firstCrlf headersEnd ≠ [] := fun hnil => by
          rw [hnil] at hone
          cases hone
        rw [← getElem?_parseFromRaw_iff hone hline hdigits,
          splitRequest_of_blockBetween hfirst hend hblock]
        constructor
        · exact fun h => h _ _ _ rfl
        · rintro h startLine headers body heq
          obtain ⟨-, rfl, -⟩ := Parts.parts.inj (Except.ok.inj heq)
          exact h

/-- A request with a body of two bytes, announced by a field with the given name. -/
def namedRequest (name : String) : Bytes :=
  ascii ("PUT / HTTP/1.1\r\n" ++ name ++ ": 2\r\n\r\nhi")

theorem framing_of_content_length :
    (requestReady (namedRequest "Content-Length") = true ↔
      2 ≤ (namedRequest "Content-Length").length - (33 + 4)) ∧
    (Headers.parseFromRaw ∅ (ascii "Content-Length: 2"))[ascii "Content-Length"]? =
      some (ascii "2") := by
  have hfields : lengthFields (blockBetween (namedRequest "Content-Length") 14 33) =
      [ascii "Content-Length: 2"] := by decide
  have hdeclares : Declares (blockBetween (namedRequest "Content-Length") 14 33)
      (some (ascii "Content-Length", ascii "2")) 2 :=
    .present hfields (by decide) (by decide) (List.all_eq_true.mp (by decide)) (by decide)
  obtain ⟨hready, hstored⟩ := (framing_agrees_iff (by decide) (by decide) hdeclares).mpr
    ⟨.inl ⟨16, by decide, by decide, by decide, by decide⟩, by
      rintro name value heq
      obtain ⟨rfl, rfl⟩ := Prod.mk.inj (Option.some.inj heq)
      exact ⟨ascii "Content-Length: 2", by decide, .inl rfl⟩⟩
  exact ⟨hready, hstored _ _ rfl _ _ _ rfl⟩

/-- In another spelling, the field is not found: a request whose body has not
arrived counts as complete. -/
theorem framing_of_lower_case :
    ∃ data, Declares (blockBetween data 14 33) (some (ascii "content-length", ascii "2")) 2 ∧
      find [cr, lf] data = some 14 ∧ find [cr, lf, cr, lf] data = some 33 ∧
      requestReady data = true ∧ ¬ 2 ≤ data.length - (33 + 4) := by
  have hfields : lengthFields (blockBetween ((namedRequest "content-length").take 37) 14 33) =
      [ascii "content-length: 2"] := by decide
  exact ⟨_, .present hfields (by decide) (by decide) (List.all_eq_true.mp (by decide)) (by decide),
    by decide, by decide, by decide, by decide⟩

end Fion.Network
