import Fion.Network.Client

/-!
# When a request is complete

`is_request_ready` looks for the first occurrence of the text `Content-Length:`
and reads a number behind it.  Where that occurrence is a `LengthLine`, the number
is the one on the line, and the request is complete as soon as that many bytes
follow the empty line (`requestReady_of_lengthLine`).

A message whose length line is its first occurrence of the text, or that has no
such text and no body, frames itself (`SelfFramed`).  It is complete, and none of
its proper prefixes is (`not_requestReady_of_prefix`).  A prefix that contains the
empty line contains the length line as well, so it already asks for the body it
does not have.
-/

namespace Fion.Network

open Cpp (Bytes ascii chr cr lf isdigit decimal)
open Text (find findFrom)

/-! ## Length lines -/

/-- The text begins with `Content-Length:`, blanks, the digits of `n` and a line
end, which is at position `size`. -/
def LengthLine (text : Bytes) (n size : Nat) : Prop :=
  ∃ blanks digits rest,
    text = ascii "Content-Length:" ++ (blanks ++ (digits ++ cr :: lf :: rest)) ∧
    (∀ b ∈ blanks, isBlank b = true) ∧
    digits ≠ [] ∧ (∀ b ∈ digits, isdigit b = true) ∧ decimal digits = n ∧ n < 2 ^ 64 ∧
    size = 15 + blanks.length + digits.length

/-- A line is still there in a part that goes beyond its end. -/
theorem LengthLine.of_prefix {text part : Bytes} {n size : Nat} (h : LengthLine text n size)
    (hpart : part <+: text) (hlen : size + 2 ≤ part.length) : LengthLine part n size := by
  obtain ⟨blanks, digits, rest, rfl, hblanks, hne, hdigits, hn, hlt, rfl⟩ := h
  have hline : ascii "Content-Length:" ++ (blanks ++ (digits ++ [cr, lf])) <+: part := by
    refine List.prefix_of_prefix_length_le ⟨rest, by simp⟩ hpart ?_
    have htext : (ascii "Content-Length:").length = 15 := rfl
    simp only [List.length_append, List.length_cons, List.length_nil, htext]
    omega
  obtain ⟨rest', rfl⟩ := hline
  exact ⟨blanks, digits, rest', by simp, hblanks, hne, hdigits, hn, hlt, rfl⟩

/-! ## Reading the number -/

/-- No digit is a blank. -/
theorem not_isBlank_of_isdigit {b : UInt8} (h : isdigit b = true) : isBlank b = false := by
  have hspace : b ≠ chr ' ' := fun he => by subst he; revert h; decide
  have htab : b ≠ chr '\t' := fun he => by subst he; revert h; decide
  simp [isBlank, hspace, htab]

/-- Blanks are skipped up to the first digit. -/
theorem skipBlanks_append (pre : Bytes) {blanks digits : Bytes}
    (hblanks : ∀ b ∈ blanks, isBlank b = true) (hne : digits ≠ [])
    (hdigits : ∀ b ∈ digits, isdigit b = true) (rest : Bytes) :
    skipBlanks (pre ++ (blanks ++ (digits ++ rest))) pre.length = (pre ++ blanks).length := by
  cases digits with
  | nil => exact absurd rfl hne
  | cons d digits =>
      have hd := not_isBlank_of_isdigit (hdigits d List.mem_cons_self)
      rw [skipBlanks, List.drop_left, List.takeWhile_append_of_pos hblanks]
      simp [hd]

/-- Where digits follow the first occurrence of the text, the request is complete
when as many bytes as they say follow the empty line.  What stands between the
digits and the next line end does not matter. -/
theorem requestReady_of_digits {pre blanks digits rest : Bytes} {headersEnd : Nat} {data : Bytes}
    (hdata : data = pre ++ ascii "Content-Length:" ++ (blanks ++ (digits ++ rest)))
    (hend : find [cr, lf, cr, lf] data = some headersEnd)
    (hpos : find (ascii "Content-Length:") data = some pre.length)
    (hblanks : ∀ b ∈ blanks, isBlank b = true) (hne : digits ≠ [])
    (hdigits : ∀ b ∈ digits, isdigit b = true) (hlt : decimal digits < 2 ^ 64)
    (hrest : ∀ b ∈ rest.head?, isdigit b = false)
    (hcrlf : ∃ lineEnd, find [cr, lf] rest = some lineEnd) :
    requestReady data = true ↔ decimal digits ≤ data.length - (headersEnd + 4) := by
  obtain ⟨lineEnd, hlineEnd⟩ := hcrlf
  have hnonempty : data ≠ [] := fun hnil => by rw [hnil] at hpos; cases hpos
  have hstart : skipBlanks data (pre.length + 15) =
      (pre ++ ascii "Content-Length:" ++ blanks).length := by
    have h := skipBlanks_append (pre ++ ascii "Content-Length:") hblanks hne hdigits rest
    rw [← hdata] at h
    rw [← h]
    simp [ascii]
  have hdrop : data.drop (pre ++ ascii "Content-Length:" ++ blanks).length = digits ++ rest := by
    rw [hdata, ← List.append_assoc]
    exact List.drop_left
  have hvalue : find [cr, lf] (digits ++ rest) = some (lineEnd + digits.length) := by
    have hcr : cr ∉ digits := fun hmem => by
      have := hdigits cr hmem
      rw [Cpp.not_isdigit_cr] at this
      cases this
    rw [Text.find_append_of_skip fun j hj => Text.not_prefix_drop_of_first rfl hcr hj, hlineEnd]
    rfl
  have hle : (pre ++ ascii "Content-Length:" ++ blanks).length ≤ data.length := by
    rw [hdata]
    simp
  have hhead : ∀ b ∈ (rest.take lineEnd).head?, isdigit b = false := by
    intro b hb
    rw [List.head?_take] at hb
    split_ifs at hb
    · simp at hb
    · exact hrest b hb
  rw [requestReady, if_neg hnonempty]
  simp only [hend, hpos, hstart, findFrom, if_pos hle, hdrop, hvalue, Option.map_some,
    Nat.add_sub_cancel]
  rw [Nat.add_comm lineEnd, List.take_length_add_append, Cpp.stoull_digits hne hdigits hlt hhead]
  simp

/-- At a length line the request is complete when as many bytes as it says follow
the empty line. -/
theorem requestReady_of_lengthLine {data : Bytes} {headersEnd pos n size : Nat}
    (hend : find [cr, lf, cr, lf] data = some headersEnd)
    (hpos : find (ascii "Content-Length:") data = some pos)
    (hline : LengthLine (data.drop pos) n size) :
    requestReady data = true ↔ n ≤ data.length - (headersEnd + 4) := by
  obtain ⟨blanks, digits, rest, htext, hblanks, hne, hdigits, rfl, hlt, -⟩ := hline
  have hle := Text.find_le (by decide) hpos
  have hpre : (data.take pos).length = pos := by
    rw [List.length_take]
    omega
  have hdata : data = data.take pos ++ ascii "Content-Length:" ++
      (blanks ++ (digits ++ cr :: lf :: rest)) := by
    rw [List.append_assoc, ← htext, List.take_append_drop]
  refine requestReady_of_digits hdata hend (hpre.symm ▸ hpos) hblanks hne hdigits hlt ?_ ?_
  · simp [Cpp.not_isdigit_cr]
  · exact ⟨0, by simp [find]⟩

/-! ## Messages that frame themselves -/

/-- The message says where it ends: with a length line of its head in front of
exactly that many bytes, or without the text and without a body. -/
inductive SelfFramed (data : Bytes) : Prop where
  | sized {headersEnd pos n size : Nat} :
      find [cr, lf, cr, lf] data = some headersEnd →
      find (ascii "Content-Length:") data = some pos →
      [cr, lf] <:+ data.take pos →
      LengthLine (data.drop pos) n size →
      pos + size ≤ headersEnd →
      data.length = headersEnd + 4 + n →
      SelfFramed data
  | bare {headersEnd : Nat} :
      find [cr, lf, cr, lf] data = some headersEnd →
      find (ascii "Content-Length:") data = none →
      data.length = headersEnd + 4 →
      SelfFramed data

/-- A message that frames itself is complete. -/
theorem SelfFramed.requestReady {data : Bytes} (h : SelfFramed data) :
    requestReady data = true := by
  cases h with
  | sized hend hpos _ hline _ hlen =>
      rw [requestReady_of_lengthLine hend hpos hline]
      omega
  | bare hend hpos hlen =>
      have hne : data ≠ [] := fun hnil => by rw [hnil] at hend; cases hend
      rw [Network.requestReady, if_neg hne]
      simp only [hend, hpos]

/-- A proper prefix of a message that frames itself is not complete. -/
theorem SelfFramed.not_requestReady_of_prefix {data part : Bytes} (h : SelfFramed data)
    (hpart : part <+: data) (hlt : part.length < data.length) :
    Network.requestReady part = false := by
  cases hfind : find [cr, lf, cr, lf] part with
  | none => exact requestReady_of_find_none hfind
  | some headersEnd' =>
      have hend' := Text.find_mono (by simp) hpart hfind
      have hlong := Text.find_le (by simp) hfind
      simp only [List.length_cons, List.length_nil] at hlong
      cases h with
      | @sized headersEnd pos n size hend hpos _ hline hhead hlen =>
          obtain rfl : headersEnd' = headersEnd := Option.some.inj (hend'.symm.trans hend)
          obtain ⟨t, rfl⟩ := hpart
          have hsize : 15 ≤ size := by
            obtain ⟨blanks, digits, rest, -, -, -, -, -, -, rfl⟩ := hline
            omega
          have htext : (ascii "Content-Length:").length = 15 := rfl
          have hpos' : find (ascii "Content-Length:") part = some pos :=
            Text.find_of_append hpos (by omega)
          have hline' : LengthLine (part.drop pos) n size := by
            refine hline.of_prefix ?_ ?_
            · rw [List.drop_append_of_le_length (by omega)]
              exact List.prefix_append _ _
            · rw [List.length_drop]
              omega
          refine Bool.eq_false_iff.mpr fun hready => ?_
          have hbody := (requestReady_of_lengthLine hfind hpos' hline').mp hready
          omega
      | @bare headersEnd hend _ hlen =>
          obtain rfl : headersEnd' = headersEnd := Option.some.inj (hend'.symm.trans hend)
          omega

end Fion.Network
