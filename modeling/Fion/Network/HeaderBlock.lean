import Fion.Network.Pool
import Fion.Text.Block

/-!
# Header blocks

A message is a first line, header lines, the empty line and a body, and
`process_request` cuts a request into these parts.  As long as no line feed stands in
the first line or in a header, the cuts are where the lines end
(`splitRequest_message`).

With at least one header the block between the first line and the empty line is the
header lines without the last line end.  Every line but the last is read with a
carriage return behind it, which is dropped; the last one is read as it is, so a
carriage return at its end is dropped instead (`popLast`).  Without headers both
searches stop at the same place, the length of the block wraps around, and the block
is everything from the empty line on.  Its first line is then a bare carriage return,
so no header is read from the body either way.
-/

namespace Fion.Network

open Cpp (Bytes ascii cr lf sizeSub)
open Text (find lines)
open Http (Headers)

/-! ## Header lines -/

/-- A header as a line, without its line end. -/
def headerLine (kv : Bytes × Bytes) : Bytes := kv.1 ++ ascii ": " ++ kv.2

/-- The header fits on one line, and the separator first stands behind the key. -/
structure OneLine (kv : Bytes × Bytes) : Prop where
  key_line : lf ∉ kv.1
  key_sep : find (ascii ": ") kv.1 = none
  value_line : lf ∉ kv.2

theorem OneLine.lf_not_mem {kv : Bytes × Bytes} (h : OneLine kv) : lf ∉ headerLine kv := by
  have hsep : lf ∉ ascii ": " := by decide
  simp only [headerLine, List.mem_append, not_or]
  exact ⟨⟨h.key_line, hsep⟩, h.value_line⟩

theorem two_le_length_headerLine (kv : Bytes × Bytes) : 2 ≤ (headerLine kv).length := by
  have hsep : (ascii ": ").length = 2 := rfl
  simp only [headerLine, List.length_append, hsep]
  omega

theorem headerLine_ne_nil (kv : Bytes × Bytes) : headerLine kv ≠ [] := by
  intro h
  have hlen := two_le_length_headerLine kv
  rw [h] at hlen
  cases hlen

/-- A header line is not the empty line, with or without a carriage return. -/
theorem headerLine_append_ne_cr (kv : Bytes × Bytes) (rest : Bytes) :
    headerLine kv ++ rest ≠ [cr] := by
  intro h
  have hlen := two_le_length_headerLine kv
  have hone := congrArg List.length h
  rw [List.length_append, List.length_singleton] at hone
  omega

/-- What the headers of a block are read as: the last value loses one carriage
return at its end. -/
def popLast : List (Bytes × Bytes) → List (Bytes × Bytes)
  | [] => []
  | [kv] => [(kv.1, Headers.popCR kv.2)]
  | kv :: kv' :: kvs => kv :: popLast (kv' :: kvs)

/-- The headers of a block are stored in order. -/
theorem parseFromRaw_block {kvs : List (Bytes × Bytes)} (hne : kvs ≠ [])
    (hkvs : ∀ kv ∈ kvs, OneLine kv) (h : Headers) :
    Headers.parseFromRaw h ([cr, lf].intercalate (kvs.map headerLine)) =
      h.insertMany (popLast kvs) := by
  obtain ⟨kv, kvs, rfl⟩ := List.exists_cons_of_ne_nil hne
  unfold Headers.parseFromRaw
  clear hne
  induction kvs generalizing kv h with
  | nil =>
      have hkv := hkvs kv List.mem_cons_self
      have hne : headerLine kv ≠ [cr] := by simpa using headerLine_append_ne_cr kv []
      rw [List.map_singleton, List.intercalate_singleton,
        Text.lines_of_not_mem (headerLine_ne_nil kv) hkv.lf_not_mem, Headers.parseLines_cons hne,
        headerLine, Headers.parseLine_sep h hkv.key_sep]
      simp [Headers.parseLines, popLast]
  | cons kv' kvs ih =>
      obtain ⟨hkv, hrest⟩ := List.forall_mem_cons.mp hkvs
      have hcrlf : cr ≠ lf := by decide
      rw [List.map_cons, List.map_cons, Text.lines_block_cons hcrlf hkv.lf_not_mem,
        Headers.parseLines_cons (headerLine_append_ne_cr kv [cr]), headerLine, List.append_assoc,
        Headers.parseLine_sep h hkv.key_sep, Headers.popCR_append_cr, ← List.map_cons,
        ih _ kv' hrest]
      exact Std.ExtTreeMap.insertMany_cons.symm

/-- Nothing is read from a block that begins with an empty line. -/
theorem parseFromRaw_empty_line (h : Headers) (rest : Bytes) :
    Headers.parseFromRaw h (cr :: lf :: rest) = h := by
  have hlines : lines lf (cr :: lf :: rest) = [cr] :: lines lf rest :=
    Text.lines_append_sep (l := [cr]) (by decide) rest
  rw [Headers.parseFromRaw, hlines, Headers.parseLines_cr]

/-! ## The cuts -/

/-- Without headers the length of the block wraps around, and the block is the
empty line and as much of the body as fits. -/
theorem splitRequest_bare {startLine : Bytes} (hstart : lf ∉ startLine) (body : Bytes) :
    splitRequest (startLine ++ [cr, lf] ++ [cr, lf] ++ body) =
      .ok (.parts startLine (cr :: lf :: body.take (2 ^ 64 - 4)) body) := by
  have hcrlf : cr ≠ lf := by decide
  have hfirst : find [cr, lf] (startLine ++ [cr, lf] ++ [cr, lf] ++ body) =
      some startLine.length := by
    have h := Text.find_pair hcrlf hstart ([cr, lf] ++ body)
    simpa using h
  have hempty := Text.find_emptyLine_end hcrlf hstart body
  have hwrap : sizeSub (sizeSub startLine.length startLine.length) 2 = 2 ^ 64 - 4 + 2 := by
    rw [Cpp.sizeSub_of_le (le_refl _), Nat.sub_self]
    rfl
  have hdrop : (startLine ++ [cr, lf] ++ [cr, lf] ++ body).drop (startLine.length + 2) =
      cr :: lf :: body := by
    rw [List.append_assoc, List.drop_left' (by simp)]
    rfl
  rw [splitRequest_of_find hfirst hempty, hwrap, hdrop]
  simp

/-- With headers the block is their lines. -/
theorem splitRequest_block {startLine : Bytes} (hstart : lf ∉ startLine)
    {kvs : List (Bytes × Bytes)} (hne : kvs ≠ []) (hkvs : ∀ kv ∈ kvs, OneLine kv) (body : Bytes) :
    splitRequest (startLine ++ [cr, lf] ++ [cr, lf].intercalate (kvs.map headerLine) ++ [cr, lf] ++
        [cr, lf] ++ body) =
      .ok (.parts startLine ([cr, lf].intercalate (kvs.map headerLine)) body) := by
  have hcrlf : cr ≠ lf := by decide
  have hlines : ∀ l ∈ kvs.map headerLine, l ≠ [] ∧ lf ∉ l := by
    intro l hl
    obtain ⟨kv, hkv, rfl⟩ := List.mem_map.mp hl
    exact ⟨headerLine_ne_nil kv, (hkvs kv hkv).lf_not_mem⟩
  have hempty := Text.find_emptyLine hcrlf hstart hlines body
  rw [List.intercalate_cons_of_ne_nil (by simpa using hne)] at hempty
  generalize [cr, lf].intercalate (kvs.map headerLine) = block at hempty ⊢
  have hfirst : find [cr, lf] (startLine ++ [cr, lf] ++ block ++ [cr, lf] ++ [cr, lf] ++ body) =
      some startLine.length := by
    have h := Text.find_pair hcrlf hstart (block ++ [cr, lf] ++ [cr, lf] ++ body)
    simpa using h
  have hlen : sizeSub (sizeSub (startLine ++ [cr, lf] ++ block).length startLine.length) 2 =
      block.length := by
    have houter : sizeSub (startLine ++ [cr, lf] ++ block).length startLine.length =
        block.length + 2 := by
      simp only [List.length_append, List.length_cons, List.length_nil]
      rw [Cpp.sizeSub_of_le (by omega)]
      omega
    rw [houter, Cpp.sizeSub_of_le (Nat.le_add_left 2 _), Nat.add_sub_cancel]
  have hdrop : (startLine ++ [cr, lf] ++ block ++ [cr, lf] ++ [cr, lf] ++ body).drop
      (startLine.length + 2) = block ++ ([cr, lf] ++ [cr, lf] ++ body) := by
    simp only [List.append_assoc]
    rw [← List.append_assoc startLine, List.drop_left' (by simp)]
  have hbody : (startLine ++ [cr, lf] ++ block ++ [cr, lf] ++ [cr, lf] ++ body).drop
      ((startLine ++ [cr, lf] ++ block).length + 4) = body := by
    refine List.drop_left' ?_
    simp only [List.length_append, List.length_cons, List.length_nil]
  rw [splitRequest_of_find hfirst hempty, hlen, hdrop, hbody, List.take_left]
  simp only [List.append_assoc, List.take_left]

/-- A message whose first line and headers contain no line feed is cut where its
lines end, and its block is read as its headers. -/
theorem splitRequest_message {startLine : Bytes} (hstart : lf ∉ startLine)
    {kvs : List (Bytes × Bytes)} (hkvs : ∀ kv ∈ kvs, OneLine kv) (body : Bytes) :
    ∃ block, splitRequest (startLine ++ [cr, lf] ++
        kvs.flatMap (fun kv => headerLine kv ++ [cr, lf]) ++ [cr, lf] ++ body) =
          .ok (.parts startLine block body) ∧
      ∀ h, Headers.parseFromRaw h block = h.insertMany (popLast kvs) := by
  cases kvs with
  | nil =>
      refine ⟨_, by simpa using splitRequest_bare hstart body, fun h => ?_⟩
      rw [parseFromRaw_empty_line, popLast, Std.ExtTreeMap.insertMany_nil]
  | cons kv kvs =>
      have hlines : (kv :: kvs).flatMap (fun kv => headerLine kv ++ [cr, lf]) =
          [cr, lf].intercalate ((kv :: kvs).map headerLine) ++ [cr, lf] := by
        rw [List.map_cons, ← Text.flatMap_line_end, ← List.map_cons, List.flatMap_map]
      have hne : kv :: kvs ≠ [] := List.cons_ne_nil kv kvs
      refine ⟨_, ?_, parseFromRaw_block hne hkvs⟩
      rw [hlines, ← List.append_assoc]
      exact splitRequest_block hstart hne hkvs body

end Fion.Network
