import Fion.Network.ResponseFormat

/-!
# Printed headers

`toRawString` ends every line with CR LF, and `parseFromRaw` drops the one carriage
return that `getline` leaves.  So headers that fit on one line each are read back
from their own text as they are, values with a carriage return at the end included
(`parseFromRaw_printed`).  What `parseFromRaw` stores always fits on one line, which
makes the map it reads from any text a canonical form (`parseFromRaw_canonical`).
-/

namespace Fion.Network

open Cpp (Bytes ascii cr lf)
open Text (find lines)
open Http (Headers)

/-- The lines that are printed for some headers store them in order. -/
theorem parseFromRaw_printed {kvs : List (Bytes × Bytes)} (hkvs : ∀ kv ∈ kvs, OneLine kv)
    (h : Headers) :
    Headers.parseFromRaw h (kvs.flatMap fun kv => headerLine kv ++ [cr, lf]) =
      h.insertMany kvs := by
  unfold Headers.parseFromRaw
  induction kvs generalizing h with
  | nil => exact Std.ExtTreeMap.insertMany_nil.symm
  | cons kv kvs ih =>
      obtain ⟨hkv, hrest⟩ := List.forall_mem_cons.mp hkvs
      have hline : lf ∉ headerLine kv ++ [cr] := by
        rw [List.mem_append, not_or]
        exact ⟨hkv.lf_not_mem, by decide⟩
      have hsplit : headerLine kv ++ [cr, lf] ++
            kvs.flatMap (fun kv => headerLine kv ++ [cr, lf]) =
          headerLine kv ++ [cr] ++ lf :: kvs.flatMap fun kv => headerLine kv ++ [cr, lf] := by
        simp
      rw [List.flatMap_cons, hsplit, Text.lines_append_sep hline,
        Headers.parseLines_cons (headerLine_append_ne_cr kv [cr]), headerLine, List.append_assoc,
        Headers.parseLine_sep h hkv.key_sep, Headers.popCR_append_cr, ih hrest]
      exact Std.ExtTreeMap.insertMany_cons.symm

/-- Headers that fit on one line each are read back from their text. -/
theorem parseFromRaw_toRawString {h : Headers} (hlines : ∀ kv ∈ h.toList, OneLine kv) :
    Headers.parseFromRaw ∅ (Headers.toRawString h) = h := by
  have hprinted := parseFromRaw_printed hlines ∅
  rwa [Headers.insertMany_toList] at hprinted

/-- One pass through the parser reaches a canonical form, whatever the text: the
headers fit on one line each and are read back from their own text. -/
theorem parseFromRaw_canonical (rawHeaders : Bytes) :
    Headers.parseFromRaw ∅ (Headers.toRawString (Headers.parseFromRaw ∅ rawHeaders)) =
        Headers.parseFromRaw ∅ rawHeaders ∧
      ∀ kv ∈ (Headers.parseFromRaw ∅ rawHeaders).toList,
        lf ∉ kv.1 ∧ find (ascii ": ") kv.1 = none ∧ lf ∉ kv.2 := by
  have hlines : ∀ kv ∈ (Headers.parseFromRaw ∅ rawHeaders).toList, OneLine kv :=
    fun _ hkv => oneLine_of_parseFromRaw hkv
  refine ⟨parseFromRaw_toRawString hlines, fun kv hkv => ?_⟩
  obtain ⟨hkey, hsep, hvalue⟩ := hlines kv hkv
  exact ⟨hkey, hsep, hvalue⟩

end Fion.Network
