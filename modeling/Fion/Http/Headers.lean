import Fion.Cpp.Strings
import Fion.Data.LastWins

/-!
# Headers

A `std::map<std::string, std::string>` is a tree map ordered by the bytes of the
key, which is also the order in which it is printed.

`parseFromRaw` reads lines with `getline`, so a line ends at a line feed and
keeps its carriage return.  It stops at the first line that is a carriage return
alone, and skips a line without the two bytes `": "`.  The positions it cuts at
come from a search in the same line, so its `substr` calls never throw.
-/

namespace Fion.Http

open Cpp (Bytes ascii cr lf)
open Text (find lines)

/-- A map from strings to strings. -/
abbrev StringMap := Std.ExtTreeMap Bytes Bytes

/-- The class `Headers`: its one member is the map. -/
abbrev Headers := StringMap

namespace Headers

/-- `set`: the new value replaces an old one. -/
def set (h : Headers) (key value : Bytes) : Headers := h.insert key value

/-- Drop one trailing carriage return. -/
def popCR (value : Bytes) : Bytes := if value.getLast? = some cr then value.dropLast else value

/-- What the loop of `parseFromRaw` does with one line. -/
def parseLine (h : Headers) (line : Bytes) : Headers :=
  match find (ascii ": ") line with
  | none => h
  | some delimiterPos =>
      h.insert (line.take delimiterPos) (popCR (line.drop (delimiterPos + 2)))

/-- The loop of `parseFromRaw` over the lines. -/
def parseLines (h : Headers) : List Bytes → Headers
  | [] => h
  | line :: rest => if line = [cr] then h else parseLines (parseLine h line) rest

/-- Add the fields of a raw header block. -/
def parseFromRaw (h : Headers) (rawHeaders : Bytes) : Headers :=
  parseLines h (lines lf rawHeaders)

/-- One printed line for each header, in key order. -/
def toRawString (h : Headers) : Bytes :=
  h.toList.flatMap fun kv => kv.1 ++ ascii ": " ++ kv.2 ++ [cr, lf]

/-! ## Maps and lists -/

/-- The headers of a map have different keys. -/
theorem nodup_keys (h : StringMap) : (h.toList.map Prod.fst).Nodup := by
  rw [Std.ExtTreeMap.map_fst_toList_eq_keys]
  exact Std.ExtTreeMap.nodup_keys

/-- Pairs with different keys that are stored one by one are what the map holds. -/
theorem getElem?_insertMany_iff {kvs : List (Bytes × Bytes)} (hkeys : (kvs.map Prod.fst).Nodup)
    {key value : Bytes} :
    ((∅ : StringMap).insertMany kvs)[key]? = some value ↔ (key, value) ∈ kvs := by
  rw [LastWins.getElem?_insertMany_empty, LastWins.last_of_nodup hkeys]

/-- Storing the headers of a map one by one gives the map back. -/
theorem insertMany_toList (h : StringMap) : (∅ : StringMap).insertMany h.toList = h := by
  refine Std.ExtTreeMap.ext_getElem? fun key => Option.ext fun value => ?_
  rw [getElem?_insertMany_iff (nodup_keys h), Std.ExtTreeMap.mem_toList_iff_getElem?_eq_some]

/-! ## Reading one line -/

@[simp] theorem popCR_append_cr (v : Bytes) : popCR (v ++ [cr]) = v := by simp [popCR]

theorem popCR_of_getLast?_ne {v : Bytes} (h : v.getLast? ≠ some cr) : popCR v = v := if_neg h

/-- At most one carriage return was dropped. -/
theorem eq_of_popCR {v w : Bytes} (h : popCR v = w) : v = w ∨ v = w ++ [cr] := by
  rw [popCR] at h
  split_ifs at h with hlast
  · obtain ⟨u, rfl⟩ := List.getLast?_eq_some_iff.mp hlast
    rw [List.dropLast_concat] at h
    exact .inr (by rw [h])
  · exact .inl h

/-- A line that is stored under `key` with `value`. -/
def Stores (line key value : Bytes) : Prop :=
  ∃ delimiterPos, find (ascii ": ") line = some delimiterPos ∧
    key = line.take delimiterPos ∧ value = popCR (line.drop (delimiterPos + 2))

/-- A line that is stored goes into the map. -/
theorem parseLine_of_stores {line key value : Bytes} (hline : Stores line key value)
    (h : Headers) : parseLine h line = h.insert key value := by
  obtain ⟨delimiterPos, hfind, rfl, rfl⟩ := hline
  simp only [parseLine, hfind]

/-- A line `key: rest` is stored under `key`, for a key without the separator: no
separator can begin inside the key and end behind it. -/
theorem stores_sep {key : Bytes} (hkey : find (ascii ": ") key = none) (rest : Bytes) :
    Stores (key ++ ascii ": " ++ rest) key (popCR rest) := by
  have hpos : find (ascii ": ") (key ++ ascii ": " ++ rest) = some key.length := by
    rw [List.append_assoc]
    refine Text.find_append_self_of_skip _ _ (fun j hj hocc => ?_)
    by_cases hfit : j + 2 ≤ key.length
    · exact Text.find_eq_none_iff.mp hkey j ((Text.prefix_drop_append_iff hfit).mp hocc)
    · -- the colon is the last byte of the key, and a colon follows it
      have hj' : j + 1 = key.length := by omega
      obtain ⟨t, ht⟩ := hocc
      have hsnd : ((key ++ (ascii ": " ++ rest)).drop j)[1]? = some 32 := by rw [← ht]; rfl
      rw [List.getElem?_drop, hj', List.getElem?_append_right (le_refl _), Nat.sub_self] at hsnd
      cases hsnd
  have hlen : key.length + 2 = (key ++ ascii ": ").length := by rw [List.length_append]; rfl
  refine ⟨key.length, hpos, by rw [List.append_assoc, List.take_left], ?_⟩
  rw [hlen, List.drop_left]

theorem parseLine_sep (h : Headers) {key : Bytes} (hkey : find (ascii ": ") key = none)
    (rest : Bytes) : parseLine h (key ++ ascii ": " ++ rest) = h.insert key (popCR rest) :=
  parseLine_of_stores (stores_sep hkey rest) h

/-- A line is stored under one key, with one value. -/
theorem Stores.unique {line key key' value value' : Bytes} (h : Stores line key value)
    (h' : Stores line key' value') : key = key' ∧ value = value' := by
  obtain ⟨delimiterPos, hfind, rfl, rfl⟩ := h
  obtain ⟨delimiterPos', hfind', rfl, rfl⟩ := h'
  obtain rfl := Option.some.inj (hfind.symm.trans hfind')
  exact ⟨rfl, rfl⟩

/-- The loop goes on behind a line that is not a bare carriage return. -/
theorem parseLines_cons {line : Bytes} (hline : line ≠ [cr]) (h : Headers) (rest : List Bytes) :
    parseLines h (line :: rest) = parseLines (parseLine h line) rest := if_neg hline

theorem parseLines_cr (h : Headers) (rest : List Bytes) : parseLines h ([cr] :: rest) = h :=
  if_pos rfl

/-- The lines that the loop reads: those in front of a bare carriage return. -/
def linesRead (ls : List Bytes) : List Bytes := ls.takeWhile (· ≠ [cr])

/-- What one line stores. -/
def stored (line : Bytes) : Option (Bytes × Bytes) :=
  (find (ascii ": ") line).map fun delimiterPos =>
    (line.take delimiterPos, popCR (line.drop (delimiterPos + 2)))

theorem stored_eq_some_iff {line key value : Bytes} :
    stored line = some (key, value) ↔ Stores line key value := by
  rw [stored, Option.map_eq_some_iff]
  refine exists_congr fun delimiterPos => and_congr_right fun _ => ?_
  rw [Prod.mk.injEq, eq_comm, eq_comm (a := popCR _)]

/-- The loop stores what the lines that it reads store, in order. -/
theorem parseLines_eq (ls : List Bytes) (h : Headers) :
    parseLines h ls = h.insertMany ((linesRead ls).filterMap stored) := by
  induction ls generalizing h with
  | nil => exact Std.ExtTreeMap.insertMany_nil.symm
  | cons line rest ih =>
      by_cases hcr : line = [cr]
      · rw [hcr, parseLines_cr]
        exact Std.ExtTreeMap.insertMany_nil.symm
      · have hread : linesRead (line :: rest) = line :: linesRead rest := by simp [linesRead, hcr]
        rw [parseLines_cons hcr, ih, hread, parseLine]
        cases hfind : find (ascii ": ") line with
        | none => rw [List.filterMap_cons_none (by rw [stored, hfind, Option.map_none])]
        | some delimiterPos =>
            rw [List.filterMap_cons_some (by rw [stored, hfind, Option.map_some]),
              Std.ExtTreeMap.insertMany_cons]

theorem mem_filterMap_stored {ls : List Bytes} {key value : Bytes} :
    (key, value) ∈ ls.filterMap stored ↔ ∃ line ∈ ls, Stores line key value := by
  rw [List.mem_filterMap]
  exact exists_congr fun line => and_congr_right fun _ => stored_eq_some_iff

/-- What the loop adds to the map stood on a line that it read. -/
theorem exists_stores_of_parseLines {key value : Bytes} {ls : List Bytes} {h : Headers}
    (hget : (parseLines h ls)[key]? = some value) :
    h[key]? = some value ∨ ∃ line ∈ linesRead ls, Stores line key value := by
  rw [parseLines_eq, LastWins.getElem?_insertMany, Option.or_eq_some_iff] at hget
  rcases hget with hlast | ⟨-, hold⟩
  · exact .inr (mem_filterMap_stored.mp (LastWins.mem_of_last hlast))
  · exact .inl hold

/-- A value is in the map when a line that is read stores it and no line stores
another one under its key. -/
theorem parseLines_of_stores {key value : Bytes} {ls : List Bytes} {h : Headers}
    (hget : h[key]? = some value ∨ ∃ line ∈ linesRead ls, Stores line key value)
    (honly : ∀ line ∈ linesRead ls, ∀ value', Stores line key value' → value' = value) :
    (parseLines h ls)[key]? = some value := by
  rw [parseLines_eq, LastWins.getElem?_insertMany]
  cases hlast : LastWins.last ((linesRead ls).filterMap stored) key with
  | none =>
      rw [Option.none_or]
      refine hget.resolve_right fun hline => ?_
      exact LastWins.last_eq_none_iff.mp hlast _ (mem_filterMap_stored.mpr hline) rfl
  | some value' =>
      obtain ⟨line, hline, hstores⟩ := mem_filterMap_stored.mp (LastWins.mem_of_last hlast)
      rw [Option.some_or, honly line hline value' hstores]

end Headers

end Fion.Http
