import Fion.Data.LastWins
import Fion.Http.Headers
import Fion.Text.Cut

/-!
# Field lines

A field line is a name, a colon, a value and blanks around the value, as many as its
writer likes (`FieldLine`).  `parseFromRaw` knows one separator, a colon and a space.
Behind a colon with a space it stores everything that follows under the name, further
blanks included.  A line without the separator is dropped, and a line that has one
further behind is stored under a key that is no name (`colon_mem_key_of_not_spaced`).

So the headers are read as they were meant exactly when the lines are well spaced
(`parseFromRaw_fields_iff`): what counts for a name is the last of its lines that has a
space behind the colon.
-/

namespace Fion.Http

open Cpp (Bytes ascii chr cr lf)
open Text (find lines)
open LastWins (IsLast last)

/-! ## Legal lines -/

/-- A space or a tab. -/
def isblank (b : UInt8) : Bool := b = 32 || b = 9

/-- `iscntrl` in the C locale. -/
def iscntrl (b : UInt8) : Bool := b < 32 || b = 127

/-- A field and the blanks it is written with. -/
structure FieldLine where
  name : Bytes
  value : Bytes
  /-- The blanks between colon and value. -/
  lead : Bytes
  /-- The blanks behind the value. -/
  trail : Bytes
  name_ne : name ≠ []
  name_token : ∀ b ∈ name, b ≠ chr ':' ∧ isblank b = false ∧ iscntrl b = false
  value_line : cr ∉ value ∧ lf ∉ value
  value_head : ∀ b ∈ value.head?, isblank b = false
  value_last : ∀ b ∈ value.getLast?, isblank b = false
  lead_blank : ∀ b ∈ lead, isblank b = true
  trail_blank : ∀ b ∈ trail, isblank b = true

namespace FieldLine

/-- What stands between the colon and the line end. -/
def padded (f : FieldLine) : Bytes := f.lead ++ f.value ++ f.trail

/-- The line as `getline` returns it, with its carriage return. -/
def line (f : FieldLine) : Bytes := f.name ++ chr ':' :: (f.padded ++ [cr])

/-- The line with its line end. -/
def text (f : FieldLine) : Bytes := f.name ++ ascii ":" ++ f.padded ++ [cr, lf]

/-- The field of a line. -/
def field (f : FieldLine) : Bytes × Bytes := (f.name, f.value)

/-- A space stands behind the colon. -/
def Spaced (f : FieldLine) : Prop := f.padded.head? = some 32

theorem colon_not_mem_name (f : FieldLine) : chr ':' ∉ f.name := fun h =>
  (f.name_token _ h).1 rfl

/-- Neither a carriage return nor a line feed stands behind the colon. -/
theorem not_mem_padded (f : FieldLine) {b : UInt8} (hblank : isblank b = false)
    (hvalue : b ∉ f.value) : b ∉ f.padded := by
  simp only [padded, List.mem_append, not_or]
  refine ⟨⟨fun h => ?_, hvalue⟩, fun h => ?_⟩
  · rw [f.lead_blank b h] at hblank
    cases hblank
  · rw [f.trail_blank b h] at hblank
    cases hblank

theorem lf_not_mem_line (f : FieldLine) : lf ∉ f.line := by
  simp only [line, List.mem_append, List.mem_cons, List.not_mem_nil, or_false, not_or]
  refine ⟨fun h => ?_, by decide, f.not_mem_padded (by decide) f.value_line.2, by decide⟩
  have hcntrl := (f.name_token lf h).2.2
  exact absurd hcntrl (by decide)

theorem line_ne_cr (f : FieldLine) : f.line ≠ [cr] := fun h => by
  have hcolon : chr ':' ∈ f.line := by simp [line]
  rw [h] at hcolon
  exact absurd (List.mem_singleton.mp hcolon) (by decide)

theorem text_append (f : FieldLine) (rest : Bytes) : f.text ++ rest = f.line ++ lf :: rest := by
  have hcolon : ascii ":" = [chr ':'] := rfl
  simp [text, line, hcolon]

/-! ## What the parser stores -/

open Headers (Stores stored popCR)

/-- The lines of a text of field lines. -/
theorem parseFromRaw_fields (fields : List FieldLine) :
    Headers.parseFromRaw ∅ (fields.flatMap text) =
      (∅ : Headers).insertMany (fields.filterMap fun f => stored f.line) := by
  have hlines : lines lf (fields.flatMap text) = fields.map line := by
    induction fields with
    | nil => rfl
    | cons f fields ih =>
        rw [List.flatMap_cons, text_append, Text.lines_append_sep f.lf_not_mem_line, ih,
          List.map_cons]
  have hread : Headers.linesRead (fields.map line) = fields.map line := by
    refine List.takeWhile_eq_self_iff.mpr fun l hl => decide_eq_true ?_
    obtain ⟨f, -, rfl⟩ := List.mem_map.mp hl
    exact f.line_ne_cr
  rw [Headers.parseFromRaw, hlines, Headers.parseLines_eq, hread, List.filterMap_map]
  rfl

/-- A line with a space behind the colon stores what follows under its name. -/
theorem stored_of_spaced {f : FieldLine} (h : f.Spaced) :
    stored f.line = some (f.name, f.padded.tail) := by
  have hsep : find (ascii ": ") f.name = none := by
    rw [Text.find_eq_none_iff_not_infix]
    exact fun hwithin => f.colon_not_mem_name (hwithin.mem (by decide))
  have hline : f.line = f.name ++ ascii ": " ++ (f.padded.tail ++ [cr]) := by
    have hpadded : f.padded = 32 :: f.padded.tail := List.eq_cons_of_mem_head? h
    have hascii : ascii ": " = [chr ':', 32] := rfl
    rw [line, hascii]
    conv_lhs => rw [hpadded]
    simp
  have hstores := Headers.stores_sep hsep (f.padded.tail ++ [cr])
  rw [← hline, Headers.popCR_append_cr] at hstores
  exact Headers.stored_eq_some_iff.mpr hstores

/-- A separator of a line without a space behind its colon stands further behind. -/
theorem split_of_not_spaced {f : FieldLine} (h : ¬ f.Spaced) {key rest : Bytes}
    (hline : f.line = key ++ ascii ": " ++ rest) :
    ∃ front, key = f.name ++ chr ':' :: front ∧
      f.padded ++ [cr] = front ++ ascii ": " ++ rest := by
  have hascii : ascii ": " = [chr ':', 32] := rfl
  have hhead : (f.padded ++ [cr]).head? ≠ some 32 := by
    rw [List.head?_append]
    cases hp : f.padded.head? with
    | none => exact fun hcr => absurd (Option.some.inj hcr) (by decide)
    | some b => exact fun hb => h (by rw [Spaced, hp]; exact hb)
  rw [hascii, List.append_assoc] at hline
  rw [hascii]
  rcases List.append_eq_append_iff.mp hline with ⟨front, hkey, hsplit⟩ | ⟨front, hname, hsplit⟩
  · cases front with
    | nil => exact absurd (by rw [(List.cons.inj hsplit).2]; rfl) hhead
    | cons b front =>
        obtain ⟨rfl, hrest⟩ := List.cons.inj hsplit
        exact ⟨front, hkey, by rw [List.append_assoc]; exact hrest⟩
  · cases front with
    | nil => exact absurd (by rw [← (List.cons.inj hsplit).2]; rfl) hhead
    | cons b front =>
        obtain ⟨rfl, -⟩ := List.cons.inj hsplit
        exact absurd (by rw [hname]; simp) f.colon_not_mem_name

/-- What is stored stands in the line, the key in front of a separator. -/
theorem exists_split_of_stored {line key value : Bytes} (h : stored line = some (key, value)) :
    ∃ rest, line = key ++ ascii ": " ++ rest := by
  obtain ⟨delimiterPos, hfind, rfl, -⟩ := Headers.stored_eq_some_iff.mp h
  obtain ⟨rest, hrest⟩ := (Text.find_eq_some_iff.mp hfind).1
  exact ⟨rest, by rw [List.append_assoc, hrest, List.take_append_drop]⟩

/-- A line without a space behind its colon stores something under a key with a
colon. -/
theorem colon_mem_key_of_not_spaced {f : FieldLine} (h : ¬ f.Spaced) {key value : Bytes}
    (hstored : stored f.line = some (key, value)) : chr ':' ∈ key := by
  obtain ⟨rest, hline⟩ := exists_split_of_stored hstored
  obtain ⟨front, rfl, -⟩ := split_of_not_spaced h hline
  simp

/-- And it does so exactly when there is a separator behind the colon. -/
theorem exists_stored_iff_of_not_spaced {f : FieldLine} (h : ¬ f.Spaced) :
    (∃ kv, stored f.line = some kv) ↔ ascii ": " <:+: f.padded := by
  constructor
  · rintro ⟨⟨key, value⟩, hstored⟩
    obtain ⟨rest, hline⟩ := exists_split_of_stored hstored
    obtain ⟨front, -, hsplit⟩ := split_of_not_spaced h hline
    rcases List.eq_nil_or_concat' rest with rfl | ⟨rest, b, rfl⟩
    · have hascii : ascii ": " = [chr ':'] ++ [32] := rfl
      rw [List.append_nil, hascii, ← List.append_assoc] at hsplit
      have hlast := (List.append_inj' hsplit rfl).2
      exact absurd (List.cons.inj hlast).1 (by decide)
    · rw [← List.append_assoc] at hsplit
      exact ⟨front, rest, (List.append_inj' hsplit rfl).1.symm⟩
  · intro hwithin
    have hline : ascii ": " <:+: f.line :=
      hwithin.trans ⟨f.name ++ [chr ':'], [cr], by simp [line]⟩
    cases hfind : find (ascii ": ") f.line with
    | none => exact absurd hline (Text.find_eq_none_iff_not_infix.mp hfind)
    | some delimiterPos => exact ⟨_, by rw [stored, hfind, Option.map_some]⟩

/-- A line stores something under a name when that is its own name and a space stands
behind the colon. -/
theorem stored_name_iff {f : FieldLine} {name value : Bytes} (hname : chr ':' ∉ name) :
    stored f.line = some (name, value) ↔ (f.name = name ∧ f.Spaced) ∧ f.padded.tail = value := by
  by_cases hspaced : f.Spaced
  · rw [stored_of_spaced hspaced, Option.some.injEq, Prod.mk.injEq]
    simp [hspaced]
  · refine iff_of_false (fun hstored => ?_) fun h => hspaced h.1.2
    exact hname (colon_mem_key_of_not_spaced hspaced hstored)

/-! ## Well-spaced lines -/

/-- Behind the last space that stands behind a colon of a name there is the value of
the last field with this name, and no line without such a space has a separator. -/
structure WellSpaced (fields : List FieldLine) : Prop where
  last : ∀ f, IsLast (·.name = f.name) fields f →
    ∃ g, IsLast (fun g => g.name = f.name ∧ g.Spaced) fields g ∧ g.padded = 32 :: f.value
  apart : ∀ f ∈ fields, f.Spaced ∨ ¬ ascii ": " <:+: f.padded

/-- The value of a name is that of its last field. -/
theorem last_field_iff {fields : List FieldLine} {name value : Bytes} :
    last (fields.map field) name = some value ↔
      ∃ f, IsLast (·.name = name) fields f ∧ f.value = value := by
  have hlast : (fun f : FieldLine => ∃ v, some f.field = some (name, v)) = (·.name = name) := by
    funext f
    simp [field]
  rw [← List.filterMap_eq_map', LastWins.last_filterMap, hlast]
  refine exists_congr fun f => and_congr_right fun hf => ?_
  rw [Option.some.injEq, field, Prod.mk.injEq]
  exact and_iff_right hf.mem.2

/-- What the parser stores for a name is what stands behind the last space. -/
theorem last_stored_iff {fields : List FieldLine} {name value : Bytes} (hname : chr ':' ∉ name) :
    last (fields.filterMap fun f => stored f.line) name = some value ↔
      ∃ g, IsLast (fun g => g.name = name ∧ g.Spaced) fields g ∧ g.padded = 32 :: value := by
  have hlast : (fun f : FieldLine => ∃ v, stored f.line = some (name, v)) =
      fun g => g.name = name ∧ g.Spaced := by
    funext f
    simp [stored_name_iff hname]
  rw [LastWins.last_filterMap, hlast]
  refine exists_congr fun g => and_congr_right fun hg => ?_
  rw [stored_name_iff hname]
  constructor
  · rintro ⟨-, htail⟩
    rw [← htail]
    exact List.eq_cons_of_mem_head? hg.mem.2.2
  · intro hpadded
    exact ⟨hg.mem.2, by rw [hpadded, List.tail_cons]⟩

/-- The names of fields have no colon. -/
theorem last_field_eq_none {fields : List FieldLine} {name : Bytes} (hname : chr ':' ∈ name) :
    last (fields.map field) name = none := by
  refine LastWins.last_eq_none_iff.mpr fun kv hkv heq => ?_
  obtain ⟨f, -, rfl⟩ := List.mem_map.mp hkv
  obtain rfl : f.name = name := heq
  exact f.colon_not_mem_name hname

/-- From well-spaced lines the value of every field is stored. -/
theorem last_stored_of_wellSpaced {fields : List FieldLine} (h : WellSpaced fields)
    (name : Bytes) :
    last (fields.filterMap fun f => stored f.line) name = last (fields.map field) name := by
  by_cases hname : chr ':' ∈ name
  · rw [last_field_eq_none hname]
    refine LastWins.last_eq_none_iff.mpr fun kv hkv heq => ?_
    obtain ⟨f, hf, hstored⟩ := List.mem_filterMap.mp hkv
    have hspaced : ¬ f.Spaced := fun hspaced => by
      rw [stored_of_spaced hspaced] at hstored
      obtain rfl := Option.some.inj hstored
      obtain rfl : f.name = name := heq
      exact f.colon_not_mem_name hname
    exact (h.apart f hf).elim hspaced fun hnone =>
      hnone ((exists_stored_iff_of_not_spaced hspaced).mp ⟨kv, hstored⟩)
  · cases hlast : last (fields.map field) name with
    | some value =>
        obtain ⟨f, hf, rfl⟩ := last_field_iff.mp hlast
        obtain rfl := hf.mem.2
        exact (last_stored_iff hname).mpr (h.last f hf)
    | none =>
        refine LastWins.last_eq_none_iff.mpr fun kv hkv heq => ?_
        obtain ⟨f, hf, hstored⟩ := List.mem_filterMap.mp hkv
        obtain ⟨key, value⟩ := kv
        obtain rfl : key = name := heq
        have hown := ((stored_name_iff hname).mp hstored).1.1
        exact LastWins.last_eq_none_iff.mp hlast f.field (List.mem_map_of_mem hf) hown

/-- Lines from which the value of every field is stored are well spaced. -/
theorem wellSpaced_of_last_stored {fields : List FieldLine}
    (h : ∀ name, last (fields.filterMap fun f => stored f.line) name =
      last (fields.map field) name) : WellSpaced fields where
  last f hf := by
    refine (last_stored_iff f.colon_not_mem_name).mp ?_
    rw [h]
    exact last_field_iff.mpr ⟨f, hf, rfl⟩
  apart f hf := by
    by_contra hnot
    rw [not_or, not_not] at hnot
    obtain ⟨hspaced, hwithin⟩ := hnot
    obtain ⟨⟨key, value⟩, hstored⟩ := (exists_stored_iff_of_not_spaced hspaced).mpr hwithin
    -- the key has a colon, so no field has this name
    have hnone := (h key).trans (last_field_eq_none (colon_mem_key_of_not_spaced hspaced hstored))
    exact LastWins.last_eq_none_iff.mp hnone _ (List.mem_filterMap.mpr ⟨f, hf, hstored⟩) rfl

/-- From field lines with any blanks, `parseFromRaw` stores for every name the value of
its last field, and nothing else, exactly when they are well spaced. -/
theorem parseFromRaw_fields_iff (fields : List FieldLine) :
    Headers.parseFromRaw ∅ (fields.flatMap text) = (∅ : Headers).insertMany (fields.map field) ↔
      WellSpaced fields := by
  rw [parseFromRaw_fields, LastWins.insertMany_eq_iff]
  exact ⟨wellSpaced_of_last_stored, last_stored_of_wellSpaced⟩

/-- A field that is written without a blank. -/
def tightHost : FieldLine where
  name := ascii "Host"
  value := ascii "a.test"
  lead := []
  trail := []
  name_ne := by decide
  name_token := by
    have hall : (ascii "Host").all (fun b => b ≠ chr ':' && !isblank b && !iscntrl b) = true := by
      decide
    simpa [and_assoc] using hall
  value_line := by decide
  value_head := fun _ hb => Option.some.inj hb ▸ rfl
  value_last := fun _ hb => Option.some.inj hb ▸ rfl
  lead_blank := by simp
  trail_blank := by simp

/-- The line `Host:a.test` is dropped. -/
theorem parseFromRaw_drops_field :
    ¬ ∀ fields : List FieldLine,
      Headers.parseFromRaw ∅ (fields.flatMap text) =
        (∅ : Headers).insertMany (fields.map field) := by
  intro h
  have hlost : Headers.parseFromRaw ∅ ([tightHost].flatMap text) = ∅ := by
    rw [parseFromRaw_fields]
    rfl
  have hget := congrArg (·[ascii "Host"]?) (hlost.symm.trans (h [tightHost]))
  simp [field, tightHost] at hget

end FieldLine

end Fion.Http
