import Fion.FirstMatch
import Fion.Text.Pieces

/-!
# Patterns and segments

The splitting loop computes the maximal non-empty parts of a string between slashes
(`splitPath_eq`), so `matchPattern` compares the segments of a pattern with those of a
path.  `matchPattern_exact` says what it returns in terms of these segments alone: the
result is true when the two lists have one length and every segment without a colon
stands opposite its equal, and then the map holds for each name the segment opposite
its last occurrence.

Two strings that differ in leading, trailing or repeated slashes (`SlashEq`) have the
same segments, and with different names the path can be put together again from the
pattern and the map.
-/

namespace Fion

open Cpp (Bytes ascii chr)
open Text (find findFrom before after Pieces pieces)
open Http (StringMap)

/-! ## Segments -/

/-- The loop of `splitPath` appends the pieces of what it has not read yet. -/
theorem splitLoop_eq (path : Bytes) {start : Nat} (hstart : start ≤ path.length)
    (segments : List Bytes) :
    splitLoop path start segments = segments ++ pieces (chr '/') (path.drop start) := by
  induction hn : path.length - start using Nat.strongRecOn generalizing start segments with
  | ind n ih =>
      subst hn
      rw [splitLoop]
      have hfrom : findFrom [chr '/'] path start =
          (find [chr '/'] (path.drop start)).map (· + start) := if_pos hstart
      rcases Text.find_singleton (chr '/') (path.drop start) with ⟨habs, hfind⟩ | ⟨hmem, hfind⟩
      · rw [hfind] at hfrom
        split
        · next e he =>
            rw [hfrom] at he
            cases he
        · have hnil : path.drop start = [] ↔ ¬ start < path.length := by
            rw [List.drop_eq_nil_iff, not_lt]
          rw [Text.pieces_of_not_mem habs]
          simp only [hnil]
          split_ifs
          · rfl
          · rw [List.append_nil]
      · have hsplit := Text.before_append_after hmem
        have hlt := Text.length_before_lt hmem
        have hlen : (path.drop start).length = path.length - start := List.length_drop
        have hnext : path.drop ((before (chr '/') (path.drop start)).length + start + 1) =
            after (chr '/') (path.drop start) := by
          rw [Nat.add_comm _ start, Nat.add_assoc, ← List.drop_drop]
          exact (Text.drop_before hmem).2
        rw [hfind, Option.map_some] at hfrom
        split
        · next e he =>
            obtain rfl := Option.some.inj (hfrom.symm.trans he)
            have hnil : before (chr '/') (path.drop start) = [] ↔
                ¬ start < (before (chr '/') (path.drop start)).length + start := by
              rw [← List.length_eq_zero_iff]
              omega
            conv_rhs => rw [← hsplit]
            rw [ih _ (by omega) (by omega) _ rfl, hnext, Nat.add_sub_cancel,
              (Text.drop_before hmem).1,
              Text.pieces_append_sep (Text.not_mem_before (chr '/') (path.drop start))]
            simp only [hnil]
            split_ifs
            · rw [List.append_assoc]
            · rw [List.nil_append]
        · next he =>
            rw [hfrom] at he
            cases he

/-- `splitPath` computes the pieces between slashes. -/
theorem splitPath_eq (path : Bytes) : splitPath path = pieces (chr '/') path := by
  rw [splitPath, splitLoop_eq path (Nat.zero_le _), List.drop_zero, List.nil_append]

/-- Strings that differ in leading, trailing and repeated slashes. -/
inductive SlashEq : Bytes → Bytes → Prop where
  | leading (s : Bytes) : SlashEq (chr '/' :: s) s
  | trailing (s : Bytes) : SlashEq (s ++ [chr '/']) s
  | repeated (a b : Bytes) : SlashEq (a ++ chr '/' :: chr '/' :: b) (a ++ chr '/' :: b)
  | refl (s : Bytes) : SlashEq s s
  | symm {a b : Bytes} : SlashEq a b → SlashEq b a
  | trans {a b c : Bytes} : SlashEq a b → SlashEq b c → SlashEq a c

/-- They have the same segments. -/
theorem splitPath_of_slashEq {a b : Bytes} (h : SlashEq a b) : splitPath a = splitPath b := by
  induction h with
  | leading s => rw [splitPath_eq, splitPath_eq, Text.pieces_cons_self]
  | trailing s =>
      have happend := Text.pieces_append (c := chr '/') (a := s) (b := [chr '/'])
        fun ⟨_, y, hy, hyc⟩ => hyc (Option.some.inj hy).symm
      rw [splitPath_eq, splitPath_eq, happend, Text.pieces_cons_self, Text.pieces_nil,
        List.append_nil]
  | repeated a b =>
      have hslash : ∀ t, pieces (chr '/') (a ++ chr '/' :: t) =
          pieces (chr '/') a ++ pieces (chr '/') t := fun t => by
        rw [Text.pieces_append fun ⟨_, y, hy, hyc⟩ => hyc (Option.some.inj hy).symm,
          Text.pieces_cons_self]
      rw [splitPath_eq, splitPath_eq, hslash, hslash, Text.pieces_cons_self]
  | refl s => rfl
  | symm _ ih => exact ih.symm
  | trans _ _ ihab ihbc => exact ihab.trans ihbc

/-! ## What a pattern asks for and captures -/

/-- The segments agree: there are as many, and a segment without a colon stands
opposite its equal. -/
def Agree (pats segs : List Bytes) : Prop :=
  pats.length = segs.length ∧
    ∀ (i : Nat) (pat seg : Bytes), pats[i]? = some pat → segs[i]? = some seg →
      pat.head? ≠ some (chr ':') → pat = seg

/-- The segment opposite the last occurrence of a name. -/
def LastCapture (pats segs : List Bytes) (name seg : Bytes) : Prop :=
  ∃ i : Nat, pats[i]? = some (chr ':' :: name) ∧ segs[i]? = some seg ∧
    ∀ j, i < j → pats[j]? ≠ some (chr ':' :: name)

/-- No name occurs twice. -/
def DistinctNames (pats : List Bytes) : Prop :=
  ∀ (i j : Nat) (name : Bytes), pats[i]? = some (chr ':' :: name) →
    pats[j]? = some (chr ':' :: name) → i = j

theorem agree_iff {pats segs : List Bytes} :
    Agree pats segs ↔ List.Forall₂ SegmentTakes pats segs := by
  constructor
  · rintro ⟨hlen, hsame⟩
    refine List.forall₂_iff_get.mpr ⟨hlen, fun i hi hi' => ?_⟩
    by_cases hparam : (pats.get ⟨i, hi⟩).head? = some (chr ':')
    · exact .inl hparam
    · exact .inr (hsame i _ _ (List.getElem?_eq_getElem hi) (List.getElem?_eq_getElem hi') hparam)
  · intro h
    refine ⟨h.length_eq, fun i pat seg hpat hseg hparam => ?_⟩
    obtain ⟨hi, rfl⟩ := List.getElem?_eq_some_iff.mp hpat
    obtain ⟨hi', rfl⟩ := List.getElem?_eq_some_iff.mp hseg
    exact ((List.forall₂_iff_get.mp h).2 i hi hi').resolve_left hparam

theorem lastCapture_cons {pat seg' : Bytes} {pats segs : List Bytes} {name seg : Bytes} :
    LastCapture (pat :: pats) (seg' :: segs) name seg ↔
      LastCapture pats segs name seg ∨
        (pat = chr ':' :: name ∧ seg' = seg ∧ ∀ j : Nat, pats[j]? ≠ some (chr ':' :: name)) := by
  constructor
  · rintro ⟨i, hpat, hseg, hlast⟩
    cases i with
    | zero =>
        exact .inr ⟨Option.some.inj hpat, Option.some.inj hseg,
          fun j => hlast (j + 1) (Nat.succ_pos j)⟩
    | succ i => exact .inl ⟨i, hpat, hseg, fun j hj => hlast (j + 1) (Nat.succ_lt_succ hj)⟩
  · rintro (⟨i, hpat, hseg, hlast⟩ | ⟨rfl, rfl, hnone⟩)
    · refine ⟨i + 1, hpat, hseg, fun j hj => ?_⟩
      obtain ⟨j, rfl⟩ : ∃ k, j = k + 1 := ⟨j - 1, by omega⟩
      exact hlast j (Nat.lt_of_succ_lt_succ hj)
    · refine ⟨0, rfl, rfl, fun j hj => ?_⟩
      obtain ⟨j, rfl⟩ : ∃ k, j = k + 1 := ⟨j - 1, by omega⟩
      exact hnone j

/-- A parameter captures under its name, and another segment does not capture. -/
theorem captures_cons (pat seg : Bytes) (pats segs : List Bytes) :
    captures (pat :: pats) (seg :: segs) =
      if pat.head? = some (chr ':') then (pat.tail, seg) :: captures pats segs
      else captures pats segs := by
  split_ifs with hparam
  · simp [captures, hparam]
  · simp [captures, hparam]

/-- The names that are captured are the names of the pattern. -/
theorem mem_keys_captures {pats segs : List Bytes} (hlen : pats.length = segs.length)
    {name : Bytes} :
    name ∈ (captures pats segs).map Prod.fst ↔ chr ':' :: name ∈ pats := by
  have hzip : (pats.zip segs).map Prod.fst = pats := List.map_fst_zip (le_of_eq hlen)
  constructor
  · intro hmem
    obtain ⟨kv, hkv, rfl⟩ := List.mem_map.mp hmem
    obtain ⟨⟨pat, seg⟩, hps, rfl⟩ := List.mem_map.mp hkv
    rw [List.mem_filter, decide_eq_true_eq] at hps
    have heq : pat = chr ':' :: pat.tail := List.eq_cons_of_mem_head? hps.2
    rw [← hzip]
    exact List.mem_map.mpr ⟨(pat, seg), hps.1, heq⟩
  · intro hmem
    rw [← hzip] at hmem
    obtain ⟨⟨pat, seg⟩, hps, heq⟩ := List.mem_map.mp hmem
    obtain rfl : pat = chr ':' :: name := heq
    exact List.mem_map.mpr ⟨(name, seg), List.mem_map.mpr
      ⟨(chr ':' :: name, seg), List.mem_filter.mpr ⟨hps, by simp⟩, rfl⟩, rfl⟩

/-- A name that does not occur captures nothing. -/
theorem last_captures_eq_none_iff {pats segs : List Bytes} (hlen : pats.length = segs.length)
    {name : Bytes} : LastWins.last (captures pats segs) name = none ↔
      ∀ j : Nat, pats[j]? ≠ some (chr ':' :: name) := by
  have hnot : (∀ kv ∈ captures pats segs, kv.1 ≠ name) ↔
      name ∉ (captures pats segs).map Prod.fst := by
    rw [List.mem_map, not_exists]
    exact forall_congr' fun kv => not_and.symm
  rw [LastWins.last_eq_none_iff, hnot, mem_keys_captures hlen, List.mem_iff_getElem?, not_exists]

/-- The last capture of a name is the segment opposite its last occurrence. -/
theorem last_captures_iff {pats segs : List Bytes} (h : List.Forall₂ SegmentTakes pats segs)
    {name seg : Bytes} :
    LastWins.last (captures pats segs) name = some seg ↔ LastCapture pats segs name seg := by
  induction h with
  | nil =>
      refine iff_of_false (by simp [captures]) ?_
      rintro ⟨i, hpat, -⟩
      cases hpat
  | @cons pat seg' pats segs _ hrest ih =>
      rw [lastCapture_cons, captures_cons]
      split_ifs with hparam
      · obtain ⟨own, rfl⟩ : ∃ own, pat = chr ':' :: own :=
          ⟨pat.tail, List.eq_cons_of_mem_head? hparam⟩
        rw [List.tail_cons, LastWins.last_cons, Option.or_eq_some_iff, ih,
          last_captures_eq_none_iff hrest.length_eq]
        by_cases hname : own = name
        · simp [hname, and_comm]
        · simp [hname]
      · have hne : pat ≠ chr ':' :: name := fun heq => hparam (by rw [heq]; rfl)
        rw [ih]
        simp [hne]

/-- A name is looked up as the segment opposite its last occurrence, and as before
when it does not occur. -/
theorem getElem?_insertMany_captures {pats segs : List Bytes}
    (h : List.Forall₂ SegmentTakes pats segs) (params : StringMap) {name seg : Bytes} :
    (params.insertMany (captures pats segs))[name]? = some seg ↔
      LastCapture pats segs name seg ∨
        (params[name]? = some seg ∧ ∀ j : Nat, pats[j]? ≠ some (chr ':' :: name)) := by
  rw [LastWins.getElem?_insertMany, Option.or_eq_some_iff, last_captures_iff h,
    last_captures_eq_none_iff h.length_eq]
  exact or_congr_right and_comm

/-- The names in the map are the names of the pattern. -/
theorem mem_insertMany_captures {pats segs : List Bytes} (hlen : pats.length = segs.length)
    {name : Bytes} :
    name ∈ (∅ : StringMap).insertMany (captures pats segs) ↔ chr ':' :: name ∈ pats := by
  rw [Std.ExtTreeMap.mem_insertMany_list, ← mem_keys_captures hlen]
  simp

/-- With different names the map and the pattern give the path's segments. -/
theorem fill_of_distinct {pats segs : List Bytes} (h : List.Forall₂ SegmentTakes pats segs)
    (hdistinct : DistinctNames pats) :
    pats.map (fun pat =>
        if pat.head? = some (chr ':') then
          ((∅ : StringMap).insertMany (captures pats segs))[pat.tail]?
        else some pat) = segs.map some := by
  refine List.ext_getElem (by simpa using h.length_eq) fun i hi hi' => ?_
  rw [List.length_map] at hi hi'
  rw [List.getElem_map, List.getElem_map]
  split_ifs with hparam
  · have heq : pats[i] = chr ':' :: pats[i].tail := List.eq_cons_of_mem_head? hparam
    have hpat : pats[i]? = some (chr ':' :: pats[i].tail) := by
      rw [← heq]
      exact List.getElem?_eq_getElem hi
    refine (getElem?_insertMany_captures h ∅).mpr (.inl ⟨i, hpat, List.getElem?_eq_getElem hi', ?_⟩)
    exact fun j hj hsame => absurd (hdistinct i j _ hpat hsame) (Nat.ne_of_lt hj)
  · exact congrArg some (((List.forall₂_iff_get.mp h).2 i hi hi').resolve_left hparam)

/-! ## What `matchPattern` returns -/

/-- `matchPattern` from empty outputs, in terms of the segments of its arguments. -/
theorem matchPattern_exact {pattern path : Bytes} {pats segs : List Bytes}
    (hpattern : Pieces (chr '/') pattern pats) (hpath : Pieces (chr '/') path segs) :
    ((matchPattern pattern path [] ∅).1 = true ↔ Agree pats segs) ∧
    ((matchPattern pattern path [] ∅).1 = true →
      (∀ name, name ∈ (matchPattern pattern path [] ∅).2.2 ↔ chr ':' :: name ∈ pats) ∧
      (∀ name seg, (matchPattern pattern path [] ∅).2.2[name]? = some seg ↔
        LastCapture pats segs name seg) ∧
      (DistinctNames pats →
        pats.map (fun pat =>
          if pat.head? = some (chr ':') then (matchPattern pattern path [] ∅).2.2[pat.tail]?
          else some pat) = segs.map some)) ∧
    ∀ pattern' path', SlashEq pattern pattern' → SlashEq path path' →
      matchPattern pattern' path' [] ∅ = matchPattern pattern path [] ∅ := by
  obtain rfl : pats = splitPath pattern := (Text.pieces_iff.mp hpattern).trans (splitPath_eq _).symm
  obtain rfl : segs = splitPath path := (Text.pieces_iff.mp hpath).trans (splitPath_eq _).symm
  refine ⟨matchPattern_iff.trans agree_iff.symm, fun hmatch => ?_, fun pattern' path' hp hq => ?_⟩
  · have htakes := matchPattern_iff.mp hmatch
    obtain ⟨paramKeys, hresult⟩ := matchPattern_of_takes htakes
    rw [hresult]
    refine ⟨fun name => mem_insertMany_captures htakes.length_eq, fun name seg => ?_,
      fill_of_distinct htakes⟩
    rw [getElem?_insertMany_captures htakes]
    simp
  · rw [matchPattern, matchPattern, splitPath_of_slashEq hp, splitPath_of_slashEq hq]

/-- A pattern with one name takes a path with a doubled slash. -/
theorem matchPattern_exact_users :
    (matchPattern (ascii "/users/:id") (ascii "users//42/") [] ∅).1 = true ∧
      (matchPattern (ascii "/users/:id") (ascii "users//42/") [] ∅).2.2[ascii "id"]? =
        some (ascii "42") := by
  have hpattern : Pieces (chr '/') (ascii "/users/:id") [ascii "users", ascii ":id"] :=
    Text.pieces_iff.mpr (by decide)
  have hpath : Pieces (chr '/') (ascii "users//42/") [ascii "users", ascii "42"] :=
    Text.pieces_iff.mpr (by decide)
  obtain ⟨hmatch, hcaptures, -⟩ := matchPattern_exact hpattern hpath
  have htrue := hmatch.mpr (agree_iff.mpr (by decide))
  have hlast : LastCapture [ascii "users", ascii ":id"] [ascii "users", ascii "42"]
      (ascii "id") (ascii "42") := by
    refine ⟨1, by decide, by decide, fun j hj => ?_⟩
    rw [List.getElem?_eq_none hj]
    exact (Option.some_ne_none _).symm
  exact ⟨htrue, ((hcaptures htrue).2.1 _ _).mpr hlast⟩

end Fion
