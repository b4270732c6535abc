import Fion.Data.LastWins
import Fion.Http.UrlParts
import Fion.Text.Pieces

/-!
# The parts of a printed URL

`toString` puts the components back together, each behind the delimiter that the
parser cuts at.  When no component contains a delimiter of its own cut
(`Printable`, which every parsed URL is), the parser finds the same cuts in the
printed text, whatever the delimiters of other cuts do inside the components
(`read_of_afterScheme`).

One parameter does not survive: an empty key with an empty value prints nothing
at all.  `keptParams` is the map without it.
-/

namespace Fion.Http

open Cpp (Bytes ascii chr isdigit decimal printNat)
open Text (find rfind lines before after pieces)

namespace URL

/-! ## The query -/

/-- A key and a value without the delimiters they are cut at. -/
structure CleanParam (param : Bytes × Bytes) : Prop where
  key : chr '&' ∉ param.1 ∧ chr '=' ∉ param.1 ∧ chr '#' ∉ param.1
  value : chr '&' ∉ param.2 ∧ chr '#' ∉ param.2

/-- The parameters that are read back: all but an empty key with an empty value. -/
def keptParams (params : StringMap) : StringMap :=
  if params[([] : Bytes)]? = some [] then params.erase [] else params

theorem printParams_false (kvs : List (Bytes × Bytes)) :
    printParams false kvs = if kvs = [] then [] else chr '&' :: printParams true kvs := by
  cases kvs with
  | nil => rfl
  | cons kv rest => simp [printParams, show ascii "&" = [chr '&'] by decide]

theorem printParams_cons (kv : Bytes × Bytes) (rest : List (Bytes × Bytes)) :
    printParams true (kv :: rest) =
      printParam kv ++ if rest = [] then [] else chr '&' :: printParams true rest := by
  rw [printParams, printParams_false]
  rfl

theorem mem_printParam {b : UInt8} {kv : Bytes × Bytes} (h : b ∈ printParam kv) :
    b ∈ kv.1 ∨ b = chr '=' ∨ b ∈ kv.2 := by
  rw [printParam, List.mem_append] at h
  rcases h with hkey | hvalue
  · exact .inl hkey
  · split_ifs at hvalue
    · rcases List.mem_append.mp hvalue with heq | hvalue
      · exact .inr (.inl (List.mem_singleton.mp heq))
      · exact .inr (.inr hvalue)
    · cases hvalue

theorem amp_not_mem_printParam {kv : Bytes × Bytes} (h : CleanParam kv) :
    chr '&' ∉ printParam kv := fun hmem => by
  rcases mem_printParam hmem with hkey | heq | hvalue
  · exact h.key.1 hkey
  · exact absurd heq (by decide)
  · exact h.value.1 hvalue

/-- The queries have no `#`. -/
theorem hash_not_mem_printParams {kvs : List (Bytes × Bytes)} (h : ∀ kv ∈ kvs, CleanParam kv) :
    chr '#' ∉ printParams true kvs := by
  induction kvs with
  | nil => exact List.not_mem_nil
  | cons kv rest ih =>
      have hkv := h kv List.mem_cons_self
      rw [printParams_cons, List.mem_append, not_or]
      constructor
      · rintro hmem
        rcases mem_printParam hmem with hkey | heq | hvalue
        · exact hkv.key.2.2 hkey
        · exact absurd heq (by decide)
        · exact hkv.value.2 hvalue
      · split_ifs
        · exact List.not_mem_nil
        · rw [List.mem_cons, not_or]
          exact ⟨by decide, ih fun kv hkv => h kv (List.mem_cons_of_mem _ hkv)⟩

/-- A printed parameter is stored under its key, except the one that prints
nothing. -/
theorem storeParam_printParam {kv : Bytes × Bytes} (h : CleanParam kv) (m : StringMap) :
    storeParam m (printParam kv) = if kv = ([], []) then m else m.insert kv.1 kv.2 := by
  obtain ⟨key, value⟩ := kv
  by_cases hvalue : value = []
  · subst hvalue
    have hprint : printParam (key, []) = key := by rw [printParam, if_neg (by simp)]; simp
    rw [hprint, storeParam, Text.find_singleton_eq_none_iff.mpr h.key.2.1]
    by_cases hkey : key = []
    · simp [hkey]
    · simp [hkey]
  · have hprint : printParam (key, value) = key ++ chr '=' :: value := by
      rw [printParam, if_pos hvalue]
      rfl
    have hfind : find [chr '='] (key ++ chr '=' :: value) = some key.length :=
      Text.find_append_self_of_skip [chr '='] value fun j hj =>
        Text.not_prefix_drop_of_first rfl h.key.2.1 hj
    have hdrop : (key ++ chr '=' :: value).drop (key.length + 1) = value := by
      rw [← List.drop_drop, List.drop_left, List.drop_one, List.tail_cons]
    rw [hprint, storeParam, hfind]
    simp only [List.take_left, hdrop]
    rw [if_neg (by simp [hvalue])]

/-- Reading a printed list of parameters stores them one by one. -/
theorem foldl_lines_printParams {kvs : List (Bytes × Bytes)} (h : ∀ kv ∈ kvs, CleanParam kv)
    (m : StringMap) : (lines (chr '&') (printParams true kvs)).foldl storeParam m =
      m.insertMany (kvs.filter (· ≠ ([], []))) := by
  induction kvs generalizing m with
  | nil => exact Std.ExtTreeMap.insertMany_nil.symm
  | cons kv rest ih =>
      have hkv := h kv List.mem_cons_self
      have hstep : (lines (chr '&') (printParams true (kv :: rest))).foldl storeParam m =
          (lines (chr '&') (printParams true rest)).foldl storeParam
            (storeParam m (printParam kv)) := by
        rw [printParams_cons]
        split_ifs with hrest
        · rw [List.append_nil, hrest]
          by_cases hnil : printParam kv = []
          · rw [hnil]
            rfl
          · rw [Text.lines_of_not_mem hnil (amp_not_mem_printParam hkv)]
            rfl
        · rw [Text.lines_append_sep (amp_not_mem_printParam hkv), List.foldl_cons]
      rw [hstep, ih (fun kv hkv => h kv (List.mem_cons_of_mem _ hkv)),
        storeParam_printParam hkv]
      by_cases hempty : kv = ([], [])
      · simp [hempty]
      · rw [if_neg hempty, List.filter_cons_of_pos (by simpa using hempty)]
        exact Std.ExtTreeMap.insertMany_cons.symm

/-- A printed map is read back without the parameter that prints nothing. -/
theorem readQuery_printParams {params : StringMap} (h : ∀ kv ∈ params.toList, CleanParam kv) :
    readQuery (printParams true params.toList) = keptParams params := by
  have hnodup : ((params.toList.filter (· ≠ ([], []))).map Prod.fst).Nodup :=
    (Headers.nodup_keys params).sublist (List.filter_sublist.map _)
  refine Std.ExtTreeMap.ext_getElem? fun key => Option.ext fun value => ?_
  rw [readQuery, foldl_lines_printParams h, Headers.getElem?_insertMany_iff hnodup,
    List.mem_filter, Std.ExtTreeMap.mem_toList_iff_getElem?_eq_some, keptParams]
  by_cases hkey : key = []
  · subst hkey
    split_ifs with hempty
    · simp [hempty]
    · simp only [ne_eq, Prod.mk.injEq, true_and, decide_not, Bool.not_eq_eq_eq_not, Bool.not_true,
        decide_eq_false_iff_not, and_iff_left_iff_imp]
      rintro hvalue rfl
      exact hempty hvalue
  · have hne : (key, value) ≠ (([], []) : Bytes × Bytes) := fun heq => hkey (congrArg Prod.fst heq)
    split_ifs
    · rw [Std.ExtTreeMap.getElem?_erase, if_neg (by simpa using Ne.symm hkey)]
      simp [hne]
    · simp [hne]

/-- One piece of a query string is cut at its first `=`. -/
theorem storeParam_eq (m : StringMap) (param : Bytes) :
    storeParam m param =
      if param = [] then m else m.insert (before (chr '=') param) (after (chr '=') param) := by
  rw [storeParam]
  rcases Text.find_singleton (chr '=') param with ⟨habs, hfind⟩ | ⟨hmem, hfind⟩
  · rw [hfind, Text.before_of_not_mem habs, Text.after_of_not_mem habs]
    by_cases hnil : param = []
    · simp [hnil]
    · simp [hnil]
  · rw [hfind, if_neg (List.ne_nil_of_mem hmem)]
    simp only [(Text.drop_before hmem).1, (Text.drop_before hmem).2]

/-- Key and value of one piece. -/
def paramOf (piece : Bytes) : Bytes × Bytes := (before (chr '=') piece, after (chr '=') piece)

/-- The loop stores the pieces that are not empty. -/
theorem foldl_storeParam (params : List Bytes) (m : StringMap) :
    params.foldl storeParam m = m.insertMany ((params.filter (· ≠ [])).map paramOf) := by
  induction params generalizing m with
  | nil => exact Std.ExtTreeMap.insertMany_nil.symm
  | cons param params ih =>
      rw [List.foldl_cons, ih, storeParam_eq]
      by_cases hnil : param = []
      · rw [if_pos hnil, List.filter_cons_of_neg (by simpa using hnil)]
      · rw [if_neg hnil, List.filter_cons_of_pos (by simpa using hnil), List.map_cons,
          Std.ExtTreeMap.insertMany_cons]
        rfl

/-- The parameters of a query are its pieces, stored in order. -/
theorem readQuery_eq (query : Bytes) :
    readQuery query = (∅ : StringMap).insertMany ((pieces (chr '&') query).map paramOf) :=
  foldl_storeParam _ _

/-- What a query string stores is a piece of it, cut at the first `=`. -/
theorem piece_of_readQuery {query key value : Bytes}
    (h : (readQuery query)[key]? = some value) :
    ∃ piece ∈ lines (chr '&') query,
      key = before (chr '=') piece ∧ value = after (chr '=') piece := by
  rw [readQuery_eq, LastWins.getElem?_insertMany_empty] at h
  obtain ⟨piece, hpiece, hparam⟩ := List.mem_map.mp (LastWins.mem_of_last h)
  obtain ⟨hkey, hvalue⟩ := Prod.mk.inj hparam
  exact ⟨piece, (List.mem_filter.mp hpiece).1, hkey.symm, hvalue.symm⟩

/-- A query string without `#` stores clean parameters. -/
theorem cleanParam_of_readQuery {query : Bytes} (hquery : chr '#' ∉ query) :
    ∀ kv ∈ (readQuery query).toList, CleanParam kv := by
  rintro ⟨key, value⟩ hkv
  obtain ⟨piece, hpiece, rfl, rfl⟩ :=
    piece_of_readQuery (Std.ExtTreeMap.mem_toList_iff_getElem?_eq_some.mp hkv)
  have hamp := Text.not_mem_of_mem_lines hpiece
  have hhash : chr '#' ∉ piece := fun h => hquery ((Text.infix_of_mem_lines hpiece).mem h)
  have hbefore := (Text.before_isPrefix (chr '=') piece).subset
  have hafter := (Text.after_suffix (chr '=') piece).subset
  exact ⟨⟨fun h => hamp (hbefore h), Text.not_mem_before _ _, fun h => hhash (hbefore h)⟩,
    fun h => hamp (hafter h), fun h => hhash (hafter h)⟩

/-- A piece with the empty key begins with `=`. -/
theorem before_eq_nil_iff {piece : Bytes} (hne : piece ≠ []) :
    before (chr '=') piece = [] ↔ piece.head? = some (chr '=') := by
  cases piece with
  | nil => exact absurd rfl hne
  | cons b rest =>
      rw [List.head?_cons, Option.some.injEq]
      by_cases hb : b = chr '='
      · exact iff_of_true (by simp [before, hb]) hb
      · exact iff_of_false (by simp [before, hb]) hb

/-- The value of the empty key is that of the last piece that begins with `=`. -/
theorem readQuery_emptyKey (query : Bytes) :
    (readQuery query)[([] : Bytes)]? =
      ((lines (chr '&') query).filter (·.head? = some (chr '='))).getLast?.map List.tail := by
  have hfilter : ((pieces (chr '&') query).map paramOf).filter (·.1 = []) =
      ((lines (chr '&') query).filter (·.head? = some (chr '='))).map paramOf := by
    rw [pieces, List.filter_map, List.filter_filter]
    congr 1
    refine List.filter_congr fun piece _ => Bool.eq_iff_iff.mpr ?_
    rw [Bool.and_eq_true, Function.comp_apply, decide_eq_true_iff, decide_eq_true_iff,
      decide_eq_true_iff]
    constructor
    · rintro ⟨hkey, hne⟩
      exact (before_eq_nil_iff hne).mp hkey
    · intro hhead
      have hne : piece ≠ [] := fun hnil => by rw [hnil] at hhead; cases hhead
      exact ⟨(before_eq_nil_iff hne).mpr hhead, hne⟩
  have htail : ∀ piece ∈ (lines (chr '&') query).filter (·.head? = some (chr '=')),
      (paramOf piece).2 = piece.tail := by
    intro piece hpiece
    obtain ⟨-, hhead⟩ := List.mem_filter.mp hpiece
    obtain ⟨rest, rfl⟩ := List.head?_eq_some_iff.mp (of_decide_eq_true hhead)
    exact Text.after_append_sep (c := chr '=') List.not_mem_nil rest
  rw [readQuery_eq, LastWins.getElem?_insertMany_empty, LastWins.last, hfilter,
    ← List.getLast?_map, ← List.getLast?_map, List.map_map]
  exact congrArg List.getLast? (List.map_congr_left htail)

/-! ## Printed parts -/

/-- The components of a URL keep clear of the delimiters that they are cut at. -/
structure Printable (u : URL) : Prop where
  domain : chr '/' ∉ u.domainName ∧ chr '?' ∉ u.domainName ∧ chr '#' ∉ u.domainName
  pathHead : u.pathToResource.head? = some (chr '/')
  path : chr '?' ∉ u.pathToResource ∧ chr '#' ∉ u.pathToResource
  params : ∀ kv ∈ u.queryParameters.toList, CleanParam kv

/-- The printed authority. -/
def printedAuthority (u : URL) : Bytes :=
  if u.domainName ≠ [] then u.domainName ++ u.printPort else []

/-- The printed query with its `?`. -/
def printedQuery (params : StringMap) : Bytes :=
  if ¬ params.isEmpty then ascii "?" ++ printParams true params.toList else []

/-- The printed fragment with its `#`. -/
def printedAnchor (anchor : Bytes) : Bytes := if anchor ≠ [] then ascii "#" ++ anchor else []

/-- What is printed behind the scheme. -/
def printedRest (u : URL) : Bytes :=
  u.printedAuthority ++ u.pathToResource ++ printedQuery u.queryParameters ++
    printedAnchor u.anchor

theorem toString_eq (u : URL) :
    u.toString = (if u.scheme ≠ [] then u.scheme ++ ascii "://" else []) ++ u.printedRest := by
  simp only [toString, printedRest, printedAuthority, printedQuery, printedAnchor,
    List.append_assoc]

theorem printedQuery_tail (params : StringMap) :
    (printedQuery params = [] ∨ (printedQuery params).head? = some (chr '?')) ∧
      (printedQuery params).tail =
        if ¬ params.isEmpty then printParams true params.toList else [] := by
  rw [printedQuery]
  split_ifs
  · exact ⟨.inl rfl, rfl⟩
  · exact ⟨.inr rfl, rfl⟩

theorem printedAnchor_tail (anchor : Bytes) :
    (printedAnchor anchor = [] ∨ (printedAnchor anchor).head? = some (chr '#')) ∧
      (printedAnchor anchor).tail = anchor := by
  rw [printedAnchor]
  split_ifs with hanchor
  · exact ⟨.inr rfl, rfl⟩
  · exact ⟨.inl rfl, (not_not.mp hanchor).symm⟩

/-- A printed port is nothing, or a colon and digits. -/
theorem not_mem_printPort (u : URL) {b : UInt8} (hdigit : isdigit b = false)
    (hcolon : b ≠ chr ':') : b ∉ u.printPort := by
  rw [printPort]
  split_ifs
  · rw [List.mem_append, not_or]
    exact ⟨fun h => hcolon (List.mem_singleton.mp h), Cpp.not_mem_printNat hdigit _⟩
  · exact List.not_mem_nil

theorem not_mem_printedAuthority {u : URL} {b : UInt8} (hdomain : b ∉ u.domainName)
    (hdigit : isdigit b = false) (hcolon : b ≠ chr ':') : b ∉ u.printedAuthority := by
  rw [printedAuthority]
  split_ifs
  · rw [List.mem_append, not_or]
    exact ⟨hdomain, not_mem_printPort u hdigit hcolon⟩
  · exact List.not_mem_nil

/-- The cuts that the parser makes in what is printed behind the scheme. -/
theorem cuts_of_printedRest {u : URL} (h : u.Printable) :
    after (chr '#') u.printedRest = u.anchor ∧
      after (chr '?') (before (chr '#') u.printedRest) = (printedQuery u.queryParameters).tail ∧
      before (chr '?') (before (chr '#') u.printedRest) =
        u.printedAuthority ++ u.pathToResource := by
  have hauth : chr '?' ∉ u.printedAuthority ∧ chr '#' ∉ u.printedAuthority :=
    ⟨not_mem_printedAuthority h.domain.2.1 (by decide) (by decide),
      not_mem_printedAuthority h.domain.2.2 (by decide) (by decide)⟩
  have hquery : chr '#' ∉ printedQuery u.queryParameters := by
    rw [printedQuery]
    split_ifs
    · exact List.not_mem_nil
    · rw [List.mem_append, not_or]
      exact ⟨by decide, hash_not_mem_printParams h.params⟩
  have hfront : chr '#' ∉
      u.printedAuthority ++ u.pathToResource ++ printedQuery u.queryParameters := by
    simp only [List.mem_append, not_or]
    exact ⟨⟨hauth.2, h.path.2⟩, hquery⟩
  have hresource : chr '?' ∉ u.printedAuthority ++ u.pathToResource := by
    simp only [List.mem_append, not_or]
    exact ⟨hauth.1, h.path.1⟩
  obtain ⟨hanchorHead, hanchorTail⟩ := printedAnchor_tail u.anchor
  obtain ⟨hbefore, hafter⟩ := Text.cut_append_tail hfront hanchorHead
  obtain ⟨hbefore', hafter'⟩ := Text.cut_append_tail hresource
    (printedQuery_tail u.queryParameters).1
  rw [printedRest, hafter, hbefore, hafter', hbefore']
  exact ⟨hanchorTail, rfl, rfl⟩

/-! ## Reading a printed text -/

theorem readQuery_printedQuery {params : StringMap} (h : ∀ kv ∈ params.toList, CleanParam kv) :
    readQuery (printedQuery params).tail = keptParams params := by
  rw [(printedQuery_tail params).2]
  split_ifs with hparams
  · obtain rfl := Std.ExtTreeMap.isEmpty_iff.mp hparams
    simp [readQuery, keptParams]
  · exact readQuery_printParams h

/-- The path ends the printed authority. -/
theorem before_slash {a path : Bytes} (ha : chr '/' ∉ a) (hpath : path.head? = some (chr '/')) :
    before (chr '/') (a ++ path) = a ∧ pathText (a ++ path) = path := by
  obtain ⟨hbefore, hafter⟩ := Text.cut_append_tail ha (.inr hpath)
  have hmem : chr '/' ∈ a ++ path := List.mem_append_right a (List.mem_of_head? hpath)
  refine ⟨hbefore, ?_⟩
  rw [pathText, if_pos hmem, hafter]
  exact List.eq_cons_of_mem_head? hpath |>.symm

/-- A text that has a printed URL behind its scheme is read back part by part;
only host and port are read anew. -/
theorem read_of_afterScheme {u : URL} (h : u.Printable) {raw : Bytes}
    (hraw : afterScheme raw = u.printedRest) :
    authority raw = withoutUserInfo u.printedAuthority ∧
      read raw =
        { scheme := schemePart raw
          domainName := hostText (withoutUserInfo u.printedAuthority)
          port := portPart (schemePart raw) (withoutUserInfo u.printedAuthority)
          pathToResource := u.pathToResource
          queryParameters := keptParams u.queryParameters
          anchor := u.anchor } := by
  obtain ⟨hanchor, hquery, hrest⟩ := cuts_of_printedRest h
  rw [← hraw] at hanchor hquery hrest
  have hslash := before_slash (not_mem_printedAuthority h.domain.1 (by decide) (by decide))
    h.pathHead
  have hauthority : authority raw = withoutUserInfo u.printedAuthority := by
    rw [authority, remainder, hrest, hslash.1]
  refine ⟨hauthority, ?_⟩
  rw [read, hauthority, anchorText, hanchor, queryText, hquery, readQuery_printedQuery h.params,
    remainder, hrest, hslash.2]

/-- A scheme that the parser finds again in front of a printed `"://"`. -/
structure SchemeForm (scheme : Bytes) : Prop where
  lower : toLowerCopy scheme = scheme
  first : ∀ rest, find (ascii "://") (scheme ++ (ascii "://" ++ rest)) = some scheme.length

/-- The scheme of a printed text. -/
theorem scheme_of_printed {scheme : Bytes} (h : SchemeForm scheme) (rest : Bytes) :
    schemePart (scheme ++ (ascii "://" ++ rest)) = scheme ∧
      afterScheme (scheme ++ (ascii "://" ++ rest)) = rest := by
  have hdrop : (scheme ++ (ascii "://" ++ rest)).drop (scheme.length + 3) = rest := by
    rw [← List.drop_drop, List.drop_left]
    rfl
  rw [schemePart, afterScheme, h.first]
  simp only [List.take_left, hdrop, h.lower]
  exact ⟨trivial, trivial⟩

/-- A scheme without a colon is found again. -/
theorem schemeForm_of_not_mem {scheme : Bytes} (hlower : toLowerCopy scheme = scheme)
    (hcolon : chr ':' ∉ scheme) : SchemeForm scheme where
  lower := hlower
  first rest := Text.find_append_self_of_skip (ascii "://") rest fun _ hj =>
    Text.not_prefix_drop_of_first (by decide) hcolon hj

/-! ## Parsed URLs are printable -/

theorem mem_withoutUserInfo {b : UInt8} {hostPort : Bytes} (h : b ∈ withoutUserInfo hostPort) :
    b ∈ hostPort := by
  rw [withoutUserInfo] at h
  split_ifs at h
  · exact (Text.after_suffix _ _).subset h
  · exact h

theorem mem_hostText {b : UInt8} {hostPort : Bytes} (h : b ∈ hostText hostPort) :
    b ∈ hostPort ∨ b = chr ']' := by
  rw [hostText] at h
  split_ifs at h
  · rcases List.mem_append.mp h with hbefore | hclose
    · exact .inl ((Text.before_isPrefix _ _).subset hbefore)
    · exact .inr (List.mem_singleton.mp hclose)
  · split at h
    · exact .inl (List.mem_of_mem_take h)
    · exact .inl h

theorem mem_pathText {b : UInt8} {rest : Bytes} (h : b ∈ pathText rest) :
    b ∈ rest ∨ b = chr '/' := by
  rw [pathText] at h
  split_ifs at h
  · rcases List.mem_cons.mp h with heq | hafter
    · exact .inr heq
    · exact .inl ((Text.after_suffix _ _).subset hafter)
  · exact .inr (List.mem_singleton.mp h)

theorem not_mem_remainder (raw : Bytes) : chr '?' ∉ remainder raw ∧ chr '#' ∉ remainder raw :=
  ⟨Text.not_mem_before _ _, fun h =>
    Text.not_mem_before (chr '#') (afterScheme raw) ((Text.before_isPrefix _ _).subset h)⟩

/-- The components that the constructor stores are printable. -/
theorem printable_read (raw : Bytes) : (read raw).Printable := by
  have hauth : ∀ b ∈ authority raw, b ∈ before (chr '/') (remainder raw) := fun b hb =>
    mem_withoutUserInfo hb
  have hdomain : ∀ b, b ≠ chr ']' → b ∉ before (chr '/') (remainder raw) →
      b ∉ (read raw).domainName := fun b hne habs hmem =>
    (mem_hostText hmem).elim (fun h => habs (hauth b h)) hne
  have hremainder : ∀ b, b ∉ remainder raw → b ∉ before (chr '/') (remainder raw) :=
    fun b habs hmem => habs ((Text.before_isPrefix _ _).subset hmem)
  have hpath : ∀ b, b ≠ chr '/' → b ∉ remainder raw → b ∉ (read raw).pathToResource :=
    fun b hne habs hmem => (mem_pathText hmem).elim habs hne
  obtain ⟨hquestion, hhash⟩ := not_mem_remainder raw
  refine ⟨⟨hdomain _ (by decide) (Text.not_mem_before _ _),
    hdomain _ (by decide) (hremainder _ hquestion), hdomain _ (by decide) (hremainder _ hhash)⟩,
    ?_, ⟨hpath _ (by decide) hquestion, hpath _ (by decide) hhash⟩, ?_⟩
  · show (pathText (remainder raw)).head? = some (chr '/')
    rw [pathText]
    split_ifs
    · rfl
    · rfl
  · refine cleanParam_of_readQuery fun hmem => ?_
    exact Text.not_mem_before (chr '#') (afterScheme raw) ((Text.after_suffix _ _).subset hmem)

end URL

end Fion.Http
