import Fion.Http.Headers

/-!
# What a header map answers

User code builds the headers of a response and changes those of a request with `set`,
`remove`, `clear` and `parseFromRaw`, in any order.  All that it can observe is determined
by what the last of these calls to touch each name has left under it (`written`): every
query answers from that alone (`observed`), and calls that touch different names can be made
in any order (`history_order`).
-/

namespace Fion.Http

open Cpp (Bytes Exn ascii cr lf)

namespace Headers

/-! ## The queries -/

/-- The bytes as they stand in the text of an exception. -/
def display (s : Bytes) : String := String.ofList (s.map Char.ofUInt8)

/-- `get` throws when the header is not there. -/
def get (h : Headers) (key : Bytes) : Except Exn Bytes :=
  match h[key]? with
  | some value => .ok value
  | none => .error (.invalidArgument ("Header not found: " ++ display key))

/-- `get` with a default. -/
def getOr (h : Headers) (key defaultValue : Bytes) : Bytes :=
  match h[key]? with
  | some value => value
  | none => defaultValue

/-- `getOptional` -/
def getOptional (h : Headers) (key : Bytes) : Option Bytes := h[key]?

/-- `has` -/
def has (h : Headers) (key : Bytes) : Bool := h.contains key

/-- `getKeys` goes through the map. -/
def getKeys (h : Headers) : List Bytes := h.toList.map Prod.fst

/-! ## The calls that change the map -/

/-- `remove` tells whether the header was there. -/
def remove (h : Headers) (key : Bytes) : Bool × Headers := (h.contains key, h.erase key)

/-- A call that changes the map. -/
inductive Change where
  | set (key value : Bytes)
  | remove (key : Bytes)
  | clear
  | parseFromRaw (rawHeaders : Bytes)

/-- The call is made. -/
def change (h : Headers) : Change → Headers
  | .set key value => h.set key value
  | .remove key => (h.remove key).2
  | .clear => ∅
  | .parseFromRaw rawHeaders => h.parseFromRaw rawHeaders

/-- What a call leaves under a name, if it touches it: a value or none. -/
def touches (key : Bytes) : Change → Option (Option Bytes)
  | .set key' value => if key' = key then some (some value) else none
  | .remove key' => if key' = key then some none else none
  | .clear => some none
  | .parseFromRaw rawHeaders =>
      (LastWins.last ((linesRead (Text.lines lf rawHeaders)).filterMap stored) key).map some

/-- What the last call that touches a name leaves under it. -/
def written (changes : List Change) (key : Bytes) : Option Bytes :=
  (changes.filterMap (touches key)).getLast?.getD none

/-- A call changes what it touches and nothing else. -/
theorem getElem?_change (h : Headers) (c : Change) (key : Bytes) :
    (h.change c)[key]? = (touches key c).getD h[key]? := by
  cases c with
  | set key' value =>
      rw [change, set, Std.ExtTreeMap.getElem?_insert, touches]
      by_cases hkey : key' = key
      · simp [hkey, Std.ReflCmp.compare_self]
      · rw [if_neg hkey, if_neg fun heq => hkey (Std.LawfulEqOrd.eq_of_compare heq)]
        rfl
  | remove key' =>
      rw [change, remove, Std.ExtTreeMap.getElem?_erase, touches]
      by_cases hkey : key' = key
      · simp [hkey, Std.ReflCmp.compare_self]
      · rw [if_neg hkey, if_neg fun heq => hkey (Std.LawfulEqOrd.eq_of_compare heq)]
        rfl
  | clear => exact Std.ExtTreeMap.getElem?_empty
  | parseFromRaw rawHeaders =>
      rw [change, parseFromRaw, parseLines_eq, LastWins.getElem?_insertMany, touches]
      cases LastWins.last ((linesRead (Text.lines lf rawHeaders)).filterMap stored) key <;> rfl

/-- So the map holds what the last calls have left. -/
theorem getElem?_changes (changes : List Change) (key : Bytes) :
    (changes.foldl change ∅)[key]? = written changes key := by
  have hlookup := LastWins.lookup_foldl (fun h : Headers => h[key]?) (touches key)
    (fun h c => getElem?_change h c key) ∅ changes
  rw [hlookup, written, Std.ExtTreeMap.getElem?_empty]

/-! ## What can be observed -/

theorem getKeys_eq (h : Headers) : h.getKeys = h.keys := Std.ExtTreeMap.map_fst_toList_eq_keys

/-- The map is its keys with what is under them. -/
theorem toList_eq_map_getKeys (h : Headers) :
    h.toList = h.getKeys.map fun key => (key, h[key]?.getD []) := by
  rw [getKeys, List.map_map]
  refine (List.map_id h.toList).symm.trans (List.map_congr_left fun kv hkv => ?_)
  have hget := Std.ExtTreeMap.mem_toList_iff_getElem?_eq_some.mp
    (show (kv.1, kv.2) ∈ h.toList from hkv)
  simp [hget]

/-- What a program can see of a map, in terms of what is under each name: the answers to
all queries, and the text that is printed. -/
structure Shows (h : Headers) (value : Bytes → Option Bytes) : Prop where
  getOptional : ∀ key, h.getOptional key = value key
  get : ∀ key, h.get key =
    (value key).elim (.error (.invalidArgument ("Header not found: " ++ display key))) .ok
  getOr : ∀ key defaultValue, h.getOr key defaultValue = (value key).getD defaultValue
  has : ∀ key, h.has key = (value key).isSome
  removed : ∀ key, (h.remove key).1 = (value key).isSome
  mem_getKeys : ∀ key, key ∈ h.getKeys ↔ (value key).isSome
  sorted : h.getKeys.Pairwise fun key key' => compare key key' = .lt
  size : h.size = h.getKeys.length
  empty : h.isEmpty ↔ ∀ key, value key = none
  printed : h.toRawString =
    h.getKeys.flatMap fun key => key ++ ascii ": " ++ (value key).getD [] ++ [cr, lf]

/-- A map shows what it holds. -/
theorem shows_getElem? (h : Headers) : h.Shows fun key => h[key]? where
  getOptional _ := rfl
  get key := by
    rw [get]
    cases h[key]? <;> rfl
  getOr key defaultValue := by
    rw [getOr]
    cases h[key]? <;> rfl
  has key := Std.ExtTreeMap.contains_eq_isSome_getElem?
  removed key := Std.ExtTreeMap.contains_eq_isSome_getElem?
  mem_getKeys key := by
    rw [getKeys_eq, Std.ExtTreeMap.mem_keys, Std.ExtTreeMap.mem_iff_isSome_getElem?]
  sorted := by
    rw [getKeys_eq]
    exact Std.ExtTreeMap.ordered_keys
  size := by rw [getKeys_eq, Std.ExtTreeMap.length_keys]
  empty := by
    rw [Std.ExtTreeMap.isEmpty_iff]
    refine ⟨fun heq key => by rw [heq, Std.ExtTreeMap.getElem?_empty], fun hnone => ?_⟩
    exact Std.ExtTreeMap.ext_getElem? fun key => by
      rw [hnone key, Std.ExtTreeMap.getElem?_empty]
  printed := by
    rw [toRawString, toList_eq_map_getKeys, List.flatMap_map]

/-- Whatever calls have been made on a header map, in whatever order: everything that it
answers and prints is determined by what the last call to touch each name has left. -/
theorem history_shows (changes : List Change) :
    (changes.foldl change ∅).Shows (written changes) := by
  have hshows := shows_getElem? (changes.foldl change ∅)
  rwa [show (fun key => (changes.foldl change ∅)[key]?) = written changes from
    funext fun key => getElem?_changes changes key] at hshows

/-- Calls can be made in any other order in which those that touch one name keep theirs. -/
theorem history_order {changes changes' : List Change}
    (h : ∀ key, changes.filterMap (touches key) = changes'.filterMap (touches key)) :
    changes.foldl change ∅ = changes'.foldl change ∅ := by
  refine Std.ExtTreeMap.ext_getElem? fun key => ?_
  rw [getElem?_changes, getElem?_changes, written, written, h key]

end Headers

end Fion.Http
