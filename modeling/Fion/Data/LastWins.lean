import Std.Data.ExtTreeMap
import Mathlib.Data.List.Induction
import Mathlib.Data.List.Perm.Basic

/-!
# Maps where the last pair wins

A list of pairs that is stored in a map one pair after the other.  The map holds for
every key the value of its last pair (`getElem?_insertMany`), so a list that is
appended is overlaid (`insertMany_append_eq_union`), and two lists store the same map
exactly when every key has the same last value in both (`insertMany_eq_iff`).  The
order of pairs with different keys does not matter (`insertMany_perm`,
`insertMany_swap`).  Where operations of any kind write a map, a place
holds what the last one that touches it leaves (`lookup_foldl`).
-/

namespace LastWins

variable {κ ν : Type*} [DecidableEq κ]

/-- The value of the last pair with a key. -/
def last (kvs : List (κ × ν)) (key : κ) : Option ν :=
  (kvs.filter (·.1 = key)).getLast?.map Prod.snd

@[simp] theorem last_nil (key : κ) : last ([] : List (κ × ν)) key = none := rfl

/-- Later pairs win. -/
theorem last_append (kvs kvs' : List (κ × ν)) (key : κ) :
    last (kvs ++ kvs') key = (last kvs' key).or (last kvs key) := by
  rw [last, last, last, List.filter_append, List.getLast?_append, Option.map_or]

theorem last_cons (k : κ) (v : ν) (kvs : List (κ × ν)) (key : κ) :
    last ((k, v) :: kvs) key = (last kvs key).or (if k = key then some v else none) := by
  have hsplit := last_append [(k, v)] kvs key
  rw [List.singleton_append] at hsplit
  rw [hsplit]
  by_cases hkey : k = key
  · simp [last, hkey]
  · simp [last, hkey]

/-- A last value stands in the list. -/
theorem mem_of_last {kvs : List (κ × ν)} {key : κ} {value : ν}
    (h : last kvs key = some value) : (key, value) ∈ kvs := by
  obtain ⟨kv, hlast, rfl⟩ := Option.map_eq_some_iff.mp h
  obtain ⟨hkv, hkey⟩ := List.mem_filter.mp (List.mem_of_getLast? hlast)
  rwa [← of_decide_eq_true hkey]

/-- A key without a last pair has no pair at all. -/
theorem last_eq_none_iff {kvs : List (κ × ν)} {key : κ} :
    last kvs key = none ↔ ∀ kv ∈ kvs, kv.1 ≠ key := by
  rw [last, Option.map_eq_none_iff, List.getLast?_eq_none_iff, List.filter_eq_nil_iff]
  simp

/-- Among pairs with different keys each one is the last with its key. -/
theorem last_of_nodup {kvs : List (κ × ν)} (hkeys : (kvs.map Prod.fst).Nodup) {key : κ}
    {value : ν} : last kvs key = some value ↔ (key, value) ∈ kvs := by
  refine ⟨mem_of_last, fun hmem => ?_⟩
  induction kvs with
  | nil => cases hmem
  | cons kv kvs ih =>
      obtain ⟨hnot, hrest⟩ := List.nodup_cons.mp hkeys
      rw [last_cons]
      rcases List.mem_cons.mp hmem with rfl | hmem
      · have hnone : last kvs key = none :=
          last_eq_none_iff.mpr fun kv hkv heq => hnot (List.mem_map.mpr ⟨kv, hkv, heq⟩)
        rw [hnone, if_pos rfl, Option.none_or]
      · rw [ih hrest hmem, Option.some_or]

/-! ## The last element with a property -/

/-- The last element of a list with a property. -/
def IsLast {α : Type*} (p : α → Prop) (l : List α) (x : α) : Prop :=
  ∃ a b, l = a ++ x :: b ∧ p x ∧ ∀ y ∈ b, ¬ p y

theorem isLast_concat {α : Type*} {p : α → Prop} {l : List α} {x y : α} :
    IsLast p (l ++ [y]) x ↔ p y ∧ x = y ∨ ¬ p y ∧ IsLast p l x := by
  constructor
  · rintro ⟨a, b, hsplit, hx, hb⟩
    rcases List.eq_nil_or_concat' b with rfl | ⟨b, z, rfl⟩
    · obtain ⟨-, hlast⟩ := List.append_inj' hsplit rfl
      obtain rfl := (List.cons.inj hlast).1
      exact .inl ⟨hx, rfl⟩
    · rw [← List.cons_append, ← List.append_assoc] at hsplit
      obtain ⟨rfl, hlast⟩ := List.append_inj' hsplit rfl
      obtain rfl := (List.cons.inj hlast).1
      refine .inr ⟨hb _ (by simp), a, b, rfl, hx, fun w hw => hb w (by simp [hw])⟩
  · rintro (⟨hy, rfl⟩ | ⟨hy, a, b, rfl, hx, hb⟩)
    · exact ⟨l, [], rfl, hy, by simp⟩
    · refine ⟨a, b ++ [y], by simp, hx, fun w hw => ?_⟩
      rcases List.mem_append.mp hw with hw | hw
      · exact hb w hw
      · rwa [List.mem_singleton.mp hw]

theorem IsLast.mem {α : Type*} {p : α → Prop} {l : List α} {x : α} (h : IsLast p l x) :
    x ∈ l ∧ p x := by
  obtain ⟨a, b, rfl, hx, -⟩ := h
  exact ⟨by simp, hx⟩

/-- Where some elements give a pair, the value of a key is that of the last one that
gives a pair with it. -/
theorem last_filterMap {α : Type*} {g : α → Option (κ × ν)} {l : List α} {key : κ} {value : ν} :
    last (l.filterMap g) key = some value ↔
      ∃ x, IsLast (fun y => ∃ v, g y = some (key, v)) l x ∧ g x = some (key, value) := by
  induction l using List.reverseRecOn with
  | nil =>
      refine iff_of_false (by simp) ?_
      rintro ⟨x, hx, -⟩
      cases hx.mem.1
  | append_singleton l y ih =>
      rw [List.filterMap_append, last_append]
      simp only [isLast_concat]
      cases hy : g y with
      | none => simpa [hy] using ih
      | some kv =>
          obtain ⟨k, v⟩ := kv
          by_cases hkey : k = key
          · subst hkey
            simp [hy, last_cons]
          · simpa [hy, last_cons, hkey] using ih

/-! ## Operations on a map -/

/-- What operations leave in a place is what the last one that touches the place leaves
there. -/
theorem lookup_foldl {μ α β : Type*} {apply : μ → α → μ} (lookup : μ → β)
    (touch : α → Option β) (h : ∀ m a, lookup (apply m a) = (touch a).getD (lookup m)) (m : μ)
    (as : List α) :
    lookup (as.foldl apply m) = (as.filterMap touch).getLast?.getD (lookup m) := by
  induction as using List.reverseRecOn with
  | nil => rfl
  | append_singleton as a ih =>
      rw [List.foldl_append, List.foldl_cons, List.foldl_nil, h, ih, List.filterMap_append]
      cases htouch : touch a with
      | none => simp [htouch]
      | some left => simp [htouch]

/-! ## Storing a list of pairs -/

variable [Ord κ] [Std.TransOrd κ] [Std.LawfulEqOrd κ]

/-- The map holds the value of the last pair, or what it held before. -/
theorem getElem?_insertMany (m : Std.ExtTreeMap κ ν) (kvs : List (κ × ν)) (key : κ) :
    (m.insertMany kvs)[key]? = (last kvs key).or m[key]? := by
  induction kvs generalizing m with
  | nil => rw [Std.ExtTreeMap.insertMany_nil, last_nil, Option.none_or]
  | cons kv kvs ih =>
      rw [Std.ExtTreeMap.insertMany_cons, ih, last_cons, Option.or_assoc,
        Std.ExtTreeMap.getElem?_insert]
      by_cases hkey : kv.1 = key
      · rw [if_pos hkey, if_pos (by rw [hkey]; exact Std.ReflCmp.compare_self), Option.some_or]
      · rw [if_neg hkey, if_neg fun heq => hkey (Std.LawfulEqOrd.eq_of_compare heq),
          Option.none_or]

/-- From the empty map, exactly the last values are stored. -/
theorem getElem?_insertMany_empty (kvs : List (κ × ν)) (key : κ) :
    ((∅ : Std.ExtTreeMap κ ν).insertMany kvs)[key]? = last kvs key := by
  rw [getElem?_insertMany, Std.ExtTreeMap.getElem?_empty, Option.or_none]

/-- What is appended is laid over the rest. -/
theorem insertMany_append_eq_union (kvs kvs' : List (κ × ν)) :
    (∅ : Std.ExtTreeMap κ ν).insertMany (kvs ++ kvs') =
      (∅ : Std.ExtTreeMap κ ν).insertMany kvs ∪ (∅ : Std.ExtTreeMap κ ν).insertMany kvs' := by
  refine Std.ExtTreeMap.ext_getElem? fun key => ?_
  rw [Std.ExtTreeMap.getElem?_union, getElem?_insertMany_empty, getElem?_insertMany_empty,
    getElem?_insertMany_empty, last_append]

/-- Two lists store the same map when every key has the same last value in both. -/
theorem insertMany_eq_iff {kvs kvs' : List (κ × ν)} :
    (∅ : Std.ExtTreeMap κ ν).insertMany kvs = (∅ : Std.ExtTreeMap κ ν).insertMany kvs' ↔
      ∀ key, last kvs key = last kvs' key := by
  constructor
  · intro h key
    rw [← getElem?_insertMany_empty, h, getElem?_insertMany_empty]
  · intro h
    refine Std.ExtTreeMap.ext_getElem? fun key => ?_
    rw [getElem?_insertMany_empty, getElem?_insertMany_empty, h key]

/-- Pairs with different keys are stored in any order. -/
theorem insertMany_perm {kvs kvs' : List (κ × ν)} (hperm : kvs.Perm kvs')
    (hkeys : (kvs.map Prod.fst).Nodup) :
    (∅ : Std.ExtTreeMap κ ν).insertMany kvs = (∅ : Std.ExtTreeMap κ ν).insertMany kvs' := by
  have hkeys' : (kvs'.map Prod.fst).Nodup := (hperm.map Prod.fst).nodup_iff.mp hkeys
  refine insertMany_eq_iff.mpr fun key => Option.ext fun value => ?_
  rw [last_of_nodup hkeys, last_of_nodup hkeys', hperm.mem_iff]

/-- Two neighbours with different keys can change places, whatever the other pairs are. -/
theorem insertMany_swap (kv kv' : κ × ν) (hne : kv.1 ≠ kv'.1) (kvs kvs' : List (κ × ν)) :
    (∅ : Std.ExtTreeMap κ ν).insertMany (kvs ++ kv :: kv' :: kvs') =
      (∅ : Std.ExtTreeMap κ ν).insertMany (kvs ++ kv' :: kv :: kvs') := by
  refine insertMany_eq_iff.mpr fun key => ?_
  rw [last_append, last_append, last_cons, last_cons, last_cons, last_cons]
  by_cases hkey : kv.1 = key
  · have hkey' : ¬ kv'.1 = key := fun heq => hne (hkey.trans heq.symm)
    rw [if_neg hkey', Option.or_none, Option.or_none]
  · rw [if_neg hkey, Option.or_none, Option.or_none]

end LastWins
