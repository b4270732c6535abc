import Fion.Data.RoundRobin
import Fion.Network.PoolManager

/-!
# Pools in turn

The class `PoolManager` with its list of pools and the index of the next one.  Pools are
added between the calls of `get_pool`, so the index may have been reduced modulo a smaller
number of pools than there are now.  It is a place of the list all the same (`Inv`), and
consecutive calls take the pools in turn from there (`getPools_eq`).  What follows for
their numbers is a fact about taking turns (`fair`).

`addPool` and `getPool` hold the mutex, so calls of several threads are one list of calls.
-/

namespace Fion.Network

open RoundRobin (window)

/-- The class `PoolManager`; a pool is what `add_pool` was given. -/
structure PoolManager (α : Type) where
  pools : List α := []
  nextPoolIndex : Nat := 0

namespace PoolManager

variable {α : Type}

/-- `add_pool`. -/
def addPool (s : PoolManager α) (pool : α) : PoolManager α := { s with pools := s.pools ++ [pool] }

/-- `get_pool`: the index and the pool it returns, or null. -/
def getPool (s : PoolManager α) : Option (Nat × α) × PoolManager α :=
  if h : 0 < s.pools.length then
    let index := s.nextPoolIndex % s.pools.length
    (some (index, s.pools.get ⟨index, Nat.mod_lt _ h⟩),
      { s with nextPoolIndex := (s.nextPoolIndex + 1) % s.pools.length })
  else (none, s)

/-- A call of the public interface. -/
inductive Call (α : Type) where
  | addPool (pool : α)
  | getPool

/-- The state behind a call. -/
def next (s : PoolManager α) : Call α → PoolManager α
  | .addPool pool => s.addPool pool
  | .getPool => s.getPool.2

/-- Consecutive calls of `get_pool`. -/
def getPools (s : PoolManager α) : Nat → List (Option (Nat × α)) × PoolManager α
  | 0 => ([], s)
  | calls + 1 =>
    let (result, s') := s.getPool
    let (results, s'') := s'.getPools calls
    (result :: results, s'')

/-! ## The index -/

/-- The index is a place of the list, as soon as there is one. -/
def Inv (s : PoolManager α) : Prop :=
  s.nextPoolIndex < s.pools.length ∨ s.pools = [] ∧ s.nextPoolIndex = 0

theorem inv_init : Inv ({} : PoolManager α) := .inr ⟨rfl, rfl⟩

theorem getPool_of_pos {s : PoolManager α} (h : 0 < s.pools.length) :
    s.getPool = (some (s.nextPoolIndex % s.pools.length,
        s.pools.get ⟨s.nextPoolIndex % s.pools.length, Nat.mod_lt _ h⟩),
      { s with nextPoolIndex := (s.nextPoolIndex + 1) % s.pools.length }) := dif_pos h

/-- Without a pool the call returns null and changes nothing. -/
theorem getPool_of_nil {s : PoolManager α} (h : s.pools = []) : s.getPool = (none, s) :=
  dif_neg (by simp [h])

/-- A longer list keeps its places. -/
theorem inv_addPool {s : PoolManager α} (h : Inv s) (pool : α) : Inv (s.addPool pool) := by
  refine .inl ?_
  show s.nextPoolIndex < (s.pools ++ [pool]).length
  rw [List.length_append, List.length_singleton]
  rcases h with hlt | ⟨-, hzero⟩
  · exact Nat.lt_succ_of_lt hlt
  · rw [hzero]
    exact Nat.succ_pos _

theorem inv_getPool {s : PoolManager α} (h : Inv s) : Inv s.getPool.2 := by
  by_cases hpools : s.pools = []
  · rw [getPool_of_nil hpools]
    exact h
  · have hpos := List.length_pos_iff.mpr hpools
    rw [getPool_of_pos hpos]
    exact .inl (Nat.mod_lt _ hpos)

theorem inv_next {s : PoolManager α} (h : Inv s) (call : Call α) : Inv (s.next call) := by
  cases call with
  | addPool pool => exact inv_addPool h pool
  | getPool => exact inv_getPool h

/-- The index is a place of the list after any calls. -/
theorem inv_run {s : PoolManager α} (h : Inv s) (calls : List (Call α)) :
    Inv (calls.foldl next s) := by
  induction calls generalizing s with
  | nil => exact h
  | cons call calls ih => exact ih (inv_next h call)

/-! ## Consecutive calls -/

theorem pools_getPool (s : PoolManager α) : s.getPool.2.pools = s.pools := by
  by_cases hpools : s.pools = []
  · rw [getPool_of_nil hpools]
  · rw [getPool_of_pos (List.length_pos_iff.mpr hpools)]

/-- The calls take the pools in turn, and each one returns the pool at its index. -/
theorem getPools_eq {s : PoolManager α} (hpools : s.pools ≠ []) (calls : Nat) :
    (s.getPools calls).1.map (Option.map Prod.fst) =
        (window s.pools.length s.nextPoolIndex calls).map some ∧
      ∀ index pool, some (index, pool) ∈ (s.getPools calls).1 → s.pools[index]? = some pool := by
  have hpos := List.length_pos_iff.mpr hpools
  induction calls generalizing s with
  | zero => exact ⟨rfl, by simp [getPools]⟩
  | succ calls ih =>
      have hsame := pools_getPool s
      have hrest := ih (s := s.getPool.2) (by rwa [hsame]) (by rwa [hsame])
      rw [hsame] at hrest
      simp only [getPools, getPool_of_pos hpos] at hrest ⊢
      refine ⟨?_, fun index pool hmem => ?_⟩
      · rw [List.map_cons, hrest.1, RoundRobin.window_succ, List.map_cons]
        rfl
      · rcases List.mem_cons.mp hmem with hfirst | hlater
        · obtain ⟨rfl, rfl⟩ := Prod.mk.inj (Option.some.inj hfirst)
          exact List.getElem?_eq_getElem _
        · exact hrest.2 index pool hlater

/-- The state behind consecutive calls. -/
theorem getPools_snd (s : PoolManager α) (calls : Nat) :
    (s.getPools calls).2 = (List.replicate calls Call.getPool).foldl next s := by
  induction calls generalizing s with
  | zero => rfl
  | succ calls ih => exact ih s.getPool.2

/-- After any calls of `add_pool` and `get_pool`, the index is a place of the list, a call
of `get_pool` returns the pool at its index, and without a pool it returns null and changes
nothing.  Any number of consecutive calls then selects every pool equally often, rounded
down or up, and no pool twice among the first ones. -/
theorem fair (calls : List (Call α)) :
    let s : PoolManager α := calls.foldl next {}
    (s.pools = [] → s.getPool = (none, s)) ∧
    (s.pools ≠ [] → s.nextPoolIndex < s.pools.length) ∧
    (∀ index pool, s.getPool.1 = some (index, pool) →
      index < s.pools.length ∧ s.pools[index]? = some pool) ∧
    (s.pools ≠ [] → ∀ m : Nat, ∃ indices : List Nat,
      (s.getPools m).1.map (Option.map Prod.fst) = indices.map some ∧
        (s.getPools m).2 = (List.replicate m Call.getPool).foldl next s ∧
        (∀ index pool, some (index, pool) ∈ (s.getPools m).1 → s.pools[index]? = some pool) ∧
        (∀ place < s.pools.length, indices.count place = m / s.pools.length ∨
          indices.count place = (m + s.pools.length - 1) / s.pools.length) ∧
        (indices.take s.pools.length).Nodup) := by
  intro s
  have hinv : Inv s := inv_run inv_init calls
  refine ⟨getPool_of_nil, fun hpools => hinv.resolve_right fun h => hpools h.1,
    fun index pool hget => ?_, fun hpools m => ?_⟩
  · by_cases hpools : s.pools = []
    · rw [getPool_of_nil hpools] at hget
      cases hget
    · have hpos := List.length_pos_iff.mpr hpools
      rw [getPool_of_pos hpos] at hget
      obtain ⟨rfl, rfl⟩ := Prod.mk.inj (Option.some.inj hget)
      exact ⟨Nat.mod_lt _ hpos, List.getElem?_eq_getElem _⟩
  · obtain ⟨hindices, hselected⟩ := getPools_eq hpools m
    refine ⟨window s.pools.length s.nextPoolIndex m, hindices, getPools_snd s m, hselected,
      fun place hplace => RoundRobin.count_window_cases hplace _ _, ?_⟩
    rcases Nat.le_total s.pools.length m with hle | hle
    · rw [RoundRobin.window_take hle]
      exact RoundRobin.nodup_window (Nat.le_refl _)
    · exact (RoundRobin.nodup_window hle).sublist (List.take_sublist _ _)

end PoolManager

/-! ## The pool manager of a server -/

/-- The pool manager of a server, with the phases of its pools. -/
def BalancedServer.poolManager (s : BalancedServer) : PoolManager Thread :=
  ⟨s.pools, s.nextPoolIndex⟩

/-- The server chooses as its pool manager does. -/
theorem BalancedServer.getPool_poolManager (s : BalancedServer) :
    s.getPool.1 = s.poolManager.getPool.1.map Prod.fst ∧
      s.getPool.2.poolManager = s.poolManager.getPool.2 := by
  by_cases hpools : s.pools = []
  · rw [PoolManager.getPool_of_nil (s := s.poolManager) hpools, getPool, if_pos hpools]
    exact ⟨rfl, rfl⟩
  · have hpos : 0 < s.poolManager.pools.length := List.length_pos_iff.mpr hpools
    rw [PoolManager.getPool_of_pos hpos, getPool, if_neg hpools]
    exact ⟨rfl, rfl⟩

end Fion.Network
