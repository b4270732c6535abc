import Mathlib.Data.Int.CardIntervalMod

/-!
# Taking turns

Places `0`, …, `n - 1` are taken in turn, from any place on and for any number of turns
(`window`).  Every place comes up equally often, as far as the number of turns allows
(`count_window`), and no place comes up twice within `n` turns (`nodup_window`).
-/

namespace RoundRobin

/-- The places of some turns. -/
def window (n start turns : Nat) : List Nat := (List.range turns).map fun i => (start + i) % n

@[simp] theorem length_window (n start turns : Nat) : (window n start turns).length = turns := by
  rw [window, List.length_map, List.length_range]

@[simp] theorem window_zero (n start : Nat) : window n start 0 = [] := rfl

/-- The first turn, and the others from the next place on. -/
theorem window_succ (n start turns : Nat) :
    window n start (turns + 1) = start % n :: window n ((start + 1) % n) turns := by
  rw [window, List.range_succ_eq_map, List.map_cons, List.map_map]
  refine congrArg₂ List.cons rfl (List.map_congr_left fun i _ => ?_)
  rw [Function.comp_apply, Nat.mod_add_mod, Nat.succ_eq_add_one, Nat.add_assoc, Nat.add_comm 1 i]

theorem window_take {n start turns k : Nat} (hk : k ≤ turns) :
    (window n start turns).take k = window n start k := by
  rw [window, window, ← List.map_take, List.take_range, Nat.min_eq_left hk]

theorem lt_of_mem_window {n start turns place : Nat} (hn : 0 < n)
    (h : place ∈ window n start turns) : place < n := by
  obtain ⟨i, -, rfl⟩ := List.mem_map.mp h
  exact Nat.mod_lt _ hn

/-- A turn takes a place when it is as far from the first turn as the place is. -/
theorem turn_iff {n start place i : Nat} (hplace : place < n) :
    (start + i) % n = place ↔ i ≡ place + (n - start % n) [MOD n] := by
  have hstart : start % n < n := Nat.mod_lt _ (Nat.lt_of_le_of_lt (Nat.zero_le _) hplace)
  have hback : start + (place + (n - start % n)) ≡ place [MOD n] := by
    have hsum : start + (place + (n - start % n)) = place + n * (start / n + 1) := by
      have hdiv := Nat.div_add_mod start n
      rw [Nat.mul_add, Nat.mul_one]
      omega
    rw [hsum]
    exact Nat.modEq_iff_dvd.mpr ⟨-((start / n + 1 : Nat) : Int), by push_cast; ring⟩
  constructor
  · intro h
    have hturn : start + i ≡ start + (place + (n - start % n)) [MOD n] :=
      (show start + i ≡ place [MOD n] by rw [Nat.ModEq, h, Nat.mod_eq_of_lt hplace]).trans
        hback.symm
    exact Nat.ModEq.add_left_cancel' start hturn
  · intro h
    have hturn := (h.add_left start).trans hback
    rwa [Nat.ModEq, Nat.mod_eq_of_lt hplace] at hturn

/-- How often a place comes up. -/
theorem count_window {n place : Nat} (hplace : place < n) (start turns : Nat) :
    (window n start turns).count place =
      turns / n + if (place + (n - start % n)) % n < turns % n then 1 else 0 := by
  have hn : 0 < n := Nat.lt_of_le_of_lt (Nat.zero_le _) hplace
  rw [← Nat.count_modEq_card turns hn, window, List.count_eq_countP, List.countP_map, Nat.count]
  refine List.countP_congr fun i _ => ?_
  rw [Function.comp_apply, beq_iff_eq, decide_eq_true_iff]
  exact turn_iff hplace

/-- Every place comes up `turns / n` times, rounded down or up. -/
theorem count_window_cases {n place : Nat} (hplace : place < n) (start turns : Nat) :
    (window n start turns).count place = turns / n ∨
      (window n start turns).count place = (turns + n - 1) / n := by
  have hn : 0 < n := Nat.lt_of_le_of_lt (Nat.zero_le _) hplace
  rw [count_window hplace]
  split_ifs with hrest
  · refine .inr ?_
    have hup : turns + n - 1 = (turns % n - 1) + n * (turns / n + 1) := by
      have hdiv := Nat.div_add_mod turns n
      rw [Nat.mul_add, Nat.mul_one]
      omega
    have hlt : turns % n - 1 < n := by
      have hmod := Nat.mod_lt turns hn
      omega
    rw [hup, Nat.add_mul_div_left _ _ hn, Nat.div_eq_of_lt hlt, Nat.zero_add]
  · exact .inl (Nat.add_zero _)

/-- Within `n` turns no place comes up twice. -/
theorem nodup_window {n start turns : Nat} (h : turns ≤ n) : (window n start turns).Nodup := by
  refine List.nodup_range.map_on fun i hi j hj hij => ?_
  have hi := List.mem_range.mp hi
  have hj := List.mem_range.mp hj
  have hmod : i ≡ j [MOD n] := Nat.ModEq.add_left_cancel' start hij
  rwa [Nat.ModEq, Nat.mod_eq_of_lt (by omega), Nat.mod_eq_of_lt (by omega)] at hmod

end RoundRobin
