import Mathlib.Order.Interval.Finset.Nat

namespace Cyclic

-- Slots of a ring of m entries numbered by how often the ring was entered:
-- position i lies in slot i % m. A window is m consecutive positions.
theorem window_inj (m low : Nat) {i j : Nat} (hi : low ≤ i) (hi' : i < low + m)
    (hj : low ≤ j) (hj' : j < low + m) (h : i % m = j % m) : i = j :=
  Nat.mod_injOn_Ico low m (by simpa using ⟨hi, hi'⟩) (by simpa using ⟨hj, hj'⟩) h

theorem add_mod_eq (low d m : Nat) (hm : 0 < m) (hd : d ≤ m) :
    (low + d) % m = if low % m + d < m then low % m + d else low % m + d - m := by
  have hr : low % m < m := Nat.mod_lt _ hm
  have hsum : (low + d) % m = (low % m + d) % m := by simp [Nat.add_mod]
  rw [hsum]
  split
  · exact Nat.mod_eq_of_lt ‹_›
  · rw [Nat.mod_eq_sub_mod (by omega)]
    exact Nat.mod_eq_of_lt (by omega)

theorem succ_mod_eq (i n : Nat) :
    (i + 1) % (n + 1) = if i % (n + 1) < n then i % (n + 1) + 1 else 0 := by
  rw [add_mod_eq i 1 (n + 1) (by omega) (by omega)]
  have hr : i % (n + 1) < n + 1 := Nat.mod_lt _ (by omega)
  split_ifs <;> omega

-- The slots from head on, up to and not including tail, in a ring whose last
-- slot is n.
def Between (n head tail slot : Nat) : Prop :=
  if head ≤ tail then head ≤ slot ∧ slot < tail else head ≤ slot ∧ slot ≤ n ∨ slot < tail

instance (n head tail slot : Nat) : Decidable (Between n head tail slot) := by
  unfold Between; infer_instance

theorem position_exists (low m slot : Nat) (hslot : slot < m) :
    ∃ i, low ≤ i ∧ i < low + m ∧ i % m = slot := by
  have hr : low % m < m := Nat.mod_lt _ (by omega)
  by_cases h : low % m ≤ slot
  · refine ⟨low + (slot - low % m), by omega, by omega, ?_⟩
    rw [add_mod_eq _ _ _ (by omega) (by omega)]
    split <;> omega
  · refine ⟨low + (m + slot - low % m), by omega, by omega, ?_⟩
    rw [add_mod_eq _ _ _ (by omega) (by omega)]
    split <;> omega

theorem between_mod_iff {n low high : Nat} (hle : low ≤ high) (hn : high ≤ low + n) (slot : Nat) :
    Between n (low % (n + 1)) (high % (n + 1)) slot ↔
      ∃ i, low ≤ i ∧ i < high ∧ i % (n + 1) = slot := by
  have hr : low % (n + 1) < n + 1 := Nat.mod_lt _ (by omega)
  obtain ⟨d, rfl⟩ := Nat.exists_eq_add_of_le hle
  have hhigh := add_mod_eq low d (n + 1) (by omega) (by omega)
  constructor
  · intro h
    have hslot : slot < n + 1 := by
      unfold Between at h
      split_ifs at hhigh h <;> omega
    obtain ⟨i, hi, hi', rfl⟩ := position_exists low (n + 1) slot hslot
    refine ⟨i, hi, ?_, rfl⟩
    obtain ⟨k, rfl⟩ := Nat.exists_eq_add_of_le hi
    have hk := add_mod_eq low k (n + 1) (by omega) (by omega)
    unfold Between at h
    split_ifs at hhigh hk h <;> omega
  · rintro ⟨i, hi, hi', rfl⟩
    obtain ⟨k, rfl⟩ := Nat.exists_eq_add_of_le hi
    have hk := add_mod_eq low k (n + 1) (by omega) (by omega)
    unfold Between
    split_ifs at hhigh hk ⊢ <;> omega

-- What the two indices of a ring say about the number of entries in use: the high
-- one is ahead of the low one, or has gone round once more.
theorem distance_cases {n low high : Nat} (hle : low ≤ high) (hn : high ≤ low + n) :
    high % (n + 1) = low % (n + 1) + (high - low) ∨
      high % (n + 1) + (n + 1) = low % (n + 1) + (high - low) := by
  obtain ⟨d, rfl⟩ := Nat.exists_eq_add_of_le hle
  have hhigh := add_mod_eq low d (n + 1) (by omega) (by omega)
  have hr : low % (n + 1) < n + 1 := Nat.mod_lt _ (by omega)
  split_ifs at hhigh <;> omega

theorem distance_of_lt {n low high : Nat} (hle : low ≤ high) (hn : high ≤ low + n)
    (h : low % (n + 1) < high % (n + 1)) : high % (n + 1) - low % (n + 1) = high - low := by
  rcases distance_cases hle hn with hdistance | hdistance <;> omega

theorem distance_of_gt {n low high : Nat} (hle : low ≤ high) (hn : high ≤ low + n)
    (h : high % (n + 1) < low % (n + 1)) :
    low % (n + 1) - high % (n + 1) = n + 1 - (high - low) := by
  rcases distance_cases hle hn with hdistance | hdistance <;> omega

theorem eq_of_mod_eq {n low high : Nat} (hle : low ≤ high) (hn : high ≤ low + n)
    (h : low % (n + 1) = high % (n + 1)) : low = high :=
  window_inj (n + 1) low (Nat.le_refl low) (by omega) hle (by omega) h

end Cyclic
