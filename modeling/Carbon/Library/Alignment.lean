import Mathlib.Algebra.Ring.Nat
import Mathlib.Data.Nat.Basic

namespace Alignment

-- The least multiple of `a` that is not below `n`.
def alignUp (n a : Nat) : Nat := (n + (a - 1)) / a * a

theorem dvd_alignUp (n a : Nat) : a ∣ alignUp n a := Nat.dvd_mul_left _ _

theorem le_alignUp (n : Nat) {a : Nat} (ha : 0 < a) : n ≤ alignUp n a := by
  have hdiv := Nat.div_add_mod (n + (a - 1)) a
  have hmod := Nat.mod_lt (n + (a - 1)) ha
  rw [Nat.mul_comm] at hdiv
  unfold alignUp
  omega

theorem alignUp_le {n m a : Nat} (ha : 0 < a) (hm : a ∣ m) (h : n ≤ m) : alignUp n a ≤ m := by
  obtain ⟨q, rfl⟩ := hm
  have hlt : (n + (a - 1)) / a < q + 1 := by
    rw [Nat.div_lt_iff_lt_mul ha, Nat.add_mul, Nat.one_mul, Nat.mul_comm q]
    omega
  unfold alignUp
  rw [Nat.mul_comm a]
  exact Nat.mul_le_mul_right a (by omega)

theorem alignUp_of_dvd {n a : Nat} (ha : 0 < a) (hn : a ∣ n) : alignUp n a = n :=
  Nat.le_antisymm (alignUp_le ha hn (Nat.le_refl n)) (le_alignUp n ha)

theorem alignUp_pos {n a : Nat} (ha : 0 < a) (hn : 0 < n) : 0 < alignUp n a :=
  Nat.lt_of_lt_of_le hn (le_alignUp n ha)

theorem alignUp_eq_self_iff {n a : Nat} (ha : 0 < a) (hn : 0 < n) : alignUp n a = a ↔ n ≤ a := by
  constructor
  · intro h
    exact h ▸ le_alignUp n ha
  · intro h
    exact Nat.le_antisymm (alignUp_le ha (Nat.dvd_refl a) h)
      (Nat.le_of_dvd (alignUp_pos ha hn) (dvd_alignUp n a))

-- Clearing the low k bits of a word of w bits with the complement of their mask.
theorem and_mask {x k w : Nat} (hx : x < 2 ^ w) (hk : k ≤ w) :
    x &&& (2 ^ w - 1 - (2 ^ k - 1)) = x / 2 ^ k * 2 ^ k := by
  have hmask : 2 ^ k - 1 < 2 ^ w := by
    have := Nat.pow_le_pow_right (n := 2) (by decide) hk
    have := Nat.two_pow_pos k
    omega
  have hsub : 2 ^ w - 1 - (2 ^ k - 1) = 2 ^ w - (2 ^ k - 1 + 1) := by omega
  apply Nat.eq_of_testBit_eq
  intro i
  rw [hsub, Nat.testBit_and, Nat.testBit_two_pow_sub_succ hmask, Nat.testBit_two_pow_sub_one,
    Nat.testBit_mul_two_pow, Nat.testBit_div_two_pow]
  by_cases hi : k ≤ i
  · rw [show i - k + k = i by omega]
    by_cases hw : i < w
    · simp [hi, hw, Nat.not_lt.mpr hi]
    · have hhigh : x.testBit i = false := Nat.testBit_lt_two_pow
        (Nat.lt_of_lt_of_le hx (Nat.pow_le_pow_right (by decide) (by omega)))
      simp [hhigh]
  · simp [hi, Nat.not_le.mp hi]

-- The usual rounding (n + a - 1) & ~(a - 1) on words of w bits: it is exact
-- unless the sum wraps, and then nothing is left of it.
theorem round_word {n k w : Nat} (hn : n < 2 ^ w) (hk : k < w) :
    (n + (2 ^ k - 1)) % 2 ^ w &&& (2 ^ w - 1 - (2 ^ k - 1)) =
      if n + (2 ^ k - 1) < 2 ^ w then alignUp n (2 ^ k) else 0 := by
  have hpow : 2 ^ k < 2 ^ w := Nat.pow_lt_pow_right (by decide) hk
  have hpos := Nat.two_pow_pos k
  rw [and_mask (Nat.mod_lt _ (Nat.two_pow_pos w)) (Nat.le_of_lt hk)]
  split
  · rename_i hlt
    rw [Nat.mod_eq_of_lt hlt]
    rfl
  · rename_i hge
    rw [Nat.mod_eq_sub_mod (by omega), Nat.mod_eq_of_lt (by omega), Nat.div_eq_of_lt (by omega),
      Nat.zero_mul]

end Alignment
