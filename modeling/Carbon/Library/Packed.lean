import Mathlib.Data.Nat.Basic
import Mathlib.Logic.Function.Basic

namespace Packed

-- A bitmap packed into bytes: bit i is bit i % 8 of byte i / 8.
def bit (bytes : Nat → BitVec 8) (i : Nat) : Bool :=
  (bytes (i / 8)).getLsbD (i % 8)

def single (i : Nat) : BitVec 8 := 1#8 <<< (i % 8)

-- The bits of a byte from i % 8 upwards, and those up to i % 8.
def upward (i : Nat) : BitVec 8 := 0xFF#8 <<< (i % 8)
def downward (i : Nat) : BitVec 8 := 0xFF#8 >>> (7 - i % 8)

def orAt (bytes : Nat → BitVec 8) (k : Nat) (mask : BitVec 8) : Nat → BitVec 8 :=
  Function.update bytes k (bytes k ||| mask)

def andAt (bytes : Nat → BitVec 8) (k : Nat) (mask : BitVec 8) : Nat → BitVec 8 :=
  Function.update bytes k (bytes k &&& mask)

-- The loop that stores 0xFF into the bytes lo, lo + 1, ..., hi - 1.
def fill (bytes : Nat → BitVec 8) (lo hi : Nat) : Nat → BitVec 8 :=
  (List.range' lo (hi - lo)).foldl (fun b i => Function.update b i 0xFF#8) bytes

theorem index_eq_iff (i j : Nat) : i = j ↔ i / 8 = j / 8 ∧ i % 8 = j % 8 := by
  omega

theorem getLsbD_full (k : Nat) : (0xFF#8).getLsbD k = decide (k < 8) :=
  BitVec.getLsbD_allOnes

theorem getLsbD_single (i k : Nat) : (single i).getLsbD k = decide (k = i % 8) := by
  have hi : i % 8 < 8 := Nat.mod_lt _ (by decide)
  simp only [single, BitVec.getLsbD_shiftLeft, BitVec.getLsbD_one]
  by_cases h : k = i % 8
  · simp [h, hi]
  · simp only [h, decide_false]
    by_cases hk : k < i % 8
    · simp [hk]
    · have : k - i % 8 ≠ 0 := by omega
      simp [this]

theorem getLsbD_upward (i k : Nat) : (upward i).getLsbD k = decide (i % 8 ≤ k ∧ k < 8) := by
  simp only [upward, BitVec.getLsbD_shiftLeft, getLsbD_full]
  rw [← decide_not, ← Bool.decide_and, ← Bool.decide_and]
  exact decide_eq_decide.mpr (by omega)

theorem getLsbD_downward (i k : Nat) : (downward i).getLsbD k = decide (k ≤ i % 8) := by
  simp only [downward, BitVec.getLsbD_ushiftRight, getLsbD_full]
  have hi : i % 8 < 8 := Nat.mod_lt _ (by decide)
  exact decide_eq_decide.mpr (by omega)

theorem bit_update (bytes : Nat → BitVec 8) (k : Nat) (byte : BitVec 8) (j : Nat) :
    bit (Function.update bytes k byte) j =
      if j / 8 = k then byte.getLsbD (j % 8) else bit bytes j := by
  unfold bit
  by_cases h : j / 8 = k <;> simp [h]

theorem bit_orAt (bytes : Nat → BitVec 8) (k : Nat) (mask : BitVec 8) (j : Nat) :
    bit (orAt bytes k mask) j = (bit bytes j || (decide (j / 8 = k) && mask.getLsbD (j % 8))) := by
  rw [orAt, bit_update]
  by_cases h : j / 8 = k
  · subst h; simp [bit]
  · simp [h]

@[simp] theorem bit_set (bytes : Nat → BitVec 8) (i j : Nat) :
    bit (orAt bytes (i / 8) (single i)) j = (decide (j = i) || bit bytes j) := by
  rw [bit_orAt, getLsbD_single, Bool.or_comm]
  congr 1
  rw [← Bool.decide_and]
  exact decide_eq_decide.mpr (index_eq_iff j i).symm

@[simp] theorem bit_clear (bytes : Nat → BitVec 8) (i j : Nat) :
    bit (andAt bytes (i / 8) (~~~ single i)) j = (bit bytes j && decide (j ≠ i)) := by
  have hj : j % 8 < 8 := Nat.mod_lt _ (by decide)
  rw [andAt, bit_update]
  by_cases h : j / 8 = i / 8
  · simp only [h, ite_true, BitVec.getLsbD_and, BitVec.getLsbD_not, getLsbD_single, hj, decide_true,
      Bool.true_and, bit]
    have : (j = i) ↔ (j % 8 = i % 8) := by omega
    simp [this]
  · have : j ≠ i := by rintro rfl; exact h rfl
    simp [h, this]

-- The masked test of the source: a bit is clear when the masked byte is zero.
theorem and_single_eq_zero (bytes : Nat → BitVec 8) (i : Nat) :
    bytes (i / 8) &&& single i = 0#8 ↔ bit bytes i = false := by
  constructor
  · intro h
    have hb := congrArg (fun byte => byte.getLsbD (i % 8)) h
    simpa [getLsbD_single, bit] using hb
  · intro h
    apply BitVec.eq_of_getLsbD_eq
    intro k _
    simp only [BitVec.getLsbD_and, getLsbD_single, BitVec.getLsbD_zero]
    by_cases hk : k = i % 8
    · subst hk
      simpa [bit] using h
    · simp [hk]

theorem fill_succ (bytes : Nat → BitVec 8) (lo n : Nat) :
    fill bytes lo (lo + (n + 1)) = Function.update (fill bytes lo (lo + n)) (lo + n) 0xFF#8 := by
  simp only [fill, Nat.add_sub_cancel_left, List.range'_concat, List.foldl_append,
    List.foldl_cons, List.foldl_nil, Nat.one_mul]

@[simp] theorem bit_fill (bytes : Nat → BitVec 8) (lo hi j : Nat) :
    bit (fill bytes lo hi) j = (decide (lo ≤ j / 8 ∧ j / 8 < hi) || bit bytes j) := by
  by_cases hle : lo ≤ hi
  · obtain ⟨n, rfl⟩ := Nat.exists_eq_add_of_le hle
    clear hle
    induction n with
    | zero =>
        have hnone : decide (lo ≤ j / 8 ∧ j / 8 < lo + 0) = false := decide_eq_false (by omega)
        rw [hnone, Bool.false_or]
        unfold fill
        rw [Nat.add_zero, Nat.sub_self]
        rfl
    | succ n ih =>
        rw [fill_succ, bit_update, ih, getLsbD_full]
        by_cases h : j / 8 = lo + n
        · have hj : j % 8 < 8 := Nat.mod_lt _ (by decide)
          simp [h, hj]
        · have : (lo ≤ j / 8 ∧ j / 8 < lo + n) ↔ (lo ≤ j / 8 ∧ j / 8 < lo + (n + 1)) := by omega
          simp [h, this]
  · have hn : hi - lo = 0 := by omega
    have : ¬(lo ≤ j / 8 ∧ j / 8 < hi) := by omega
    simp [fill, hn, this]

end Packed
