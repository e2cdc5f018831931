import Mathlib.Algebra.Ring.Int.Defs
import Mathlib.Algebra.Ring.Nat
import Mathlib.Data.Nat.Basic

namespace Carbon

-- Unsigned machine words are naturals. The wrap of the source's types is
-- written out wherever a sum or a difference can leave their range.
def uint32 (n : Nat) : Nat := n % 2 ^ 32

def uint64 (n : Nat) : Nat := n % 2 ^ 64

def uint32Sub (a b : Nat) : Nat := uint32 (a + (2 ^ 32 - b))

def uint32Not (n : Nat) : Nat := 2 ^ 32 - 1 - n

-- The int with the bits of an unsigned word.
def int32 (n : Nat) : Int := if uint32 n < 2 ^ 31 then (uint32 n : Int) else (uint32 n : Int) - 2 ^ 32

theorem uint32_of_lt {n : Nat} (h : n < 2 ^ 32) : uint32 n = n := Nat.mod_eq_of_lt h

theorem uint32_lt (n : Nat) : uint32 n < 2 ^ 32 := Nat.mod_lt _ (by decide)

@[simp] theorem int32_uint32 (n : Nat) : int32 (uint32 n) = int32 n := by
  unfold int32
  rw [uint32_of_lt (uint32_lt n)]

theorem int32_of_lt {n : Nat} (h : n < 2 ^ 31) : int32 n = n := by
  unfold int32
  rw [uint32_of_lt (by omega), if_pos h]

theorem uint32Sub_of_le {a b : Nat} (ha : a < 2 ^ 32) (hb : b ≤ a) : uint32Sub a b = a - b := by
  unfold uint32Sub uint32
  omega

end Carbon
