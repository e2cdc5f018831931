import Mathlib.Algebra.BigOperators.Group.List.Basic
import Mathlib.Algebra.Ring.Nat
import Mathlib.Data.Nat.Basic

namespace LittleEndian

-- The `count` low bytes of a number, and the number of a run of bytes.
def encode : Nat → Nat → List UInt8
  | 0, _ => []
  | count + 1, n => .ofNat n :: encode count (n / 256)

def decode : List UInt8 → Nat
  | [] => 0
  | byte :: bytes => byte.toNat + 256 * decode bytes

-- A packed structure: the widths of its fields in bytes, with their values.
def layout (fields : List (Nat × Nat)) : List UInt8 :=
  fields.flatMap fun field => encode field.1 field.2

def width (fields : List (Nat × Nat)) : Nat := (fields.map Prod.fst).sum

-- A field at its offset in memory.
def read (memory : Nat → UInt8) (offset count : Nat) : Nat :=
  decode ((List.range count).map fun k => memory (offset + k))

@[simp] theorem length_encode (count n : Nat) : (encode count n).length = count := by
  induction count generalizing n with
  | zero => rfl
  | succ count ih => rw [encode, List.length_cons, ih]

@[simp] theorem length_layout (fields : List (Nat × Nat)) : (layout fields).length = width fields := by
  induction fields with
  | nil => rfl
  | cons field rest ih =>
      have hcons : layout (field :: rest) = encode field.1 field.2 ++ layout rest := List.flatMap_cons
      rw [hcons, List.length_append, length_encode, ih]
      simp [width]

theorem decode_encode (count n : Nat) : decode (encode count n) = n % 256 ^ count := by
  induction count generalizing n with
  | zero => rw [Nat.pow_zero, Nat.mod_one]; rfl
  | succ count ih =>
      have hsplit : n % 256 ^ (count + 1) = n % 256 + 256 * (n / 256 % 256 ^ count) := by
        rw [Nat.pow_succ', Nat.mod_mul]
      rw [encode, decode, ih, UInt8.toNat_ofNat', hsplit]

-- Memory that starts with a structure shows its fields at their offsets.
theorem read_layout {memory : Nat → UInt8} {stop : Nat} (front : List (Nat × Nat)) (count n : Nat)
    (back : List (Nat × Nat)) (rest : List UInt8)
    (hmemory : ∀ i < stop, (layout (front ++ (count, n) :: back) ++ rest)[i]? = some (memory i))
    (hstop : width front + count ≤ stop) : read memory (width front) count = n % 256 ^ count := by
  have hfield : (List.range count).map (fun k => memory (width front + k)) = encode count n := by
    apply List.ext_getElem (by simp)
    intro k hk hk'
    rw [length_encode] at hk'
    have hbyte := hmemory (width front + k) (by omega)
    have hsplit : layout (front ++ (count, n) :: back) ++ rest =
        layout front ++ (encode count n ++ (layout back ++ rest)) := by
      simp [layout, List.append_assoc]
    rw [hsplit, List.getElem?_append_right (by rw [length_layout]; omega), length_layout,
      Nat.add_sub_cancel_left, List.getElem?_append_left (by rw [length_encode]; omega),
      List.getElem?_eq_getElem (by rw [length_encode]; omega)] at hbyte
    simpa using (Option.some.inj hbyte).symm
  unfold read
  rw [hfield, decode_encode]

end LittleEndian
