import Mathlib.Data.BitVec

namespace BitFields

variable {w : Nat}

-- The bits of a register under a mask, and a register with the masked bits
-- replaced by a value.
def readBit (reg mask : BitVec w) : BitVec w := reg &&& mask
def modifyReg (reg clear set : BitVec w) : BitVec w := reg &&& ~~~clear ||| set

-- A value that lies in the bits of its field.
def Fits (value mask : BitVec w) : Prop := readBit value mask = value

instance (value mask : BitVec w) : Decidable (Fits value mask) :=
  inferInstanceAs (Decidable (readBit value mask = value))

structure Part (w : Nat) where
  mask : BitVec w
  value : BitVec w
  fits : Fits value mask

-- The disjunction of the values, as a register is composed of its fields.
def join (values : List (BitVec w)) : BitVec w := values.foldr (· ||| ·) 0#w

def Apart (masks : List (BitVec w)) : Prop := masks.Pairwise fun a b => readBit a b = 0#w

instance (masks : List (BitVec w)) : Decidable (Apart masks) :=
  inferInstanceAs (Decidable (masks.Pairwise fun a b => readBit a b = 0#w))

variable {reg value mask clear : BitVec w} {n : Nat}

theorem getLsbD_readBit (reg mask : BitVec w) (i : Nat) :
    (readBit reg mask).getLsbD i = (reg.getLsbD i && mask.getLsbD i) :=
  BitVec.getLsbD_and

theorem getLsbD_modifyReg {i : Nat} (hi : i < w) (reg clear set : BitVec w) :
    (modifyReg reg clear set).getLsbD i = ((reg.getLsbD i && !clear.getLsbD i) || set.getLsbD i) := by
  unfold modifyReg
  rw [BitVec.getLsbD_or, BitVec.getLsbD_and, BitVec.getLsbD_not]
  simp [hi]

theorem fits_readBit (reg mask : BitVec w) : Fits (readBit reg mask) mask := by
  unfold Fits readBit
  rw [BitVec.and_assoc, BitVec.and_self]

theorem fits_iff : Fits value mask ↔ ∀ i, value.getLsbD i = true → mask.getLsbD i = true := by
  constructor
  · intro h i hi
    rw [← h, getLsbD_readBit] at hi
    exact (Bool.and_eq_true_iff.mp hi).2
  · intro h
    apply BitVec.eq_of_getLsbD_eq
    intro i _
    rw [getLsbD_readBit]
    cases hbit : value.getLsbD i with
    | false => rfl
    | true => exact h i hbit

-- Reading a union of fields reads each of them.
theorem readBit_or (reg a b : BitVec w) : readBit reg (a ||| b) = readBit reg a ||| readBit reg b :=
  BitVec.and_or_distrib_left

theorem readBit_union (a b mask : BitVec w) : readBit (a ||| b) mask = readBit a mask ||| readBit b mask :=
  BitVec.and_or_distrib_right

-- A field of one's own reads as it is, one of another's as zero.
theorem Fits.readBit_apart {other : BitVec w} (h : Fits value mask) (hapart : readBit mask other = 0#w) :
    readBit value other = 0#w := by
  rw [← h]
  unfold readBit at hapart ⊢
  rw [BitVec.and_assoc, hapart, BitVec.and_zero]

theorem join_cons (value : BitVec w) (values : List (BitVec w)) :
    join (value :: values) = value ||| join values := rfl

theorem readBit_join_apart {parts : List (Part w)} (h : ∀ p ∈ parts, readBit p.mask mask = 0#w) :
    readBit (join (parts.map Part.value)) mask = 0#w := by
  induction parts with
  | nil => exact BitVec.zero_and
  | cons p parts ih =>
      obtain ⟨hp, hparts⟩ := List.forall_mem_cons.mp h
      rw [List.map_cons, join_cons, readBit_union, p.fits.readBit_apart hp, ih hparts, BitVec.zero_or]

-- Among fields that do not overlap every one is read back.
theorem readBit_join {parts : List (Part w)} (hapart : Apart (parts.map Part.mask)) {p : Part w}
    (hp : p ∈ parts) : readBit (join (parts.map Part.value)) p.mask = p.value := by
  have hcomm : ∀ a b : BitVec w, readBit a b = 0#w → readBit b a = 0#w := by
    intro a b h
    unfold readBit at h ⊢
    rw [BitVec.and_comm, h]
  induction parts with
  | nil => cases hp
  | cons q parts ih =>
      obtain ⟨hfirst, hrest⟩ := List.pairwise_cons.mp hapart
      rw [List.map_cons, join_cons, readBit_union]
      rcases List.mem_cons.mp hp with rfl | hmem
      · rw [p.fits, readBit_join_apart, BitVec.or_zero]
        intro r hr
        exact hcomm _ _ (hfirst r.mask (List.mem_map_of_mem hr))
      · rw [q.fits.readBit_apart (hfirst p.mask (List.mem_map_of_mem hmem)), ih hrest hmem, BitVec.zero_or]

-- A field inside the cleared bits is that of the new value.
theorem readBit_modifyReg (hmask : Fits mask clear) (reg set : BitVec w) :
    readBit (modifyReg reg clear set) mask = readBit set mask := by
  apply BitVec.eq_of_getLsbD_eq
  intro i hi
  rw [getLsbD_readBit, getLsbD_readBit, getLsbD_modifyReg hi]
  cases hbit : mask.getLsbD i with
  | false => rw [Bool.and_false, Bool.and_false]
  | true => rw [fits_iff.mp hmask i hbit, Bool.not_true, Bool.and_false, Bool.false_or]

theorem fits_of_mem_join {masks : List (BitVec w)} (h : Fits (join masks) clear) (hmask : mask ∈ masks) :
    Fits mask clear := by
  apply fits_iff.mpr
  intro i hi
  apply fits_iff.mp h i
  clear h
  induction masks with
  | nil => cases hmask
  | cons first masks ih =>
      rw [join_cons, BitVec.getLsbD_or, Bool.or_eq_true]
      rcases List.mem_cons.mp hmask with rfl | hrest
      · exact .inl hi
      · exact .inr (ih hrest)

-- Fields that are written together are read back one by one.
theorem readBit_modifyReg_join {parts : List (Part w)} (hapart : Apart (parts.map Part.mask))
    (hclear : Fits (join (parts.map Part.mask)) clear) (reg : BitVec w) :
    ∀ p ∈ parts, readBit (modifyReg reg clear (join (parts.map Part.value))) p.mask = p.value := by
  intro p hp
  rw [readBit_modifyReg (fits_of_mem_join hclear (List.mem_map_of_mem hp))]
  exact readBit_join hapart hp

theorem getLsbD_modifyReg_outside {i : Nat} {set : BitVec w} (hset : Fits set clear)
    (hclear : clear.getLsbD i = false) (reg : BitVec w) : (modifyReg reg clear set).getLsbD i = reg.getLsbD i := by
  by_cases hi : i < w
  · have hbit : set.getLsbD i ≠ true := by
      intro h
      rw [fits_iff.mp hset i h] at hclear
      cases hclear
    rw [getLsbD_modifyReg hi, hclear, Bool.eq_false_of_not_eq_true hbit, Bool.not_false, Bool.and_true,
      Bool.or_false]
  · have hle := Nat.le_of_not_lt hi
    rw [BitVec.getLsbD_of_ge _ i hle, BitVec.getLsbD_of_ge _ i hle]

theorem Fits.or {other mask' : BitVec w} (h : Fits value mask) (hother : Fits other mask') :
    Fits (value ||| other) (mask ||| mask') := by
  apply fits_iff.mpr
  intro i hi
  rw [BitVec.getLsbD_or, Bool.or_eq_true] at hi ⊢
  exact hi.imp (fits_iff.mp h i) (fits_iff.mp hother i)

-- Writing back what was read, with the bits of `changed` replaced.
theorem modifyReg_replace {kept changed : BitVec w} (hclear : readBit reg clear = readBit reg (kept ||| changed))
    (hkept : Fits kept clear) (hchanged : Fits changed clear) (hapart : readBit kept changed = 0#w)
    (value : BitVec w) :
    modifyReg reg clear (readBit reg kept ||| value) = modifyReg reg changed value := by
  apply BitVec.eq_of_getLsbD_eq
  intro i hi
  have hread := congrArg (fun bits => bits.getLsbD i) hclear
  have hdisjoint := congrArg (fun bits => bits.getLsbD i) hapart
  rw [getLsbD_readBit, getLsbD_readBit, BitVec.getLsbD_or] at hread
  rw [getLsbD_readBit, BitVec.getLsbD_zero] at hdisjoint
  have hin := fits_iff.mp hkept i
  have hout := fits_iff.mp hchanged i
  rw [getLsbD_modifyReg hi, getLsbD_modifyReg hi, BitVec.getLsbD_or, getLsbD_readBit, ← Bool.or_assoc]
  congr 1
  revert hread hdisjoint hin hout
  generalize reg.getLsbD i = r, clear.getLsbD i = c, kept.getLsbD i = k, changed.getLsbD i = d
  revert r c k d
  decide

-- Without a change the register stays as it is.
theorem modifyReg_readBit {kept : BitVec w} (hclear : readBit reg clear = readBit reg kept)
    (hkept : Fits kept clear) : modifyReg reg clear (readBit reg kept) = reg := by
  have hzero : Fits 0#w clear := BitVec.zero_and
  have hnone : readBit reg clear = readBit reg (kept ||| 0#w) := by rw [BitVec.or_zero, hclear]
  have hreplace := modifyReg_replace hnone hkept hzero BitVec.and_zero 0#w
  rw [BitVec.or_zero] at hreplace
  rw [hreplace]
  apply BitVec.eq_of_getLsbD_eq
  intro i hi
  simp [getLsbD_modifyReg hi]

theorem modifyReg_exact {kept : BitVec w} (h : clear = kept) (reg : BitVec w) :
    modifyReg reg clear (readBit reg kept) = reg := by
  subst h
  exact modifyReg_readBit rfl BitVec.and_self

-- A mask may have one bit more where that bit is clear.
theorem readBit_or_bit (h : reg.getLsbD n = false) (mask : BitVec w) :
    readBit reg (mask ||| 1#w <<< n) = readBit reg mask := by
  rw [readBit_or]
  have hbit : readBit reg (1#w <<< n) = 0#w := by
    unfold readBit
    rw [← BitVec.twoPow_eq, BitVec.and_twoPow, h, if_neg Bool.false_ne_true]
  rw [hbit, BitVec.or_zero]

-- A field that is stored shifted: its value, brought to its place and back.
theorem Fits.shiftLeft (h : Fits value mask) (n : Nat) : Fits (value <<< n) (mask <<< n) := by
  apply fits_iff.mpr
  intro i hi
  rw [BitVec.getLsbD_shiftLeft] at hi ⊢
  rw [Bool.and_eq_true] at hi ⊢
  exact ⟨hi.1, fits_iff.mp h _ hi.2⟩

theorem Fits.shiftLeft_ushiftRight (h : Fits value mask) (hmask : mask <<< n >>> n = mask) :
    value <<< n >>> n = value := by
  apply BitVec.eq_of_getLsbD_eq
  intro i _
  rw [BitVec.getLsbD_ushiftRight, BitVec.getLsbD_shiftLeft, Nat.add_sub_cancel_left]
  cases hbit : value.getLsbD i with
  | false => rw [Bool.and_false]
  | true =>
      have hroom := congrArg (fun bits => bits.getLsbD i) hmask
      rw [fits_iff.mp h i hbit, BitVec.getLsbD_ushiftRight, BitVec.getLsbD_shiftLeft] at hroom
      rw [Bool.and_true]
      exact (Bool.and_eq_true_iff.mp hroom).1

theorem fits_ushiftRight (h : Fits value (mask <<< n)) : Fits (value >>> n) mask := by
  apply fits_iff.mpr
  intro i hi
  rw [BitVec.getLsbD_ushiftRight] at hi
  have hbit := fits_iff.mp h _ hi
  rw [BitVec.getLsbD_shiftLeft, Nat.add_sub_cancel_left] at hbit
  exact (Bool.and_eq_true_iff.mp hbit).2

theorem ushiftRight_shiftLeft (h : Fits value (mask <<< n)) : value >>> n <<< n = value := by
  apply BitVec.eq_of_getLsbD_eq
  intro i hi
  rw [BitVec.getLsbD_shiftLeft, BitVec.getLsbD_ushiftRight]
  by_cases hlow : i < n
  · have hbit : value.getLsbD i ≠ true := by
      intro hset
      have hmask := fits_iff.mp h i hset
      rw [BitVec.getLsbD_shiftLeft] at hmask
      simp [hlow] at hmask
    simp [hlow, Bool.eq_false_of_not_eq_true hbit]
  · rw [Nat.add_sub_cancel' (Nat.le_of_not_lt hlow)]
    simp [hlow, hi]

-- A field of one bit is clear or set.
theorem fits_one (h : Fits value 1#w) : value = 0#w ∨ value = 1#w := by
  unfold Fits readBit at h
  rw [← BitVec.twoPow_zero, BitVec.and_twoPow] at h
  split at h
  · exact .inr (by rw [← h, BitVec.twoPow_zero])
  · exact .inl h.symm

end BitFields
