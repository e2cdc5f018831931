import Carbon.Library.Alignment
import Carbon.Word

namespace Carbon

-- The template arguments of MemoryAllocatorRaw.
structure BlockType where
  blockSize : Nat
  alignment : Nat
  blockSize_pos : 0 < blockSize
  blockSize_lt : blockSize < 2 ^ 32
  alignment_pow : ∃ k < 32, alignment = 2 ^ k

-- The region a pool is built in, with its last byte inside the address space.
structure Region where
  startAddress : Nat
  size : Nat
  start_lt : startAddress < 2 ^ 32
  size_lt : size < 2 ^ 32
  no_wrap : startAddress + size ≤ 2 ^ 32

structure MemoryAllocatorRaw where
  sizeTotalBytes : Nat
  alignedBlockSize : Nat
  startAddress : Nat
  firstAlignedAddress : Nat
  alignedAddress : Nat
  nAlignedElements : Nat

namespace MemoryAllocatorRaw

def alignBlockSize (value memAlignment : Nat) : Nat :=
  uint32 (value + memAlignment - 1) &&& uint32Not (memAlignment - 1)

def alignAddress (address memAlignment : Nat) : Nat :=
  uint32 (address + (memAlignment - 1)) &&& uint32Not (memAlignment - 1)

-- A division by zero gives zero, as the divide instruction of the core does.
def getNumberOfElements (address bufferSize objectSize memAlignment : Nat) : Nat :=
  let startAddr := alignAddress address memAlignment
  let objectSizeAligned := alignBlockSize objectSize memAlignment
  let endAddr :=
    if startAddr < uint32 (address + bufferSize) then uint32 (address + bufferSize) else startAddr
  (endAddr - startAddr) / objectSizeAligned

variable (t : BlockType)

def init (region : Region) : MemoryAllocatorRaw where
  sizeTotalBytes := region.size
  startAddress := region.startAddress
  alignedBlockSize := alignBlockSize t.blockSize t.alignment
  firstAlignedAddress := alignAddress region.startAddress t.alignment
  alignedAddress := alignAddress region.startAddress t.alignment
  nAlignedElements :=
    getNumberOfElements region.startAddress region.size t.blockSize t.alignment

variable (m : MemoryAllocatorRaw)

def endAddress : Nat := uint32 (m.startAddress + m.sizeTotalBytes)

def interateBlock : Option Nat × MemoryAllocatorRaw :=
  if m.endAddress ≤ m.alignedAddress then (none, m)
  else
    let block := alignAddress m.alignedAddress t.alignment
    (some block, { m with alignedAddress := uint32 (block + m.alignedBlockSize) })

def getBlock (index : Nat) : Option Nat :=
  let block := uint32 (m.firstAlignedAddress + index * m.alignedBlockSize)
  if m.endAddress ≤ block then none else some block

def blockBelongs (block : Nat) : Bool :=
  decide (m.startAddress ≤ block) &&
    decide (block < uint32 (m.firstAlignedAddress + m.alignedBlockSize * m.nAlignedElements)) &&
    decide (block = alignAddress block t.alignment)

def reset : MemoryAllocatorRaw := { m with alignedAddress := m.firstAlignedAddress }

-- The results of `calls` calls of interateBlock in a row, and what is left.
def interate (m : MemoryAllocatorRaw) : Nat → List (Option Nat) × MemoryAllocatorRaw
  | 0 => ([], m)
  | calls + 1 =>
      let (block, m) := m.interateBlock t
      let (blocks, m) := interate m calls
      (block :: blocks, m)

end MemoryAllocatorRaw

namespace BlockType

open Alignment

variable (t : BlockType)

theorem alignment_pos : 0 < t.alignment := by
  obtain ⟨k, -, hk⟩ := t.alignment_pow
  exact hk ▸ Nat.two_pow_pos k

theorem alignment_dvd : t.alignment ∣ 2 ^ 32 := by
  obtain ⟨k, hlt, hk⟩ := t.alignment_pow
  exact hk ▸ Nat.pow_dvd_pow 2 (Nat.le_of_lt hlt)

theorem alignment_le : t.alignment ≤ 2 ^ 31 := by
  obtain ⟨k, hlt, hk⟩ := t.alignment_pow
  exact hk ▸ Nat.pow_le_pow_right (by decide) (by omega)

-- An aligned address leaves room for one more unit of the alignment.
theorem add_alignment_le {address : Nat} (h : address < 2 ^ 32) (hdvd : t.alignment ∣ address) :
    address + t.alignment ≤ 2 ^ 32 := by
  obtain ⟨q, hq⟩ := hdvd
  obtain ⟨r, hr⟩ := t.alignment_dvd
  rw [hq, hr] at h
  have hmul := Nat.mul_le_mul_left t.alignment (Nat.lt_of_mul_lt_mul_left h)
  rw [Nat.mul_succ] at hmul
  omega

-- The padded block size as a number, and the aligned start of a region.
def paddedSize : Nat := alignUp t.blockSize t.alignment

def firstAligned (region : Region) : Nat := alignUp region.startAddress t.alignment

theorem alignAddress_eq {address : Nat} (h : address < 2 ^ 32) :
    MemoryAllocatorRaw.alignAddress address t.alignment =
      if address + (t.alignment - 1) < 2 ^ 32 then alignUp address t.alignment else 0 := by
  obtain ⟨k, hlt, hk⟩ := t.alignment_pow
  rw [hk]
  exact round_word h hlt

theorem alignBlockSize_eq :
    MemoryAllocatorRaw.alignBlockSize t.blockSize t.alignment =
      if t.blockSize + (t.alignment - 1) < 2 ^ 32 then t.paddedSize else 0 := by
  have hsum : t.blockSize + t.alignment - 1 = t.blockSize + (t.alignment - 1) :=
    Nat.add_sub_assoc t.alignment_pos _
  unfold MemoryAllocatorRaw.alignBlockSize
  rw [hsum]
  exact t.alignAddress_eq t.blockSize_lt

theorem paddedSize_pos : 0 < t.paddedSize := alignUp_pos t.alignment_pos t.blockSize_pos

theorem blockSize_le : t.blockSize ≤ t.paddedSize := le_alignUp _ t.alignment_pos

theorem alignment_dvd_alignBlockSize :
    t.alignment ∣ MemoryAllocatorRaw.alignBlockSize t.blockSize t.alignment := by
  rw [alignBlockSize_eq]
  split
  · exact dvd_alignUp _ _
  · exact Nat.dvd_zero _

theorem alignAddress_self_iff {address : Nat} (h : address < 2 ^ 32) :
    address = MemoryAllocatorRaw.alignAddress address t.alignment ↔ t.alignment ∣ address := by
  have ha := t.alignment_pos
  rw [t.alignAddress_eq h]
  constructor
  · intro heq
    rw [heq]
    split
    · exact dvd_alignUp _ _
    · exact Nat.dvd_zero _
  · intro hdvd
    have hroom := t.add_alignment_le h hdvd
    rw [if_pos (by omega), alignUp_of_dvd ha hdvd]

end BlockType

end Carbon
