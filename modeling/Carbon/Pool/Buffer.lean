import Carbon.Library.Cells
import Carbon.Pool.Views

namespace Carbon

-- An object of the element type, as the bytes memcpy moves.
structure Object (t : BlockType) where
  bytes : List UInt8
  length_eq : bytes.length = t.blockSize

namespace Buffer

open MemoryAllocatorRaw

variable (t : BlockType) (m : MemoryAllocatorRaw)

-- The condition of the overloads: the size is its own aligned size.
def packed (size : Nat) : Bool := size == alignBlockSize size t.alignment

def pointerSize : Nat := 4

-- insert for one object; none when it returns false.
def insert (memory : Nat → UInt8) (object : Object t) (index : Nat) : Option (Nat → UInt8) :=
  match m.getBlock index with
  | none => none
  | some data =>
      if packed t t.blockSize && decide (m.endAddress < uint32 (data + t.blockSize)) then none
      else some (Cells.write memory data object.bytes)

-- The bytes that remove(&object, index) copies into the object. The overload
-- for padded types takes its object by value and deduces its type from the
-- argument, which is a pointer: it is enabled by the size of a pointer and
-- copies as many bytes. Where no overload is enabled there is no call, which
-- counts as one that fails.
def remove (memory : Nat → UInt8) (index : Nat) : Option (List UInt8) :=
  if packed t t.blockSize then
    match m.getBlock index with
    | none => none
    | some data =>
        if m.endAddress < uint32 (data + t.blockSize) then none
        else some (Cells.read memory data t.blockSize)
  else if packed t pointerSize then none
  else
    match m.getBlock index with
    | none => none
    | some data => some (Cells.read memory data pointerSize)

-- A sequence of inserts; one that fails leaves the memory as it is.
def inserts (memory : Nat → UInt8) (objects : List (Nat × Object t)) : Nat → UInt8 :=
  objects.foldl (fun memory entry => (insert t m memory entry.2 entry.1).getD memory) memory

end Buffer

namespace Fifo

open MemoryAllocatorRaw

variable (t : BlockType) (nElements : Nat) (region : Region)

-- Fifo::init.
def init : Bool :=
  !decide ((MemoryAllocatorRaw.init t region).nAlignedElements < uint32 (nElements + 1))

structure StorageSound : Prop where
  inside : ∀ index ≤ nElements, ∃ block,
    (MemoryAllocatorRaw.init t region).getBlock index = some block ∧ t.alignment ∣ block ∧
      region.startAddress ≤ block ∧
      block + (MemoryAllocatorRaw.init t region).alignedBlockSize ≤
        region.startAddress + region.size
  apart : ∀ i ≤ nElements, ∀ j ≤ nElements, i ≠ j → ∀ block block',
    (MemoryAllocatorRaw.init t region).getBlock i = some block →
      (MemoryAllocatorRaw.init t region).getBlock j = some block' →
      block + (MemoryAllocatorRaw.init t region).alignedBlockSize ≤ block' ∨
        block' + (MemoryAllocatorRaw.init t region).alignedBlockSize ≤ block
  insert : ∀ memory object, ∀ index ≤ nElements,
    (Buffer.insert t (MemoryAllocatorRaw.init t region) memory object index).isSome
  remove : ∀ memory, ∀ index ≤ nElements,
    (Buffer.remove t (MemoryAllocatorRaw.init t region) memory index).isSome
  readBack : ∀ memory before object after, ∀ index ≤ nElements,
    (∀ entry ∈ before, entry.1 ≤ nElements) →
      (∀ entry ∈ after, entry.1 ≤ nElements ∧ entry.1 ≠ index) →
      Buffer.remove t (MemoryAllocatorRaw.init t region)
        (Buffer.inserts t (MemoryAllocatorRaw.init t region) memory
          (before ++ (index, object) :: after)) index = some object.bytes

-- The address of slot `index` as the allocator counts it.
def slotAddress (index : Nat) : Nat :=
  (MemoryAllocatorRaw.init t region).firstAlignedAddress +
    index * (MemoryAllocatorRaw.init t region).alignedBlockSize

variable {t nElements region}

theorem packed_iff {size : Nat} (h : size < 2 ^ 32) :
    Buffer.packed t size = true ↔ t.alignment ∣ size := by
  have hsum : size + t.alignment - 1 = size + (t.alignment - 1) :=
    Nat.add_sub_assoc t.alignment_pos _
  unfold Buffer.packed alignBlockSize
  rw [beq_iff_eq, hsum]
  exact t.alignAddress_self_iff h

theorem elements_of_init (hN : nElements + 1 < 2 ^ 32) (h : init t nElements region = true) :
    nElements + 1 ≤ (MemoryAllocatorRaw.init t region).nAlignedElements := by
  unfold init at h
  rw [uint32_of_lt hN] at h
  simpa using h

-- The storage that init accepts ends below the end of the region.
theorem holds_of_init (hN : nElements + 1 < 2 ^ 32) (h : init t nElements region = true) :
    slotAddress t region (nElements + 1) ≤ (MemoryAllocatorRaw.init t region).endAddress := by
  have hcount := elements_of_init hN h
  have hfit := elements_fit t region
  have hmul := Nat.mul_le_mul_right (MemoryAllocatorRaw.init t region).alignedBlockSize hcount
  have hroom : ¬(MemoryAllocatorRaw.init t region).endAddress ≤
      (MemoryAllocatorRaw.init t region).firstAlignedAddress := by
    intro hle
    rw [elements_eq_zero hle] at hcount
    omega
  unfold slotAddress
  omega

theorem block_of_init (hN : nElements + 1 < 2 ^ 32) (h : init t nElements region = true) :
    (MemoryAllocatorRaw.init t region).alignedBlockSize = t.paddedSize := by
  have hcount := elements_of_init hN h
  rw [nAlignedElements_eq] at hcount
  have heq := t.alignBlockSize_eq
  split at heq
  · exact heq
  · have hzero : (MemoryAllocatorRaw.init t region).alignedBlockSize = 0 := heq
    rw [hzero, Nat.div_zero] at hcount
    omega

theorem slotAddress_succ (t : BlockType) (region : Region) (index : Nat) : slotAddress t region (index + 1) =
    slotAddress t region index + (MemoryAllocatorRaw.init t region).alignedBlockSize := by
  unfold slotAddress
  rw [Nat.add_mul, Nat.one_mul, Nat.add_assoc]

theorem slotAddress_mono {i j : Nat} (h : i ≤ j) : slotAddress t region i ≤ slotAddress t region j :=
  Nat.add_le_add_left (Nat.mul_le_mul_right _ h) _

-- Different slots lie apart, whatever the order of their numbers.
theorem slotAddress_apart (t : BlockType) (region : Region) {i j : Nat} (h : i ≠ j) :
    slotAddress t region i + (MemoryAllocatorRaw.init t region).alignedBlockSize ≤
        slotAddress t region j ∨
      slotAddress t region j + (MemoryAllocatorRaw.init t region).alignedBlockSize ≤
        slotAddress t region i := by
  rcases Nat.lt_or_gt_of_ne h with hlt | hgt
  · exact .inl (slotAddress_succ t region i ▸ slotAddress_mono hlt)
  · exact .inr (slotAddress_succ t region j ▸ slotAddress_mono hgt)

section Accepted

variable (hN : nElements + 1 < 2 ^ 32) (hinit : init t nElements region = true)
  {index : Nat} (hindex : index ≤ nElements)

include hN hinit hindex

theorem slot_end : slotAddress t region index + t.paddedSize ≤
    (MemoryAllocatorRaw.init t region).endAddress := by
  have hsucc := slotAddress_succ t region index
  rw [block_of_init hN hinit] at hsucc
  rw [← hsucc]
  exact Nat.le_trans (slotAddress_mono (by omega)) (holds_of_init hN hinit)

theorem getBlock_slot :
    (MemoryAllocatorRaw.init t region).getBlock index = some (slotAddress t region index) := by
  have hend := slot_end hN hinit hindex
  have hpos := t.paddedSize_pos
  have hlt := (MemoryAllocatorRaw.init t region).endAddress_lt
  have haddr : (MemoryAllocatorRaw.init t region).Addressable index := by
    unfold Addressable
    unfold slotAddress at hend
    omega
  rw [getBlock_eq haddr]
  exact if_neg (by unfold slotAddress at hend; omega)

-- The array bound of the packed overloads holds for one object.
theorem slot_room : ¬(MemoryAllocatorRaw.init t region).endAddress <
    uint32 (slotAddress t region index + t.blockSize) := by
  have hend := slot_end hN hinit hindex
  have hsize := t.blockSize_le
  have hlt := (MemoryAllocatorRaw.init t region).endAddress_lt
  rw [uint32_of_lt (by omega)]
  omega

theorem insert_slot (memory : Nat → UInt8) (object : Object t) :
    Buffer.insert t (MemoryAllocatorRaw.init t region) memory object index =
      some (Cells.write memory (slotAddress t region index) object.bytes) := by
  unfold Buffer.insert
  rw [getBlock_slot hN hinit hindex]
  simp only [slot_room hN hinit hindex, decide_false, Bool.and_false, Bool.false_eq_true, if_false]

theorem remove_slot (memory : Nat → UInt8) :
    Buffer.remove t (MemoryAllocatorRaw.init t region) memory index =
      if Buffer.packed t t.blockSize then
        some (Cells.read memory (slotAddress t region index) t.blockSize)
      else if Buffer.packed t Buffer.pointerSize then none
      else some (Cells.read memory (slotAddress t region index) Buffer.pointerSize) := by
  unfold Buffer.remove
  rw [getBlock_slot hN hinit hindex]
  simp only [slot_room hN hinit hindex, if_false]

omit hindex in
-- Inserts at other slots leave the bytes of a slot alone.
theorem read_inserts_apart (memory : Nat → UInt8) (objects : List (Nat × Object t))
    (hobjects : ∀ entry ∈ objects, entry.1 ≤ nElements ∧ entry.1 ≠ index) :
    Cells.read (Buffer.inserts t (MemoryAllocatorRaw.init t region) memory objects)
        (slotAddress t region index) t.blockSize =
      Cells.read memory (slotAddress t region index) t.blockSize := by
  induction objects generalizing memory with
  | nil => rfl
  | cons entry rest ih =>
      obtain ⟨hle, hne⟩ := hobjects entry List.mem_cons_self
      have hstep : Buffer.inserts t (MemoryAllocatorRaw.init t region) memory (entry :: rest) =
          Buffer.inserts t (MemoryAllocatorRaw.init t region)
            (Cells.write memory (slotAddress t region entry.1) entry.2.bytes) rest := by
        unfold Buffer.inserts
        rw [List.foldl_cons, insert_slot hN hinit hle]
        rfl
      have hapart := slotAddress_apart t region hne
      have hsize := t.blockSize_le
      rw [block_of_init hN hinit] at hapart
      rw [hstep, ih _ fun other hmem => hobjects other (List.mem_cons_of_mem _ hmem)]
      exact Cells.read_write_apart (by rw [entry.2.length_eq]; omega)

theorem read_inserts (memory : Nat → UInt8) (before : List (Nat × Object t)) (object : Object t)
    (after : List (Nat × Object t))
    (hafter : ∀ entry ∈ after, entry.1 ≤ nElements ∧ entry.1 ≠ index) :
    Cells.read (Buffer.inserts t (MemoryAllocatorRaw.init t region) memory
      (before ++ (index, object) :: after)) (slotAddress t region index) t.blockSize =
      object.bytes := by
  have hsplit : Buffer.inserts t (MemoryAllocatorRaw.init t region) memory
      (before ++ (index, object) :: after) =
      Buffer.inserts t (MemoryAllocatorRaw.init t region)
        (Cells.write (Buffer.inserts t (MemoryAllocatorRaw.init t region) memory before)
          (slotAddress t region index) object.bytes) after := by
    unfold Buffer.inserts
    rw [List.foldl_append, List.foldl_cons, insert_slot hN hinit hindex]
    rfl
  rw [hsplit, read_inserts_apart hN hinit _ after hafter, ← object.length_eq]
  exact Cells.read_write

end Accepted

theorem storage_sound (hN : nElements + 1 < 2 ^ 32) (hinit : init t nElements region = true)
    (hstart : region.startAddress + (t.alignment - 1) < 2 ^ 32)
    (hsize : Buffer.packed t t.blockSize = true ∨
      Buffer.packed t Buffer.pointerSize = false ∧ t.blockSize = Buffer.pointerSize) :
    StorageSound t nElements region := by
  have hremove : ∀ memory, ∀ index ≤ nElements,
      Buffer.remove t (MemoryAllocatorRaw.init t region) memory index =
        some (Cells.read memory (slotAddress t region index) t.blockSize) := by
    intro memory index hindex
    rw [remove_slot hN hinit hindex]
    rcases hsize with hpacked | ⟨hpointer, hsize⟩
    · rw [hpacked, if_pos rfl]
    · rw [hsize, hpointer]
      rfl
  refine ⟨?_, ?_, ?_, ?_, ?_⟩
  · intro index hindex
    have hend := slot_end hN hinit hindex
    have hle := endAddress_le t region
    rw [← block_of_init hN hinit] at hend
    exact ⟨_, getBlock_slot hN hinit hindex, dvd_address index,
      Nat.le_trans (start_le_first hstart) (Nat.le_add_right _ _), Nat.le_trans hend hle⟩
  · intro i hi j hj hne block block' hblock hblock'
    rw [getBlock_slot hN hinit hi, Option.some.injEq] at hblock
    rw [getBlock_slot hN hinit hj, Option.some.injEq] at hblock'
    subst hblock hblock'
    exact slotAddress_apart t region hne
  · intro memory object index hindex
    rw [insert_slot hN hinit hindex]
    rfl
  · intro memory index hindex
    rw [hremove memory index hindex]
    rfl
  · intro memory before object after index hindex _ hafter
    rw [hremove _ index hindex, read_inserts hN hinit hindex memory before object after hafter]

-- An accepted region is sound storage unless the rounding of its start wraps,
-- or the element type is padded and remove copies a pointer's worth of it.
theorem storage_sound_iff (hN : nElements + 1 < 2 ^ 32) (hinit : init t nElements region = true) :
    StorageSound t nElements region ↔
      region.startAddress + (t.alignment - 1) < 2 ^ 32 ∧
        (t.alignment ∣ t.blockSize ∨ t.blockSize = Buffer.pointerSize) := by
  have hpacked := packed_iff (t := t) t.blockSize_lt
  have hpointer := packed_iff (t := t) (show Buffer.pointerSize < 2 ^ 32 by decide)
  constructor
  · intro h
    have hstart : region.startAddress + (t.alignment - 1) < 2 ^ 32 := by
      by_contra hwrap
      obtain ⟨block, hblock, -, hle, -⟩ := h.inside 0 (Nat.zero_le _)
      have halign := t.alignment_le
      rw [getBlock_slot hN hinit (Nat.zero_le _), slotAddress, first_wrapped hwrap, Nat.zero_mul,
        Option.some.injEq] at hblock
      omega
    refine ⟨hstart, Decidable.or_iff_not_imp_left.mpr fun hpad => ?_⟩
    have hread := h.readBack (fun _ => 0) [] ⟨List.replicate t.blockSize 0, List.length_replicate⟩ []
      0 (Nat.zero_le _) nofun nofun
    rw [remove_slot hN hinit (Nat.zero_le _), if_neg (mt hpacked.mp hpad)] at hread
    split at hread
    · cases hread
    · have hlength := congrArg List.length (Option.some.inj hread)
      rw [Cells.length_read, List.length_replicate] at hlength
      exact hlength.symm
  · rintro ⟨hstart, hsize⟩
    refine storage_sound hN hinit hstart ?_
    rcases hsize with hdvd | hsize
    · exact .inl (hpacked.mpr hdvd)
    · cases hp : Buffer.packed t Buffer.pointerSize with
      | true => exact .inl (hsize ▸ hp)
      | false => exact .inr ⟨rfl, hsize⟩

-- Eight elements of 12 bytes, aligned to 4, from an odd address.
theorem storage_sound_odd_start :
    StorageSound ⟨12, 4, by decide, by decide, 2, by decide, by decide⟩ 7
      ⟨0x24000001, 99, by decide, by decide, by decide⟩ :=
  (storage_sound_iff (by decide) (by decide)).mpr ⟨by decide, .inl (by decide)⟩

-- A padded element of 12 bytes comes back as its first four; and eight bytes
-- at the end of the address space are taken for a region that starts at 0.
theorem init_accepts_unsound :
    (init ⟨12, 8, by decide, by decide, 3, by decide, by decide⟩ 3
        ⟨0x24000000, 64, by decide, by decide, by decide⟩ = true ∧
      ¬StorageSound ⟨12, 8, by decide, by decide, 3, by decide, by decide⟩ 3
        ⟨0x24000000, 64, by decide, by decide, by decide⟩) ∧
    (init ⟨4, 32, by decide, by decide, 5, by decide, by decide⟩ 3
        ⟨0xFFFFFFF0, 8, by decide, by decide, by decide⟩ = true ∧
      ¬StorageSound ⟨4, 32, by decide, by decide, 5, by decide, by decide⟩ 3
        ⟨0xFFFFFFF0, 8, by decide, by decide, by decide⟩) := by
  refine ⟨⟨by decide, fun h => ?_⟩, by decide, fun h => ?_⟩
  · have hread := h.readBack (fun _ => 0) [] ⟨List.replicate 12 1, rfl⟩ [] 0 (by decide) nofun nofun
    exact absurd hread (by decide)
  · obtain ⟨block, hblock, -, hle, -⟩ := h.inside 0 (by decide)
    have hzero : block = 0 := (Option.some.inj (Eq.trans (by decide) hblock)).symm
    exact absurd (hzero ▸ hle) (by decide)

end Fifo

end Carbon
