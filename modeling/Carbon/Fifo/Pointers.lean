import Carbon.Fifo.Pull
import Carbon.Pool.Buffer

namespace Carbon

open MemoryAllocatorRaw

variable {α : Type} {t : BlockType} {nElements : Nat} {region : Region}

-- The geometry that an accepted init leaves behind.
def Geometry.ofInit (hN : nElements + 1 < 2 ^ 32) (hinit : Fifo.init t nElements region = true) :
    Geometry where
  nElements := nElements
  alignedBlockSize := (MemoryAllocatorRaw.init t region).alignedBlockSize
  firstAlignedAddress := (MemoryAllocatorRaw.init t region).firstAlignedAddress
  endAddress := (MemoryAllocatorRaw.init t region).endAddress
  packed := Buffer.packed t t.blockSize
  block_pos := Fifo.block_of_init hN hinit ▸ t.paddedSize_pos
  holds := Fifo.holds_of_init hN hinit
  no_wrap := endAddress_lt _

namespace ContextPull

variable (t region) (c : ContextPull)

-- What the constructor works out besides the lengths.
def dataLengthByte1 : Nat := uint32 (c.dataLength1 * t.blockSize)

def dataLengthByte2 : Nat := uint32 (c.dataLength2 * t.blockSize)

def dataPtr1 : Nat := uint32 (region.startAddress + c.currentHead)

def dataPtr2 : Nat := region.startAddress

structure CoversSlots : Prop where
  ptr1 : c.dataPtr1 region = (MemoryAllocatorRaw.init t region).firstAlignedAddress +
    c.currentHead * (MemoryAllocatorRaw.init t region).alignedBlockSize
  bytes1 : c.dataLengthByte1 t = c.dataLength1 * (MemoryAllocatorRaw.init t region).alignedBlockSize
  ptr2 : dataPtr2 region = (MemoryAllocatorRaw.init t region).firstAlignedAddress +
    0 * (MemoryAllocatorRaw.init t region).alignedBlockSize
  bytes2 : c.dataLengthByte2 t = c.dataLength2 * (MemoryAllocatorRaw.init t region).alignedBlockSize

variable {t region}

-- The pieces stay in the ring, and from slot 0 on there is only the first.
theorem construct_bounds (g : Geometry) (f : Fifo α) (hhead : f.head ≤ g.nElements) :
    ∃ c, construct g f = some c ∧ c.currentHead = f.head ∧
      f.head + c.dataLength1 ≤ g.nElements + 1 ∧ c.dataLength2 ≤ f.head ∧
      (f.head = 0 → c.dataLength1 = 0 → f.isReady 0 = false) ∧
      (f.head = 0 → f.isReady 0 = false → c.dataLength1 = 0) := by
  obtain ⟨d1, rest, heq, hle, hrun, hstop⟩ := Fifo.elementReady1_spec g f g.bufferSize f.head
    (Nat.le_refl _) hhead (by unfold Geometry.bufferSize; omega) (by intro slot h1 h2; omega)
  have hnone : f.head = 0 → f.isReady 0 = false → d1 = 0 := by
    intro h0 hempty
    by_contra hpos
    have hready := hrun 0 (by omega) (by omega)
    rw [hempty] at hready
    cases hready
  rw [Nat.sub_self] at heq
  rcases hstop with ⟨rfl, hend, -⟩ | ⟨rfl, h0, -, -⟩
  · refine ⟨⟨f.head, d1, 0⟩, ?_, rfl, hle, Nat.zero_le _, ?_, hnone⟩
    · simp only [construct, Fifo.getElementReady, heq, Option.map_some]
    · intro h0 hd1
      have hd1 : d1 = 0 := hd1
      have hempty := hend (by omega)
      rwa [h0, hd1] at hempty
  · obtain ⟨d2, heq2, hle2, -, -⟩ := Fifo.elementReady2_spec g f hhead g.bufferSize 0 h0
      (by unfold Geometry.bufferSize; omega) (by intro slot h; omega)
    refine ⟨⟨f.head, d1, d2⟩, ?_, rfl, hle, hle2, ?_, hnone⟩
    · simp only [construct, Fifo.getElementReady, heq, heq2, Option.map_some]
    · intro hzero
      omega

-- Every number of slots in play fits the storage, and so do its bytes.
theorem slots_lt (hN : nElements + 1 < 2 ^ 32) (hinit : Fifo.init t nElements region = true) {n : Nat}
    (hn : n ≤ nElements + 1) :
    (MemoryAllocatorRaw.init t region).firstAlignedAddress + n * t.paddedSize < 2 ^ 32 := by
  have hend := Fifo.holds_of_init hN hinit
  have hlt := (MemoryAllocatorRaw.init t region).endAddress_lt
  have hmul := Nat.mul_le_mul_right t.paddedSize hn
  unfold Fifo.slotAddress at hend
  rw [Fifo.block_of_init hN hinit] at hend
  omega

theorem bytes_exact (hN : nElements + 1 < 2 ^ 32) (hinit : Fifo.init t nElements region = true) {n : Nat}
    (hn : n ≤ nElements + 1) : uint32 (n * t.blockSize) = n * t.blockSize := by
  have hroom := slots_lt hN hinit hn
  have hmul := Nat.mul_le_mul_left n t.blockSize_le
  exact uint32_of_lt (by omega)

theorem CoversSlots.first_eq {c : ContextPull} (h : CoversSlots t region c) :
    region.startAddress = (MemoryAllocatorRaw.init t region).firstAlignedAddress := by
  have hptr2 := h.ptr2
  rw [Nat.zero_mul, Nat.add_zero] at hptr2
  exact hptr2

-- Away from slot 0 only slots of one byte are where the reader looks for them.
theorem CoversSlots.slot_eq_one (hN : nElements + 1 < 2 ^ 32)
    (hinit : Fifo.init t nElements region = true) {c : ContextPull} (h : CoversSlots t region c)
    (hhead : c.currentHead ≤ nElements) (hpos : 0 < c.currentHead) : t.paddedSize = 1 := by
  have hptr1 := h.ptr1
  have hfit := slots_lt hN hinit (Nat.le_succ_of_le hhead)
  have hmul := Nat.mul_le_mul_left c.currentHead t.paddedSize_pos
  unfold dataPtr1 at hptr1
  rw [h.first_eq, Fifo.block_of_init hN hinit, uint32_of_lt (by omega)] at hptr1
  have hbytes : c.currentHead * 1 = c.currentHead * t.paddedSize := by omega
  exact (Nat.eq_of_mul_eq_mul_left hpos hbytes).symm

theorem CoversSlots.dvd_blockSize (hN : nElements + 1 < 2 ^ 32)
    (hinit : Fifo.init t nElements region = true) {c : ContextPull} (h : CoversSlots t region c)
    (hlength : c.dataLength1 ≤ nElements + 1) (hpos : 0 < c.dataLength1) : t.alignment ∣ t.blockSize := by
  have hbytes := h.bytes1
  unfold dataLengthByte1 at hbytes
  rw [bytes_exact hN hinit hlength, Fifo.block_of_init hN hinit] at hbytes
  exact Nat.eq_of_mul_eq_mul_left hpos hbytes ▸ Alignment.dvd_alignUp _ _

theorem first_of_dvd (hdvd : t.alignment ∣ region.startAddress) :
    (MemoryAllocatorRaw.init t region).firstAlignedAddress = region.startAddress := by
  have hunit := t.add_alignment_le region.start_lt hdvd
  have hpos := t.alignment_pos
  rw [MemoryAllocatorRaw.first_eq (by omega)]
  exact Alignment.alignUp_of_dvd hpos hdvd

theorem coversSlots_unit (hN : nElements + 1 < 2 ^ 32) (hinit : Fifo.init t nElements region = true)
    {c : ContextPull} (hdvd : t.alignment ∣ region.startAddress) (hsize : t.blockSize = 1)
    (halignment : t.alignment = 1) (hhead : c.currentHead + c.dataLength1 ≤ nElements + 1)
    (hrest : c.dataLength2 ≤ nElements + 1) : CoversSlots t region c := by
  have hfirst := first_of_dvd hdvd
  have hblock : (MemoryAllocatorRaw.init t region).alignedBlockSize = 1 := by
    rw [Fifo.block_of_init hN hinit, BlockType.paddedSize, hsize, halignment,
      Alignment.alignUp_of_dvd Nat.one_pos (Nat.dvd_refl 1)]
  have hfit := slots_lt hN hinit (n := c.currentHead) (by omega)
  rw [← Fifo.block_of_init hN hinit, hblock, hfirst, Nat.mul_one] at hfit
  refine ⟨?_, ?_, ?_, ?_⟩
  · rw [dataPtr1, hblock, hfirst, Nat.mul_one, uint32_of_lt hfit]
  · rw [dataLengthByte1, bytes_exact hN hinit (by omega), hsize, hblock]
  · rw [hfirst, Nat.zero_mul]
    rfl
  · rw [dataLengthByte2, bytes_exact hN hinit hrest, hsize, hblock]

theorem coversSlots_start (hN : nElements + 1 < 2 ^ 32) (hinit : Fifo.init t nElements region = true)
    {c : ContextPull} (hdvd : t.alignment ∣ region.startAddress) (hhead : c.currentHead = 0)
    (hlength : c.dataLength1 ≤ nElements + 1) (hrest : c.dataLength2 = 0)
    (hpacked : t.alignment ∣ t.blockSize ∨ c.dataLength1 = 0) : CoversSlots t region c := by
  have hfirst := first_of_dvd hdvd
  refine ⟨?_, ?_, ?_, ?_⟩
  · rw [dataPtr1, hhead, hfirst, Nat.zero_mul, Nat.add_zero, uint32_of_lt region.start_lt]
  · rw [dataLengthByte1, bytes_exact hN hinit hlength, Fifo.block_of_init hN hinit]
    rcases hpacked with hpacked | hnone
    · rw [BlockType.paddedSize, Alignment.alignUp_of_dvd t.alignment_pos hpacked]
    · rw [hnone, Nat.zero_mul, Nat.zero_mul]
  · rw [hfirst, Nat.zero_mul]
    rfl
  · rw [dataLengthByte2, hrest, Nat.zero_mul, Nat.zero_mul]
    rfl

-- The reader counts bytes from the unaligned start, the producers count padded
-- blocks from the aligned one.
theorem pull_covers_iff (hN : nElements + 1 < 2 ^ 32)
    (hinit : Fifo.init t nElements region = true) (f : Fifo α) (hhead : f.head ≤ nElements) :
    ∃ c, construct (Geometry.ofInit hN hinit) f = some c ∧
      (CoversSlots t region c ↔
        t.alignment ∣ region.startAddress ∧
          (t.blockSize = 1 ∧ t.alignment = 1 ∨
            f.head = 0 ∧ (t.alignment ∣ t.blockSize ∨ f.isReady 0 = false))) := by
  obtain ⟨c, hc, hcur, hlength, hrest, hready, hempty⟩ :=
    construct_bounds (Geometry.ofInit hN hinit) f hhead
  have hlength : f.head + c.dataLength1 ≤ nElements + 1 := hlength
  rw [← hcur] at hhead hlength hrest hready hempty ⊢
  refine ⟨c, hc, ?_⟩
  constructor
  · intro h
    refine ⟨h.first_eq ▸ dvd_first, ?_⟩
    rcases Nat.eq_zero_or_pos c.currentHead with hzero | hpos
    · refine .inr ⟨hzero, ?_⟩
      rcases Nat.eq_zero_or_pos c.dataLength1 with hnone | hsome
      · exact .inr (hready hzero hnone)
      · exact .inl (h.dvd_blockSize hN hinit (by omega) hsome)
    · have hone := h.slot_eq_one hN hinit hhead hpos
      have hsize := t.blockSize_pos
      have hle := t.blockSize_le
      have hdvd : t.alignment ∣ 1 := hone ▸ Alignment.dvd_alignUp _ _
      exact .inl ⟨by omega, Nat.dvd_one.mp hdvd⟩
  · rintro ⟨hdvd, ⟨hsize, halignment⟩ | ⟨hzero, hpacked⟩⟩
    · exact coversSlots_unit hN hinit hdvd hsize halignment hlength (by omega)
    · exact coversSlots_start hN hinit hdvd hzero (by omega) (by omega)
        (hpacked.imp_right (hempty hzero))

theorem pull_covers_bytes :
    ∃ c, construct (Geometry.ofInit (show 7 + 1 < 2 ^ 32 by decide)
        (show Fifo.init ⟨1, 1, by decide, by decide, 0, by decide, by decide⟩ 7
          ⟨0x38001000, 8, by decide, by decide, by decide⟩ = true by decide))
        (⟨3, 1, fun i => if i = 0 then 6#8 else 0#8, fun _ => ()⟩ : Fifo Unit) = some c ∧
      CoversSlots ⟨1, 1, by decide, by decide, 0, by decide, by decide⟩
        ⟨0x38001000, 8, by decide, by decide, by decide⟩ c := by
  obtain ⟨c, hc, hcovers⟩ := pull_covers_iff (show 7 + 1 < 2 ^ 32 by decide)
    (show Fifo.init ⟨1, 1, by decide, by decide, 0, by decide, by decide⟩ 7
      ⟨0x38001000, 8, by decide, by decide, by decide⟩ = true by decide)
    (⟨3, 1, fun i => if i = 0 then 6#8 else 0#8, fun _ => ()⟩ : Fifo Unit) (by decide)
  exact ⟨c, hc, hcovers.mpr ⟨by decide, .inl ⟨rfl, rfl⟩⟩⟩

-- Elements of two bytes: the element in slot 1 begins two bytes after the start.
theorem pull_misses_slot :
    ∃ c, construct (Geometry.ofInit (show 7 + 1 < 2 ^ 32 by decide)
        (show Fifo.init ⟨2, 1, by decide, by decide, 0, by decide, by decide⟩ 7
          ⟨0x38001000, 16, by decide, by decide, by decide⟩ = true by decide))
        (⟨2, 1, fun i => if i = 0 then 2#8 else 0#8, fun _ => ()⟩ : Fifo Unit) = some c ∧
      ¬CoversSlots ⟨2, 1, by decide, by decide, 0, by decide, by decide⟩
        ⟨0x38001000, 16, by decide, by decide, by decide⟩ c :=
  ⟨⟨1, 1, 0⟩, rfl, fun h => absurd h.ptr1 (by decide)⟩

end ContextPull

end Carbon
