import Carbon.Pool.Allocator

namespace Carbon

open Alignment

namespace MemoryAllocatorRaw

variable (t : BlockType) (region : Region)

-- What becomes of an allocator while it is in use.
inductive Used (m : MemoryAllocatorRaw) : MemoryAllocatorRaw → Prop
  | init : Used m m
  | interate {used : MemoryAllocatorRaw} : Used m used → Used m (used.interateBlock t).2
  | reset {used : MemoryAllocatorRaw} : Used m used → Used m used.reset

-- The address of a block by its index does not leave the address space.
def Addressable (m : MemoryAllocatorRaw) (index : Nat) : Prop :=
  m.firstAlignedAddress + index * m.alignedBlockSize < 2 ^ 32

structure ViewsAgree : Prop where
  getBlock_iff : ∀ index, (init t region).Addressable index →
    (((init t region).getBlock index).isSome ↔ index < (init t region).nAlignedElements)
  getBlock_inside : ∀ index block, (init t region).Addressable index →
    (init t region).getBlock index = some block →
      t.alignment ∣ block ∧ region.startAddress ≤ block ∧
        block + (init t region).alignedBlockSize ≤ region.startAddress + region.size
  interate_eq : ∀ fresh,
    (fresh = init t region ∨ ∃ used, Used t (init t region) used ∧ fresh = used.reset) →
      ∀ calls, (fresh.interate t calls).1 = (List.range calls).map fun index =>
        if index < (init t region).nAlignedElements then (init t region).getBlock index else none
  belongs_iff : ∀ block < 2 ^ 32, (init t region).blockBelongs t block = true ↔
    ∃ index < (init t region).nAlignedElements, (init t region).getBlock index = some block

variable {t region}

theorem endAddress_lt (m : MemoryAllocatorRaw) : m.endAddress < 2 ^ 32 := uint32_lt _

theorem endAddress_le (t : BlockType) (region : Region) :
    (init t region).endAddress ≤ region.startAddress + region.size :=
  Nat.mod_le _ _

theorem nAlignedElements_eq : (init t region).nAlignedElements =
    ((init t region).endAddress - (init t region).firstAlignedAddress) /
      (init t region).alignedBlockSize := by
  simp only [init, getNumberOfElements, endAddress]
  split
  · rfl
  · rw [Nat.sub_self, Nat.sub_eq_zero_of_le (by omega)]

theorem elements_fit (t : BlockType) (region : Region) :
    (init t region).nAlignedElements * (init t region).alignedBlockSize ≤
    (init t region).endAddress - (init t region).firstAlignedAddress := by
  rw [nAlignedElements_eq]
  exact Nat.div_mul_le_self _ _

theorem elements_eq_zero
    (h : (init t region).endAddress ≤ (init t region).firstAlignedAddress) :
    (init t region).nAlignedElements = 0 := by
  rw [nAlignedElements_eq, Nat.sub_eq_zero_of_le h, Nat.zero_div]

theorem dvd_first : t.alignment ∣ (init t region).firstAlignedAddress := by
  simp only [init, t.alignAddress_eq region.start_lt]
  split
  · exact dvd_alignUp _ _
  · exact Nat.dvd_zero _

theorem dvd_block : t.alignment ∣ (init t region).alignedBlockSize :=
  t.alignment_dvd_alignBlockSize

theorem dvd_address (index : Nat) : t.alignment ∣ (init t region).firstAlignedAddress +
    index * (init t region).alignedBlockSize :=
  Nat.dvd_add dvd_first (Nat.dvd_trans dvd_block (Nat.dvd_mul_left _ _))

-- Either the aligned start is the least aligned address from the start on, or
-- the rounding has wrapped and left address 0.
theorem first_eq (h : region.startAddress + (t.alignment - 1) < 2 ^ 32) :
    (init t region).firstAlignedAddress = t.firstAligned region := by
  simp only [init, t.alignAddress_eq region.start_lt, h, if_true]
  rfl

theorem first_wrapped (h : ¬region.startAddress + (t.alignment - 1) < 2 ^ 32) :
    (init t region).firstAlignedAddress = 0 := by
  simp only [init, t.alignAddress_eq region.start_lt, h, if_false]

theorem start_le_first (h : region.startAddress + (t.alignment - 1) < 2 ^ 32) :
    region.startAddress ≤ (init t region).firstAlignedAddress :=
  first_eq h ▸ le_alignUp _ t.alignment_pos

theorem getBlock_eq {m : MemoryAllocatorRaw} {index : Nat} (h : m.Addressable index) :
    m.getBlock index =
      if m.endAddress ≤ m.firstAlignedAddress + index * m.alignedBlockSize then none
      else some (m.firstAlignedAddress + index * m.alignedBlockSize) := by
  unfold getBlock
  rw [uint32_of_lt h]

theorem getBlock_isSome_iff {m : MemoryAllocatorRaw} {index : Nat} (h : m.Addressable index) :
    (m.getBlock index).isSome ↔
      m.firstAlignedAddress + index * m.alignedBlockSize < m.endAddress := by
  rw [getBlock_eq h]
  split
  · simpa using ‹_›
  · simpa using Nat.lt_of_not_le ‹_›

theorem elements_addressable {index : Nat} (h : index ≤ (init t region).nAlignedElements)
    (hroom : (init t region).firstAlignedAddress ≤ (init t region).endAddress) :
    (init t region).Addressable index := by
  have hfit := elements_fit t region
  have hmul := Nat.mul_le_mul_right (init t region).alignedBlockSize h
  have hend := (init t region).endAddress_lt
  unfold Addressable
  omega

theorem blockBelongs_iff {block : Nat} (hblock : block < 2 ^ 32)
    (hroom : (init t region).firstAlignedAddress ≤ (init t region).endAddress ∨
      (init t region).nAlignedElements = 0) :
    (init t region).blockBelongs t block = true ↔
      region.startAddress ≤ block ∧ block < (init t region).firstAlignedAddress +
        (init t region).nAlignedElements * (init t region).alignedBlockSize ∧
        t.alignment ∣ block := by
  have hlt : (init t region).firstAlignedAddress +
      (init t region).nAlignedElements * (init t region).alignedBlockSize < 2 ^ 32 := by
    rcases hroom with hroom | hzero
    · exact elements_addressable (Nat.le_refl _) hroom
    · rw [hzero, Nat.zero_mul]
      exact Nat.lt_of_le_of_lt Nat.and_le_left (uint32_lt _)
  unfold blockBelongs
  rw [Nat.mul_comm (init t region).alignedBlockSize, uint32_of_lt hlt]
  simp only [Bool.and_eq_true, decide_eq_true_eq, t.alignAddress_self_iff hblock, and_assoc]
  rfl

theorem reset_used {used : MemoryAllocatorRaw} (h : Used t (init t region) used) :
    used.reset = init t region := by
  induction h with
  | init => rfl
  | reset _ ih => exact ih
  | interate _ ih =>
      rw [← ih]
      unfold interateBlock
      split <;> rfl

theorem interate_ended {m : MemoryAllocatorRaw} (h : m.endAddress ≤ m.alignedAddress) (calls : Nat) :
    (m.interate t calls).1 = (List.range calls).map fun _ => none := by
  induction calls with
  | zero => rfl
  | succ calls ih =>
      have hstep : m.interateBlock t = (none, m) := if_pos h
      rw [interate, hstep, List.range_succ_eq_map, List.map_cons, List.map_map]
      exact congrArg _ ih

-- The blocks of the allocator fill the region up to its end.
structure Tiled (t : BlockType) (m : MemoryAllocatorRaw) : Prop where
  first : t.alignment ∣ m.firstAlignedAddress
  block : t.alignment ∣ m.alignedBlockSize
  pos : 0 < m.alignedBlockSize
  fills : m.endAddress = m.firstAlignedAddress + m.nAlignedElements * m.alignedBlockSize

theorem Tiled.address_lt_iff {m : MemoryAllocatorRaw} (h : Tiled t m) (index : Nat) :
    m.firstAlignedAddress + index * m.alignedBlockSize < m.endAddress ↔
      index < m.nAlignedElements := by
  rw [h.fills, Nat.add_lt_add_iff_left, Nat.mul_lt_mul_right h.pos]

theorem Tiled.getBlock {m : MemoryAllocatorRaw} (h : Tiled t m) {index : Nat}
    (hindex : index < m.nAlignedElements) :
    m.getBlock index = some (m.firstAlignedAddress + index * m.alignedBlockSize) := by
  have hlt := (h.address_lt_iff index).mpr hindex
  have hend := m.endAddress_lt
  rw [getBlock_eq (show m.Addressable index by unfold Addressable; omega),
    if_neg (Nat.not_le.mpr hlt)]

-- The allocator stands at the block with number `next`.
theorem Tiled.interate_from {m : MemoryAllocatorRaw} (h : Tiled t m) (calls : Nat) {next : Nat}
    (hnext : next ≤ m.nAlignedElements)
    (hat : m.alignedAddress = m.firstAlignedAddress + next * m.alignedBlockSize) :
    (m.interate t calls).1 = (List.range calls).map fun index =>
      if next + index < m.nAlignedElements then m.getBlock (next + index) else none := by
  induction calls generalizing m next with
  | zero => rfl
  | succ calls ih =>
      rcases Nat.lt_or_eq_of_le hnext with hlt | hlast
      · have haddr := (h.address_lt_iff next).mpr hlt
        have hend := m.endAddress_lt
        have haligned : t.alignment ∣ m.alignedAddress :=
          hat ▸ Nat.dvd_add h.first (Nat.dvd_trans h.block (Nat.dvd_mul_left _ _))
        have hself := (t.alignAddress_self_iff (show m.alignedAddress < 2 ^ 32 by omega)).mpr haligned
        have hmul := Nat.mul_le_mul_right m.alignedBlockSize (show next + 1 ≤ m.nAlignedElements from hlt)
        have hfills := h.fills
        have hsucc : m.alignedAddress + m.alignedBlockSize =
            m.firstAlignedAddress + (next + 1) * m.alignedBlockSize := by
          rw [hat, Nat.add_mul, Nat.one_mul, Nat.add_assoc]
        have hstep : m.interateBlock t = (some m.alignedAddress,
            { m with alignedAddress := m.firstAlignedAddress + (next + 1) * m.alignedBlockSize }) := by
          unfold interateBlock
          rw [if_neg (by omega), ← hself]
          dsimp only
          rw [hsucc, uint32_of_lt (by omega)]
        have hrest := ih
          (m := { m with alignedAddress := m.firstAlignedAddress + (next + 1) * m.alignedBlockSize })
          ⟨h.first, h.block, h.pos, h.fills⟩ hlt rfl
        rw [interate, hstep, List.range_succ_eq_map, List.map_cons, List.map_map, Nat.add_zero next,
          if_pos hlt, h.getBlock hlt, ← hat]
        refine congrArg _ (hrest.trans (List.map_congr_left fun index _ => ?_))
        simp only [Function.comp_apply, Nat.succ_eq_add_one, Nat.add_assoc, Nat.add_comm 1 index]
        rfl
      · have hended : m.endAddress ≤ m.alignedAddress := by
          rw [hat, hlast, h.fills]
        rw [interate_ended hended]
        refine List.map_congr_left fun index _ => ?_
        rw [if_neg (by omega)]

theorem interate_fresh {fresh : MemoryAllocatorRaw}
    (h : fresh = init t region ∨ ∃ used, Used t (init t region) used ∧ fresh = used.reset) :
    fresh = init t region := by
  rcases h with h | ⟨used, hused, h⟩
  · exact h
  · exact h.trans (reset_used hused)

-- In the aligned start lies no byte of the region.
theorem agree_of_no_room
    (h : (init t region).endAddress ≤ (init t region).firstAlignedAddress) :
    ViewsAgree t region := by
  have hzero := elements_eq_zero h
  have hnone : ∀ index, (init t region).Addressable index →
      (init t region).getBlock index = none := by
    intro index hindex
    rw [getBlock_eq hindex, if_pos (Nat.le_trans h (Nat.le_add_right _ _))]
  refine ⟨?_, ?_, ?_, ?_⟩
  · intro index hindex
    simp [hnone index hindex, hzero]
  · intro index block hindex hblock
    rw [hnone index hindex] at hblock
    cases hblock
  · intro fresh hfresh calls
    rw [interate_fresh hfresh, interate_ended h]
    exact List.map_congr_left fun index _ => by rw [hzero, if_neg (Nat.not_lt_zero _)]
  · intro block hblock
    rw [blockBelongs_iff hblock (.inr hzero), hzero, Nat.zero_mul, Nat.add_zero]
    constructor
    · rintro ⟨hstart, hlt, hdvd⟩
      by_cases hwrap : region.startAddress + (t.alignment - 1) < 2 ^ 32
      · have hle := alignUp_le t.alignment_pos hdvd hstart
        rw [first_eq hwrap] at hlt
        exact absurd hlt (Nat.not_lt.mpr hle)
      · rw [first_wrapped hwrap] at hlt
        exact absurd hlt (Nat.not_lt_zero _)
    · rintro ⟨index, hlt, -⟩
      exact absurd hlt (Nat.not_lt_zero _)

theorem agree_of_tiled (h : Tiled t (init t region))
    (hstart : region.startAddress ≤ (init t region).firstAlignedAddress)
    (hblock : (init t region).alignedBlockSize = t.alignment) : ViewsAgree t region := by
  have hfirst : (init t region).firstAlignedAddress ≤ (init t region).endAddress :=
    h.fills ▸ Nat.le_add_right _ _
  refine ⟨?_, ?_, ?_, ?_⟩
  · intro index hindex
    rw [getBlock_isSome_iff hindex, h.address_lt_iff]
  · intro index block hindex hget
    have hlt : index < (init t region).nAlignedElements := by
      rw [← h.address_lt_iff, ← getBlock_isSome_iff hindex, hget]
      rfl
    rw [h.getBlock hlt, Option.some.injEq] at hget
    have hfills := h.fills
    have hend := endAddress_le t region
    have hmul := Nat.mul_le_mul_right (init t region).alignedBlockSize
      (show index + 1 ≤ (init t region).nAlignedElements from hlt)
    rw [Nat.add_mul, Nat.one_mul] at hmul
    refine ⟨hget ▸ dvd_address index, ?_, ?_⟩
    · omega
    · omega
  · intro fresh hfresh calls
    rw [interate_fresh hfresh, h.interate_from calls (Nat.zero_le _)
      (show _ = _ + 0 * _ by rw [Nat.zero_mul]; rfl)]
    exact List.map_congr_left fun index _ => by rw [Nat.zero_add]
  · intro block hlt
    rw [blockBelongs_iff hlt (.inl hfirst), ← h.fills]
    constructor
    · rintro ⟨hle, hend, hdvd⟩
      obtain ⟨index, hindex⟩ : ∃ index, block = (init t region).firstAlignedAddress +
          index * (init t region).alignedBlockSize := by
        have hbelow : (init t region).firstAlignedAddress ≤ block := by
          by_cases hwrap : region.startAddress + (t.alignment - 1) < 2 ^ 32
          · rw [first_eq hwrap]
            exact alignUp_le t.alignment_pos hdvd hle
          · rw [first_wrapped hwrap]
            exact Nat.zero_le _
        obtain ⟨index, hindex⟩ := (Nat.dvd_sub_iff_left hbelow dvd_first).mpr hdvd
        refine ⟨index, ?_⟩
        rw [hblock, Nat.mul_comm index, ← hindex]
        omega
      have hnumber := (h.address_lt_iff index).mp (hindex ▸ hend)
      exact ⟨index, hnumber, hindex ▸ h.getBlock hnumber⟩
    · rintro ⟨index, hnumber, hget⟩
      rw [h.getBlock hnumber, Option.some.injEq] at hget
      have haddr := (h.address_lt_iff index).mpr hnumber
      rw [hget] at haddr
      refine ⟨?_, haddr, hget ▸ dvd_address index⟩
      omega

-- With an aligned address inside the region the views agree only if the blocks
-- are as large as the alignment and fill the region.
theorem ViewsAgree.tiled (h : ViewsAgree t region)
    (hroom : (init t region).firstAlignedAddress < (init t region).endAddress) :
    (init t region).alignedBlockSize = t.alignment ∧
      region.startAddress ≤ (init t region).firstAlignedAddress ∧
      (init t region).endAddress = (init t region).firstAlignedAddress +
        (init t region).nAlignedElements * (init t region).alignedBlockSize := by
  have hfit := elements_fit t region
  have hend := (init t region).endAddress_lt
  have haddr := elements_addressable (Nat.le_refl _) (Nat.le_of_lt hroom)
  have hfills : (init t region).endAddress = (init t region).firstAlignedAddress +
      (init t region).nAlignedElements * (init t region).alignedBlockSize := by
    have hnot := mt (h.getBlock_iff _ haddr).mp (Nat.lt_irrefl _)
    rw [getBlock_isSome_iff haddr] at hnot
    omega
  have hpos : 0 < (init t region).nAlignedElements * (init t region).alignedBlockSize := by omega
  have hcount := Nat.pos_of_mul_pos_right hpos
  have hsize := Nat.pos_of_mul_pos_left hpos
  have hzero := elements_addressable (Nat.zero_le _) (Nat.le_of_lt hroom)
  have hstart : region.startAddress ≤ (init t region).firstAlignedAddress := by
    have hget : (init t region).getBlock 0 = some (init t region).firstAlignedAddress := by
      rw [getBlock_eq hzero, Nat.zero_mul, Nat.add_zero, if_neg (by omega)]
    exact (h.getBlock_inside 0 _ hzero hget).2.1
  refine ⟨?_, hstart, hfills⟩
  -- The second aligned address must be a block of its own.
  have hle := Nat.le_of_dvd hsize dvd_block
  refine Nat.le_antisymm (Nat.not_lt.mp fun hlt => ?_) hle
  have hone := Nat.mul_le_mul_right (init t region).alignedBlockSize hcount
  rw [Nat.one_mul] at hone
  have hbelongs := (blockBelongs_iff
    (show (init t region).firstAlignedAddress + t.alignment < 2 ^ 32 by omega)
    (.inl (Nat.le_of_lt hroom))).mpr
      ⟨by omega, by omega, Nat.dvd_add dvd_first (Nat.dvd_refl _)⟩
  obtain ⟨index, hnumber, hget⟩ := (h.belongs_iff _ (by omega)).mp hbelongs
  have hindex := elements_addressable (Nat.le_of_lt hnumber) (Nat.le_of_lt hroom)
  rw [getBlock_eq hindex] at hget
  split at hget
  · cases hget
  · rw [Option.some.injEq, Nat.add_left_cancel_iff] at hget
    have hapos := t.alignment_pos
    rcases Nat.eq_zero_or_pos index with rfl | hindexpos
    · omega
    · have := Nat.mul_le_mul_right (init t region).alignedBlockSize hindexpos
      omega

theorem endAddress_eq (h : region.startAddress + region.size ≠ 2 ^ 32) :
    (init t region).endAddress = region.startAddress + region.size :=
  uint32_of_lt (Nat.lt_of_le_of_ne region.no_wrap h)

theorem endAddress_top (h : region.startAddress + region.size = 2 ^ 32) :
    (init t region).endAddress = 0 := by
  unfold endAddress uint32 init
  dsimp only
  omega

theorem block_eq_alignment_iff (region : Region) :
    (init t region).alignedBlockSize = t.alignment ↔ t.blockSize ≤ t.alignment := by
  have hpos := t.alignment_pos
  have hle := t.alignment_le
  have hsize := alignUp_eq_self_iff hpos t.blockSize_pos
  simp only [init, t.alignBlockSize_eq]
  split
  · exact hsize
  · omega

-- The region ends with the address space, or holds no aligned address, or is
-- made of whole blocks of the alignment's size.
theorem views_agree_iff : ViewsAgree t region ↔
    region.startAddress + region.size = 2 ^ 32 ∨
      region.startAddress + (t.alignment - 1) < 2 ^ 32 ∧
        region.startAddress + region.size ≤ alignUp region.startAddress t.alignment ∨
      t.blockSize ≤ t.alignment ∧ t.alignment ∣ region.startAddress + region.size := by
  have ha := t.alignment_pos
  constructor
  · intro h
    by_cases htop : region.startAddress + region.size = 2 ^ 32
    · exact .inl htop
    have hend := endAddress_eq (t := t) htop
    rcases Nat.lt_or_ge (init t region).firstAlignedAddress (init t region).endAddress with hlt | hge
    · obtain ⟨hblock, -, hfills⟩ := h.tiled hlt
      rw [hend] at hfills
      exact .inr (.inr ⟨(block_eq_alignment_iff region).mp hblock, hfills ▸ dvd_address _⟩)
    · by_cases hwrap : region.startAddress + (t.alignment - 1) < 2 ^ 32
      · rw [hend, first_eq hwrap] at hge
        exact .inr (.inl ⟨hwrap, hge⟩)
      · rw [hend, first_wrapped hwrap] at hge
        have hle := t.alignment_le
        omega
  · rintro (htop | ⟨hwrap, hroom⟩ | ⟨hsize, hdvd⟩)
    · exact agree_of_no_room (by rw [endAddress_top htop]; exact Nat.zero_le _)
    · refine agree_of_no_room (Nat.le_trans (endAddress_le t region) ?_)
      rw [first_eq hwrap]
      exact hroom
    · by_cases htop : region.startAddress + region.size = 2 ^ 32
      · exact agree_of_no_room (by rw [endAddress_top htop]; exact Nat.zero_le _)
      have hlt : region.startAddress + region.size < 2 ^ 32 :=
        Nat.lt_of_le_of_ne region.no_wrap htop
      have hunit := t.add_alignment_le hlt hdvd
      have hwrap : region.startAddress + (t.alignment - 1) < 2 ^ 32 := by omega
      have hend := endAddress_eq (t := t) htop
      have hfirst : (init t region).firstAlignedAddress ≤ (init t region).endAddress := by
        rw [hend, first_eq hwrap]
        exact alignUp_le ha hdvd (Nat.le_add_right _ _)
      have hblock := (block_eq_alignment_iff region).mpr hsize
      have hwhole : t.alignment ∣ (init t region).endAddress - (init t region).firstAlignedAddress :=
        Nat.dvd_sub (hend ▸ hdvd) dvd_first
      have hcount := Nat.div_mul_cancel hwhole
      refine agree_of_tiled ⟨dvd_first, dvd_block, hblock ▸ ha, ?_⟩ (start_le_first hwrap) hblock
      rw [nAlignedElements_eq, hblock, hcount]
      omega

-- 20 bytes in blocks of 8: the third block sticks out of the region by 4.
theorem last_block_cut : ¬ViewsAgree ⟨8, 8, by decide, by decide, 3, by decide, by decide⟩
    ⟨0x20000000, 20, by decide, by decide, by decide⟩ := by
  intro h
  have hthird := h.getBlock_iff 2 (show 0x20000000 + 2 * 8 < 2 ^ 32 by decide)
  exact absurd (hthird.mp (by decide)) (by decide)

end MemoryAllocatorRaw

end Carbon
