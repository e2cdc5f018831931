import Carbon.Heap.Allocate

namespace Carbon.Heap

open FreeList Alignment

-- What a region contributes: its aligned part less the end marker.
def area (region : HeapRegion_t) : Block :=
  ⟨alignUp region.pucStartAddress 8,
    (region.pucStartAddress + region.xSizeInBytes - 8) / 8 * 8 - alignUp region.pucStartAddress 8⟩

-- Memory that can be a region: an object of its own in the address space, with room for a
-- block and the end marker. The order of the regions is checked by the code.
structure Usable (xStart : Nat) (region : HeapRegion_t) : Prop where
  pos : 0 < region.pucStartAddress
  room : alignUp region.pucStartAddress 8 + 16 ≤ region.pucStartAddress + region.xSizeInBytes
  bound : region.pucStartAddress + region.xSizeInBytes ≤ 2 ^ 32
  size : region.xSizeInBytes ≤ 2 ^ 31
  head : region.pucStartAddress + region.xSizeInBytes ≤ xStart ∨ xStart + 8 ≤ region.pucStartAddress

-- The entries in front of the one that ends the array.
def areas (regions : List HeapRegion_t) : List Block :=
  (regions.takeWhile fun region => 0 < region.xSizeInBytes).map area

-- The blocks of further regions, each behind the end marker of the one before it.
def marked (pxEnd : Nat) : List Block → List Block
  | [] => []
  | a :: rest => ⟨pxEnd, 0⟩ :: a :: marked a.stop rest

variable {s s' : State} {x e : Nat} {region : HeapRegion_t} {regions : List HeapRegion_t}
  {bs : List Block} {word : Memory}

theorem cells_empty : Block.cells ⟨e, 0⟩ = ∅ := by
  refine Set.eq_empty_of_forall_notMem fun y hy => ?_
  obtain ⟨hstart, hstop⟩ := Block.mem_cells.mp hy
  exact absurd hstop (Nat.not_lt.mpr hstart)

@[simp] theorem cells_marked (as : List Block) : cells (marked e as) = cells as := by
  induction as generalizing e with
  | nil => rfl
  | cons a rest ih => simp [marked, ih, cells_empty]

@[simp] theorem total_marked (as : List Block) : total (marked e as) = total as := by
  induction as generalizing e with
  | nil => rfl
  | cons a rest ih => simp [marked, ih]

theorem sublist_marked (as : List Block) : as.Sublist (marked e as) := by
  induction as generalizing e with
  | nil => exact List.Sublist.refl []
  | cons a rest ih => exact (ih.cons_cons a).cons _

theorem areas_cons (h : 0 < region.xSizeInBytes) :
    areas (region :: regions) = area region :: areas regions := by
  simp [areas, h]

theorem areas_end (h : ¬0 < region.xSizeInBytes) : areas (region :: regions) = [] := by
  simp [areas, h]

theorem clearMask {y : Nat} (h : y < 2 ^ 32) : y &&& uint32Not portBYTE_ALIGNMENT_MASK = y / 8 * 8 :=
  and_mask (w := 32) (k := 3) h (by decide)

theorem Usable.alignRegion (h : Usable x region) : alignRegion region =
    ((area region).start, region.pucStartAddress + region.xSizeInBytes - (area region).start) := by
  obtain ⟨hpos, hroom, hbound, hsize, hhead⟩ := h
  unfold Heap.alignRegion area portBYTE_ALIGNMENT
  simp only [and_alignmentMask]
  unfold alignUp at *
  split
  · have hup : uint32 (region.pucStartAddress + (8 - 1)) = region.pucStartAddress + 7 :=
      uint32_of_lt (by omega)
    rw [hup, clearMask (by omega),
      uint32Sub_of_le (a := (region.pucStartAddress + 7) / 8 * 8) (by omega) (by omega),
      uint32Sub_of_le (by omega) (by omega)]
    refine Prod.ext rfl ?_
    simp only
    omega
  · refine Prod.ext ?_ ?_ <;> simp only <;> omega

theorem Usable.stop (h : Usable x region) :
    (area region).stop = (region.pucStartAddress + region.xSizeInBytes - 8) / 8 * 8 := by
  obtain ⟨hpos, hroom, hbound, hsize, hhead⟩ := h
  unfold area Block.stop
  unfold alignUp at *
  simp only
  omega

-- The address of the end marker.
theorem Usable.marker (h : Usable x region) :
    uint32Sub
      (uint32 ((area region).start +
        (region.pucStartAddress + region.xSizeInBytes - (area region).start)))
      xHeapStructSize &&& uint32Not portBYTE_ALIGNMENT_MASK = (area region).stop := by
  rw [h.stop]
  obtain ⟨hpos, hroom, hbound, hsize, hhead⟩ := h
  have hstart : (area region).start = alignUp region.pucStartAddress 8 := rfl
  have hsub : uint32Sub (uint32 (region.pucStartAddress + region.xSizeInBytes)) xHeapStructSize =
      region.pucStartAddress + region.xSizeInBytes - 8 := by
    unfold uint32Sub uint32 xHeapStructSize
    omega
  rw [hstart, Nat.add_sub_cancel' (by omega), hsub, clearMask (by omega)]

theorem Usable.extent (h : Usable x region) :
    8 ∣ (area region).start ∧ 8 ∣ (area region).stop ∧ 0 < (area region).start ∧
    (area region).start + 8 ≤ (area region).stop ∧ (area region).stop + 8 ≤ 2 ^ 32 ∧
    (area region).size < 2 ^ 31 ∧
    ((area region).stop + 8 ≤ x ∨ x + 8 ≤ (area region).start) := by
  have hstop := h.stop
  have hstart : (area region).start = alignUp region.pucStartAddress 8 := rfl
  have hsize : (area region).stop = (area region).start + (area region).size := rfl
  obtain ⟨hpos, hroom, hbound, hsize, hhead⟩ := h
  unfold alignUp at *
  omega

theorem configASSERT_inv {p : Prop} [Decidable p] {u : Unit} (h : configASSERT p = some u) : p := by
  unfold configASSERT at h
  split at h
  · exact of_decide_eq_true ‹_›
  · cases h

-- The memory with a region placed.
def withRegion (word : Memory) (pxPreviousFreeBlock : Nat) (a : Block) : Memory :=
  let word := (word.setSize a.stop 0).setNext a.stop 0
  let word := (word.setSize a.start a.size).setNext a.start a.stop
  if pxPreviousFreeBlock ≠ 0 then word.setNext pxPreviousFreeBlock a.start else word

theorem placeRegion_eq (h : Usable x region) :
    placeRegion s (area region).start
        (region.pucStartAddress + region.xSizeInBytes - (area region).start) =
      { s with word := withRegion s.word s.pxEnd (area region), pxEnd := (area region).stop } := by
  have hsize : uint32Sub (area region).stop (area region).start = (area region).size := by
    have hsub : (area region).stop = (area region).start + (area region).size := rfl
    have harea := h.extent
    rw [uint32Sub_of_le (by omega) (by omega), hsub, Nat.add_sub_cancel_left]
  unfold placeRegion withRegion
  simp only [h.marker, hsize]

theorem defineRegions_end {n t : Nat} (h : ¬0 < region.xSizeInBytes) :
    defineRegions s n t (region :: regions) = some (s, t) := by
  rw [defineRegions, if_neg h]

theorem defineRegions_next {n t : Nat} (h : Usable x region) (hpos : 0 < region.xSizeInBytes) :
    defineRegions s n t (region :: regions) =
      (checkRegion s n (area region).start).bind fun s =>
        defineRegions
          { s with word := withRegion s.word s.pxEnd (area region), pxEnd := (area region).stop }
          (n + 1) (uint32 (t + (withRegion s.word s.pxEnd (area region)).xBlockSize (area region).start))
          regions := by
  rw [defineRegions, if_pos hpos, h.alignRegion]
  simp only [placeRegion_eq h]

theorem chain_last {p last : Nat} (h : Chain word p bs last) :
    word.pxNextFreeBlock (lastLink p bs) = last := by
  have hall : Chain word p (bs ++ []) last := by rwa [List.append_nil]
  exact (chain_append.mp hall).2

section WithRegion

variable {a : Block}

theorem withRegion_stop (word : Memory) (hsize : a.start + 8 ≤ a.stop) (he : e + 8 ≤ a.start) :
    (withRegion word e a).pxNextFreeBlock a.stop = 0 ∧
    (withRegion word e a).xBlockSize a.stop = 0 := by
  unfold withRegion Memory.setNext Memory.setSize Memory.set Memory.pxNextFreeBlock Memory.xBlockSize
  split <;> grind

theorem withRegion_start (word : Memory) (he : e + 8 ≤ a.start) :
    (withRegion word e a).pxNextFreeBlock a.start = a.stop ∧
    (withRegion word e a).xBlockSize a.start = a.size := by
  unfold withRegion Memory.setNext Memory.setSize Memory.set Memory.pxNextFreeBlock Memory.xBlockSize
  split <;> grind

theorem withRegion_link (hpos : 0 < e) :
    (withRegion word e a).pxNextFreeBlock e = a.start := by
  unfold withRegion
  rw [if_pos (Nat.ne_of_gt hpos)]
  exact Memory.next_setNext

theorem withRegion_other {y : Nat} (hsize : a.start + 8 ≤ a.stop) (hy : y < a.start ∨ a.stop + 8 ≤ y)
    (he : e ≠ 0 → y ≠ e) : withRegion word e a y = word y := by
  unfold withRegion Memory.setNext Memory.setSize Memory.set
  split <;> grind

end WithRegion

-- Where a region may lie.
structure Fits (xStart : Nat) (a : Block) : Prop where
  start : 8 ∣ a.start
  size : 8 ∣ a.size
  pos : 8 ≤ a.size
  bound : a.stop + 8 ≤ 2 ^ 32
  head : a.stop + 8 ≤ xStart ∨ xStart + 8 ≤ a.start

theorem Placed.mono {b : Block} {e' : Nat} (h : Placed x e b) (he : e ≤ e') : Placed x e' b :=
  ⟨h.start, h.size, h.pos, Nat.lt_of_lt_of_le h.before he, Nat.le_trans h.stop he, h.head⟩

-- The old end marker becomes a link to the block of the new region.
theorem Listed.addRegion_chain {a : Block} (h : Listed s bs) (ha : Fits s.xStart a)
    (horder : s.pxEnd < a.start) :
    Chain (withRegion s.word s.pxEnd a) s.xStart (bs ++ [⟨s.pxEnd, 0⟩, a]) a.stop ∧
      (withRegion s.word s.pxEnd a).xBlockSize s.xStart = 0 := by
  obtain ⟨hstart, hdvd, hpos, hbound, hfar⟩ := ha
  have haligned := h.endAligned
  have hend := h.endPos
  have hendx := h.endApart
  have hstop : a.stop = a.start + a.size := rfl
  have hsize : a.start + 8 ≤ a.stop := by omega
  have hgap : s.pxEnd + 8 ≤ a.start := by omega
  unfold HeaderApart at hendx
  have hother : ∀ y, y < s.pxEnd ∨ s.pxEnd + 4 ≤ y ∧ y < a.start ∨ a.stop + 8 ≤ y →
      withRegion s.word s.pxEnd a y = s.word y :=
    fun y hy => withRegion_other hsize (by omega) (by omega)
  have hnext : (withRegion s.word s.pxEnd a).pxNextFreeBlock s.xStart =
      s.word.pxNextFreeBlock s.xStart := hother _ (by omega)
  have hblocks : ∀ b ∈ bs,
      (withRegion s.word s.pxEnd a).pxNextFreeBlock b.start = s.word.pxNextFreeBlock b.start ∧
      (withRegion s.word s.pxEnd a).xBlockSize b.start = s.word.xBlockSize b.start := by
    intro b hb
    have hb' := (h.placed b hb).endApart haligned
    have hbefore := (h.placed b hb).before
    unfold HeaderApart at hb'
    exact ⟨hother _ (by omega), hother _ (by omega)⟩
  have hchain : Chain (withRegion s.word s.pxEnd a) s.xStart bs s.pxEnd := h.chain.congr hnext hblocks
  obtain ⟨hnextstart, hsizestart⟩ := withRegion_start s.word hgap
  have hmarker : (withRegion s.word s.pxEnd a).xBlockSize s.pxEnd = 0 :=
    (hother (s.pxEnd + 4) (by omega)).trans h.endSize
  have hhead : (withRegion s.word s.pxEnd a).xBlockSize s.xStart = 0 :=
    (hother (s.xStart + 4) (by omega)).trans h.startSize
  exact ⟨chain_append.mpr ⟨hchain, chain_last hchain, hmarker, withRegion_link hend, hsizestart,
    hnextstart⟩, hhead⟩

theorem Listed.addRegion_separate {a : Block} (h : Listed s bs) (horder : s.pxEnd < a.start) :
    (bs ++ [⟨s.pxEnd, 0⟩, a]).Pairwise Block.Separate := by
  have hfirst : Block.Separate ⟨s.pxEnd, 0⟩ a :=
    ⟨horder, Nat.le_of_lt horder, fun hlt => absurd hlt (Nat.lt_irrefl 0)⟩
  refine List.pairwise_append.mpr ⟨h.separate, by simpa using hfirst, fun b hb c hc => ?_⟩
  have hstart := (h.placed b hb).before
  have hstop := (h.placed b hb).stop
  rcases List.mem_cons.mp hc with rfl | hc
  · exact ⟨hstart, hstop, fun _ hlt => absurd hlt (Nat.lt_irrefl 0)⟩
  · rw [List.mem_singleton.mp hc]
    exact ⟨by omega, by omega, fun _ _ => by omega⟩

theorem Listed.addRegion_placed {a : Block} (h : Listed s bs) (ha : Fits s.xStart a)
    (horder : s.pxEnd < a.start) : ∀ b ∈ bs ++ [⟨s.pxEnd, 0⟩, a], Placed s.xStart a.stop b := by
  obtain ⟨hstart, hdvd, hpos, hbound, hhead⟩ := ha
  have hend := h.endPos
  have hendx := h.endApart
  have haligned := h.endAligned
  have hstop : a.stop = a.start + a.size := rfl
  unfold HeaderApart at hendx
  have hmarkerplaced : Placed s.xStart a.stop ⟨s.pxEnd, 0⟩ :=
    ⟨haligned, by simp, hend, by simp only; omega, by simp only [Block.stop]; omega,
      by simp only [Block.stop]; omega⟩
  have haplaced : Placed s.xStart a.stop a :=
    ⟨hstart, hdvd, by omega, by omega, Nat.le_refl _, by omega⟩
  exact List.forall_mem_append.mpr ⟨fun b hb => (h.placed b hb).mono (by omega),
    List.forall_mem_cons.mpr ⟨hmarkerplaced, by simpa using haplaced⟩⟩

-- The list with one more region.
theorem Listed.addRegion {a : Block} (h : Listed s bs) (ha : Fits s.xStart a)
    (horder : s.pxEnd < a.start) :
    Listed { s with word := withRegion s.word s.pxEnd a, pxEnd := a.stop }
      (bs ++ [⟨s.pxEnd, 0⟩, a]) := by
  have hplaced := h.addRegion_placed ha horder
  obtain ⟨hchain, hhead⟩ := h.addRegion_chain ha horder
  obtain ⟨hstart, hdvd, hpos, hbound, hfar⟩ := ha
  have haligned := h.endAligned
  have hstop : a.stop = a.start + a.size := rfl
  obtain ⟨hnextstop, hsizestop⟩ := withRegion_stop s.word (e := s.pxEnd) (a := a) (by omega) (by omega)
  exact {
    chain := hchain
    separate := h.addRegion_separate horder
    placed := hplaced
    startSize := hhead
    startBound := h.startBound
    endSize := hsizestop
    endNext := hnextstop
    endPos := by simp only; omega
    endAligned := by simp only; omega
    endBound := hbound
    endApart := by unfold HeaderApart; simp only; omega }

theorem Usable.fits (h : Usable x region) : Fits x (area region) := by
  obtain ⟨hstart, hstop, hpos, hsize, hbound, hsmall, hhead⟩ := h.extent
  have hdef : (area region).stop = (area region).start + (area region).size := rfl
  exact ⟨hstart, by omega, by omega, hbound, hhead⟩

-- The list of the first region, behind an empty list head.
theorem listed_first {a : Block} (word : Memory) (ha : Fits s.xStart a) (hpos : 0 < a.start)
    (hx : s.xStart + 8 ≤ 2 ^ 32)
    (hnext : word.pxNextFreeBlock s.xStart = a.start) (hsize : word.xBlockSize s.xStart = 0) :
    Listed { s with word := withRegion word 0 a, pxEnd := a.stop } [a] := by
  obtain ⟨hstart, hdvd, hlarge, hbound, hhead⟩ := ha
  have hstop : a.stop = a.start + a.size := rfl
  have hother : ∀ y, y < a.start ∨ a.stop + 8 ≤ y → withRegion word 0 a y = word y :=
    fun y hy => withRegion_other (by omega) hy (by omega)
  obtain ⟨hnextstop, hsizestop⟩ := withRegion_stop (e := 0) (a := a) word (by omega) (by omega)
  obtain ⟨hnextstart, hsizestart⟩ := withRegion_start (e := 0) (a := a) word (by omega)
  have haplaced : Placed s.xStart a.stop a := ⟨hstart, hdvd, hpos, by omega, Nat.le_refl _, by omega⟩
  exact {
    chain := ⟨(hother s.xStart (by omega)).trans hnext, hsizestart, hnextstart⟩
    separate := by simp
    placed := by simpa using haplaced
    startSize := (hother (s.xStart + 4) (by omega)).trans hsize
    startBound := hx
    endSize := hsizestop
    endNext := hnextstop
    endPos := by simp only; omega
    endAligned := by simp only; omega
    endBound := hbound
    endApart := by unfold HeaderApart; simp only; omega }

-- What the regions leave as it is.
structure SameCalls (s s' : State) : Prop where
  xStart : s'.xStart = s.xStart
  allocations : s'.xNumberOfSuccessfulAllocations = s.xNumberOfSuccessfulAllocations
  frees : s'.xNumberOfSuccessfulFrees = s.xNumberOfSuccessfulFrees

-- The rest of the regions, with what they add to the list and to the total.
theorem defineRegions_listed {n t t' : Nat}
    (husable : ∀ r ∈ regions, 0 < r.xSizeInBytes → Usable s.xStart r) (hn : n ≠ 0)
    (h : Listed s bs) (hrun : defineRegions s n t regions = some (s', t')) :
    Listed s' (bs ++ marked s.pxEnd (areas regions)) ∧ SameCalls s s' ∧
      t' = (areas regions).foldl (fun t a => uint32 (t + a.size)) t := by
  induction regions generalizing s bs n t with
  | nil => cases hrun
  | cons region rest ih =>
      obtain ⟨hfirst, hrest⟩ := List.forall_mem_cons.mp husable
      by_cases hpos : 0 < region.xSizeInBytes
      · have hregion := hfirst hpos
        rw [defineRegions_next hregion hpos, checkRegion, if_neg hn] at hrun
        obtain ⟨s₁, hcheck, hrun⟩ := Option.bind_eq_some_iff.mp hrun
        obtain ⟨_, -, hcheck⟩ := Option.bind_eq_some_iff.mp hcheck
        obtain ⟨_, horder, hs⟩ := Option.map_eq_some_iff.mp hcheck
        subst hs
        have horder := configASSERT_inv horder
        have hend := h.endAligned
        have hstart := hregion.extent.1
        rw [(withRegion_start _ (by omega)).2] at hrun
        obtain ⟨hlisted, hcalls, htotal⟩ :=
          ih (s := { s with word := withRegion s.word s.pxEnd (area region), pxEnd := (area region).stop })
            hrest (Nat.succ_ne_zero n) (h.addRegion hregion.fits horder) hrun
        rw [areas_cons hpos]
        exact ⟨by simpa [marked] using hlisted, ⟨hcalls.xStart, hcalls.allocations, hcalls.frees⟩,
          htotal⟩
      · rw [defineRegions_end hpos] at hrun
        cases hrun
        rw [areas_end hpos]
        exact ⟨by simpa [marked] using h, ⟨rfl, rfl, rfl⟩, rfl⟩

theorem foldl_total {as : List Block} {t : Nat} (h : t + total as < 2 ^ 32) :
    as.foldl (fun t a => uint32 (t + a.size)) t = t + total as := by
  induction as generalizing t with
  | nil => rfl
  | cons a rest ih =>
      rw [total_cons] at h
      rw [List.foldl_cons, uint32_of_lt (by omega), ih (by omega), total_cons, Nat.add_assoc]

-- What vPortDefineHeapRegions leaves: one free block for each region, and the accounts
-- of all of them.
theorem vPortDefineHeapRegions_listed
    (husable : ∀ r ∈ regions, 0 < r.xSizeInBytes → Usable s.xStart r)
    (hx : s.xStart + 8 ≤ 2 ^ 32) (hrun : vPortDefineHeapRegions s regions = some s') :
    ∃ free, Listed s' free ∧ cells free = cells (areas regions) ∧ total free = total (areas regions) ∧
      (areas regions).Sublist free ∧ s'.xFreeBytesRemaining = total free ∧
      s'.xMinimumEverFreeBytesRemaining = total free ∧ s'.xBlockAllocatedBit = 2 ^ 31 ∧
      SameCalls s s' := by
  unfold vPortDefineHeapRegions at hrun
  obtain ⟨_, hfresh, hrun⟩ := Option.bind_eq_some_iff.mp hrun
  obtain ⟨⟨s₁, t⟩, hdefine, hrun⟩ := Option.bind_eq_some_iff.mp hrun
  obtain ⟨_, htotal, hs⟩ := Option.map_eq_some_iff.mp hrun
  have hfresh := configASSERT_inv hfresh
  have htotal := configASSERT_inv htotal
  subst hs
  cases regions with
  | nil => cases hdefine
  | cons region rest =>
      obtain ⟨hfirst, hrest⟩ := List.forall_mem_cons.mp husable
      by_cases hpos : 0 < region.xSizeInBytes
      · have hregion := hfirst hpos
        obtain ⟨hstart, -, harea, -⟩ := hregion.extent
        rw [defineRegions_next hregion hpos, checkRegion, if_pos rfl, Option.bind_some] at hdefine
        simp only [hfresh] at hdefine
        rw [(withRegion_start _ (by omega)).2] at hdefine
        have hlist :=
          listed_first (s := s) ((s.word.setNext s.xStart (area region).start).setSize s.xStart 0)
            hregion.fits harea hx (by simp) (by simp)
        obtain ⟨hlisted, hcalls, ht⟩ := defineRegions_listed
          (s := { s with
            word := withRegion ((s.word.setNext s.xStart (area region).start).setSize s.xStart 0) 0
              (area region)
            pxEnd := (area region).stop })
          hrest (Nat.succ_ne_zero 0) hlist hdefine
        have hsum : total ([area region] ++ marked (area region).stop (areas rest)) =
            total (areas (region :: rest)) := by
          rw [areas_cons hpos]
          simp
        have hend := hlisted.endBound
        have hle := total_le_end hlisted
        rw [hsum, areas_cons hpos, total_cons] at hle
        rw [Nat.zero_add, uint32_of_lt (by omega), foldl_total (by omega)] at ht
        refine ⟨[area region] ++ marked (area region).stop (areas rest), { hlisted with }, ?_, hsum,
          ?_, ?_, ?_, rfl, ⟨hcalls.xStart, hcalls.allocations, hcalls.frees⟩⟩
        · rw [areas_cons hpos]
          simp
        · rw [areas_cons hpos]
          exact (sublist_marked (areas rest)).cons_cons (area region)
        · rw [hsum, areas_cons hpos, total_cons]
          exact ht
        · rw [hsum, areas_cons hpos, total_cons]
          exact ht
      · rw [defineRegions_end hpos] at hdefine
        cases hdefine
        exact absurd rfl htotal

end Carbon.Heap
