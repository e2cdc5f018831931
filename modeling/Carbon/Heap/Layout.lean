import Carbon.Heap.Regions

namespace Carbon.Heap

open FreeList

-- The stretches of memory a heap is made of.
structure Ground (ground : List Block) : Prop where
  separate : ground.Pairwise Block.Separate
  small : ∀ a ∈ ground, a.size < 2 ^ 31
  bound : total ground < 2 ^ 32

-- The heap cut into the blocks of the free list and those that tasks hold.
structure Layout (ground : List Block) (s : State) (free held : List Block) : Prop where
  listed : Listed s free
  bit : s.xBlockAllocatedBit = 2 ^ 31
  remaining : s.xFreeBytesRemaining = total free
  covers : cells free ∪ cells held = cells ground
  sum : total free + total held = total ground
  placed : ∀ b ∈ held, Placed s.xStart s.pxEnd b ∧ 16 ≤ b.size
  apart : held.Pairwise Block.Apart
  freeApart : ∀ b ∈ held, ∀ c ∈ free, b.Apart c

variable {ground free held held' : List Block} {s : State} {b : Block} {x : Nat} {word : Memory}

theorem total_perm (h : held.Perm held') : total held = total held' := (h.map Block.size).sum_eq

theorem cells_perm (h : held.Perm held') : cells held = cells held' := by
  ext y
  exact exists_congr fun b => and_congr_left fun _ => h.mem_iff

theorem Layout.perm (h : Layout ground s free held) (hperm : held.Perm held') :
    Layout ground s free held' where
  listed := h.listed
  bit := h.bit
  remaining := h.remaining
  covers := by rw [← cells_perm hperm]; exact h.covers
  sum := by rw [← total_perm hperm]; exact h.sum
  placed := fun b hb => h.placed b (hperm.mem_iff.mpr hb)
  apart := (hperm.pairwise_iff fun h => Block.Apart.symm h).mp h.apart
  freeApart := fun b hb => h.freeApart b (hperm.mem_iff.mpr hb)

-- A block that is part of the heap lies within one stretch.
theorem size_lt_of_subset (hground : Ground ground) (hpos : 0 < b.size)
    (h : b.cells ⊆ cells ground) : b.size < 2 ^ 31 := by
  have hrun : Run (cells ground) b.start b.size := fun y hy hlt => h ⟨hy, hlt⟩
  obtain ⟨a, ha, hstart, hstop⟩ := run_in_block hground.separate hpos hrun
  have hsmall := hground.small a ha
  unfold Block.stop at hstop
  omega

theorem Layout.held_small (h : Layout ground s free held) (hground : Ground ground) (hb : b ∈ held) :
    b.size < 2 ^ 31 := by
  have hsize := (h.placed b hb).2
  refine size_lt_of_subset hground (by omega) fun y hy => ?_
  rw [← h.covers]
  exact .inr ⟨b, hb, hy⟩

-- The words of a block.
def SameCells (b : Block) (word word' : Memory) : Prop := ∀ a ∈ b.cells, word' a = word a

theorem SameCells.next {word' : Memory} (h : SameCells b word word') (hsize : 16 ≤ b.size) :
    word'.pxNextFreeBlock b.start = word.pxNextFreeBlock b.start :=
  h b.start ⟨Nat.le_refl _, by unfold Block.stop; omega⟩

theorem SameCells.size {word' : Memory} (h : SameCells b word word') (hsize : 16 ≤ b.size) :
    word'.xBlockSize b.start = word.xBlockSize b.start :=
  h (b.start + 4) ⟨by omega, by unfold Block.stop; omega⟩

theorem Layout.sameCells (h : Layout ground s free held) (hb : b ∈ held)
    (hword : ∀ a, Outside s.xStart free a → a ∉ cells free → word a = s.word a) :
    SameCells b s.word word := by
  intro a ha
  refine hword a (outside_of_apart (h.placed b hb).1 h.listed.placed (h.freeApart b hb) ha) ?_
  rintro ⟨c, hc, hcells⟩
  exact (h.freeApart b hb c hc).notMem ha hcells

-- A request that is served: the block that is handed out comes from the first that is
-- large enough.
theorem Layout.malloc (h : Layout ground s free held) (hx : Servable x) {front back : List Block}
    (hfree : free = front ++ b :: back) (hsmall : ∀ c ∈ front, c.size < blockSizeFor x)
    (hb : blockSizeFor x ≤ b.size) :
    ∃ word block free', pvPortMalloc s x = some (handOut s word block.size, block.start + xHeapStructSize) ∧
      block.start = b.start ∧ blockSizeFor x ≤ block.size ∧
      block.size ≤ blockSizeFor x + heapMINIMUM_BLOCK_SIZE ∧ Allocated word block ∧
      Layout ground (handOut s word block.size) free' (block :: held) ∧
      ∀ d ∈ held, SameCells d s.word word := by
  subst hfree
  obtain ⟨hpos, htop⟩ := hx
  have hwanted := le_blockSizeFor hpos htop
  have hdvd := dvd_blockSizeFor hpos htop
  have hbplaced := h.listed.placed b (by simp)
  have hrest := h.listed.apart_rest
  obtain ⟨word, hrun, hlisted, hallocated, hword⟩ :=
    pvPortMalloc_serves h.listed h.bit h.remaining ⟨hpos, htop⟩ hsmall hb
  have hsub : front ++ back ⊆ front ++ b :: back :=
    (List.Sublist.append_left (List.sublist_cons_self b back) front).subset
  have hsame : ∀ d ∈ held, SameCells d s.word word := fun d hd =>
    h.sameCells hd fun a ha hcells => hword a ha fun hin => hcells ⟨b, by simp, hin⟩
  have hothers : ∀ d ∈ held,
      (carve heapMINIMUM_BLOCK_SIZE (blockSizeFor x) b (front ++ back)).1.Apart d ∧
      ∀ c ∈ (carve heapMINIMUM_BLOCK_SIZE (blockSizeFor x) b (front ++ back)).2, d.Apart c := fun d hd =>
    carve_others heapMINIMUM_BLOCK_SIZE (h.freeApart d hd b (by simp)).symm
      (fun c hc => h.freeApart d hd c (hsub hc)) (by omega) hb
  have hcells := cells_carve heapMINIMUM_BLOCK_SIZE (front ++ back) hb
  have htotal := total_carve heapMINIMUM_BLOCK_SIZE (front ++ back) hb
  have hsize := le_carve_size heapMINIMUM_BLOCK_SIZE (front ++ back) hb
  have hlargest := carve_size_le heapMINIMUM_BLOCK_SIZE (n := blockSizeFor x) (b := b) (front ++ back)
  have hplaced := hbplaced.carve heapMINIMUM_BLOCK_SIZE (front ++ back) hdvd hb
  have hapart := carve_apart heapMINIMUM_BLOCK_SIZE (n := blockSizeFor x) hrest (by omega)
  have hstart := carve_start heapMINIMUM_BLOCK_SIZE (blockSizeFor x) b (front ++ back)
  generalize carve heapMINIMUM_BLOCK_SIZE (blockSizeFor x) b (front ++ back) = carved at *
  have hsum : total (front ++ b :: back) = carved.1.size + total carved.2 := by
    rw [htotal, total_append, total_append, total_cons]
    omega
  refine ⟨word, carved.1, carved.2, by rw [hrun, hstart], hstart, hsize, hlargest, hallocated, ?_, hsame⟩
  exact {
    listed := { hlisted with }
    bit := h.bit
    remaining := by
      change s.xFreeBytesRemaining - carved.1.size = total carved.2
      rw [h.remaining, hsum, Nat.add_sub_cancel_left]
    covers := by
      rw [← h.covers, cells_cons, ← Set.union_assoc, Set.union_comm (cells carved.2), hcells]
      simp only [cells_append, cells_cons, Set.union_assoc, Set.union_left_comm]
    sum := by
      rw [← h.sum, hsum, total_cons]
      omega
    placed := List.forall_mem_cons.mpr ⟨⟨hplaced, by omega⟩, h.placed⟩
    apart := List.pairwise_cons.mpr ⟨fun d hd => (hothers d hd).1, h.apart⟩
    freeApart := List.forall_mem_cons.mpr ⟨hapart, fun d hd => (hothers d hd).2⟩ }

-- The first half of vPortFree changes the header of the block only.
theorem Layout.unmark (h : Layout ground s free held) (hb : b ∈ held) (hsmall : b.size < 2 ^ 31)
    (hallocated : Allocated s.word b) :
    unmarkAllocated s b.start = some { s with word := s.word.setSize b.start b.size } ∧
      Layout ground { s with word := s.word.setSize b.start b.size } free held ∧
      ∀ d ∈ held, d.Apart b → SameCells d s.word (s.word.setSize b.start b.size) := by
  refine ⟨unmarkAllocated_eq h.bit hallocated hsmall, ?_, fun d hd hapart a ha => ?_⟩
  · exact { h with
      listed := h.listed.keep (h.placed b hb).1 (h.freeApart b hb) Memory.onlyHeader_setSize }
  · refine if_neg ?_
    obtain ⟨hplaced, hsize⟩ := h.placed b hb
    rw [Block.mem_cells] at ha
    unfold Block.Apart Block.stop at *
    omega

-- The second half, on a block whose header shows its size.
theorem Layout.giveBack (h : Layout ground s free (b :: held)) (hground : Ground ground)
    (hsize : s.word.xBlockSize b.start = b.size) :
    ∃ word, returnBlock s b.start =
        some { s with
          word
          xFreeBytesRemaining := s.xFreeBytesRemaining + b.size
          xNumberOfSuccessfulFrees := uint32 (s.xNumberOfSuccessfulFrees + 1) } ∧
      Layout ground { s with
        word
        xFreeBytesRemaining := s.xFreeBytesRemaining + b.size
        xNumberOfSuccessfulFrees := uint32 (s.xNumberOfSuccessfulFrees + 1) } (release b free) held ∧
      ∀ d ∈ held, SameCells d s.word word := by
  have hfree := h.remaining
  obtain ⟨⟨hplaced, hlarge⟩, hrest⟩ := List.forall_mem_cons.mp h.placed
  obtain ⟨hbapart, hpairs⟩ := List.pairwise_cons.mp h.apart
  obtain ⟨hbfree, hfreeApart⟩ := List.forall_mem_cons.mp h.freeApart
  have hsum := h.sum
  have hbound := hground.bound
  rw [total_cons] at hsum
  obtain ⟨word, hrun, hlisted, hword⟩ :=
    returnBlock_release h.listed hplaced hbfree (by omega) hsize (by omega)
  refine ⟨word, hrun, ?_, fun d hd a ha => ?_⟩
  · exact {
      listed := { hlisted with }
      bit := h.bit
      remaining := by rw [total_release, Nat.add_comm, hfree]
      covers := by
        rw [← h.covers, cells_release, cells_cons]
        simp only [Set.union_assoc, Set.union_left_comm]
      sum := by
        rw [total_release]
        omega
      placed := hrest
      apart := hpairs
      freeApart := fun d hd => release_apart (hbapart d hd).symm (hfreeApart d hd) }
  · refine hword a (outside_of_apart (hrest d hd).1
      (List.forall_mem_cons.mpr ⟨hplaced, h.listed.placed⟩) ?_ ha)
    exact List.forall_mem_cons.mpr ⟨(hbapart d hd).symm, hfreeApart d hd⟩

-- A task writes into a block it holds.
theorem Layout.store {a : Nat} (h : Layout ground s free held) (hb : b ∈ held) (ha : b.start + 8 ≤ a)
    (hstop : a < b.stop) (value : Nat) :
    Layout ground { s with word := s.word.set a value } free held ∧
      ∀ d ∈ held, d.Apart b → SameCells d s.word (s.word.set a value) := by
  have hin : a ∈ b.cells := ⟨by omega, hstop⟩
  have hplaced := (h.placed b hb).1
  have hend := hplaced.stop
  constructor
  · exact { h with
      listed := h.listed.store (outside_of_apart hplaced h.listed.placed (h.freeApart b hb) hin)
        (by omega) value }
  · intro d hd hapart y hy
    refine if_neg ?_
    rw [Block.mem_cells] at hy
    unfold Block.Apart at hapart
    omega

-- What is free are the cells of the heap that nobody holds.
theorem Layout.free_eq (h : Layout ground s free held) : cells free = cells ground \ cells held := by
  ext y
  rw [← h.covers]
  constructor
  · intro hy
    obtain ⟨c, hc, hcells⟩ := hy
    refine ⟨.inl ⟨c, hc, hcells⟩, ?_⟩
    rintro ⟨b, hb, hheld⟩
    exact (h.freeApart b hb c hc).notMem hheld hcells
  · rintro ⟨hfree | hheld, hnot⟩
    · exact hfree
    · exact absurd hheld hnot

-- A block that is handed out takes its own cells from what was free, and no others.
theorem Layout.taken {t : State} {rest : List Block} (h : Layout ground s free held)
    (ht : Layout ground t rest (b :: held)) :
    b.cells ⊆ cells free ∧ cells rest = cells free \ b.cells := by
  have hcells : cells (b :: held) = b.cells ∪ cells held := cells_cons ..
  constructor
  · intro y hy
    rw [h.free_eq, ← ht.covers, hcells]
    refine ⟨.inr (.inl hy), ?_⟩
    rintro ⟨c, hc, hcheld⟩
    exact ((List.pairwise_cons.mp ht.apart).1 c hc).notMem hy hcheld
  · rw [ht.free_eq, h.free_eq, hcells, Set.sdiff_sdiff, Set.union_comm]

end Carbon.Heap
