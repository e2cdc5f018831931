import Carbon.Heap.Chain
import Carbon.Library.Alignment
import Mathlib.Data.Nat.Bitwise

namespace Carbon.Heap

open FreeList Alignment

section Sizes

theorem and_alignmentMask (x : Nat) : x &&& portBYTE_ALIGNMENT_MASK = x % 8 :=
  Nat.and_two_pow_sub_one_eq_mod x 3

theorem topBit_eq_zero {x : Nat} (hx : x < 2 ^ 32) : x &&& 2 ^ 31 = 0 ↔ x < 2 ^ 31 := by
  rw [Nat.and_two_pow, Nat.testBit_eq_decide_div_mod_eq]
  by_cases hbit : x / 2 ^ 31 % 2 = 1
  · simp only [hbit, decide_true, Bool.toNat_true]
    omega
  · simp only [hbit, decide_false, Bool.toNat_false, Nat.zero_mul, true_iff]
    omega

theorem or_topBit {size : Nat} (h : size < 2 ^ 31) : size ||| 2 ^ 31 = 2 ^ 31 + size := by
  have hor := Nat.two_pow_add_eq_or_of_lt h 1
  rw [Nat.mul_one] at hor
  rw [hor, Nat.or_comm]

-- The header of an allocated block passes the check of vPortFree and gives its size back.
theorem topBit_allocated {size : Nat} (h : size < 2 ^ 31) :
    (size ||| 2 ^ 31) &&& 2 ^ 31 ≠ 0 ∧ (size ||| 2 ^ 31) &&& uint32Not (2 ^ 31) = size := by
  rw [or_topBit h]
  constructor
  · rw [Ne, topBit_eq_zero (by omega)]
    omega
  · have hnot : uint32Not (2 ^ 31) = 2 ^ 31 - 1 := by decide
    rw [hnot, Nat.and_two_pow_sub_one_eq_mod, Nat.add_mod_left, Nat.mod_eq_of_lt h]

theorem blockSizeFor_eq {x : Nat} (hpos : 0 < x) (hx : x < 2 ^ 31) :
    blockSizeFor x = alignUp (x + 8) 8 := by
  unfold blockSizeFor xHeapStructSize portBYTE_ALIGNMENT
  simp only
  rw [if_pos hpos, uint32_of_lt (show x + 8 < 2 ^ 32 by omega), and_alignmentMask]
  unfold alignUp
  split
  · rw [uint32_of_lt (by omega)]
    omega
  · omega

theorem dvd_blockSizeFor {x : Nat} (hpos : 0 < x) (hx : x < 2 ^ 31) : 8 ∣ blockSizeFor x :=
  blockSizeFor_eq hpos hx ▸ dvd_alignUp _ _

theorem le_blockSizeFor {x : Nat} (hpos : 0 < x) (hx : x < 2 ^ 31) : x + 8 ≤ blockSizeFor x :=
  blockSizeFor_eq hpos hx ▸ le_alignUp _ (by decide)

end Sizes

variable {s : State} {b c d : Block} {bs cs : List Block} {n : Nat} {word : Memory}

-- Words of a block that the list does not reach into.
theorem outside_of_apart {x e : Nat} (hd : Placed x e d) (hbs : ∀ b ∈ bs, Placed x e b)
    (hapart : ∀ b ∈ bs, d.Apart b) {a : Nat}
    (ha : a ∈ d.cells) : Outside x bs a := by
  obtain ⟨hstart, hstop⟩ := Block.mem_cells.mp ha
  have hhead := hd.head
  refine ⟨by omega, fun b hb => ?_⟩
  have hapart' := hapart b hb
  have := hd.start
  have := (hbs b hb).start
  have := (hbs b hb).size
  unfold Block.Apart Block.stop at *
  omega

theorem Placed.part {x e : Nat} (h : Placed x e b) (hdvd : 8 ∣ n) (hn : n ≤ b.size) :
    Placed x e ⟨b.start, n⟩ := by
  obtain ⟨hstart, hsize, hpos, hbefore, hstop, hhead⟩ := h
  unfold Block.stop at *
  exact ⟨hstart, hdvd, hpos, hbefore, by simp only [Block.stop]; omega,
    by simp only [Block.stop]; omega⟩

theorem Placed.remainder {x e : Nat} (h : Placed x e b) (hdvd : 8 ∣ n) (hn : n < b.size) :
    Placed x e ⟨b.start + n, b.size - n⟩ := by
  obtain ⟨hstart, hsize, hpos, hbefore, hstop, hhead⟩ := h
  unfold Block.stop at *
  exact ⟨Nat.dvd_add hstart hdvd, Nat.dvd_sub hsize hdvd, by simp only; omega, by simp only; omega,
    by simp only [Block.stop]; omega, by simp only [Block.stop]; omega⟩

theorem Placed.carve {x e : Nat} (least : Nat) (bs : List Block) (h : Placed x e b) (hdvd : 8 ∣ n)
    (hn : n ≤ b.size) :
    Placed x e (carve least n b bs).1 := by
  unfold FreeList.carve
  split
  · exact h.part hdvd hn
  · exact h

-- The block that was found is already out of the list: the remainder goes back as `carve`
-- says, and the size in the header is that of the block that is kept.
theorem splitBlock_carve (h : Listed s bs) (hb : Placed s.xStart s.pxEnd b)
    (hapart : ∀ c ∈ bs, b.Apart c)
    (hsize : s.word.xBlockSize b.start = b.size) (hdvd : 8 ∣ n) (hpos : 0 < n) (hn : n ≤ b.size) :
    ∃ word, splitBlock s n b.start = some { s with word } ∧
      Listed { s with word } (carve heapMINIMUM_BLOCK_SIZE n b bs).2 ∧
      word.xBlockSize b.start = (carve heapMINIMUM_BLOCK_SIZE n b bs).1.size ∧
      ∀ a, Outside s.xStart bs a → a ∉ b.cells → word a = s.word a := by
  have hend := h.endBound
  have hstop := hb.stop
  have hbstop : b.stop = b.start + b.size := rfl
  have hrest : uint32Sub (s.word.xBlockSize b.start) n = b.size - n := by
    rw [hsize, uint32Sub_of_le (by omega) hn]
  unfold splitBlock carve
  simp only [hrest]
  split
  · rename_i hlarge
    have hlt : n < b.size := by omega
    have hnew := hb.remainder hdvd hlt
    have hnewapart : ∀ c ∈ bs, Block.Apart ⟨b.start + n, b.size - n⟩ c :=
      fun c hc => Apart.remainder (hapart c hc) hpos hlt
    have hheaders : HeaderApart (b.start + n) b.start := .inr (by omega)
    have hnewstart : uint32 (b.start + n) = b.start + n := uint32_of_lt (by omega)
    have hfirst := h.keep hnew hnewapart (Memory.onlyHeader_setSize (v := b.size - n))
    have hsecond := hfirst.keep hb hapart (Memory.onlyHeader_setSize (v := n))
    obtain ⟨word, hrun, hlisted, hkeep⟩ :=
      prvInsertBlockIntoFreeList_listed hsecond hnew hnewapart (Nat.sub_pos_of_lt hlt)
        (((Memory.onlyHeader_setSize).size hheaders).trans Memory.size_setSize)
    rw [hnewstart]
    refine ⟨word, hrun, hlisted, ?_, fun a ha hcells => ?_⟩
    · have houtside : Outside s.xStart (⟨b.start + n, b.size - n⟩ :: bs) (b.start + 4) := by
        refine ⟨by have := hb.head; omega,
          List.forall_mem_cons.mpr ⟨by simp only; omega, fun c hc => ?_⟩⟩
        have := hb.headers (h.placed c hc) (hapart c hc).1
        unfold HeaderApart at this
        omega
      exact (hkeep _ houtside).trans Memory.size_setSize
    · rw [Block.mem_cells] at hcells
      have hdvdsize := hb.size
      rw [hkeep a ⟨ha.1, List.forall_mem_cons.mpr ⟨by simp only; omega, ha.2⟩⟩]
      exact (Memory.onlyHeader_setSize a (by omega) (by omega)).trans
        (Memory.onlyHeader_setSize a (by simp only; omega) (by simp only; omega))
  · exact ⟨s.word, rfl, h, hsize, fun _ _ _ => rfl⟩

-- The header of a block that belongs to the application.
def Allocated (word : Memory) (b : Block) : Prop :=
  word.xBlockSize b.start = b.size ||| 2 ^ 31 ∧ word.pxNextFreeBlock b.start = 0

-- The state with a block handed out.
def handOut (s : State) (word : Memory) (size : Nat) : State :=
  { s with
    word
    xFreeBytesRemaining := s.xFreeBytesRemaining - size
    xMinimumEverFreeBytesRemaining :=
      min (s.xFreeBytesRemaining - size) s.xMinimumEverFreeBytesRemaining
    xNumberOfSuccessfulAllocations := uint32 (s.xNumberOfSuccessfulAllocations + 1) }

theorem markAllocated_eq {pxBlock size : Nat} (hsize : word.xBlockSize pxBlock = size)
    (hbit : s.xBlockAllocatedBit = 2 ^ 31) (hle : size ≤ s.xFreeBytesRemaining)
    (hlt : s.xFreeBytesRemaining < 2 ^ 32) :
    markAllocated { s with word } pxBlock =
      handOut s ((word.setSize pxBlock (size ||| 2 ^ 31)).setNext pxBlock 0) size := by
  have hremaining : uint32Sub s.xFreeBytesRemaining size = s.xFreeBytesRemaining - size :=
    uint32Sub_of_le hlt hle
  have hminimum : ∀ r m : Nat, (if r < m then r else m) = min r m := fun r m => by
    split <;> omega
  unfold markAllocated handOut
  simp only [hsize, hremaining, hbit, hminimum]

theorem total_le_end (h : Listed s bs) : total bs ≤ s.pxEnd := by
  have hle := total_le (n := 0) h.separate (fun _ _ => Nat.zero_le _) (fun b hb => (h.placed b hb).stop)
    (Nat.zero_le _)
  omega

theorem Listed.apart_rest (h : Listed s (bs ++ b :: cs)) : ∀ c ∈ bs ++ cs, b.Apart c := by
  obtain ⟨-, hback, hcross⟩ := List.pairwise_append.mp h.separate
  intro c hc
  rcases List.mem_append.mp hc with hc | hc
  · exact (hcross c hc b (by simp)).apart.symm
  · exact ((List.pairwise_cons.mp hback).1 c hc).apart

theorem takeBlock_carve (h : Listed s (bs ++ b :: cs)) (hbit : s.xBlockAllocatedBit = 2 ^ 31)
    (hfree : s.xFreeBytesRemaining = total (bs ++ b :: cs)) (hdvd : 8 ∣ n) (hpos : 0 < n)
    (hn : n ≤ b.size) :
    ∃ word, takeBlock s n (lastLink s.xStart bs) b.start =
        some (handOut s word (carve heapMINIMUM_BLOCK_SIZE n b (bs ++ cs)).1.size,
          b.start + xHeapStructSize) ∧
      Listed { s with word } (carve heapMINIMUM_BLOCK_SIZE n b (bs ++ cs)).2 ∧
      Allocated word (carve heapMINIMUM_BLOCK_SIZE n b (bs ++ cs)).1 ∧
      ∀ a, Outside s.xStart (bs ++ b :: cs) a → a ∉ b.cells → word a = s.word a := by
  have hb := h.placed b (by simp)
  have hapart := h.apart_rest
  have hend := h.endBound
  obtain ⟨-, hlink, hsize, -⟩ := chain_append.mp h.chain
  have hunlink := h.unlink
  have hsubset : bs ++ cs ⊆ bs ++ b :: cs :=
    (List.Sublist.append_left (List.sublist_cons_self b cs) bs).subset
  have honly : OnlyHeader (lastLink s.xStart bs) s.word
      (s.word.setNext (lastLink s.xStart bs) (s.word.pxNextFreeBlock b.start)) :=
    Memory.onlyHeader_setNext
  have hspread := spread_of_placed h.separate h.placed
  obtain ⟨word, hrun, hlisted, hcarved, hkeep⟩ :=
    splitBlock_carve (n := n) hunlink hb hapart
      ((honly.size (hspread.lastLink_apart b (by simp)).symm).trans hsize) hdvd hpos hn
  have hplaced := hb.carve heapMINIMUM_BLOCK_SIZE (bs ++ cs) hdvd hn
  have hcarveapart := carve_apart heapMINIMUM_BLOCK_SIZE hapart hpos
  have htotal : (carve heapMINIMUM_BLOCK_SIZE n b (bs ++ cs)).1.size +
      total (carve heapMINIMUM_BLOCK_SIZE n b (bs ++ cs)).2 = total (bs ++ b :: cs) := by
    rw [total_carve heapMINIMUM_BLOCK_SIZE (bs ++ cs) hn, total_append, total_append, total_cons]
    omega
  have hstart := carve_start heapMINIMUM_BLOCK_SIZE n b (bs ++ cs)
  generalize carve heapMINIMUM_BLOCK_SIZE n b (bs ++ cs) = carved at *
  have hmark : OnlyHeader b.start word
      ((word.setSize b.start (carved.1.size ||| 2 ^ 31)).setNext b.start 0) :=
    Memory.onlyHeader_setSize.trans Memory.onlyHeader_setNext
  refine ⟨(word.setSize b.start (carved.1.size ||| 2 ^ 31)).setNext b.start 0, ?_, ?_, ?_, ?_⟩
  · have hle := total_le_end h
    have hreturn : uint32 (b.start + xHeapStructSize) = b.start + xHeapStructSize := by
      have := hb.before
      exact uint32_of_lt (by unfold xHeapStructSize; omega)
    have hremaining : uint32Sub s.xFreeBytesRemaining carved.1.size =
        s.xFreeBytesRemaining - carved.1.size :=
      uint32Sub_of_le (by omega) (by omega)
    have hnext : s.word.pxNextFreeBlock (lastLink s.xStart bs) = b.start := hlink
    have hmarked := markAllocated_eq hcarved hbit (by omega) (by omega)
    unfold takeBlock
    simp only [hnext, hrun, Option.map_some, hreturn]
    exact congrArg (fun t => some (t, b.start + xHeapStructSize)) hmarked
  · exact hlisted.keep hplaced hcarveapart (hstart ▸ hmark)
  · unfold Allocated
    rw [hstart]
    exact ⟨by simp, by simp⟩
  · intro a ha hcells
    have hb' := ha.2 b (by simp)
    rw [hmark a hb'.1 hb'.2, hkeep a ⟨ha.1, fun c hc => ha.2 c (hsubset hc)⟩ hcells]
    rcases lastLink_mem s.xStart bs with hlast | ⟨c, hc, hlast⟩
    · exact honly a (by rw [hlast]; exact ha.1.1) (by rw [hlast]; exact ha.1.2)
    · have hc' := ha.2 c (by simp [hc])
      exact honly a (by rw [hlast]; exact hc'.1) (by rw [hlast]; exact hc'.2)

-- The sizes a request can be served for.
def Servable (xWantedSize : Nat) : Prop := 0 < xWantedSize ∧ xWantedSize < 2 ^ 31

instance (x : Nat) : Decidable (Servable x) := inferInstanceAs (Decidable (_ ∧ _))

variable {x : Nat}

theorem pvPortMalloc_fails (h : Listed s bs) (hbit : s.xBlockAllocatedBit = 2 ^ 31) (hx : x < 2 ^ 32)
    (hfails : ¬Servable x ∨ ∀ b ∈ bs, b.size < blockSizeFor x) : pvPortMalloc s x = some (s, 0) := by
  unfold pvPortMalloc
  rw [configASSERT_of (Nat.ne_of_gt h.endPos), Option.bind_some, hbit]
  split
  · rename_i htop
    rw [topBit_eq_zero hx] at htop
    simp only
    split
    · rename_i hwanted
      have hpos : 0 < x := by
        rcases Nat.eq_zero_or_pos x with rfl | hpos
        · exact absurd hwanted.1 (by decide)
        · exact hpos
      have hsmall := hfails.resolve_left (not_not_intro ⟨hpos, htop⟩)
      have hchain : Chain s.word s.xStart (bs ++ []) s.pxEnd := by
        rw [List.append_nil]
        exact h.chain
      have hwalk := firstFit_chain hchain hsmall
        (fun b hb => (h.placed b (by simpa using hb)).pos) h.endPos h.length (.inl h.endNext)
      rw [hwalk, Option.bind_some, firstOf]
      simp
    · rfl
  · rfl

theorem pvPortMalloc_serves (h : Listed s (bs ++ b :: cs)) (hbit : s.xBlockAllocatedBit = 2 ^ 31)
    (hfree : s.xFreeBytesRemaining = total (bs ++ b :: cs)) (hx : Servable x)
    (hsmall : ∀ c ∈ bs, c.size < blockSizeFor x) (hb : blockSizeFor x ≤ b.size) :
    ∃ word, pvPortMalloc s x =
        some (handOut s word (carve heapMINIMUM_BLOCK_SIZE (blockSizeFor x) b (bs ++ cs)).1.size,
          b.start + xHeapStructSize) ∧
      Listed { s with word } (carve heapMINIMUM_BLOCK_SIZE (blockSizeFor x) b (bs ++ cs)).2 ∧
      Allocated word (carve heapMINIMUM_BLOCK_SIZE (blockSizeFor x) b (bs ++ cs)).1 ∧
      ∀ a, Outside s.xStart (bs ++ b :: cs) a → a ∉ b.cells → word a = s.word a := by
  obtain ⟨hpos, htop⟩ := hx
  have hwanted := le_blockSizeFor hpos htop
  have hplaced := h.placed b (by simp)
  obtain ⟨word, hrun, hrest⟩ :=
    takeBlock_carve h hbit hfree (dvd_blockSizeFor hpos htop) (by omega) hb
  refine ⟨word, ?_, hrest⟩
  have hsize : s.word.xBlockSize b.start = b.size := (chain_append.mp h.chain).2.2.1
  have hlength : bs.length < walkLimit := by
    have hall := h.length
    rw [List.length_append] at hall
    omega
  have hwalk :=
    firstFit_chain h.chain hsmall (fun c hc => (h.placed c hc).pos) h.endPos hlength (.inr (hsize ▸ hb))
  have hle : blockSizeFor x ≤ s.xFreeBytesRemaining :=
    hfree ▸ Nat.le_trans hb (size_le_total (by simp))
  unfold pvPortMalloc
  rw [configASSERT_of (Nat.ne_of_gt h.endPos), Option.bind_some, hbit,
    if_pos ((topBit_eq_zero (by omega)).mpr htop)]
  simp only
  rw [if_pos ⟨by omega, hle⟩, hwalk, Option.bind_some]
  exact (if_pos (Nat.ne_of_lt hplaced.before)).trans hrun

-- A request that can be served does to the list of free blocks what `allocate` does.
theorem pvPortMalloc_allocate (h : Listed s bs) (hbit : s.xBlockAllocatedBit = 2 ^ 31)
    (hfree : s.xFreeBytesRemaining = total bs) (hx : Servable x) :
    match allocate heapMINIMUM_BLOCK_SIZE (blockSizeFor x) bs with
    | none => pvPortMalloc s x = some (s, 0)
    | some (block, rest) => ∃ word,
        pvPortMalloc s x = some (handOut s word block.size, block.start + xHeapStructSize) ∧
        Listed { s with word } rest ∧ Allocated word block := by
  rcases allocate_cases (blockSizeFor x) bs with hsmall | ⟨front, b, back, rfl, hsmall, hb⟩
  · rw [allocate_eq_none.mpr hsmall]
    exact pvPortMalloc_fails h hbit (Nat.lt_trans hx.2 (by decide)) (.inr hsmall)
  · obtain ⟨word, hrun, hlisted, hallocated, -⟩ := pvPortMalloc_serves h hbit hfree hx hsmall hb
    rw [allocate_append hsmall hb]
    simp only [carve_start]
    exact ⟨word, hrun, hlisted, hallocated⟩

-- The two halves of vPortFree on a block of the application.
theorem unmarkAllocated_eq (hbit : s.xBlockAllocatedBit = 2 ^ 31) (h : Allocated s.word b)
    (hsize : b.size < 2 ^ 31) :
    unmarkAllocated s b.start = some { s with word := s.word.setSize b.start b.size } := by
  obtain ⟨hset, hclear⟩ := topBit_allocated hsize
  unfold unmarkAllocated
  rw [h.1, h.2, hbit, hclear, configASSERT_of hset, configASSERT_of rfl]
  rfl

theorem returnBlock_release (h : Listed s bs) (hb : Placed s.xStart s.pxEnd b)
    (hapart : ∀ c ∈ bs, b.Apart c) (hpos : 0 < b.size)
    (hsize : s.word.xBlockSize b.start = b.size)
    (hfree : s.xFreeBytesRemaining + b.size < 2 ^ 32) :
    ∃ word, returnBlock s b.start =
        some { s with
          word
          xFreeBytesRemaining := s.xFreeBytesRemaining + b.size
          xNumberOfSuccessfulFrees := uint32 (s.xNumberOfSuccessfulFrees + 1) } ∧
      Listed { s with word } (release b bs) ∧ KeepsOutside s.xStart (b :: bs) s.word word := by
  have haccount : Listed { s with xFreeBytesRemaining := uint32 (s.xFreeBytesRemaining + b.size) } bs :=
    { h with }
  obtain ⟨word, hrun, hlisted, hkeep⟩ :=
    prvInsertBlockIntoFreeList_listed haccount hb hapart hpos hsize
  refine ⟨word, ?_, { hlisted with }, hkeep⟩
  unfold returnBlock
  rw [hsize, uint32_of_lt hfree]
  rw [uint32_of_lt hfree] at hrun
  exact congrArg (Option.map _) hrun

end Carbon.Heap
