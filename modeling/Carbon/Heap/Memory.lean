import Carbon.Word

namespace Carbon.Heap

-- The words of the memory by their byte addresses. The cells between the two words of a
-- header are not used.
abbrev Memory := Nat → Nat

def portBYTE_ALIGNMENT : Nat := 8

def portBYTE_ALIGNMENT_MASK : Nat := 7

-- A BlockLink_t is a pointer and a size, 8 bytes on this core, which is also its
-- rounded size.
def xHeapStructSize : Nat := 8

def heapMINIMUM_BLOCK_SIZE : Nat := xHeapStructSize <<< 1

namespace Memory

def pxNextFreeBlock (word : Memory) (block : Nat) : Nat := word block

def xBlockSize (word : Memory) (block : Nat) : Nat := word (block + 4)

def set (word : Memory) (address value : Nat) : Memory :=
  fun a => if a = address then value else word a

def setNext (word : Memory) (block value : Nat) : Memory := word.set block value

def setSize (word : Memory) (block value : Nat) : Memory := word.set (block + 4) value

end Memory

structure HeapRegion_t where
  pucStartAddress : Nat
  xSizeInBytes : Nat

-- The variables of the allocator and the memory its blocks lie in. `xStart` is the
-- address of the list head, which is a BlockLink_t of its own in the memory.
structure State where
  word : Memory
  xStart : Nat
  pxEnd : Nat
  xFreeBytesRemaining : Nat
  xMinimumEverFreeBytesRemaining : Nat
  xNumberOfSuccessfulAllocations : Nat
  xNumberOfSuccessfulFrees : Nat
  xBlockAllocatedBit : Nat

-- A failing assertion prints its text and never returns.
def configASSERT (x : Bool) : Option Unit := if x then some () else none

theorem configASSERT_of {p : Prop} [Decidable p] (h : p) : configASSERT p = some () :=
  if_pos (decide_eq_true h)

-- No list has more blocks than there are addresses: a walk of this length goes round in
-- a circle and never ends.
def walkLimit : Nat := 2 ^ 32

-- The list position behind which a block belongs.
def insertAfter (word : Memory) (pxBlockToInsert : Nat) : Nat → Nat → Option Nat
  | 0, _ => none
  | fuel + 1, pxIterator =>
    if word.pxNextFreeBlock pxIterator < pxBlockToInsert then
      insertAfter word pxBlockToInsert fuel (word.pxNextFreeBlock pxIterator)
    else some pxIterator

-- The block in front takes the new one in if the two make one stretch of memory.
def mergeFront (word : Memory) (pxIterator pxBlockToInsert : Nat) : Memory × Nat :=
  if uint32 (pxIterator + word.xBlockSize pxIterator) = pxBlockToInsert then
    (word.setSize pxIterator (uint32 (word.xBlockSize pxIterator + word.xBlockSize pxBlockToInsert)), pxIterator)
  else (word, pxBlockToInsert)

-- So does the new one with the block behind it, the end marker excepted.
def mergeBehind (word : Memory) (pxEnd pxIterator pxBlockToInsert : Nat) : Memory :=
  if uint32 (pxBlockToInsert + word.xBlockSize pxBlockToInsert) = word.pxNextFreeBlock pxIterator then
    if word.pxNextFreeBlock pxIterator ≠ pxEnd then
      let grown := word.setSize pxBlockToInsert
        (uint32 (word.xBlockSize pxBlockToInsert + word.xBlockSize (word.pxNextFreeBlock pxIterator)))
      grown.setNext pxBlockToInsert (grown.pxNextFreeBlock (grown.pxNextFreeBlock pxIterator))
    else word.setNext pxBlockToInsert pxEnd
  else word.setNext pxBlockToInsert (word.pxNextFreeBlock pxIterator)

def insertAt (word : Memory) (pxEnd pxIterator pxBlockToInsert : Nat) : Memory :=
  let (word, pxBlockToInsert) := mergeFront word pxIterator pxBlockToInsert
  let word := mergeBehind word pxEnd pxIterator pxBlockToInsert
  if pxIterator ≠ pxBlockToInsert then word.setNext pxIterator pxBlockToInsert else word

def prvInsertBlockIntoFreeList (s : State) (pxBlockToInsert : Nat) : Option State :=
  (insertAfter s.word pxBlockToInsert walkLimit s.xStart).map fun pxIterator =>
    { s with word := insertAt s.word s.pxEnd pxIterator pxBlockToInsert }

-- The request with room for the header in front, rounded up to the alignment.
def blockSizeFor (xWantedSize : Nat) : Nat :=
  if 0 < xWantedSize then
    let xWantedSize := uint32 (xWantedSize + xHeapStructSize)
    if xWantedSize &&& portBYTE_ALIGNMENT_MASK ≠ 0 then
      uint32 (xWantedSize + (portBYTE_ALIGNMENT - (xWantedSize &&& portBYTE_ALIGNMENT_MASK)))
    else xWantedSize
  else xWantedSize

-- The first block of adequate size with the one before it, or the last of the list.
def firstFit (word : Memory) (xWantedSize : Nat) : Nat → Nat → Nat → Option (Nat × Nat)
  | 0, _, _ => none
  | fuel + 1, pxPreviousBlock, pxBlock =>
    if word.xBlockSize pxBlock < xWantedSize ∧ word.pxNextFreeBlock pxBlock ≠ 0 then
      firstFit word xWantedSize fuel pxBlock (word.pxNextFreeBlock pxBlock)
    else some (pxPreviousBlock, pxBlock)

-- What is left of a block behind the wanted bytes goes back to the list if it is worth it.
def splitBlock (s : State) (xWantedSize pxBlock : Nat) : Option State :=
  if heapMINIMUM_BLOCK_SIZE < uint32Sub (s.word.xBlockSize pxBlock) xWantedSize then
    let pxNewBlockLink := uint32 (pxBlock + xWantedSize)
    let word := s.word.setSize pxNewBlockLink (uint32Sub (s.word.xBlockSize pxBlock) xWantedSize)
    prvInsertBlockIntoFreeList { s with word := word.setSize pxBlock xWantedSize } pxNewBlockLink
  else some s

-- The accounts of a block that was taken, and its header.
def markAllocated (s : State) (pxBlock : Nat) : State :=
  let size := s.word.xBlockSize pxBlock
  let remaining := uint32Sub s.xFreeBytesRemaining size
  { s with
    word := (s.word.setSize pxBlock (size ||| s.xBlockAllocatedBit)).setNext pxBlock 0
    xFreeBytesRemaining := remaining
    xMinimumEverFreeBytesRemaining :=
      if remaining < s.xMinimumEverFreeBytesRemaining then remaining else s.xMinimumEverFreeBytesRemaining
    xNumberOfSuccessfulAllocations := uint32 (s.xNumberOfSuccessfulAllocations + 1) }

def takeBlock (s : State) (xWantedSize pxPreviousBlock pxBlock : Nat) : Option (State × Nat) :=
  let pvReturn := uint32 (s.word.pxNextFreeBlock pxPreviousBlock + xHeapStructSize)
  let word := s.word.setNext pxPreviousBlock (s.word.pxNextFreeBlock pxBlock)
  (splitBlock { s with word } xWantedSize pxBlock).map fun s => (markAllocated s pxBlock, pvReturn)

-- The hook of a failed request only prints a line.
def pvPortMalloc (s : State) (xWantedSize : Nat) : Option (State × Nat) :=
  (configASSERT (s.pxEnd ≠ 0)).bind fun _ =>
    if xWantedSize &&& s.xBlockAllocatedBit = 0 then
      let xWantedSize := blockSizeFor xWantedSize
      if 0 < xWantedSize ∧ xWantedSize ≤ s.xFreeBytesRemaining then
        (firstFit s.word xWantedSize walkLimit s.xStart (s.word.pxNextFreeBlock s.xStart)).bind
          fun (pxPreviousBlock, pxBlock) =>
            if pxBlock ≠ s.pxEnd then takeBlock s xWantedSize pxPreviousBlock pxBlock else some (s, 0)
      else some (s, 0)
    else some (s, 0)

-- A block that is given back is first marked as no longer allocated, before the other
-- tasks are kept away, and then returned to the list.
def unmarkAllocated (s : State) (pxLink : Nat) : Option State :=
  (configASSERT (s.word.xBlockSize pxLink &&& s.xBlockAllocatedBit ≠ 0)).bind fun _ =>
    (configASSERT (s.word.pxNextFreeBlock pxLink = 0)).map fun _ =>
      { s with
        word := s.word.setSize pxLink (s.word.xBlockSize pxLink &&& uint32Not s.xBlockAllocatedBit) }

def returnBlock (s : State) (pxLink : Nat) : Option State :=
  let s := { s with xFreeBytesRemaining := uint32 (s.xFreeBytesRemaining + s.word.xBlockSize pxLink) }
  (prvInsertBlockIntoFreeList s pxLink).map fun s =>
    { s with xNumberOfSuccessfulFrees := uint32 (s.xNumberOfSuccessfulFrees + 1) }

def vPortFree (s : State) (pv : Nat) : Option State :=
  if pv ≠ 0 then
    let pxLink := uint32Sub pv xHeapStructSize
    (unmarkAllocated s pxLink).bind fun s => returnBlock s pxLink
  else some s

def xPortGetFreeHeapSize (s : State) : Nat := s.xFreeBytesRemaining

def xPortGetMinimumEverFreeHeapSize (s : State) : Nat := s.xMinimumEverFreeBytesRemaining

-- The first aligned address of a region, and the bytes from there on.
def alignRegion (region : HeapRegion_t) : Nat × Nat :=
  let xAddress := region.pucStartAddress
  if xAddress &&& portBYTE_ALIGNMENT_MASK ≠ 0 then
    let aligned := uint32 (xAddress + (portBYTE_ALIGNMENT - 1)) &&& uint32Not portBYTE_ALIGNMENT_MASK
    (aligned, uint32Sub region.xSizeInBytes (uint32Sub aligned region.pucStartAddress))
  else (xAddress, region.xSizeInBytes)

-- The list starts at the first region. The others have to come in the order of their
-- addresses.
def checkRegion (s : State) (xDefinedRegions xAlignedHeap : Nat) : Option State :=
  if xDefinedRegions = 0 then
    some { s with word := (s.word.setNext s.xStart xAlignedHeap).setSize s.xStart 0 }
  else (configASSERT (s.pxEnd ≠ 0)).bind fun _ =>
    (configASSERT (s.pxEnd < xAlignedHeap)).map fun _ => s

-- A region becomes one free block and an end marker, and the end marker of the region
-- before is linked to it.
def placeRegion (s : State) (xAlignedHeap xTotalRegionSize : Nat) : State :=
  let pxPreviousFreeBlock := s.pxEnd
  let xAddress :=
    uint32Sub (uint32 (xAlignedHeap + xTotalRegionSize)) xHeapStructSize &&& uint32Not portBYTE_ALIGNMENT_MASK
  let word := (s.word.setSize xAddress 0).setNext xAddress 0
  let word :=
    (word.setSize xAlignedHeap (uint32Sub xAddress xAlignedHeap)).setNext xAlignedHeap xAddress
  { s with
    word := if pxPreviousFreeBlock ≠ 0 then word.setNext pxPreviousFreeBlock xAlignedHeap else word
    pxEnd := xAddress }

-- The regions one after the other up to the entry of size zero that ends the array.
def defineRegions (s : State) (xDefinedRegions xTotalHeapSize : Nat) :
    List HeapRegion_t → Option (State × Nat)
  | [] => none
  | region :: rest =>
    if 0 < region.xSizeInBytes then
      let (xAlignedHeap, xTotalRegionSize) := alignRegion region
      (checkRegion s xDefinedRegions xAlignedHeap).bind fun s =>
        let s := placeRegion s xAlignedHeap xTotalRegionSize
        defineRegions s (xDefinedRegions + 1) (uint32 (xTotalHeapSize + s.word.xBlockSize xAlignedHeap)) rest
    else some (s, xTotalHeapSize)

def vPortDefineHeapRegions (s : State) (pxHeapRegions : List HeapRegion_t) : Option State :=
  (configASSERT (s.pxEnd = 0)).bind fun _ =>
    (defineRegions s 0 0 pxHeapRegions).bind fun (s, xTotalHeapSize) =>
      (configASSERT (xTotalHeapSize ≠ 0)).map fun _ =>
        { s with
          xMinimumEverFreeBytesRemaining := xTotalHeapSize
          xFreeBytesRemaining := xTotalHeapSize
          xBlockAllocatedBit := 2 ^ 31 }

structure HeapStats_t where
  xAvailableHeapSpaceInBytes : Nat
  xSizeOfLargestFreeBlockInBytes : Nat
  xSizeOfSmallestFreeBlockInBytes : Nat
  xNumberOfFreeBlocks : Nat
  xMinimumEverFreeBytesRemaining : Nat
  xNumberOfSuccessfulAllocations : Nat
  xNumberOfSuccessfulFrees : Nat

-- The blocks up to the end marker: their number, the largest and the smallest size, the
-- markers between the regions left out of the last.
def countBlocks (word : Memory) (pxEnd : Nat) : Nat → Nat → Nat × Nat × Nat → Option (Nat × Nat × Nat)
  | 0, _, _ => none
  | fuel + 1, pxBlock, (xBlocks, xMaxSize, xMinSize) =>
    let size := word.xBlockSize pxBlock
    let xMinSize := if size ≠ 0 then if size < xMinSize then size else xMinSize else xMinSize
    let counts := (uint32 (xBlocks + 1), (if xMaxSize < size then size else xMaxSize), xMinSize)
    if word.pxNextFreeBlock pxBlock ≠ pxEnd then
      countBlocks word pxEnd fuel (word.pxNextFreeBlock pxBlock) counts
    else some counts

def portMAX_DELAY : Nat := 2 ^ 32 - 1

-- The walk, under the suspended scheduler.
def countFreeBlocks (s : State) : Option (Nat × Nat × Nat) :=
  if s.word.pxNextFreeBlock s.xStart ≠ 0 then
    countBlocks s.word s.pxEnd walkLimit (s.word.pxNextFreeBlock s.xStart) (0, 0, portMAX_DELAY)
  else some (0, 0, portMAX_DELAY)

-- The scheduler is resumed behind the walk, so that the critical section may find the heap
-- in a later state.
def vPortGetHeapStats (walked counted : State) : Option HeapStats_t :=
  (countFreeBlocks walked).map fun (xBlocks, xMaxSize, xMinSize) =>
    { xAvailableHeapSpaceInBytes := counted.xFreeBytesRemaining
      xSizeOfLargestFreeBlockInBytes := xMaxSize
      xSizeOfSmallestFreeBlockInBytes := xMinSize
      xNumberOfFreeBlocks := xBlocks
      xMinimumEverFreeBytesRemaining := counted.xMinimumEverFreeBytesRemaining
      xNumberOfSuccessfulAllocations := counted.xNumberOfSuccessfulAllocations
      xNumberOfSuccessfulFrees := counted.xNumberOfSuccessfulFrees }

end Carbon.Heap
