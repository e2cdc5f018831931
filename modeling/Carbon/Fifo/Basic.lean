import Carbon.Library.Packed
import Carbon.Word

namespace Carbon

-- What Fifo::init leaves behind: the buffer holds at least BUFFER_SIZE aligned
-- blocks and ends below 2^32. `packed` tells which overloads of insert, remove
-- and push_array the element type selects (its size is the aligned block size).
-- Elements are values here, so pop is there for packed types only: the remove
-- of the others copies as many bytes as a pointer has, see Buffer.remove.
structure Geometry where
  nElements : Nat
  alignedBlockSize : Nat
  firstAlignedAddress : Nat
  endAddress : Nat
  packed : Bool
  block_pos : 0 < alignedBlockSize
  holds : firstAlignedAddress + (nElements + 1) * alignedBlockSize ≤ endAddress
  no_wrap : endAddress < 2 ^ 32

namespace Geometry

variable (g : Geometry)

def bufferSize : Nat := g.nElements + 1

def getBlock (index : Nat) : Option Nat :=
  let block := uint32 (g.firstAlignedAddress + index * g.alignedBlockSize)
  if g.endAddress ≤ block then none else some block

-- The checks of Buffer::insert and Buffer::remove.
def fits (index length : Nat) : Bool :=
  match g.getBlock index with
  | none => false
  | some data => !g.packed || decide (uint32 (data + g.alignedBlockSize * length) ≤ g.endAddress)

-- FIFO_DECLARATION_8BIT_ALIG: an array of NElements + 1 bytes.
def ofBytes (nElements bufferPtr : Nat) (h : bufferPtr + (nElements + 1) < 2 ^ 32) : Geometry where
  nElements := nElements
  alignedBlockSize := 1
  firstAlignedAddress := bufferPtr
  endAddress := bufferPtr + (nElements + 1)
  packed := true
  block_pos := Nat.one_pos
  holds := by omega
  no_wrap := h

theorem bufferSize_lt : g.bufferSize < 2 ^ 32 := by
  have hmul := Nat.mul_le_mul_left (g.nElements + 1) g.block_pos
  have hholds := g.holds
  have hwrap := g.no_wrap
  unfold bufferSize
  omega

theorem fits_of_le {index length : Nat} (hi : index ≤ g.nElements)
    (hl : index + length ≤ g.bufferSize) : g.fits index length = true := by
  have hholds := g.holds
  have hwrap := g.no_wrap
  have hpos := g.block_pos
  have hblock : (index + 1) * g.alignedBlockSize ≤ (g.nElements + 1) * g.alignedBlockSize :=
    Nat.mul_le_mul_right _ (by omega)
  have hend : (index + length) * g.alignedBlockSize ≤ (g.nElements + 1) * g.alignedBlockSize :=
    Nat.mul_le_mul_right _ hl
  rw [Nat.add_mul, Nat.one_mul] at hblock
  rw [Nat.add_mul, Nat.mul_comm length] at hend
  have hdata : uint32 (g.firstAlignedAddress + index * g.alignedBlockSize) =
      g.firstAlignedAddress + index * g.alignedBlockSize := uint32_of_lt (by omega)
  have hnot : ¬g.endAddress ≤ g.firstAlignedAddress + index * g.alignedBlockSize := by omega
  simp only [fits, getBlock, hdata, hnot, ite_false]
  rw [uint32_of_lt (by omega)]
  simp only [Bool.or_eq_true, decide_eq_true_eq]
  right
  omega

end Geometry

-- The members of Fifo that its operations read or write. `buffer` is the
-- storage seen slot by slot.
structure Fifo (α : Type) where
  tailReserved : Nat
  head : Nat
  tailReady : Nat → BitVec 8
  buffer : Nat → α

variable {α : Type}

-- One memcpy of consecutive elements into the buffer.
structure Insert (α : Type) where
  index : Nat
  objects : List α

namespace Insert

def Touches (insert : Insert α) (slot : Nat) : Prop :=
  insert.index ≤ slot ∧ slot < insert.index + insert.objects.length

def apply (insert : Insert α) (buffer : Nat → α) : Nat → α := fun slot =>
  if insert.index ≤ slot then (insert.objects[slot - insert.index]?).getD (buffer slot)
  else buffer slot

theorem apply_untouched (insert : Insert α) (buffer : Nat → α) (slot : Nat)
    (h : ¬insert.Touches slot) : insert.apply buffer slot = buffer slot := by
  unfold apply
  split
  · rw [List.getElem?_eq_none (by unfold Touches at h; omega)]
    rfl
  · rfl

theorem apply_add (insert : Insert α) (buffer : Nat → α) (k : Nat)
    (h : k < insert.objects.length) :
    insert.apply buffer (insert.index + k) = insert.objects[k] := by
  simp [apply, h]

end Insert

namespace Fifo

variable (g : Geometry) (f : Fifo α)

def write (inserts : List (Insert α)) : Fifo α :=
  { f with buffer := inserts.foldl (fun buffer insert => insert.apply buffer) f.buffer }

def isReady (slot : Nat) : Bool :=
  f.tailReady (slot / 8) &&& Packed.single slot != 0#8

theorem isReady_eq_bit (slot : Nat) : f.isReady slot = Packed.bit f.tailReady slot := by
  unfold isReady
  cases h : Packed.bit f.tailReady slot with
  | false => simpa using (Packed.and_single_eq_zero f.tailReady slot).mpr h
  | true =>
      have hne : ¬f.tailReady (slot / 8) &&& Packed.single slot = 0#8 := by
        rw [Packed.and_single_eq_zero, h]
        decide
      simpa using hne

def setReady (slot : Nat) : Fifo α :=
  { f with tailReady := Packed.orAt f.tailReady (slot / 8) (Packed.single slot) }

def clearReady (slot : Nat) : Fifo α :=
  { f with tailReady := Packed.andAt f.tailReady (slot / 8) (~~~ Packed.single slot) }

-- increment(index) and increment(index, nIncrement) of the source; the second
-- one reports success and hands its index back.
def increment (index : Nat) : Nat :=
  if index < g.nElements then index + 1 else 0

def incrementBy (index nIncrement : Nat) : Bool × Nat :=
  if g.nElements < nIncrement then (false, index)
  else if uint32 (index + nIncrement) < g.bufferSize then (true, uint32 (index + nIncrement))
  else (true, uint32 (index + nIncrement) - g.bufferSize)

def isFull : Bool := decide (f.head = increment g f.tailReserved)

def isFullBy (nIncrement : Nat) : Bool :=
  if g.nElements < nIncrement then false
  else if f.tailReserved < f.head then decide (f.head - f.tailReserved ≤ nIncrement)
  else if f.head < f.tailReserved then
    decide (g.bufferSize - f.tailReserved + f.head ≤ nIncrement)
  else false

-- push in its three parts: the reservation under the lock (none when full),
-- the copy into the reserved slot, and the ready bit under the lock.
def pushReserve : Option Nat × Fifo α :=
  if f.isFull g then (none, f)
  else (some f.tailReserved, { f with tailReserved := increment g f.tailReserved })

def pushInsert (object : α) (fifoPos : Nat) : Fifo α :=
  if g.fits fifoPos 1 then f.write [⟨fifoPos, [object]⟩] else f

def pushCommit (fifoPos : Nat) : Fifo α := f.setReady fifoPos

-- pop in its three parts: the head under the lock (none when it is not ready),
-- the copy out of its slot (none when it is not the element that is copied), and
-- the release of the slot under the lock.
def popLook : Option Nat :=
  if f.isReady f.head then some f.head else none

def popRemove (object : α) (currentHead : Nat) : Option α :=
  if g.packed then some (if g.fits currentHead 1 then f.buffer currentHead else object) else none

def popAdvance (currentHead : Nat) : Fifo α :=
  { f with head := increment g f.head }.clearReady currentHead

-- The two loops of getElementReady. A loop out of fuel has no result;
-- BUFFER_SIZE iterations are enough for either of them.
def elementReady1 : Nat → Nat → Nat → Option (Nat × Option Nat)
  | 0, _, _ => none
  | fuel + 1, currentHead, dataLength1 =>
      let empty := !f.isReady currentHead
      let dataLength1 := if empty then dataLength1 else dataLength1 + 1
      let currentHead := increment g currentHead
      if currentHead < f.head then some (dataLength1, some currentHead)
      else if empty ∨ currentHead = f.head then some (dataLength1, none)
      else elementReady1 fuel currentHead dataLength1

def elementReady2 : Nat → Nat → Nat → Option Nat
  | 0, _, _ => none
  | fuel + 1, currentHead, dataLength2 =>
      let empty := !f.isReady currentHead
      let dataLength2 := if empty then dataLength2 else dataLength2 + 1
      let currentHead := increment g currentHead
      if f.head ≤ currentHead ∨ empty then some dataLength2
      else elementReady2 fuel currentHead dataLength2

def getElementReady : Option (Nat × Nat) :=
  match f.elementReady1 g g.bufferSize f.head 0 with
  | none => none
  | some (dataLength1, none) => some (dataLength1, 0)
  | some (dataLength1, some currentHead) =>
      (f.elementReady2 g g.bufferSize currentHead 0).map fun dataLength2 => (dataLength1, dataLength2)

end Fifo

end Carbon
