import Carbon.Fifo.Basic
import Mathlib.Logic.Function.Iterate

namespace Carbon

variable {α : Type}

structure ContextPush where
  nObjects : Nat
  index : Nat
  fifoPosStart : Nat
  fifoPosEnd : Nat
  dataLength1 : Nat
  dataLength2 : Nat
  isOverflow : Bool

namespace ContextPush

variable (g : Geometry)

-- The constructor, under the lock. When increment refuses nObjects_ - 1 the
-- end of the range stays at its start.
def construct (f : Fifo α) (nObjects : Nat) : Fifo α × ContextPush :=
  if f.isFullBy g nObjects then (f, ⟨nObjects, 0, 0, 0, 0, 0, true⟩)
  else
    let start := f.tailReserved
    let fifoPosEnd := (Fifo.incrementBy g start (uint32Sub nObjects 1)).2
    let fits := decide (uint32 (start + nObjects) ≤ g.bufferSize)
    let dataLength1 := if fits then nObjects else g.bufferSize - start
    ({ f with tailReserved := Fifo.increment g fifoPosEnd },
      ⟨nObjects, start, start, fifoPosEnd, dataLength1, nObjects - dataLength1, false⟩)

-- The destructor, under the lock.
def destruct (f : Fifo α) (c : ContextPush) : Fifo α :=
  if c.isOverflow then f
  else
    let index1 := c.fifoPosStart / 8
    let index2 := c.fifoPosEnd / 8
    let bitPos1 := Packed.upward c.fifoPosStart
    let bitPos2 := Packed.downward c.fifoPosEnd
    if index1 = index2 then
      { f with tailReady := Packed.orAt f.tailReady index1 (bitPos1 &&& bitPos2) }
    else
      let ready := Packed.orAt (Packed.orAt f.tailReady index1 bitPos1) index2 bitPos2
      if index1 < index2 then { f with tailReady := Packed.fill ready (index1 + 1) index2 }
      else
        let lastIndex := g.nElements / 8
        let ready := Packed.fill ready (index1 + 1) lastIndex
        let ready := Function.update ready lastIndex (Packed.downward g.nElements)
        { f with tailReady := Packed.fill ready 0 index2 }

-- The writing members return their result, the context they leave, how many
-- slots index_ moved on, and the inserts they made, in order.
structure Outcome (α : Type) where
  success : Bool
  context : ContextPush
  moved : Nat
  inserts : List (Insert α)

-- The common step of push and of the loop below: one object at index_.
def insertOne (c : ContextPush) (object : α) : Outcome α :=
  if g.fits c.index 1 then
    ⟨true, { c with index := Fifo.increment g c.index }, 1, [⟨c.index, [object]⟩]⟩
  else ⟨false, c, 0, []⟩

def push (tailReserved : Nat) (c : ContextPush) (object : α) : Outcome α :=
  if c.isOverflow then ⟨false, c, 0, []⟩
  else if c.index ≠ tailReserved then insertOne g c object
  else ⟨false, c, 0, []⟩

-- push_array for packed elements. The caller's length is the length of the
-- array it hands over.
def pushArray (c : ContextPush) (objects : List α) : Outcome α :=
  if c.isOverflow then ⟨false, c, 0, []⟩
  else if objects.length ≤ c.dataLength1 then
    if g.fits c.index objects.length then
      let (ok, index) := Fifo.incrementBy g c.index c.dataLength1
      ⟨ok, { c with index := index }, if ok then c.dataLength1 else 0, [⟨c.index, objects⟩]⟩
    else ⟨false, c, 0, []⟩
  else if g.fits c.index c.dataLength1 then
    let (ok, index) := Fifo.incrementBy g c.index c.dataLength1
    let moved := if ok then c.dataLength1 else 0
    let first := ⟨c.index, objects.take c.dataLength1⟩
    if ok = false then ⟨false, { c with index := index }, moved, [first]⟩
    else if index ≠ 0 then ⟨false, { c with index := index }, moved, [first]⟩
    else if g.fits index (objects.length - c.dataLength1) then
      ⟨true, { c with index := index }, moved, [first, ⟨index, objects.drop c.dataLength1⟩]⟩
    else ⟨false, { c with index := index }, moved, [first]⟩
  else ⟨false, c, 0, []⟩

-- push_array for padded elements is a loop over insertOne; this is its
-- condition. The object of round i is whatever *(&object + i) points at.
def arrayContinues (tailReserved : Nat) (c : ContextPush) (i length : Nat) : Bool :=
  decide (c.index ≠ tailReserved ∨ i < length)

end ContextPush

structure ContextPull where
  currentHead : Nat
  dataLength1 : Nat
  dataLength2 : Nat

namespace ContextPull

variable (g : Geometry)

def construct (f : Fifo α) : Option ContextPull :=
  (f.getElementReady g).map fun (dataLength1, dataLength2) =>
    ⟨f.head, dataLength1, dataLength2⟩

-- One round of the destructor's loop, and the loop.
def removeHead (f : Fifo α) : Fifo α :=
  { f.clearReady f.head with head := Fifo.increment g f.head }

def destruct (f : Fifo α) (c : ContextPull) : Fifo α :=
  (removeHead g)^[c.dataLength1 + c.dataLength2] f

-- The slot of the k-th exposed element: first the piece that starts at the
-- head, then the piece that starts at slot 0.
def slot (c : ContextPull) (k : Nat) : Nat :=
  if k < c.dataLength1 then c.currentHead + k else k - c.dataLength1

end ContextPull

end Carbon
