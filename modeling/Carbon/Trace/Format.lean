import Carbon.Library.LittleEndian

namespace Carbon

namespace Trace

open LittleEndian (layout)

-- The two events of the scheduler hooks. Their structs are packed, 16 bytes
-- long and differ in the id of their header.
inductive TraceEventID
  | taskSwitchedIn
  | taskSwitchedOut
  deriving DecidableEq

def TraceEventID.value : TraceEventID → Nat
  | .taskSwitchedIn => 3
  | .taskSwitchedOut => 4

structure TraceEvent where
  id : TraceEventID
  timestamp : UInt64
  number : UInt32
  deriving DecidableEq

def sizeofTracePacketHeader : Nat := 24
def sizeofTraceEventHeader : Nat := 12
def sizeofTraceEvent : Nat := 16

-- eventSizeBits, id, timestamp, number.
def TraceEvent.fields (event : TraceEvent) : List (Nat × Nat) :=
  [(2, sizeofTraceEvent <<< 3), (2, event.id.value), (8, event.timestamp.toNat), (4, event.number.toNat)]

def TraceEvent.bytes (event : TraceEvent) : List UInt8 := layout event.fields

structure TracePacketHeader where
  streamId : UInt32
  timestamp : UInt64
  packetSizeBits : UInt32
  cpuId : UInt16
  deriving DecidableEq

def magic : Nat := 0xc1fc1fc1

def maxPacketSizeBytes : Nat := (2 ^ 32 - 1) >>> 3

-- magic, streamId, timestamp, packetSizeBits, eventsDiscarded, cpuId.
def TracePacketHeader.fields (header : TracePacketHeader) : List (Nat × Nat) :=
  [(4, magic), (4, header.streamId.toNat), (8, header.timestamp.toNat), (4, header.packetSizeBits.toNat),
    (2, 0), (2, header.cpuId.toNat)]

def TracePacketHeader.bytes (header : TracePacketHeader) : List UInt8 := layout header.fields

-- The header pullEvent sends in front of len1 + len2 bytes of the FIFO.
def packetHeader (timestamp : UInt64) (length : Nat) : TracePacketHeader where
  streamId := 0
  timestamp := timestamp
  packetSizeBits := .ofNat ((sizeofTracePacketHeader + length) <<< 3)
  cpuId := 0

@[simp] theorem TraceEvent.length_bytes (event : TraceEvent) : event.bytes.length = sizeofTraceEvent := by
  rw [TraceEvent.bytes, LittleEndian.length_layout]
  rfl

@[simp] theorem TracePacketHeader.length_bytes (header : TracePacketHeader) :
    header.bytes.length = sizeofTracePacketHeader := by
  rw [TracePacketHeader.bytes, LittleEndian.length_layout]
  rfl

def eventBytes (events : List TraceEvent) : List UInt8 := events.flatMap TraceEvent.bytes

@[simp] theorem length_eventBytes (events : List TraceEvent) :
    (eventBytes events).length = sizeofTraceEvent * events.length := by
  induction events with
  | nil => rfl
  | cons event events ih =>
      have hcons : eventBytes (event :: events) = event.bytes ++ eventBytes events := List.flatMap_cons
      rw [hcons, List.length_append, TraceEvent.length_bytes, ih, List.length_cons, Nat.mul_succ,
        Nat.add_comm]

theorem eventBytes_append (front back : List TraceEvent) :
    eventBytes (front ++ back) = eventBytes front ++ eventBytes back := List.flatMap_append

end Trace

end Carbon
