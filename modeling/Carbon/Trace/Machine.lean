import Carbon.Fifo.Machine
import Carbon.Trace.Client

namespace Carbon

namespace Trace

-- A call of one of the scheduler hooks: its ContextPush is constructed, then
-- filled, then destructed.
inductive Call
  | idle
  | opened (event : TraceEvent)
  | filled (event : TraceEvent)

-- A packet as pullEvent has sent it.
structure Sent where
  header : TracePacketHeader
  payload : List UInt8
  deriving DecidableEq

-- Trace::pullEvent: in osDelay, with its ContextPull constructed, behind the
-- packet header, or left.
inductive Pull
  | delay
  | opened
  | sending (sent : Sent)
  | returned

-- The hooks run on one core, as one producer of the FIFO. `wire` is what the
-- client has still to receive; accepted and packets are for the proofs.
structure State where
  fifo : Fifo.State UInt8
  call : Call
  accepted : List TraceEvent
  pull : Pull
  packets : List Sent
  wire : List UInt8
  client : Client

inductive Event
  | switched (event : TraceEvent)
  | pushArray
  | closePush
  | beginIteration
  | writeHeader (timestamp : UInt64)
  | writeByte
  | endIteration
  | recv (count : Nat)

variable (g : Geometry)

def overflowed (fifo : Fifo.State UInt8) : Bool :=
  match fifo.producer 0 with
  | .context c _ _ => c.isOverflow
  | _ => false

-- carbon_freertos_trace_switched_in and _out up to the constructed context.
def switched (s : State) (event : TraceEvent) : Option State :=
  match s.call with
  | .idle =>
      (Fifo.step g s.fifo (.openPush 0 sizeofTraceEvent)).map fun fifo =>
        { s with
          fifo
          call := .opened event
          accepted := if overflowed fifo then s.accepted else s.accepted ++ [event] }
  | .opened _ | .filled _ => none

def pushArray (s : State) : Option State :=
  match s.call with
  | .opened event =>
      (Fifo.step g s.fifo (.contextArray 0 event.bytes)).map fun fifo => { s with fifo, call := .filled event }
  | .idle | .filled _ => none

def closePush (s : State) : Option State :=
  match s.call with
  | .filled _ => (Fifo.step g s.fifo (.closePush 0)).map fun fifo => { s with fifo, call := .idle }
  | .idle | .opened _ => none

def beginIteration (s : State) : Option State :=
  match s.pull with
  | .delay => (Fifo.step g s.fifo .openPull).map fun fifo => { s with fifo, pull := .opened }
  | .opened | .sending _ | .returned => none

-- The header goes out if the context exposes anything; netconn_write copies it
-- to the wire.
def writeHeader (s : State) (timestamp : UInt64) : Option State :=
  match s.pull, s.fifo.consumer with
  | .opened, .pulling c _ =>
      let length := c.dataLength1 + c.dataLength2
      if 0 < length then
        if maxPacketSizeBytes < sizeofTracePacketHeader + length then some { s with pull := .returned }
        else
          let header := packetHeader timestamp length
          some { s with pull := .sending ⟨header, []⟩, wire := s.wire ++ header.bytes }
      else none
  | _, _ => none

-- netconn_write reads the two pieces of the FIFO byte by byte.
def writeByte (s : State) : Option State :=
  match s.pull, s.fifo.consumer with
  | .sending sent, .pulling c values =>
      (Fifo.step g s.fifo .pullRead).map fun fifo =>
        let byte := s.fifo.fifo.buffer (c.slot values.length)
        { s with
          fifo
          pull := .sending { sent with payload := sent.payload ++ [byte] }
          wire := s.wire ++ [byte] }
  | _, _ => none

-- The destructor at the end of the loop's body; without a header that is only
-- reached when the context exposes nothing.
def endIteration (s : State) : Option State :=
  match s.pull with
  | .opened => (Fifo.step g s.fifo .closePull).map fun fifo => { s with fifo, pull := .delay }
  | .sending sent =>
      (Fifo.step g s.fifo .closePull).map fun fifo =>
        { s with fifo, pull := .delay, packets := s.packets ++ [sent] }
  | .delay | .returned => none

-- recv returns at least one byte and at most as many as it is asked for.
def recv (s : State) (count : Nat) : Option State :=
  if 0 < count ∧ (count : Int) ≤ s.client.bytesLeft ∧ count ≤ s.wire.length then
    some { s with client := s.client.receive (s.wire.take count), wire := s.wire.drop count }
  else none

def step (s : State) : Event → Option State
  | .switched event => switched g s event
  | .pushArray => pushArray g s
  | .closePush => closePush g s
  | .beginIteration => beginIteration g s
  | .writeHeader timestamp => writeHeader s timestamp
  | .writeByte => writeByte g s
  | .endIteration => endIteration g s
  | .recv count => recv s count

-- An initialised FIFO and a client that has just connected.
def start (buffer buf : Nat → UInt8) : State :=
  ⟨Fifo.start buffer, .idle, [], .delay, [], [], Client.start buf⟩

def system : Transition.System State Event where
  initial s := ∃ buffer buf, s = start buffer buf
  step := step g

-- The geometry of FIFO_DECLARATION_8BIT_ALIG(trace, uint8_t, 2048, Trace).
def geometry (bufferPtr : Nat) (h : bufferPtr + (2048 + 1) < 2 ^ 32) : Geometry :=
  .ofBytes 2048 bufferPtr h

def atZero : Geometry := geometry 0 (by decide)

variable {g} {s t : State}

theorem beginIteration_cases (h : beginIteration g s = some t) : s.pull = .delay ∧
    ∃ fifo, Fifo.step g s.fifo .openPull = some fifo ∧ t = { s with fifo, pull := .opened } := by
  unfold beginIteration at h
  split at h
  · obtain ⟨fifo, hopen, rfl⟩ := Option.map_eq_some_iff.mp h
    exact ⟨‹_›, fifo, hopen, rfl⟩
  all_goals cases h

theorem writeHeader_cases {timestamp : UInt64} (h : writeHeader s timestamp = some t) : s.pull = .opened ∧
    ∃ c values, s.fifo.consumer = .pulling c values ∧ 0 < c.dataLength1 + c.dataLength2 ∧
      t = if maxPacketSizeBytes < sizeofTracePacketHeader + (c.dataLength1 + c.dataLength2) then
          { s with pull := .returned }
        else { s with
          pull := .sending ⟨packetHeader timestamp (c.dataLength1 + c.dataLength2), []⟩
          wire := s.wire ++ (packetHeader timestamp (c.dataLength1 + c.dataLength2)).bytes } := by
  unfold writeHeader at h
  split at h
  · rename_i c values hopened hc
    obtain ⟨hpos, h⟩ := Option.ite_none_right_eq_some.mp h
    refine ⟨hopened, c, values, hc, hpos, ?_⟩
    split at h <;> cases h
    · rw [if_pos ‹_›]
    · rw [if_neg ‹_›]
  · cases h

theorem writeByte_cases (h : writeByte g s = some t) : ∃ sent c values fifo, s.pull = .sending sent ∧
    s.fifo.consumer = .pulling c values ∧ Fifo.step g s.fifo .pullRead = some fifo ∧
    t = { s with
      fifo
      pull := .sending { sent with payload := sent.payload ++ [s.fifo.fifo.buffer (c.slot values.length)] }
      wire := s.wire ++ [s.fifo.fifo.buffer (c.slot values.length)] } := by
  unfold writeByte at h
  split at h
  · rename_i sent c values hsending hc
    obtain ⟨fifo, hread, rfl⟩ := Option.map_eq_some_iff.mp h
    exact ⟨sent, c, values, fifo, hsending, hc, hread, rfl⟩
  · cases h

theorem endIteration_cases (h : endIteration g s = some t) :
    ∃ fifo, Fifo.step g s.fifo .closePull = some fifo ∧
      (s.pull = .opened ∧ t = { s with fifo, pull := .delay } ∨
        ∃ sent, s.pull = .sending sent ∧ t = { s with fifo, pull := .delay, packets := s.packets ++ [sent] }) := by
  unfold endIteration at h
  split at h
  · obtain ⟨fifo, hclose, rfl⟩ := Option.map_eq_some_iff.mp h
    exact ⟨fifo, hclose, .inl ⟨‹_›, rfl⟩⟩
  · obtain ⟨fifo, hclose, rfl⟩ := Option.map_eq_some_iff.mp h
    exact ⟨fifo, hclose, .inr ⟨_, ‹_›, rfl⟩⟩
  all_goals cases h

end Trace

end Carbon
