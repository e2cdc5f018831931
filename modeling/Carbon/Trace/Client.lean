import Carbon.Fifo.Basic
import Carbon.Trace.Format
import Mathlib.Tactic.SplitIfs

namespace Carbon

namespace Trace

namespace Client

-- The three receive loops of the client, and its exit(1).
inductive Phase
  | packetHeader
  | eventHeader
  | eventBody
  | failed
  deriving DecidableEq

end Client

-- The variables of the client's loops and the events it has reported.
structure Client where
  phase : Client.Phase
  bytesLeft : Int
  bufOffset : Nat
  bytesLeftStream : Int
  buf : Nat → UInt8
  events : List TraceEvent

namespace Client

open LittleEndian (read)

def enterPacketHeader (c : Client) : Client :=
  { c with phase := .packetHeader, bytesLeft := sizeofTracePacketHeader, bufOffset := 0 }

def enterEventHeader (c : Client) : Client :=
  { c with phase := .eventHeader, bytesLeft := sizeofTraceEventHeader, bufOffset := 0 }

def fail (c : Client) : Client := { c with phase := .failed }

def start (buf : Nat → UInt8) : Client := ⟨.packetHeader, sizeofTracePacketHeader, 0, 0, buf, []⟩

-- Behind the header of a packet.
def packetHeaderRead (c : Client) : Client :=
  let bytesLeftStream : Int := (read c.buf 16 4 >>> 3 : Nat) - sizeofTracePacketHeader
  if bytesLeftStream < 0 ∨ bytesLeftStream < sizeofTraceEventHeader then c.fail
  else { c with bytesLeftStream := bytesLeftStream }.enterEventHeader

-- The switch over the id of an event reports the two events of the hooks only.
def report (c : Client) : Client :=
  let timestamp := UInt64.ofNat (read c.buf 4 8)
  let number := UInt32.ofNat (read c.buf 12 4)
  if read c.buf 2 2 = TraceEventID.taskSwitchedIn.value then
    { c with events := c.events ++ [⟨.taskSwitchedIn, timestamp, number⟩] }
  else if read c.buf 2 2 = TraceEventID.taskSwitchedOut.value then
    { c with events := c.events ++ [⟨.taskSwitchedOut, timestamp, number⟩] }
  else c

-- Behind an event: the next one of the packet, or the next packet.
def eventRead (c : Client) : Client :=
  if c.bytesLeftStream ≠ 0 then c.report.enterEventHeader else c.report.enterPacketHeader

def eventHeaderRead (c : Client) : Client :=
  let bytesLeft : Int := (read c.buf 0 2 >>> 3 : Nat) - sizeofTraceEventHeader
  if bytesLeft < 0 then c.fail
  else
    let c := { c with phase := .eventBody, bytesLeft := bytesLeft, bufOffset := sizeofTraceEventHeader }
    if bytesLeft = 0 then c.eventRead else c

-- What recv stores at bufOffset.
def store (c : Client) (chunk : List UInt8) : Client :=
  { c with
    buf := Insert.apply ⟨c.bufOffset, chunk⟩ c.buf
    bytesLeft := c.bytesLeft - chunk.length
    bufOffset := c.bufOffset + chunk.length }

-- One recv of any of the loops, and what follows when the loop is done.
def receive (c : Client) (chunk : List UInt8) : Client :=
  match c.phase with
  | .packetHeader =>
      let c := c.store chunk
      if c.bytesLeft < 0 then c.fail else if c.bytesLeft = 0 then c.packetHeaderRead else c
  | .eventHeader =>
      let c := { c.store chunk with bytesLeftStream := c.bytesLeftStream - chunk.length }
      if c.bytesLeft < 0 ∨ c.bytesLeftStream < 0 then c.fail
      else if c.bytesLeft = 0 then c.eventHeaderRead else c
  | .eventBody =>
      let c := { c.store chunk with bytesLeftStream := c.bytesLeftStream - chunk.length }
      if c.bytesLeft < 0 ∨ c.bytesLeftStream < 0 then c.fail
      else if c.bytesLeft = 0 then c.eventRead else c
  | .failed => c

end Client

-- A packet as it should be sent: at least one event, and a size that fits the
-- header.
structure Packet where
  timestamp : UInt64
  events : List TraceEvent
  nonempty : events ≠ []
  fits : sizeofTracePacketHeader + sizeofTraceEvent * events.length ≤ maxPacketSizeBytes

def Packet.header (packet : Packet) : TracePacketHeader :=
  packetHeader packet.timestamp (eventBytes packet.events).length

def Packet.bytes (packet : Packet) : List UInt8 := packet.header.bytes ++ eventBytes packet.events

def packetBytes (packets : List Packet) : List UInt8 := packets.flatMap Packet.bytes

def packetEvents (packets : List Packet) : List TraceEvent := packets.flatMap Packet.events

theorem packetBytes_cons (packet : Packet) (packets : List Packet) :
    packetBytes (packet :: packets) =
      packet.header.bytes ++ (eventBytes packet.events ++ packetBytes packets) := by
  simp [packetBytes, Packet.bytes, List.append_assoc]

theorem eventBytes_cons (event : TraceEvent) (events : List TraceEvent) :
    eventBytes (event :: events) = event.bytes ++ eventBytes events := List.flatMap_cons

-- The size in a packet header is the size of the packet.
theorem Packet.size_bits (packet : Packet) : packet.header.packetSizeBits.toNat =
    (sizeofTracePacketHeader + (eventBytes packet.events).length) * 8 := by
  have hfits := packet.fits
  unfold Packet.header packetHeader
  rw [UInt32.toNat_ofNat', length_eventBytes]
  unfold maxPacketSizeBytes at hfits
  simp only [Nat.shiftLeft_eq, Nat.shiftRight_eq_div_pow] at hfits ⊢
  omega

namespace Client

open LittleEndian (read)

-- The first `stop` bytes of the current packet header or event are in buf.
def Shows (c : Client) (stream : List UInt8) (stop : Nat) : Prop :=
  c.bufOffset = stop ∧ ∀ i < stop, stream[i]? = some (c.buf i)

-- Between two packets, or inside a packet header.
def AtPacket (c : Client) (rest : List UInt8) (future : List TraceEvent) : Prop :=
  ∃ packets stop, stop < sizeofTracePacketHeader ∧ c.bytesLeft = sizeofTracePacketHeader - stop ∧
    c.Shows (packetBytes packets) stop ∧ rest = (packetBytes packets).drop stop ∧
    future = packetEvents packets

-- Inside a packet, `stop` bytes into the next of its events.
def AtEvent (c : Client) (finish stop : Nat) (rest : List UInt8) (future : List TraceEvent) : Prop :=
  ∃ event events packets, stop < finish ∧ c.bytesLeft = finish - stop ∧
    c.bytesLeftStream = (sizeofTraceEvent * (events.length + 1) : Nat) - stop ∧
    c.Shows (eventBytes (event :: events) ++ packetBytes packets) stop ∧
    rest = (eventBytes (event :: events) ++ packetBytes packets).drop stop ∧
    future = event :: events ++ packetEvents packets

-- The bytes that are still to come continue a stream of packets, and the
-- client will report these events from them.
def Expects (c : Client) (rest : List UInt8) (future : List TraceEvent) : Prop :=
  match c.phase with
  | .packetHeader => c.AtPacket rest future
  | .eventHeader => ∃ stop, c.AtEvent sizeofTraceEventHeader stop rest future
  | .eventBody => ∃ stop, sizeofTraceEventHeader ≤ stop ∧ c.AtEvent sizeofTraceEvent stop rest future
  | .failed => False

variable {c : Client} {rest chunk stream : List UInt8} {future : List TraceEvent} {stop : Nat}

theorem Shows.le_length (h : c.Shows stream stop) : stop ≤ stream.length := by
  by_contra hlt
  have hlast := h.2 (stop - 1) (by omega)
  rw [List.getElem?_eq_none (by omega)] at hlast
  cases hlast

-- A chunk of the stream is stored where its bytes belong.
theorem Shows.store (h : c.Shows stream stop) (hchunk : chunk <+: stream.drop stop) :
    (c.store chunk).Shows stream (stop + chunk.length) := by
  obtain ⟨hoffset, hbuf⟩ := h
  refine ⟨congrArg (· + chunk.length) hoffset, fun i hi => ?_⟩
  unfold Client.store
  dsimp only
  rw [hoffset]
  by_cases hold : i < stop
  · rw [Insert.apply_untouched _ _ _ (fun htouch => absurd htouch.1 (by dsimp only; omega))]
    exact hbuf i hold
  · obtain ⟨k, rfl⟩ := Nat.exists_eq_add_of_le (Nat.le_of_not_lt hold)
    have hk : k < chunk.length := by omega
    obtain ⟨tail, htail⟩ := hchunk
    rw [Insert.apply_add ⟨stop, chunk⟩ c.buf k hk, ← List.getElem?_drop, ← htail,
      List.getElem?_append_left hk, List.getElem?_eq_getElem hk]

theorem shows_zero {d : Client} (hoffset : d.bufOffset = 0) : d.Shows stream 0 :=
  ⟨hoffset, fun i hi => absurd hi (Nat.not_lt_zero i)⟩

theorem Shows.congr {d : Client} (h : c.Shows stream stop) (hoffset : d.bufOffset = c.bufOffset)
    (hbuf : d.buf = c.buf) : d.Shows stream stop := by
  unfold Shows
  rw [hoffset, hbuf]
  exact h

theorem read_size {packet : Packet} {tail : List UInt8} (h : c.Shows (packet.header.bytes ++ tail) stop)
    (hstop : sizeofTracePacketHeader ≤ stop) :
    read c.buf 16 4 >>> 3 = sizeofTracePacketHeader + sizeofTraceEvent * packet.events.length := by
  have hread := LittleEndian.read_layout
    [(4, magic), (4, packet.header.streamId.toNat), (8, packet.header.timestamp.toNat)]
    4 packet.header.packetSizeBits.toNat [(2, 0), (2, packet.header.cpuId.toNat)] tail h.2
    (Nat.le_trans (by simp [LittleEndian.width, sizeofTracePacketHeader]) hstop)
  have hlt : packet.header.packetSizeBits.toNat < 256 ^ 4 := packet.header.packetSizeBits.toNat_lt
  rw [Nat.mod_eq_of_lt hlt, packet.size_bits, length_eventBytes] at hread
  change read c.buf 16 4 = _ at hread
  rw [hread, Nat.shiftRight_eq_div_pow]
  omega

theorem read_event_header {event : TraceEvent} {tail : List UInt8} (h : c.Shows (event.bytes ++ tail) stop)
    (hstop : sizeofTraceEventHeader ≤ stop) :
    read c.buf 0 2 = sizeofTraceEvent <<< 3 ∧ read c.buf 2 2 = event.id.value ∧
      read c.buf 4 8 = event.timestamp.toNat := by
  have hid : event.id.value < 256 ^ 2 := by cases event.id <;> decide
  have htimestamp : event.timestamp.toNat < 256 ^ 8 := event.timestamp.toNat_lt
  refine ⟨?_, ?_, ?_⟩
  · exact LittleEndian.read_layout [] 2 (sizeofTraceEvent <<< 3)
      [(2, event.id.value), (8, event.timestamp.toNat), (4, event.number.toNat)] tail h.2
      (Nat.le_trans (by decide) hstop)
  · refine Eq.trans ?_ (Nat.mod_eq_of_lt hid)
    exact LittleEndian.read_layout [(2, sizeofTraceEvent <<< 3)] 2 event.id.value
      [(8, event.timestamp.toNat), (4, event.number.toNat)] tail h.2
      (Nat.le_trans (by decide) hstop)
  · refine Eq.trans ?_ (Nat.mod_eq_of_lt htimestamp)
    exact LittleEndian.read_layout [(2, sizeofTraceEvent <<< 3), (2, event.id.value)] 8
      event.timestamp.toNat [(4, event.number.toNat)] tail h.2
      (Nat.le_trans (by simp [LittleEndian.width, sizeofTraceEventHeader]) hstop)

theorem read_event_number {event : TraceEvent} {tail : List UInt8} (h : c.Shows (event.bytes ++ tail) stop)
    (hstop : sizeofTraceEvent ≤ stop) : read c.buf 12 4 = event.number.toNat := by
  have hnumber : event.number.toNat < 256 ^ 4 := event.number.toNat_lt
  refine Eq.trans ?_ (Nat.mod_eq_of_lt hnumber)
  exact LittleEndian.read_layout
    [(2, sizeofTraceEvent <<< 3), (2, event.id.value), (8, event.timestamp.toNat)]
    4 event.number.toNat [] tail h.2
    (Nat.le_trans (by simp [LittleEndian.width, sizeofTraceEvent]) hstop)

-- A whole event in buf is reported as it was sent.
theorem report_event {event : TraceEvent} {tail : List UInt8} (h : c.Shows (event.bytes ++ tail) stop)
    (hstop : sizeofTraceEvent ≤ stop) : c.report = { c with events := c.events ++ [event] } := by
  obtain ⟨_, hid, htimestamp⟩ := read_event_header h (Nat.le_trans (by decide) hstop)
  have hnumber := read_event_number h hstop
  unfold report
  dsimp only
  rw [hid, htimestamp, hnumber, UInt64.ofNat_toNat, UInt32.ofNat_toNat]
  cases event with
  | mk id timestamp number =>
      cases id with
      | taskSwitchedIn => exact if_pos rfl
      | taskSwitchedOut => exact (if_neg (show ¬4 = 3 by decide)).trans (if_pos rfl)

-- At the end of a packet header the first of its events is expected.
theorem Shows.packetRead {packets : List Packet} {rest' : List UInt8}
    (h : c.Shows (packetBytes packets) sizeofTracePacketHeader)
    (hrest : rest' = (packetBytes packets).drop sizeofTracePacketHeader) :
    c.packetHeaderRead.events = c.events ∧ c.packetHeaderRead.Expects rest' (packetEvents packets) := by
  cases packets with
  | nil => exact absurd h.le_length (by decide)
  | cons packet packets =>
      rw [packetBytes_cons] at h hrest
      have hsize := read_size h (Nat.le_refl _)
      obtain ⟨event, events, hevents⟩ := List.exists_cons_of_ne_nil packet.nonempty
      unfold packetHeaderRead
      rw [hsize, hevents]
      have hlong : ¬(((sizeofTracePacketHeader + sizeofTraceEvent * (event :: events).length : Nat) : Int) -
          sizeofTracePacketHeader < 0 ∨
          ((sizeofTracePacketHeader + sizeofTraceEvent * (event :: events).length : Nat) : Int) -
            sizeofTracePacketHeader < sizeofTraceEventHeader) := by
        unfold sizeofTracePacketHeader sizeofTraceEvent sizeofTraceEventHeader
        rw [List.length_cons]
        omega
      dsimp only
      rw [if_neg hlong]
      refine ⟨rfl, 0, event, events, packets, by decide, rfl, ?_, shows_zero rfl, ?_, ?_⟩
      · unfold enterEventHeader
        dsimp only
        rw [List.length_cons]
        omega
      · rw [hrest, List.drop_left' (TracePacketHeader.length_bytes _), hevents]
        rfl
      · rw [packetEvents, List.flatMap_cons, hevents]
        rfl

-- Inside a packet header, and at its end.
theorem AtPacket.receive {rest' : List UInt8} (h : c.AtPacket rest future) (hphase : c.phase = .packetHeader)
    (hne : chunk ≠ []) (hle : (chunk.length : Int) ≤ c.bytesLeft) (hrest : rest = chunk ++ rest') :
    (c.receive chunk).events = c.events ∧ (c.receive chunk).Expects rest' future := by
  obtain ⟨packets, stop, hstop, hleft, hshows, hdrop, rfl⟩ := h
  have hpos := List.length_pos_iff.mpr hne
  have hstored := hshows.store ⟨rest', (hrest.symm.trans hdrop)⟩
  have hrest' : rest' = (packetBytes packets).drop (stop + chunk.length) := by
    rw [← List.drop_drop, ← hdrop, hrest, List.drop_left]
  have hcount : (c.store chunk).bytesLeft = sizeofTracePacketHeader - (stop + chunk.length : Nat) := by
    show c.bytesLeft - chunk.length = _
    omega
  unfold Client.receive
  rw [hphase]
  dsimp only
  rw [if_neg (show ¬(c.store chunk).bytesLeft < 0 by omega)]
  by_cases hdone : (c.store chunk).bytesLeft = 0
  · rw [if_pos hdone]
    have hend : stop + chunk.length = sizeofTracePacketHeader := by omega
    rw [hend] at hstored hrest'
    exact hstored.packetRead hrest'
  · rw [if_neg hdone]
    refine ⟨rfl, ?_⟩
    unfold Expects
    have hsame : (c.store chunk).phase = .packetHeader := hphase
    rw [hsame]
    exact ⟨packets, stop + chunk.length, by omega, hcount, hstored, hrest', rfl⟩

-- What a recv inside an event leaves behind.
def storeEvent (c : Client) (chunk : List UInt8) : Client :=
  { c.store chunk with bytesLeftStream := c.bytesLeftStream - chunk.length }

-- The loops over an event count the same bytes twice, so neither count drops
-- below zero.
theorem AtEvent.counts {finish : Nat} (h : c.AtEvent finish stop rest future)
    (hfinish : finish ≤ sizeofTraceEvent) (hle : (chunk.length : Int) ≤ c.bytesLeft) :
    stop + chunk.length ≤ finish ∧
      ¬((c.storeEvent chunk).bytesLeft < 0 ∨ (c.storeEvent chunk).bytesLeftStream < 0) ∧
      ((c.storeEvent chunk).bytesLeft = 0 ↔ stop + chunk.length = finish) := by
  obtain ⟨event, events, packets, hstop, hleft, hstream, _⟩ := h
  have hone : sizeofTraceEvent ≤ sizeofTraceEvent * (events.length + 1) :=
    Nat.le_mul_of_pos_right _ (Nat.succ_pos _)
  unfold storeEvent Client.store
  dsimp only
  omega

theorem AtEvent.store {finish : Nat} {rest' : List UInt8} (h : c.AtEvent finish stop rest future)
    (hrest : rest = chunk ++ rest') :
    ∃ event events packets,
      (c.storeEvent chunk).bytesLeft = finish - (stop + chunk.length : Nat) ∧
      (c.storeEvent chunk).bytesLeftStream =
        (sizeofTraceEvent * (events.length + 1) : Nat) - (stop + chunk.length : Nat) ∧
      (c.storeEvent chunk).Shows (eventBytes (event :: events) ++ packetBytes packets) (stop + chunk.length) ∧
      rest' = (eventBytes (event :: events) ++ packetBytes packets).drop (stop + chunk.length) ∧
      future = event :: events ++ packetEvents packets := by
  obtain ⟨event, events, packets, hstop, hleft, hstream, hshows, hdrop, hfuture⟩ := h
  refine ⟨event, events, packets, ?_, ?_, (hshows.store ⟨rest', hrest.symm.trans hdrop⟩).congr rfl rfl,
    ?_, hfuture⟩
  · unfold storeEvent Client.store
    dsimp only
    omega
  · unfold storeEvent
    dsimp only
    omega
  · rw [← List.drop_drop, ← hdrop, hrest, List.drop_left]

-- Inside an event, with bytes of the same loop still to come.
theorem AtEvent.continue {finish : Nat} {rest' : List UInt8} (h : c.AtEvent finish stop rest future)
    (hrest : rest = chunk ++ rest') (hlt : stop + chunk.length < finish) :
    (c.storeEvent chunk).AtEvent finish (stop + chunk.length) rest' future := by
  obtain ⟨event, events, packets, hleft, hstream, hshows, hdrop, hfuture⟩ := h.store hrest
  exact ⟨event, events, packets, hlt, hleft, hstream, hshows, hdrop, hfuture⟩

-- At the end of an event header its body is expected.
theorem AtEvent.headerRead {rest' : List UInt8} (h : c.AtEvent sizeofTraceEventHeader stop rest future)
    (hrest : rest = chunk ++ rest') (hend : stop + chunk.length = sizeofTraceEventHeader) :
    (c.storeEvent chunk).eventHeaderRead.events = c.events ∧
      (c.storeEvent chunk).eventHeaderRead.Expects rest' future := by
  obtain ⟨event, events, packets, hleft, hstream, hshows, hdrop, hfuture⟩ := h.store hrest
  rw [hend] at hstream hshows hdrop
  have hread : (c.storeEvent chunk).eventHeaderRead =
      { c.storeEvent chunk with
        phase := .eventBody, bytesLeft := 4, bufOffset := sizeofTraceEventHeader } := by
    have hevent := hshows
    rw [eventBytes_cons, List.append_assoc] at hevent
    unfold eventHeaderRead
    rw [(read_event_header hevent (Nat.le_refl _)).1]
    rfl
  rw [hread]
  exact ⟨rfl, sizeofTraceEventHeader, Nat.le_refl _, event, events, packets, by decide, rfl, hstream,
    hshows.congr hshows.1.symm rfl, hdrop, hfuture⟩

-- At the end of an event it is reported, and the next event or packet is
-- expected.
theorem AtEvent.bodyRead {rest' : List UInt8} (h : c.AtEvent sizeofTraceEvent stop rest future)
    (hrest : rest = chunk ++ rest') (hend : stop + chunk.length = sizeofTraceEvent) :
    ∃ event future', (c.storeEvent chunk).eventRead.events = c.events ++ [event] ∧
      future = event :: future' ∧ (c.storeEvent chunk).eventRead.Expects rest' future' := by
  obtain ⟨event, events, packets, hleft, hstream, hshows, hdrop, hfuture⟩ := h.store hrest
  rw [hend] at hstream hshows hdrop
  have hevent := hshows
  rw [eventBytes_cons, List.append_assoc] at hevent hdrop
  rw [List.drop_left' event.length_bytes] at hdrop
  have hreport := report_event hevent (Nat.le_refl _)
  refine ⟨event, events ++ packetEvents packets, ?_, hfuture, ?_⟩
  · unfold eventRead
    rw [hreport]
    split <;> rfl
  · unfold eventRead
    rw [hreport]
    cases events with
    | nil =>
        rw [if_neg (by rw [hstream, List.length_nil]; simp)]
        exact ⟨packets, 0, by decide, rfl, shows_zero rfl, hdrop, rfl⟩
    | cons event' events' =>
        rw [if_pos (by rw [hstream, List.length_cons]; unfold sizeofTraceEvent; omega)]
        refine ⟨0, event', events', packets, by decide, rfl, ?_, shows_zero rfl, hdrop, rfl⟩
        unfold enterEventHeader
        dsimp only
        rw [hstream, List.length_cons]
        unfold sizeofTraceEvent
        omega

-- Whatever the segmentation, one recv reports what its bytes complete.
theorem Expects.receive {rest' : List UInt8} (h : c.Expects rest future) (hne : chunk ≠ [])
    (hle : (chunk.length : Int) ≤ c.bytesLeft) (hrest : rest = chunk ++ rest') :
    ∃ reported future', (c.receive chunk).events = c.events ++ reported ∧
      future = reported ++ future' ∧ (c.receive chunk).Expects rest' future' := by
  cases hphase : c.phase with
  | packetHeader =>
      unfold Expects at h
      rw [hphase] at h
      obtain ⟨hevents, hexpects⟩ := AtPacket.receive h hphase hne hle hrest
      exact ⟨[], future, by rw [hevents, List.append_nil], rfl, hexpects⟩
  | eventHeader =>
      unfold Expects at h
      rw [hphase] at h
      obtain ⟨stop, hat⟩ := h
      obtain ⟨hfinish, hcounts, hzero⟩ := hat.counts (by decide) hle
      have hreceive : c.receive chunk =
          if (c.storeEvent chunk).bytesLeft = 0 then (c.storeEvent chunk).eventHeaderRead
          else c.storeEvent chunk := by
        unfold Client.receive
        rw [hphase]
        exact if_neg hcounts
      rw [hreceive]
      by_cases hend : stop + chunk.length = sizeofTraceEventHeader
      · rw [if_pos (hzero.mpr hend)]
        obtain ⟨hevents, hexpects⟩ := hat.headerRead hrest hend
        exact ⟨[], future, by rw [hevents, List.append_nil], rfl, hexpects⟩
      · rw [if_neg (hend ∘ hzero.mp)]
        refine ⟨[], future, (List.append_nil _).symm, rfl, ?_⟩
        unfold Expects
        have hsame : (c.storeEvent chunk).phase = .eventHeader := hphase
        rw [hsame]
        exact ⟨_, hat.continue hrest (by omega)⟩
  | eventBody =>
      unfold Expects at h
      rw [hphase] at h
      obtain ⟨stop, hbody, hat⟩ := h
      obtain ⟨hfinish, hcounts, hzero⟩ := hat.counts (Nat.le_refl _) hle
      have hreceive : c.receive chunk =
          if (c.storeEvent chunk).bytesLeft = 0 then (c.storeEvent chunk).eventRead
          else c.storeEvent chunk := by
        unfold Client.receive
        rw [hphase]
        exact if_neg hcounts
      rw [hreceive]
      by_cases hend : stop + chunk.length = sizeofTraceEvent
      · rw [if_pos (hzero.mpr hend)]
        obtain ⟨event, future', hevents, hfuture, hexpects⟩ := hat.bodyRead hrest hend
        exact ⟨[event], future', hevents, hfuture, hexpects⟩
      · rw [if_neg (hend ∘ hzero.mp)]
        refine ⟨[], future, (List.append_nil _).symm, rfl, ?_⟩
        unfold Expects
        have hsame : (c.storeEvent chunk).phase = .eventBody := hphase
        rw [hsame]
        exact ⟨_, Nat.le_trans hbody (Nat.le_add_right _ _), hat.continue hrest (by omega)⟩
  | failed =>
      unfold Expects at h
      rw [hphase] at h
      exact h.elim

-- Another packet behind the stream.
theorem Expects.extend (h : c.Expects rest future) (packet : Packet) :
    c.Expects (rest ++ packet.bytes) (future ++ packet.events) := by
  have hpackets : ∀ packets, packetBytes (packets ++ [packet]) = packetBytes packets ++ packet.bytes ∧
      packetEvents (packets ++ [packet]) = packetEvents packets ++ packet.events := by
    intro packets
    simp [packetBytes, packetEvents]
  have hshows : ∀ {stream : List UInt8} {stop}, c.Shows stream stop →
      c.Shows (stream ++ packet.bytes) stop ∧
        (stream ++ packet.bytes).drop stop = stream.drop stop ++ packet.bytes := by
    intro stream stop hshows
    have hle := hshows.le_length
    refine ⟨⟨hshows.1, fun i hi => ?_⟩, List.drop_append_of_le_length hle⟩
    rw [List.getElem?_append_left (by omega)]
    exact hshows.2 i hi
  have hevent : ∀ finish stop, c.AtEvent finish stop rest future →
      c.AtEvent finish stop (rest ++ packet.bytes) (future ++ packet.events) := by
    rintro finish stop ⟨event, events, packets, hstop, hleft, hstream, hcurrent, hdrop, hfuture⟩
    obtain ⟨hnext, hrest⟩ := hshows hcurrent
    refine ⟨event, events, packets ++ [packet], hstop, hleft, hstream, ?_, ?_, ?_⟩
    · rw [(hpackets packets).1, ← List.append_assoc]
      exact hnext
    · rw [(hpackets packets).1, ← List.append_assoc, hrest, hdrop]
    · rw [(hpackets packets).2, ← List.append_assoc, hfuture]
  unfold Expects at h ⊢
  cases hphase : c.phase with
  | packetHeader =>
      rw [hphase] at h
      obtain ⟨packets, stop, hstop, hleft, hcurrent, hdrop, hfuture⟩ := h
      obtain ⟨hnext, hrest⟩ := hshows hcurrent
      refine ⟨packets ++ [packet], stop, hstop, hleft, ?_, ?_, ?_⟩
      · rw [(hpackets packets).1]
        exact hnext
      · rw [(hpackets packets).1, hrest, hdrop]
      · rw [(hpackets packets).2, hfuture]
  | eventHeader =>
      rw [hphase] at h
      obtain ⟨stop, hat⟩ := h
      exact ⟨stop, hevent _ _ hat⟩
  | eventBody =>
      rw [hphase] at h
      obtain ⟨stop, hbody, hat⟩ := h
      exact ⟨stop, hbody, hevent _ _ hat⟩
  | failed =>
      rw [hphase] at h
      exact h

-- When nothing is to come any more, everything has been reported.
theorem Expects.done (h : c.Expects [] future) : future = [] := by
  have hevent : ∀ finish stop, finish ≤ sizeofTraceEvent → ¬c.AtEvent finish stop [] future := by
    rintro finish stop hfinish ⟨event, events, packets, hstop, _, _, _, hdrop, _⟩
    have hlen := List.drop_eq_nil_iff.mp hdrop.symm
    rw [eventBytes_cons, List.append_assoc, List.length_append, event.length_bytes] at hlen
    omega
  unfold Expects at h
  split at h
  · obtain ⟨packets, stop, hstop, _, _, hdrop, rfl⟩ := h
    cases packets with
    | nil => rfl
    | cons packet packets =>
        have hlen := List.drop_eq_nil_iff.mp hdrop.symm
        rw [packetBytes_cons, List.length_append, packet.header.length_bytes] at hlen
        omega
  · obtain ⟨stop, hat⟩ := h
    exact absurd hat (hevent _ stop (by decide))
  · obtain ⟨stop, _, hat⟩ := h
    exact absurd hat (hevent _ stop (Nat.le_refl _))
  · exact h.elim

-- The client is always willing to receive.
theorem Expects.bytesLeft_pos (h : c.Expects rest future) : 0 < c.bytesLeft := by
  unfold Expects at h
  split at h
  · obtain ⟨_, _, hstop, hleft, _⟩ := h
    omega
  · obtain ⟨_, _, _, _, hstop, hleft, _⟩ := h
    omega
  · obtain ⟨_, _, _, _, _, hstop, hleft, _⟩ := h
    omega
  · exact h.elim

theorem expects_start (buf : Nat → UInt8) : (start buf).Expects [] [] :=
  ⟨[], 0, by decide, rfl, shows_zero rfl, rfl, rfl⟩

end Client

end Trace

end Carbon
