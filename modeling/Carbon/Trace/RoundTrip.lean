import Carbon.Trace.Pushed

namespace Carbon

namespace Trace

open Reservation (Log)

-- The client will have reported these events once it has received `rest`.
def Awaits (c : Client) (rest : List UInt8) (events : List TraceEvent) : Prop :=
  ∃ future, c.Expects rest future ∧ c.events ++ future = events

def Packet.sent (packet : Packet) : Sent := ⟨packet.header, eventBytes packet.events⟩

-- Every packet carries the next accepted events, and the client awaits them
-- from the moment the header is on the wire.
def PullInv (s : State) (packets : List Packet) : Prop :=
  match s.pull with
  | .delay => s.fifo.consumer = .idle ∧ packetEvents packets <+: s.accepted ∧
      Awaits s.client s.wire (packetEvents packets)
  | .opened => ∃ (c : ContextPull) (batch : List TraceEvent), s.fifo.consumer = .pulling c [] ∧
      c.dataLength1 + c.dataLength2 = sizeofTraceEvent * batch.length ∧
      packetEvents packets ++ batch <+: s.accepted ∧ Awaits s.client s.wire (packetEvents packets)
  | .sending sent => ∃ (c : ContextPull) (packet : Packet), s.fifo.consumer = .pulling c sent.payload ∧
      c.dataLength1 + c.dataLength2 = sizeofTraceEvent * packet.events.length ∧
      sent.header = packet.header ∧ sent.payload <+: eventBytes packet.events ∧
      packetEvents packets ++ packet.events <+: s.accepted ∧
      Awaits s.client (s.wire ++ (eventBytes packet.events).drop sent.payload.length)
        (packetEvents packets ++ packet.events)
  | .returned => False

structure Inv (g : Geometry) (s : State) : Prop where
  fifo : (Fifo.system g).ReachableBy (Fifo.Safe g) s.fifo
  reserved : s.fifo.log.reserved = sizeofTraceEvent * s.accepted.length
  call : CallInv g s
  pull : ∃ packets, s.packets = packets.map Packet.sent ∧
    s.fifo.log.delivered.length = sizeofTraceEvent * (packetEvents packets).length ∧ PullInv s packets

variable {g : Geometry} {s t : State} {c : Client} {wire rest : List UInt8} {events : List TraceEvent}

theorem Awaits.receive (h : Awaits c (wire ++ rest) events) {count : Nat} (hpos : 0 < count)
    (hleft : (count : Int) ≤ c.bytesLeft) (hwire : count ≤ wire.length) :
    Awaits (c.receive (wire.take count)) (wire.drop count ++ rest) events := by
  obtain ⟨future, hexpects, hevents⟩ := h
  have hlen : (wire.take count).length = count := by
    rw [List.length_take]
    omega
  have hrest : wire ++ rest = wire.take count ++ (wire.drop count ++ rest) := by
    rw [← List.append_assoc, List.take_append_drop]
  obtain ⟨reported, future', hreported, hfuture, hexpects'⟩ := hexpects.receive
    (List.ne_nil_of_length_pos (by omega)) (by rw [hlen]; exact hleft) hrest
  refine ⟨future', hexpects', ?_⟩
  rw [hreported, List.append_assoc, ← hfuture, hevents]

-- The bytes of the committed entries are those of the accepted events.
theorem Inv.object (h : Inv g s) {i : Nat} (hi : s.fifo.log.committed i = true) :
    s.fifo.log.object i = (eventBytes s.accepted)[i]? := by
  obtain ⟨pushed, ⟨tail, htail⟩, hcommitted, _⟩ := h.call.pushed
  have hlt := (hcommitted.committed i).mp hi
  rw [hcommitted.object i hlt, ← htail, eventBytes_append,
    List.getElem?_append_left (by rw [length_eventBytes]; exact hlt)]

-- The steps of a call leave pullEvent alone.
theorem Inv.pushes (h : Inv g s) (hpush : Pushes g s t) : Inv g t := by
  obtain ⟨e, hsafe, hfifo⟩ := hpush.fifo
  obtain ⟨packets, hpackets, hdelivered, hpull⟩ := h.pull
  refine ⟨h.fifo.next hsafe hfifo, hpush.reserved, hpush.call, packets, hpush.packets.trans hpackets,
    by rw [hpush.delivered]; exact hdelivered, ?_⟩
  unfold PullInv at hpull ⊢
  rw [hpush.pull, hpush.consumer, hpush.wire, hpush.client]
  cases hphase : s.pull with
  | delay =>
      rw [hphase] at hpull
      obtain ⟨hidle, hle, hawaits⟩ := hpull
      exact ⟨hidle, hle.trans hpush.accepted, hawaits⟩
  | opened =>
      rw [hphase] at hpull
      obtain ⟨c, batch, hc, hlen, hle, hawaits⟩ := hpull
      exact ⟨c, batch, hc, hlen, hle.trans hpush.accepted, hawaits⟩
  | sending sent =>
      rw [hphase] at hpull
      obtain ⟨c, packet, hc, hlen, hheader, hpayload, hle, hawaits⟩ := hpull
      exact ⟨c, packet, hc, hlen, hheader, hpayload, hle.trans hpush.accepted, hawaits⟩
  | returned => rw [hphase] at hpull; exact hpull

-- A batch is made of whole events: those that are committed and not delivered.
theorem Inv.batch (h : Inv g s) {packets : List Packet}
    (hdelivered : s.fifo.log.delivered.length = sizeofTraceEvent * (packetEvents packets).length)
    (hle : packetEvents packets <+: s.accepted) :
    ∃ batch, s.fifo.log.committedRun = sizeofTraceEvent * batch.length ∧
      packetEvents packets ++ batch <+: s.accepted ∧
      (s.call = .idle → packetEvents packets ++ batch = s.accepted) := by
  have hinv := Fifo.inv_of_reachable h.fifo
  obtain ⟨pushed, hpushed, hcommitted, hall⟩ := h.call.pushed
  have hlen : (packetEvents packets).length ≤ pushed.length := by
    by_contra hlt
    have hlast := (hinv.sound.delivered (s.fifo.log.delivered.length - 1)
      (by unfold sizeofTraceEvent at hdelivered; omega)).1
    rw [hcommitted.committed] at hlast
    unfold sizeofTraceEvent at hlast hdelivered
    omega
  obtain ⟨batch, rfl⟩ := List.prefix_of_prefix_length_le hle hpushed hlen
  refine ⟨batch, ?_, hpushed, hall⟩
  have hfits : (packetEvents packets ++ batch).length ≤ s.accepted.length := hpushed.length_le
  have hreserved := h.reserved
  rw [List.length_append] at hfits
  apply Log.committedRun_eq
  · unfold Log.inUse sizeofTraceEvent at *
    omega
  · intro k hk
    rw [hcommitted.committed, hdelivered, List.length_append, Nat.mul_add]
    omega
  · intro _
    rw [Bool.eq_false_iff]
    intro hmore
    rw [hcommitted.committed, hdelivered, List.length_append, Nat.mul_add] at hmore
    omega

-- The steps of pullEvent and of the client that leave the FIFO's producer, its
-- history and its buffer as they are.
theorem Inv.call_of_pull (h : Inv g s) (hcall : t.call = s.call) (haccepted : t.accepted = s.accepted)
    (hproducer : t.fifo.producer = s.fifo.producer) (hlog : t.fifo.log.committed = s.fifo.log.committed)
    (hobject : t.fifo.log.object = s.fifo.log.object) (hreserved : t.fifo.log.reserved = s.fifo.log.reserved)
    (hbuffer : t.fifo.fifo.buffer = s.fifo.fifo.buffer) :
    t.fifo.log.reserved = sizeofTraceEvent * t.accepted.length ∧ CallInv g t :=
  ⟨by rw [hreserved, haccepted]; exact h.reserved,
    h.call.frame hcall haccepted hproducer hlog hobject hbuffer⟩

theorem Inv.beginIteration (h : Inv g s) (hstep : Trace.beginIteration g s = some t) : Inv g t := by
  obtain ⟨packets, hpackets, hdelivered, hpull⟩ := h.pull
  unfold Trace.beginIteration at hstep
  unfold PullInv at hpull
  cases hphase : s.pull with
  | delay =>
      rw [hphase] at hpull hstep
      obtain ⟨_, hle, hawaits⟩ := hpull
      obtain ⟨fifo, hopen, rfl⟩ := Option.map_eq_some_iff.mp hstep
      have hinv := Fifo.inv_of_reachable h.fifo
      obtain ⟨pushed, _, hcommitted, _⟩ := h.call.pushed
      have hhole := hcommitted.no_hole hinv
      obtain ⟨batch, hrun, hbatch, _⟩ := h.batch hdelivered hle
      obtain ⟨_, d1, d2, hget, rfl⟩ := Fifo.openPullStep_cases hopen
      obtain ⟨d1', d2', hget', hsum, _⟩ := hinv.openPull_run hhole
      rw [hget] at hget'
      obtain ⟨rfl, rfl⟩ := Prod.mk.inj (Option.some.inj hget')
      obtain ⟨hreserved, hcall⟩ := h.call_of_pull
        (t := { s with
          fifo := { s.fifo with consumer := .pulling ⟨s.fifo.fifo.head, d1, d2⟩ [] }, pull := .opened })
        rfl rfl rfl rfl rfl rfl rfl
      exact ⟨h.fifo.next (e := .openPull) ⟨trivial, hhole⟩ hopen, hreserved, hcall, packets, hpackets, hdelivered,
        _, batch, rfl, hsum.trans hrun, hbatch, hawaits⟩
  | opened | sending sent | returned => rw [hphase] at hstep; cases hstep

theorem Inv.writeHeader (h : Inv g s) (hsize : g.nElements = 2048) {timestamp : UInt64}
    (hstep : Trace.writeHeader s timestamp = some t) : Inv g t := by
  obtain ⟨packets, hpackets, hdelivered, hpull⟩ := h.pull
  unfold Trace.writeHeader at hstep
  unfold PullInv at hpull
  cases hphase : s.pull with
  | opened =>
      rw [hphase] at hpull hstep
      obtain ⟨c, batch, hc, hlen, hle, hawaits⟩ := hpull
      rw [hc] at hstep
      dsimp only at hstep
      rw [hlen] at hstep
      have hinv := Fifo.inv_of_reachable h.fifo
      -- a batch is no longer than the FIFO
      have hfits : sizeofTracePacketHeader + sizeofTraceEvent * batch.length ≤ maxPacketSizeBytes := by
        have hbound := hinv.sound.bounded
        have hshort := hle.length_le
        have hreserved := h.reserved
        rw [List.length_append] at hshort
        have hmul := Nat.mul_le_mul_left sizeofTraceEvent hshort
        rw [Nat.mul_add] at hmul
        have hmax : sizeofTracePacketHeader + 2048 ≤ maxPacketSizeBytes := by decide
        omega
      rw [if_neg (Nat.not_lt.mpr hfits)] at hstep
      split at hstep
      · rename_i hpos
        cases hstep
        have hne : batch ≠ [] := by
          rintro rfl
          exact absurd hpos (Nat.lt_irrefl 0)
        let packet : Packet := ⟨timestamp, batch, hne, hfits⟩
        obtain ⟨future, hexpects, hevents⟩ := hawaits
        have hheader : packetHeader timestamp (sizeofTraceEvent * batch.length) = packet.header := by
          unfold Packet.header
          rw [length_eventBytes]
        refine ⟨h.fifo, h.reserved, h.call.frame rfl rfl rfl rfl rfl rfl, packets, hpackets, hdelivered,
          c, packet, hc, hlen, hheader, List.nil_prefix, hle, future ++ packet.events, ?_, ?_⟩
        · dsimp only
          rw [hheader, List.length_nil, List.drop_zero, List.append_assoc]
          exact hexpects.extend packet
        · rw [← List.append_assoc, hevents]
      · cases hstep
  | delay | sending sent | returned => rw [hphase] at hstep; cases hstep

-- The next byte of a run whose front is known.
theorem prefix_concat {front l : List UInt8} (h : front <+: l) {byte : UInt8}
    (hbyte : l[front.length]? = some byte) :
    front ++ [byte] <+: l ∧ l.drop front.length = byte :: l.drop (front.length + 1) := by
  obtain ⟨hlt, rfl⟩ := List.getElem?_eq_some_iff.mp hbyte
  exact ⟨List.concat_get_prefix h hlt, List.drop_eq_getElem_cons hlt⟩

theorem Inv.writeByte (h : Inv g s) (hstep : Trace.writeByte g s = some t) : Inv g t := by
  obtain ⟨packets, hpackets, hdelivered, hpull⟩ := h.pull
  unfold Trace.writeByte at hstep
  unfold PullInv at hpull
  cases hphase : s.pull with
  | sending sent =>
      rw [hphase] at hpull hstep
      obtain ⟨c, packet, hc, hlen, hheader, hpayload, hle, hawaits⟩ := hpull
      rw [hc] at hstep
      obtain ⟨fifo, hread, rfl⟩ := Option.map_eq_some_iff.mp hstep
      have hnext := h.fifo.next (e := Fifo.Event.pullRead) ⟨trivial, trivial⟩ hread
      obtain ⟨c', values', hc', hlt, rfl⟩ := Fifo.pullReadStep_cases hread
      obtain ⟨rfl, rfl⟩ := Fifo.Consumer.pulling.inj (hc.symm.trans hc')
      -- the byte read is the next byte of the batch
      have hbyte : (eventBytes packet.events)[sent.payload.length]? =
          some (s.fifo.fifo.buffer (c.slot sent.payload.length)) := by
        have hinv := Fifo.inv_of_reachable h.fifo
        obtain ⟨hcommitted, hslot⟩ := hinv.pulling_slot hc hlt
        have hcontent := hinv.content _ (Nat.le_add_right _ _) hcommitted
        obtain ⟨tail, htail⟩ := hle
        rw [h.object hcommitted, ← hslot, ← htail, eventBytes_append, eventBytes_append, List.append_assoc,
          hdelivered, List.getElem?_append_right (by rw [length_eventBytes]; omega), length_eventBytes,
          Nat.add_sub_cancel_left, List.getElem?_append_left (by rw [length_eventBytes]; omega)] at hcontent
        exact hcontent
      obtain ⟨hlonger, hdrop⟩ := prefix_concat hpayload hbyte
      refine ⟨hnext, h.reserved, h.call.frame rfl rfl rfl rfl rfl rfl, packets, hpackets, hdelivered,
        c, packet, rfl, hlen, hheader, hlonger, hle, ?_⟩
      dsimp only
      rw [List.length_append, List.length_singleton, List.append_assoc, List.singleton_append, ← hdrop]
      exact hawaits
  | delay | opened | returned => rw [hphase] at hstep; cases hstep

theorem Inv.endIteration (h : Inv g s) (hstep : Trace.endIteration g s = some t) : Inv g t := by
  obtain ⟨packets, hpackets, hdelivered, hpull⟩ := h.pull
  unfold Trace.endIteration at hstep
  unfold PullInv at hpull
  have hclosed : ∀ {fifo c values}, s.fifo.consumer = .pulling c values →
      Fifo.step g s.fifo .closePull = some fifo →
      values.length = c.dataLength1 + c.dataLength2 ∧ fifo.consumer = .idle ∧
        fifo.log.delivered = s.fifo.log.delivered ++ values ∧
        (fifo.producer = s.fifo.producer ∧ fifo.log.committed = s.fifo.log.committed ∧
          fifo.log.object = s.fifo.log.object ∧ fifo.log.reserved = s.fifo.log.reserved ∧
          fifo.fifo.buffer = s.fifo.fifo.buffer) := by
    intro fifo c values hc hclose
    have hinv := Fifo.inv_of_reachable h.fifo
    obtain ⟨c', values', hc', hlen, rfl⟩ := Fifo.closePullStep_cases hclose
    obtain ⟨rfl, rfl⟩ := Fifo.Consumer.pulling.inj (hc.symm.trans hc')
    exact ⟨hlen, rfl, rfl, rfl, rfl, rfl, rfl, (ContextPull.removeHead_iterate g s.fifo.fifo hinv.head _).2.2.1⟩
  cases hphase : s.pull with
  | opened =>
      rw [hphase] at hpull hstep
      obtain ⟨c, batch, hc, hlen, hle, hawaits⟩ := hpull
      obtain ⟨fifo, hclose, rfl⟩ := Option.map_eq_some_iff.mp hstep
      obtain ⟨_, hidle, hgrown, hproducer, hcommitted, hobject, hreserved, hbuffer⟩ := hclosed hc hclose
      rw [List.append_nil] at hgrown
      obtain ⟨hreserved', hcall⟩ := h.call_of_pull (t := { s with fifo, pull := .delay }) rfl rfl hproducer
        hcommitted hobject hreserved hbuffer
      exact ⟨h.fifo.next (e := .closePull) ⟨trivial, trivial⟩ hclose, hreserved', hcall, packets, hpackets,
        by dsimp only; rw [hgrown]; exact hdelivered, hidle, (List.prefix_append _ _).trans hle, hawaits⟩
  | sending sent =>
      rw [hphase] at hpull hstep
      obtain ⟨c, packet, hc, hlen, hheader, hpayload, hle, hawaits⟩ := hpull
      obtain ⟨fifo, hclose, rfl⟩ := Option.map_eq_some_iff.mp hstep
      obtain ⟨hall, hidle, hgrown, hproducer, hcommitted, hobject, hreserved, hbuffer⟩ := hclosed hc hclose
      obtain ⟨hreserved', hcall⟩ := h.call_of_pull
        (t := { s with fifo, pull := .delay, packets := s.packets ++ [sent] }) rfl rfl hproducer hcommitted
        hobject hreserved hbuffer
      have hwhole : sent.payload = eventBytes packet.events :=
        hpayload.eq_of_length (by rw [hall, hlen, length_eventBytes])
      have hevents : packetEvents (packets ++ [packet]) = packetEvents packets ++ packet.events := by
        simp [packetEvents]
      refine ⟨h.fifo.next (e := .closePull) ⟨trivial, trivial⟩ hclose, hreserved', hcall, packets ++ [packet], ?_, ?_, hidle, ?_, ?_⟩
      · dsimp only
        rw [hpackets, List.map_append, List.map_singleton, Packet.sent, ← hheader, ← hwhole]
      · dsimp only
        rw [hgrown, List.length_append, hdelivered, hevents, List.length_append, Nat.mul_add, hall, hlen]
      · rw [hevents]
        exact hle
      · rw [hwhole, List.drop_length, List.append_nil] at hawaits
        rw [hevents]
        exact hawaits
  | delay | returned => rw [hphase] at hstep; cases hstep

theorem Inv.recv (h : Inv g s) {count : Nat} (hstep : Trace.recv s count = some t) : Inv g t := by
  obtain ⟨packets, hpackets, hdelivered, hpull⟩ := h.pull
  unfold Trace.recv at hstep
  split at hstep
  · rename_i hcount
    obtain ⟨hpos, hleft, hwire⟩ := hcount
    cases hstep
    refine ⟨h.fifo, h.reserved, h.call.frame rfl rfl rfl rfl rfl rfl, packets, hpackets, hdelivered, ?_⟩
    have hreceive : ∀ rest events, Awaits s.client (s.wire ++ rest) events →
        Awaits (s.client.receive (s.wire.take count)) (s.wire.drop count ++ rest) events :=
      fun rest events hawaits => hawaits.receive hpos hleft hwire
    unfold PullInv at hpull ⊢
    cases hphase : s.pull with
    | delay =>
        rw [hphase] at hpull
        obtain ⟨hidle, hle, hawaits⟩ := hpull
        have hnext := hreceive [] _ (by rw [List.append_nil]; exact hawaits)
        rw [List.append_nil] at hnext
        exact ⟨hidle, hle, hnext⟩
    | opened =>
        rw [hphase] at hpull
        obtain ⟨c, batch, hc, hlen, hle, hawaits⟩ := hpull
        have hnext := hreceive [] _ (by rw [List.append_nil]; exact hawaits)
        rw [List.append_nil] at hnext
        exact ⟨c, batch, hc, hlen, hle, hnext⟩
    | sending sent =>
        rw [hphase] at hpull
        obtain ⟨c, packet, hc, hlen, hheader, hpayload, hle, hawaits⟩ := hpull
        exact ⟨c, packet, hc, hlen, hheader, hpayload, hle, hreceive _ _ hawaits⟩
    | returned => rw [hphase] at hpull; exact hpull
  · cases hstep

theorem Inv.step (h : Inv g s) (hsize : g.nElements = 2048) {e : Event} (hstep : Trace.step g s e = some t) :
    Inv g t := by
  have hinv := Fifo.inv_of_reachable h.fifo
  cases e with
  | switched event => exact h.pushes (h.call.switched hinv h.reserved hsize hstep)
  | pushArray => exact h.pushes (h.call.pushArray h.reserved hsize hstep)
  | closePush => exact h.pushes (h.call.closePush hinv h.reserved hsize hstep)
  | beginIteration => exact h.beginIteration hstep
  | writeHeader timestamp => exact h.writeHeader hsize hstep
  | writeByte => exact h.writeByte hstep
  | endIteration => exact h.endIteration hstep
  | recv count => exact h.recv hstep

theorem inv_start (buffer buf : Nat → UInt8) : Inv g (start buffer buf) where
  fifo := .start ⟨buffer, rfl⟩
  reserved := rfl
  call := ⟨rfl, committed_empty⟩
  pull := ⟨[], rfl, rfl, rfl, List.nil_prefix, [], Client.expects_start buf, rfl⟩

theorem Inv.of_reachable (hsize : g.nElements = 2048) (hs : (system g).Reachable s) : Inv g s := by
  refine hs.invariant (P := Inv g) ?_ fun _ _ _ h _ hstep => h.step hsize hstep
  rintro s ⟨buffer, buf, rfl⟩
  exact inv_start buffer buf

end Trace

end Carbon
