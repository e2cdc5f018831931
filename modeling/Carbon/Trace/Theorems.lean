import Carbon.Trace.RoundTrip

namespace Carbon

namespace Trace

open Relation (ReflTransGen)

-- A packet of whole events whose header gives its real length.
def Sent.Whole (sent : Sent) : Prop :=
  (∃ events : List TraceEvent, events ≠ [] ∧ sent.payload = eventBytes events) ∧
    sent.header.packetSizeBits.toNat = 8 * (sent.header.bytes ++ sent.payload).length

-- The bytes of the FIFO that nobody has reserved.
def State.free (g : Geometry) (s : State) : Nat := g.nElements - s.fifo.fifo.used g

-- The event of a hook that finds room for it.
def accepts (g : Geometry) (s : State) : Event → List TraceEvent
  | .switched event => if sizeofTraceEvent ≤ s.free g then [event] else []
  | _ => []

-- A hook goes through with its call, with whatever event it is called.
def HookGoesOn (g : Geometry) (s : State) : Prop :=
  match s.call with
  | .idle => ∀ event, (step g s (.switched event)).isSome
  | .opened _ => (step g s .pushArray).isSome
  | .filled _ => (step g s .closePush).isSome

-- The steps of pullEvent and of the client.
def Event.Consumes : Event → Prop
  | .beginIteration | .writeHeader _ | .writeByte | .endIteration | .recv _ => True
  | .switched _ | .pushArray | .closePush => False

def Advances (g : Geometry) (s t : State) : Prop := ∃ e : Event, e.Consumes ∧ step g s e = some t

variable {g : Geometry} {s t : State}

theorem Advances.same (h : Advances g s t) : t.call = s.call ∧ t.accepted = s.accepted := by
  obtain ⟨e, he, hstep⟩ := h
  cases e with
  | switched | pushArray | closePush => exact he.elim
  | beginIteration =>
      obtain ⟨_, _, _, rfl⟩ := beginIteration_cases hstep
      exact ⟨rfl, rfl⟩
  | writeHeader timestamp =>
      obtain ⟨_, _, _, _, _, rfl⟩ := writeHeader_cases hstep
      split <;> exact ⟨rfl, rfl⟩
  | writeByte =>
      obtain ⟨_, _, _, _, _, _, _, rfl⟩ := writeByte_cases hstep
      exact ⟨rfl, rfl⟩
  | endIteration =>
      obtain ⟨_, _, ⟨_, rfl⟩ | ⟨_, _, rfl⟩⟩ := endIteration_cases hstep
      · exact ⟨rfl, rfl⟩
      · exact ⟨rfl, rfl⟩
  | recv count =>
      obtain ⟨_, hrecv⟩ := Option.ite_none_right_eq_some.mp hstep
      cases hrecv
      exact ⟨rfl, rfl⟩

theorem Inv.isFullBy_iff (h : Inv g s) (hsize : g.nElements = 2048) :
    s.fifo.fifo.isFullBy g sizeofTraceEvent = true ↔ s.free g < sizeofTraceEvent := by
  have hinv := Fifo.inv_of_reachable h.fifo
  have hle := hinv.sound.delivered_le
  have hbound := hinv.sound.bounded
  have hevent : sizeofTraceEvent ≤ g.nElements := by rw [hsize]; decide
  rw [Fifo.isFullBy_iff g _ hle hbound hinv.head hinv.tail hevent]
  unfold State.free
  rw [Fifo.used_eq hle hbound hinv.head hinv.tail]
  omega

-- The accepted events are those handed to the hooks while there was room for them.
theorem Inv.accepts (h : Inv g s) (hsize : g.nElements = 2048) {e : Event}
    (hstep : Trace.step g s e = some t) : t.accepted = s.accepted ++ Trace.accepts g s e := by
  cases e with
  | switched event =>
      have hinv := Fifo.inv_of_reachable h.fifo
      have hroom := h.isFullBy_iff hsize
      simp only [Trace.step, Trace.switched] at hstep
      cases hcall : s.call with
      | idle =>
          rw [hcall] at hstep
          obtain ⟨fifo, hopen, rfl⟩ := Option.map_eq_some_iff.mp hstep
          have hsafe := safe_openPush hinv hsize
          change (if overflowed fifo then s.accepted else s.accepted ++ [event]) =
            s.accepted ++ (if sizeofTraceEvent ≤ s.free g then [event] else [])
          cases hfull : s.fifo.fifo.isFullBy g sizeofTraceEvent with
          | true =>
              obtain ⟨hover, -⟩ := h.call.refused hcall h.reserved event hsafe hopen hfull
              rw [hover, if_neg (Nat.not_le.mpr (hroom.mp hfull)), List.append_nil, if_pos rfl]
          | false =>
              obtain ⟨hover, -⟩ := h.call.reserves hcall hinv h.reserved hsize event hsafe hopen hfull
              have hfits : sizeofTraceEvent ≤ s.free g := by
                rw [hfull] at hroom
                exact Nat.le_of_not_lt fun hlt => nomatch hroom.mpr hlt
              rw [hover, if_pos hfits, if_neg Bool.false_ne_true]
      | opened event' | filled event' => rw [hcall] at hstep; cases hstep
  | pushArray =>
      simp only [Trace.step, Trace.pushArray] at hstep
      split at hstep
      · obtain ⟨_, _, rfl⟩ := Option.map_eq_some_iff.mp hstep
        exact (List.append_nil _).symm
      · cases hstep
      · cases hstep
  | closePush =>
      simp only [Trace.step, Trace.closePush] at hstep
      split at hstep
      · obtain ⟨_, _, rfl⟩ := Option.map_eq_some_iff.mp hstep
        exact (List.append_nil _).symm
      · cases hstep
      · cases hstep
  | beginIteration | writeHeader timestamp | writeByte | endIteration | recv count =>
      have hsame : Advances g s t := ⟨_, by exact trivial, hstep⟩
      exact hsame.same.2.trans (List.append_nil _).symm

theorem Inv.hookGoesOn (h : Inv g s) (hpacked : g.packed = true) : HookGoesOn g s := by
  have hcall := h.call
  unfold CallInv at hcall
  unfold HookGoesOn
  cases hphase : s.call with
  | idle =>
      rw [hphase] at hcall
      intro event
      simp only [Trace.step, switched, Fifo.step, Fifo.openPushStep, hphase, hcall.1]
      rfl
  | opened event =>
      rw [hphase] at hcall
      obtain ⟨c, entry, hproducer, -⟩ := hcall
      have hlength : event.bytes.length < 2 ^ 32 := by rw [event.length_bytes]; decide
      simp only [Trace.step, pushArray, Fifo.step, Fifo.contextArrayStep, hphase, hproducer, hpacked, hlength]
      rfl
  | filled event =>
      rw [hphase] at hcall
      obtain ⟨c, entry, advanced, hproducer, -⟩ := hcall
      simp only [Trace.step, closePush, Fifo.step, Fifo.closePushStep, hphase, hproducer]
      rfl

theorem same_of_advances (h : ReflTransGen (Advances g) s t) : t.call = s.call ∧ t.accepted = s.accepted := by
  induction h with
  | refl => exact ⟨rfl, rfl⟩
  | tail _ hstep ih =>
      obtain ⟨hcall, haccepted⟩ := hstep.same
      exact ⟨hcall.trans ih.1, haccepted.trans ih.2⟩

theorem Inv.advances (h : Inv g s) (hsize : g.nElements = 2048) (hrun : ReflTransGen (Advances g) s t) :
    Inv g t := by
  induction hrun with
  | refl => exact h
  | tail _ hstep ih =>
      obtain ⟨e, _, hstep⟩ := hstep
      exact ih.step hsize hstep

theorem Inv.awaits (h : Inv g s) : ∃ rest events, Awaits s.client (s.wire ++ rest) events ∧
    events <+: s.accepted := by
  obtain ⟨packets, _, _, hpull⟩ := h.pull
  unfold PullInv at hpull
  split at hpull
  · obtain ⟨_, hle, hawaits⟩ := hpull
    exact ⟨[], _, by rw [List.append_nil]; exact hawaits, hle⟩
  · obtain ⟨_, _, _, _, hle, hawaits⟩ := hpull
    exact ⟨[], _, by rw [List.append_nil]; exact hawaits, (List.prefix_append _ _).trans hle⟩
  · obtain ⟨_, _, _, _, _, _, hle, hawaits⟩ := hpull
    exact ⟨_, _, hawaits, hle⟩
  · exact hpull.elim

-- The client can always receive what is on the wire.
theorem Inv.drained (h : Inv g s) (hsize : g.nElements = 2048) :
    ∃ t, ReflTransGen (Advances g) s t ∧ t.wire = [] ∧ t.pull = s.pull ∧ t.fifo = s.fifo := by
  obtain ⟨n, hn⟩ : ∃ n, s.wire.length = n := ⟨_, rfl⟩
  induction n generalizing s with
  | zero => exact ⟨s, .refl, List.length_eq_zero_iff.mp hn, rfl, rfl⟩
  | succ n ih =>
      obtain ⟨_, _, ⟨_, hexpects, _⟩, _⟩ := h.awaits
      have hleft := hexpects.bytesLeft_pos
      have hstep : Trace.step g s (.recv 1) =
          some { s with client := s.client.receive (s.wire.take 1), wire := s.wire.drop 1 } :=
        if_pos ⟨Nat.one_pos, by omega, by omega⟩
      obtain ⟨t, hrun, hwire, hpull, hfifo⟩ := ih (h.step hsize hstep) (by
        dsimp only
        rw [List.length_drop]
        omega)
      exact ⟨t, .head ⟨.recv 1, trivial, hstep⟩ hrun, hwire, hpull, hfifo⟩

-- The destructor is enabled when the reader has seen the whole batch.
theorem closePull_enabled {c : ContextPull} {values : List UInt8} (hc : s.fifo.consumer = .pulling c values)
    (hlen : values.length = c.dataLength1 + c.dataLength2) :
    ∃ fifo, Fifo.step g s.fifo .closePull = some fifo ∧ fifo.log.reserved = s.fifo.log.reserved ∧
      fifo.log.delivered.length = s.fifo.log.delivered.length + (c.dataLength1 + c.dataLength2) := by
  refine ⟨{ s.fifo with
    fifo := ContextPull.destruct g s.fifo.fifo c, consumer := .idle, log := s.fifo.log.deliver values }, ?_, rfl, ?_⟩
  · change Fifo.closePullStep g s.fifo = _
    unfold Fifo.closePullStep
    rw [hc]
    exact if_pos hlen
  · change (s.fifo.log.delivered ++ values).length = _
    rw [List.length_append, hlen]

-- An iteration whose header is written comes to its end.
theorem Inv.written (h : Inv g s) (hsize : g.nElements = 2048) {sent : Sent} (hsending : s.pull = .sending sent)
    {c : ContextPull} {values : List UInt8} (hc : s.fifo.consumer = .pulling c values) :
    ∃ t, ReflTransGen (Advances g) s t ∧ t.pull = .delay ∧ t.fifo.log.reserved = s.fifo.log.reserved ∧
      t.fifo.log.delivered.length = s.fifo.log.delivered.length + (c.dataLength1 + c.dataLength2) := by
  obtain ⟨n, hn⟩ : ∃ n, c.dataLength1 + c.dataLength2 - values.length = n := ⟨_, rfl⟩
  induction n generalizing s sent values with
  | zero =>
      have hlocal := (Fifo.inv_of_reachable h.fifo).consumer
      rw [hc] at hlocal
      obtain ⟨_, _, _, hle, _⟩ := hlocal
      obtain ⟨fifo, hclose, hreserved, hdelivered⟩ := closePull_enabled (g := g) hc (by omega)
      have hstep : Trace.step g s .endIteration =
          some { s with fifo, pull := .delay, packets := s.packets ++ [sent] } := by
        simp only [Trace.step, Trace.endIteration, hsending, hclose, Option.map_some]
      exact ⟨_, .single ⟨.endIteration, trivial, hstep⟩, rfl, hreserved, hdelivered⟩
  | succ n ih =>
      let byte := s.fifo.fifo.buffer (c.slot values.length)
      have hread : Fifo.step g s.fifo .pullRead =
          some { s.fifo with consumer := .pulling c (values ++ [byte]) } := by
        change Fifo.pullReadStep s.fifo = _
        unfold Fifo.pullReadStep
        rw [hc]
        exact if_pos (by omega)
      have hstep : Trace.step g s .writeByte = some { s with
          fifo := { s.fifo with consumer := .pulling c (values ++ [byte]) }
          pull := .sending { sent with payload := sent.payload ++ [byte] }
          wire := s.wire ++ [byte] } := by
        simp only [Trace.step, Trace.writeByte, hsending, hc, hread, Option.map_some, byte]
      obtain ⟨t, hrun, hdelay, hreserved, hdelivered⟩ := ih (h.step hsize hstep) rfl rfl (by
        rw [List.length_append, List.length_singleton]
        omega)
      exact ⟨t, .head ⟨.writeByte, trivial, hstep⟩ hrun, hdelay, hreserved, hdelivered⟩

-- So does every iteration, and it delivers what its context exposes.
theorem Inv.ended (h : Inv g s) (hsize : g.nElements = 2048) {c : ContextPull} {values : List UInt8}
    (hc : s.fifo.consumer = .pulling c values) :
    ∃ t, ReflTransGen (Advances g) s t ∧ t.pull = .delay ∧ t.fifo.log.reserved = s.fifo.log.reserved ∧
      t.fifo.log.delivered.length = s.fifo.log.delivered.length + (c.dataLength1 + c.dataLength2) := by
  obtain ⟨packets, _, _, hpull⟩ := h.pull
  unfold PullInv at hpull
  cases hphase : s.pull with
  | delay =>
      rw [hphase] at hpull
      rw [hpull.1] at hc
      cases hc
  | opened =>
      rw [hphase] at hpull
      obtain ⟨c', batch, hc', _⟩ := hpull
      obtain ⟨rfl, rfl⟩ := Fifo.Consumer.pulling.inj (hc.symm.trans hc')
      by_cases hpos : 0 < c.dataLength1 + c.dataLength2
      · obtain ⟨u, hstep⟩ : ∃ u, Trace.step g s (.writeHeader 0) = some u := by
          simp only [Trace.step, Trace.writeHeader, hphase, hc, if_pos hpos]
          split <;> exact ⟨_, rfl⟩
        have hu := h.step hsize hstep
        have hfirst : Advances g s u := ⟨.writeHeader 0, trivial, hstep⟩
        simp only [Trace.step, Trace.writeHeader, hphase, hc, if_pos hpos] at hstep
        split at hstep
        · cases hstep
          obtain ⟨_, _, _, hreturned⟩ := hu.pull
          exact hreturned.elim
        · cases hstep
          obtain ⟨t, hrun, hend⟩ := hu.written hsize rfl hc
          exact ⟨t, .head hfirst hrun, hend⟩
      · obtain ⟨fifo, hclose, hreserved, hdelivered⟩ := closePull_enabled (g := g) hc (by
          rw [List.length_nil]
          omega)
        have hstep : Trace.step g s .endIteration = some { s with fifo, pull := .delay } := by
          simp only [Trace.step, Trace.endIteration, hphase, hclose, Option.map_some]
        exact ⟨_, .single ⟨.endIteration, trivial, hstep⟩, rfl, hreserved, hdelivered⟩
  | sending sent => exact h.written hsize hphase hc
  | returned =>
      rw [hphase] at hpull
      exact hpull.elim

-- With no call in progress one iteration exposes everything accepted so far.
theorem Inv.begun (h : Inv g s) (hdelay : s.pull = .delay) (hidle : s.call = .idle) :
    ∃ t c, Advances g s t ∧ t.fifo.consumer = .pulling c [] ∧ t.fifo.log.reserved = s.fifo.log.reserved ∧
      t.fifo.log.delivered.length + (c.dataLength1 + c.dataLength2) = s.fifo.log.reserved := by
  obtain ⟨packets, _, hdelivered, hpull⟩ := h.pull
  unfold PullInv at hpull
  rw [hdelay] at hpull
  obtain ⟨hconsumer, hle, _⟩ := hpull
  obtain ⟨pushed, _, hcommitted, _⟩ := h.call.pushed
  have hinv := Fifo.inv_of_reachable h.fifo
  obtain ⟨d1, d2, hget, hsum, _⟩ := hinv.openPull_run (hcommitted.no_hole hinv)
  obtain ⟨batch, hrun, _, hall⟩ := h.batch hdelivered hle
  let fifo : Fifo.State UInt8 := { s.fifo with consumer := .pulling ⟨s.fifo.fifo.head, d1, d2⟩ [] }
  have hopen : Fifo.step g s.fifo .openPull = some fifo := by
    change Fifo.openPullStep g s.fifo = _
    unfold Fifo.openPullStep ContextPull.construct
    rw [hconsumer, hget]
    rfl
  have hstep : Trace.step g s .beginIteration = some { s with fifo, pull := .opened } := by
    simp only [Trace.step, Trace.beginIteration, hdelay, hopen, Option.map_some]
  refine ⟨_, _, ⟨.beginIteration, trivial, hstep⟩, rfl, rfl, ?_⟩
  change s.fifo.log.delivered.length + (d1 + d2) = _
  rw [hsum, hrun, hdelivered, h.reserved, ← hall hidle, List.length_append, Nat.mul_add]

theorem Inv.recovered (h : Inv g s) (hdelay : s.pull = .delay) (hwire : s.wire = []) :
    s.client.events = s.accepted.take (s.fifo.log.delivered.length / sizeofTraceEvent) := by
  obtain ⟨packets, _, hdelivered, hpull⟩ := h.pull
  unfold PullInv at hpull
  rw [hdelay] at hpull
  obtain ⟨_, hle, future, hexpects, hevents⟩ := hpull
  rw [hwire] at hexpects
  rw [hexpects.done, List.append_nil] at hevents
  rw [hevents, hdelivered, Nat.mul_div_cancel_left _ (by decide)]
  exact List.prefix_iff_eq_take.mp hle

theorem Inv.whole (h : Inv g s) : ∀ sent ∈ s.packets, sent.Whole := by
  intro sent hmem
  obtain ⟨packets, hpackets, _⟩ := h.pull
  rw [hpackets] at hmem
  obtain ⟨packet, _, rfl⟩ := List.mem_map.mp hmem
  refine ⟨⟨packet.events, packet.nonempty, rfl⟩, ?_⟩
  change packet.header.packetSizeBits.toNat = 8 * (packet.header.bytes ++ eventBytes packet.events).length
  rw [packet.size_bits, List.length_append, packet.header.length_bytes, Nat.mul_comm]

-- An iteration under way comes to its end.
theorem Inv.finished (h : Inv g s) (hsize : g.nElements = 2048) :
    ∃ t, ReflTransGen (Advances g) s t ∧ t.pull = .delay := by
  obtain ⟨packets, _, _, hpull⟩ := h.pull
  unfold PullInv at hpull
  cases hphase : s.pull with
  | delay => exact ⟨s, .refl, hphase⟩
  | opened =>
      rw [hphase] at hpull
      obtain ⟨c, _, hc, _⟩ := hpull
      obtain ⟨t, hrun, hdelay, _⟩ := h.ended hsize hc
      exact ⟨t, hrun, hdelay⟩
  | sending sent =>
      rw [hphase] at hpull
      obtain ⟨c, _, hc, _⟩ := hpull
      obtain ⟨t, hrun, hdelay, _⟩ := h.ended hsize hc
      exact ⟨t, hrun, hdelay⟩
  | returned =>
      rw [hphase] at hpull
      exact hpull.elim

-- One more iteration sends all there is, and the client receives it.
theorem Inv.all_recovered (h : Inv g s) (hsize : g.nElements = 2048) (hidle : s.call = .idle) :
    ∃ t, ReflTransGen (Advances g) s t ∧ t.accepted = s.accepted ∧ t.client.events = s.accepted := by
  obtain ⟨t, hrun, hdelay⟩ := h.finished hsize
  have ht := h.advances hsize hrun
  obtain ⟨hcall, haccepted⟩ := same_of_advances hrun
  obtain ⟨u, c, hbegin, hc, hreserved, hcover⟩ := ht.begun hdelay (hcall.trans hidle)
  have hu := ht.advances hsize (.single hbegin)
  obtain ⟨v, hrun', hdelay', hreserved', hdelivered⟩ := hu.ended hsize hc
  have hv := hu.advances hsize hrun'
  obtain ⟨w, hdrain, hwire, hpull, hfifo⟩ := hv.drained hsize
  have hall := (hrun.tail hbegin).trans (hrun'.trans hdrain)
  have hw := hv.advances hsize hdrain
  have hsame := (same_of_advances hall).2
  refine ⟨w, hall, hsame, ?_⟩
  rw [hw.recovered (hpull.trans hdelay') hwire, hsame, hfifo, hdelivered, hcover, ← hreserved, ← hreserved',
    hv.reserved, Nat.mul_div_cancel_left _ (by decide)]
  have hlast := (same_of_advances ((hrun.tail hbegin).trans hrun')).2
  rw [hlast, List.take_length]

-- The hooks go through with every call, and the accepted events are those that found
-- room in the FIFO. Each packet has whole events and its real size, the client never
-- fails and has reported the first accepted events, as many as have been delivered when
-- nothing is under way, and pullEvent and the client alone recover all events accepted
-- so far once no call is in progress.
structure RoundTrip (g : Geometry) (s : State) : Prop where
  goesOn : HookGoesOn g s
  accepts : ∀ e t, step g s e = some t → t.accepted = s.accepted ++ accepts g s e
  whole : ∀ sent ∈ s.packets, sent.Whole
  intact : s.client.phase ≠ .failed
  inOrder : s.client.events <+: s.accepted
  received : s.pull = .delay → s.wire = [] →
    s.client.events = s.accepted.take (s.fifo.log.delivered.length / sizeofTraceEvent)
  all : s.call = .idle → ∃ t, ReflTransGen (Advances g) s t ∧ t.accepted = s.accepted ∧
    t.client.events = s.accepted

-- In every interleaving of the hooks with pullEvent, and for every segmentation of the
-- stream.
theorem trace_round_trip {bufferPtr : Nat} {h : bufferPtr + (2048 + 1) < 2 ^ 32}
    (hs : (system (geometry bufferPtr h)).Reachable s) : RoundTrip (geometry bufferPtr h) s := by
  have hsize : (geometry bufferPtr h).nElements = 2048 := rfl
  have hinv := Inv.of_reachable hsize hs
  obtain ⟨rest, events, ⟨future, hexpects, hevents⟩, hle⟩ := hinv.awaits
  exact {
    goesOn := hinv.hookGoesOn rfl
    accepts := fun _ _ hstep => hinv.accepts hsize hstep
    whole := hinv.whole
    intact := fun hfailed => by
      unfold Client.Expects at hexpects
      rw [hfailed] at hexpects
      exact hexpects
    inOrder := List.IsPrefix.trans ⟨future, hevents⟩ hle
    received := hinv.recovered
    all := hinv.all_recovered hsize }

-- One event, sent in one packet and received in four pieces.
def oneEvent : List Event :=
  [.switched ⟨.taskSwitchedIn, 7, 3⟩, .pushArray, .closePush, .beginIteration, .writeHeader 9] ++
    List.replicate 16 .writeByte ++ [.endIteration, .recv 20, .recv 4, .recv 12, .recv 4]

def zeroed : State := start (fun _ => 0) fun _ => 0

theorem oneEvent_runs : ((system atZero).run zeroed oneEvent).isSome := by decide +kernel

theorem trace_round_trip_run :
    ∃ s, (system atZero).run zeroed oneEvent = some s ∧ s.client.events = [⟨.taskSwitchedIn, 7, 3⟩] ∧
      s.free atZero = 2048 ∧ RoundTrip atZero s :=
  have hstart : (system atZero).Reachable zeroed := .start ⟨_, _, rfl⟩
  have hrun := (Option.some_get oneEvent_runs).symm
  ⟨_, hrun, by decide +kernel, by decide +kernel, trace_round_trip (hstart.run hrun)⟩

end Trace

end Carbon
