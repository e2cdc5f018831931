import Carbon.Trace.Pushed

namespace Carbon

namespace Trace

-- Initialised with 0 in TracePacketHeader and assigned nowhere.
def TracePacketHeader.eventsDiscarded (_ : TracePacketHeader) : Nat := 0

namespace Failure

-- Trace::pullEvent: left, with no client; in osDelay; with its ContextPull
-- constructed; writing the first and the second piece; at the end of the loop.
inductive Phase
  | away
  | delay
  | opened
  | first
  | second
  | sent
  deriving DecidableEq

-- The FIFO with the hooks that fill it, and pullEvent with the packet it is sending.
-- The rest is for the proofs: the bytes that left the FIFO, those that netconn_write
-- took with success, the events lost, how many of them were lost before the latest
-- packet, and the sum of eventsDiscarded over the packets.
structure State where
  fifo : Fifo.State UInt8
  call : Call
  accepted : List TraceEvent
  phase : Phase
  packet : Sent
  removed : List UInt8
  written : List UInt8
  lost : Nat
  due : Nat
  reported : Nat

-- A write reads its piece byte by byte, and it may fail at any byte.
inductive Event
  | switched (event : TraceEvent)
  | pushArray
  | closePush
  | accept
  | beginIteration
  | writeHeader (timestamp : UInt64) (success : Bool)
  | writeByte
  | writeDone
  | writeFails
  | endIteration

def State.pull (s : State) : Pull :=
  match s.phase with
  | .away => .returned
  | .delay => .delay
  | .opened => .opened
  | .first | .second | .sent => .sending s.packet

-- The hooks and pullEvent as they go while every write succeeds.
def State.machine (s : State) : Trace.State :=
  ⟨s.fifo, s.call, s.accepted, s.pull, [], [], Client.start fun _ => 0⟩

def State.follow (s : State) (t : Trace.State) : State :=
  { s with
    fifo := t.fifo
    call := t.call
    accepted := t.accepted
    packet := match t.pull with
      | .sending sent => sent
      | _ => s.packet }

variable (g : Geometry)

-- An event that meets a FIFO without room is lost.
def switched (s : State) (event : TraceEvent) : Option State :=
  (Trace.switched g s.machine event).map fun t =>
    { s.follow t with lost := if overflowed t.fifo then s.lost + 1 else s.lost }

def exposed (f : Fifo UInt8) (c : ContextPull) : List UInt8 :=
  (List.range (c.dataLength1 + c.dataLength2)).map fun k => f.buffer (c.slot k)

-- The destructor of the context, on every way out of the loop's body: the
-- exposed bytes leave the FIFO, `sentBytes` of them sent.
def destruct (s : State) (sentBytes : Nat) (phase : Phase) : Option State :=
  match s.fifo.consumer with
  | .pulling c _ => some
      { s with
        fifo := { s.fifo with
          fifo := ContextPull.destruct g s.fifo.fifo c
          consumer := .idle
          log := s.fifo.log.deliver (exposed s.fifo.fifo c) }
        phase := phase
        removed := s.removed ++ exposed s.fifo.fifo c
        lost := s.lost +
          (c.dataLength1 + c.dataLength2 - sentBytes + (sizeofTraceEvent - 1)) / sizeofTraceEvent }
  | _ => none

def beginIteration (s : State) : Option State :=
  (Trace.beginIteration g s.machine).map fun t => { s.follow t with phase := .opened }

-- A packet that is too long, or whose header is not written, ends the loop.
def writeHeader (s : State) (timestamp : UInt64) (success : Bool) : Option State :=
  (Trace.writeHeader s.machine timestamp).bind fun t =>
    match t.pull with
    | .sending sent =>
        if success then
          some { s.follow t with
            phase := .first
            due := s.lost
            reported := s.reported + sent.header.eventsDiscarded }
        else destruct g s 0 .away
    | _ => destruct g s 0 .away

def writeByte (s : State) : Option State :=
  match s.phase, s.fifo.consumer with
  | .first, .pulling c values =>
      if values.length < c.dataLength1 then (Trace.writeByte g s.machine).map s.follow else none
  | .second, .pulling _ _ => (Trace.writeByte g s.machine).map s.follow
  | _, _ => none

def writeDone (s : State) : Option State :=
  match s.phase, s.fifo.consumer with
  | .first, .pulling c values =>
      if values.length = c.dataLength1 then
        some { s with
          phase := if 0 < c.dataLength2 then .second else .sent
          written := s.written ++ values }
      else none
  | .second, .pulling c values =>
      if values.length = c.dataLength1 + c.dataLength2 then
        some { s with phase := .sent, written := s.written ++ values.drop c.dataLength1 }
      else none
  | _, _ => none

def writeFails (s : State) : Option State :=
  match s.phase, s.fifo.consumer with
  | .first, .pulling _ _ => destruct g s 0 .away
  | .second, .pulling c _ => destruct g s c.dataLength1 .away
  | _, _ => none

def endIteration (s : State) : Option State :=
  match s.phase, s.fifo.consumer with
  | .opened, .pulling c _ | .sent, .pulling c _ =>
      (Trace.endIteration g s.machine).map fun t =>
        { s.follow t with phase := .delay, removed := s.removed ++ exposed s.fifo.fifo c }
  | _, _ => none

def step (s : State) : Event → Option State
  | .switched event => switched g s event
  | .pushArray => (Trace.pushArray g s.machine).map s.follow
  | .closePush => (Trace.closePush g s.machine).map s.follow
  | .accept => if s.phase = .away then some { s with phase := .delay } else none
  | .beginIteration => beginIteration g s
  | .writeHeader timestamp success => writeHeader g s timestamp success
  | .writeByte => writeByte g s
  | .writeDone => writeDone s
  | .writeFails => writeFails g s
  | .endIteration => endIteration g s

def start (buffer : Nat → UInt8) : State :=
  ⟨Fifo.start buffer, .idle, [], .away, ⟨packetHeader 0 0, []⟩, [], [], 0, 0, 0⟩

def system : Transition.System State Event where
  initial s := ∃ buffer, s = start buffer
  step := step g

-- Outside of an iteration the bytes removed are the bytes written unless events
-- were lost, and those that were lost before a packet are counted in a packet.
structure Accounted (s : State) : Prop where
  exact : s.phase = .away ∨ s.phase = .delay → s.lost = 0 → s.removed = s.written
  counted : s.due ≤ s.reported

-- No hook meets a FIFO without room for its event, and no write fails.
def Clean (s : State) : Event → Prop
  | .switched _ => s.fifo.fifo.isFullBy g sizeofTraceEvent = false
  | .writeHeader _ success => success = true
  | .writeFails => False
  | _ => True

instance (s : State) : DecidablePred (Clean g s)
  | .switched _ => inferInstanceAs (Decidable (s.fifo.fifo.isFullBy g sizeofTraceEvent = false))
  | .writeHeader _ success => inferInstanceAs (Decidable (success = true))
  | .writeFails => isFalse id
  | .pushArray | .closePush | .accept | .beginIteration | .writeByte | .writeDone
  | .endIteration => isTrue trivial

variable {g} {s t : State}

-- Where pullEvent stands in a run without failures, with the bytes it has read.
def PhaseInv (s : State) : Prop :=
  match s.phase with
  | .away | .delay => s.fifo.consumer = .idle ∧ s.removed = s.written
  | .opened => ∃ c, s.fifo.consumer = .pulling c [] ∧ s.removed = s.written
  | .first => ∃ c values, s.fifo.consumer = .pulling c values ∧ values.length ≤ c.dataLength1 ∧
      s.removed = s.written
  | .second => ∃ c values, s.fifo.consumer = .pulling c values ∧ c.dataLength1 ≤ values.length ∧
      s.written = s.removed ++ values.take c.dataLength1
  | .sent => ∃ c values, s.fifo.consumer = .pulling c values ∧
      values.length = c.dataLength1 + c.dataLength2 ∧ s.written = s.removed ++ values

structure Inv (g : Geometry) (s : State) : Prop where
  fifo : (Fifo.system g).ReachableBy (Fifo.Safe g) s.fifo
  reserved : s.fifo.log.reserved = sizeofTraceEvent * s.accepted.length
  call : CallInv g s.machine
  phase : PhaseInv s
  lost : s.lost = 0
  due : s.due = 0

theorem inv_start (buffer : Nat → UInt8) : Inv g (start buffer) where
  fifo := .start ⟨buffer, rfl⟩
  reserved := rfl
  call := ⟨rfl, committed_empty⟩
  phase := ⟨rfl, rfl⟩
  lost := rfl
  due := rfl

theorem phase_of_delay (h : s.pull = .delay) : s.phase = .delay := by
  unfold State.pull at h
  split at h <;> first | assumption | cases h

theorem phase_of_opened (h : s.pull = .opened) : s.phase = .opened := by
  unfold State.pull at h
  split at h <;> first | assumption | cases h

theorem PhaseInv.congr (h : PhaseInv s) (hphase : t.phase = s.phase)
    (hconsumer : t.fifo.consumer = s.fifo.consumer) (hremoved : t.removed = s.removed)
    (hwritten : t.written = s.written) : PhaseInv t := by
  unfold PhaseInv at *
  rw [hphase, hconsumer, hremoved, hwritten]
  exact h

theorem PhaseInv.opened (h : PhaseInv s) (hphase : s.phase = .opened) {c : ContextPull}
    {values : List UInt8} (hc : s.fifo.consumer = .pulling c values) :
    values = [] ∧ s.removed = s.written := by
  unfold PhaseInv at h
  rw [hphase] at h
  obtain ⟨c', hc', hsame⟩ := h
  exact ⟨(Fifo.Consumer.pulling.inj (hc.symm.trans hc')).2, hsame⟩

theorem PhaseInv.first (h : PhaseInv s) (hphase : s.phase = .first) {c : ContextPull}
    {values : List UInt8} (hc : s.fifo.consumer = .pulling c values) :
    values.length ≤ c.dataLength1 ∧ s.removed = s.written := by
  unfold PhaseInv at h
  rw [hphase] at h
  obtain ⟨c', values', hc', hle, hsame⟩ := h
  obtain ⟨rfl, rfl⟩ := Fifo.Consumer.pulling.inj (hc.symm.trans hc')
  exact ⟨hle, hsame⟩

theorem PhaseInv.second (h : PhaseInv s) (hphase : s.phase = .second) {c : ContextPull}
    {values : List UInt8} (hc : s.fifo.consumer = .pulling c values) :
    c.dataLength1 ≤ values.length ∧ s.written = s.removed ++ values.take c.dataLength1 := by
  unfold PhaseInv at h
  rw [hphase] at h
  obtain ⟨c', values', hc', hle, hwritten⟩ := h
  obtain ⟨rfl, rfl⟩ := Fifo.Consumer.pulling.inj (hc.symm.trans hc')
  exact ⟨hle, hwritten⟩

theorem PhaseInv.sent (h : PhaseInv s) (hphase : s.phase = .sent) {c : ContextPull}
    {values : List UInt8} (hc : s.fifo.consumer = .pulling c values) :
    values.length = c.dataLength1 + c.dataLength2 ∧ s.written = s.removed ++ values := by
  unfold PhaseInv at h
  rw [hphase] at h
  obtain ⟨c', values', hc', hlen, hwritten⟩ := h
  obtain ⟨rfl, rfl⟩ := Fifo.Consumer.pulling.inj (hc.symm.trans hc')
  exact ⟨hlen, hwritten⟩

theorem Inv.pushes {u : Trace.State} (h : Inv g s) (hpush : Pushes g s.machine u) :
    Inv g (s.follow u) := by
  obtain ⟨e, hsafe, hfifo⟩ := hpush.fifo
  exact ⟨h.fifo.next hsafe hfifo, hpush.reserved, hpush.call,
    h.phase.congr rfl hpush.consumer rfl rfl, h.lost, h.due⟩

theorem Inv.switched (h : Inv g s) (hsize : g.nElements = 2048) {event : TraceEvent}
    (hroom : s.fifo.fifo.isFullBy g sizeofTraceEvent = false) (hstep : switched g s event = some t) :
    Inv g t := by
  obtain ⟨u, hu, rfl⟩ := Option.map_eq_some_iff.mp hstep
  have hinv := Fifo.inv_of_reachable h.fifo
  have hpush := h.call.switched hinv h.reserved hsize hu
  have hover : overflowed u.fifo = false := by
    unfold Trace.switched at hu
    cases hcall : s.machine.call with
    | idle =>
        rw [hcall] at hu
        obtain ⟨fifo, hopen, rfl⟩ := Option.map_eq_some_iff.mp hu
        exact (h.call.reserves hcall hinv h.reserved hsize event (safe_openPush hinv hsize) hopen hroom).1
    | opened event' | filled event' => rw [hcall] at hu; cases hu
  have hnext := h.pushes hpush
  rw [hover]
  exact ⟨hnext.fifo, hnext.reserved, hnext.call, hnext.phase, h.lost, hnext.due⟩

-- What a complete reader has read is what the context exposes when it closes.
theorem exposed_eq {fifo : Fifo.State UInt8} (hinv : Fifo.Inv g fifo) {c : ContextPull}
    {values : List UInt8} (hc : fifo.consumer = .pulling c values)
    (hlen : values.length = c.dataLength1 + c.dataLength2) : exposed fifo.fifo c = values := by
  have hlocal := hinv.consumer
  rw [hc] at hlocal
  obtain ⟨-, -, -, -, hvalues⟩ := hlocal
  apply List.ext_getElem (by simp [exposed, hlen])
  intro k hk hk'
  obtain ⟨hcommitted, hslot⟩ := hinv.pulling_slot hc (hlen ▸ hk')
  have hcontent := hinv.content _ (Nat.le_add_right _ k) hcommitted
  rw [hvalues k hk', ← hslot] at hcontent
  simp only [exposed, List.getElem_map, List.getElem_range]
  exact (Option.some.inj hcontent).symm

theorem Inv.call_of_pull (h : Inv g s) (hcall : t.call = s.call) (haccepted : t.accepted = s.accepted)
    (hproducer : t.fifo.producer = s.fifo.producer) (hlog : t.fifo.log.committed = s.fifo.log.committed)
    (hobject : t.fifo.log.object = s.fifo.log.object) (hbuffer : t.fifo.fifo.buffer = s.fifo.fifo.buffer) :
    CallInv g t.machine :=
  h.call.frame hcall haccepted hproducer hlog hobject hbuffer

-- The end of an iteration whose bytes were all read and written.
theorem Inv.closed (h : Inv g s) {c : ContextPull} {values : List UInt8}
    (hc : s.fifo.consumer = .pulling c values) (hwritten : s.written = s.removed ++ values)
    {fifo : Fifo.State UInt8} (hclose : Fifo.step g s.fifo .closePull = some fifo) (packet : Sent) :
    Inv g { s with fifo, packet, phase := .delay, removed := s.removed ++ exposed s.fifo.fifo c } := by
  have hinv := Fifo.inv_of_reachable h.fifo
  have hnext := h.fifo.next (e := Fifo.Event.closePull) ⟨trivial, trivial⟩ hclose
  obtain ⟨c', values', hc', hlen, rfl⟩ := Fifo.closePullStep_cases hclose
  obtain ⟨rfl, rfl⟩ := Fifo.Consumer.pulling.inj (hc.symm.trans hc')
  rw [exposed_eq hinv hc hlen]
  have hbuffer : (ContextPull.destruct g s.fifo.fifo c).buffer = s.fifo.fifo.buffer :=
    (ContextPull.removeHead_iterate g s.fifo.fifo hinv.head _).2.2.1
  exact ⟨hnext, h.reserved, h.call_of_pull rfl rfl rfl rfl rfl hbuffer, ⟨rfl, hwritten.symm⟩, h.lost, h.due⟩

-- A batch is no longer than the FIFO, so its packet is never too long.
theorem batch_fits {fifo : Fifo.State UInt8} (hinv : Fifo.Inv g fifo) (hsize : g.nElements = 2048)
    {c : ContextPull} {values : List UInt8} (hc : fifo.consumer = .pulling c values) :
    sizeofTracePacketHeader + (c.dataLength1 + c.dataLength2) ≤ maxPacketSizeBytes := by
  have hmax : sizeofTracePacketHeader + 2048 ≤ maxPacketSizeBytes := by decide
  rcases Nat.eq_zero_or_pos (c.dataLength1 + c.dataLength2) with hz | hpos
  · omega
  · obtain ⟨hcommitted, -⟩ := hinv.pulling_slot hc
      (show c.dataLength1 + c.dataLength2 - 1 < c.dataLength1 + c.dataLength2 by omega)
    have hlt := hinv.sound.committed_lt hcommitted
    have hbound := hinv.sound.bounded
    omega

theorem Inv.beginIteration (h : Inv g s) (hstep : beginIteration g s = some t) : Inv g t := by
  obtain ⟨u, hbegin, rfl⟩ := Option.map_eq_some_iff.mp hstep
  obtain ⟨hdelay, fifo, hopen, rfl⟩ := beginIteration_cases hbegin
  have hphase := phase_of_delay hdelay
  obtain ⟨pushed, -, hcommitted, -⟩ := h.call.pushed
  have hhole := hcommitted.no_hole (Fifo.inv_of_reachable h.fifo)
  have hnext := h.fifo.next (e := Fifo.Event.openPull) ⟨trivial, hhole⟩ hopen
  have hp := h.phase
  unfold PhaseInv at hp
  rw [hphase] at hp
  obtain ⟨-, d1, d2, -, rfl⟩ := Fifo.openPullStep_cases hopen
  exact ⟨hnext, h.reserved, h.call_of_pull rfl rfl rfl rfl rfl rfl, ⟨_, rfl, hp.2⟩, h.lost, h.due⟩

theorem Inv.writeHeader (h : Inv g s) (hsize : g.nElements = 2048) {timestamp : UInt64}
    (hstep : writeHeader g s timestamp true = some t) : Inv g t := by
  obtain ⟨u, hheader, hstep⟩ := Option.bind_eq_some_iff.mp hstep
  obtain ⟨hopened, c, values, hc, hpos, hsent⟩ := writeHeader_cases hheader
  have hphase := phase_of_opened hopened
  have hfits := batch_fits (Fifo.inv_of_reachable h.fifo) hsize hc
  obtain ⟨rfl, hsame⟩ := h.phase.opened hphase hc
  rw [if_neg (by omega)] at hsent
  subst hsent
  simp only [if_true] at hstep
  cases hstep
  exact ⟨h.fifo, h.reserved, h.call, ⟨c, [], hc, Nat.zero_le _, hsame⟩, h.lost, h.lost⟩

-- Reading a byte out of the context touches the context alone.
theorem Inv.readByte (h : Inv g s) {c : ContextPull} {values : List UInt8}
    (hc : s.fifo.consumer = .pulling c values) {u : Trace.State} (hbyte : Trace.writeByte g s.machine = some u)
    (hphase : ∀ value, u.fifo.consumer = .pulling c (values ++ [value]) → PhaseInv (s.follow u)) :
    Inv g (s.follow u) := by
  obtain ⟨sent, c', values', fifo, -, -, hread, rfl⟩ := writeByte_cases hbyte
  have hnext := h.fifo.next (e := Fifo.Event.pullRead) ⟨trivial, trivial⟩ hread
  obtain ⟨c'', values'', hc'', -, rfl⟩ := Fifo.pullReadStep_cases hread
  obtain ⟨rfl, rfl⟩ := Fifo.Consumer.pulling.inj (hc.symm.trans hc'')
  exact ⟨hnext, h.reserved, h.call_of_pull rfl rfl rfl rfl rfl rfl, hphase _ rfl, h.lost, h.due⟩

theorem Inv.writeByte (h : Inv g s) (hstep : writeByte g s = some t) : Inv g t := by
  unfold Failure.writeByte at hstep
  split at hstep
  · rename_i c values hphase hc
    obtain ⟨-, hsame⟩ := h.phase.first hphase hc
    obtain ⟨hlt, hstep⟩ := Option.ite_none_right_eq_some.mp hstep
    obtain ⟨u, hbyte, rfl⟩ := Option.map_eq_some_iff.mp hstep
    refine h.readByte hc hbyte fun value hvalue => ?_
    unfold PhaseInv
    rw [show (s.follow u).phase = .first from hphase]
    exact ⟨c, _, hvalue, by rw [List.length_append]; exact hlt, hsame⟩
  · rename_i c values hphase hc
    obtain ⟨hle, hwritten⟩ := h.phase.second hphase hc
    obtain ⟨u, hbyte, rfl⟩ := Option.map_eq_some_iff.mp hstep
    refine h.readByte hc hbyte fun value hvalue => ?_
    unfold PhaseInv
    rw [show (s.follow u).phase = .second from hphase]
    refine ⟨c, _, hvalue, by rw [List.length_append]; omega, ?_⟩
    rw [List.take_append_of_le_length hle]
    exact hwritten
  · cases hstep

theorem Inv.writeDone (h : Inv g s) (hstep : writeDone s = some t) : Inv g t := by
  unfold Failure.writeDone at hstep
  split at hstep
  · rename_i c values hphase hc
    obtain ⟨-, hsame⟩ := h.phase.first hphase hc
    obtain ⟨hlen, hstep⟩ := Option.ite_none_right_eq_some.mp hstep
    cases hstep
    refine ⟨h.fifo, h.reserved, h.call, ?_, h.lost, h.due⟩
    by_cases hmore : 0 < c.dataLength2
    · rw [if_pos hmore]
      refine ⟨c, values, hc, Nat.le_of_eq hlen.symm, ?_⟩
      rw [← hlen, List.take_length, hsame]
    · rw [if_neg hmore]
      exact ⟨c, values, hc, by omega, by dsimp only; rw [hsame]⟩
  · rename_i c values hphase hc
    obtain ⟨-, hwritten⟩ := h.phase.second hphase hc
    obtain ⟨hlen, hstep⟩ := Option.ite_none_right_eq_some.mp hstep
    cases hstep
    refine ⟨h.fifo, h.reserved, h.call, ⟨c, values, hc, hlen, ?_⟩, h.lost, h.due⟩
    dsimp only
    rw [hwritten, List.append_assoc, List.take_append_drop]
  · cases hstep

theorem Inv.endIteration (h : Inv g s) (hstep : endIteration g s = some t) : Inv g t := by
  have hend : ∀ {c values}, s.fifo.consumer = .pulling c values → s.written = s.removed ++ values →
      ∀ u, Trace.endIteration g s.machine = some u →
        Inv g { s.follow u with phase := .delay, removed := s.removed ++ exposed s.fifo.fifo c } := by
    intro c values hc hwritten u hu
    obtain ⟨fifo, hclose, ⟨-, rfl⟩ | ⟨sent, -, rfl⟩⟩ := endIteration_cases hu
    · exact h.closed hc hwritten hclose _
    · exact h.closed hc hwritten hclose _
  unfold Failure.endIteration at hstep
  split at hstep
  · rename_i c values hphase hc
    obtain ⟨u, hu, rfl⟩ := Option.map_eq_some_iff.mp hstep
    obtain ⟨rfl, hsame⟩ := h.phase.opened hphase hc
    exact hend hc (by rw [hsame, List.append_nil]) u hu
  · rename_i c values hphase hc
    obtain ⟨u, hu, rfl⟩ := Option.map_eq_some_iff.mp hstep
    obtain ⟨-, hwritten⟩ := h.phase.sent hphase hc
    exact hend hc hwritten u hu
  · cases hstep

theorem Inv.step (h : Inv g s) (hsize : g.nElements = 2048) {e : Event} (hclean : Clean g s e)
    (hstep : step g s e = some t) : Inv g t := by
  cases e with
  | switched event => exact h.switched hsize hclean hstep
  | pushArray =>
      obtain ⟨u, hu, rfl⟩ := Option.map_eq_some_iff.mp hstep
      exact h.pushes (h.call.pushArray h.reserved hsize hu)
  | closePush =>
      obtain ⟨u, hu, rfl⟩ := Option.map_eq_some_iff.mp hstep
      exact h.pushes (h.call.closePush (Fifo.inv_of_reachable h.fifo) h.reserved hsize hu)
  | accept =>
      obtain ⟨haway, hstep⟩ := Option.ite_none_right_eq_some.mp hstep
      cases hstep
      have hp := h.phase
      unfold PhaseInv at hp
      rw [haway] at hp
      exact ⟨h.fifo, h.reserved, h.call, hp, h.lost, h.due⟩
  | beginIteration => exact h.beginIteration hstep
  | writeHeader timestamp success =>
      cases hclean
      exact h.writeHeader hsize hstep
  | writeByte => exact h.writeByte hstep
  | writeDone => exact h.writeDone hstep
  | writeFails => exact hclean.elim
  | endIteration => exact h.endIteration hstep

theorem Inv.accounted (h : Inv g s) : Accounted s := by
  have hp := h.phase
  refine ⟨?_, by rw [h.due]; exact Nat.zero_le _⟩
  unfold PhaseInv at hp
  rintro (hphase | hphase) -
  · rw [hphase] at hp
    exact hp.2
  · rw [hphase] at hp
    exact hp.2

-- Without a failed write and a full FIFO every byte that leaves the FIFO was
-- written, over any number of connections, and no event is lost.
theorem removed_when_written {bufferPtr : Nat} {h : bufferPtr + (2048 + 1) < 2 ^ 32}
    (hs : (system (geometry bufferPtr h)).ReachableBy (Clean (geometry bufferPtr h)) s) :
    Accounted s ∧ s.lost = 0 := by
  have hinv : Inv (geometry bufferPtr h) s := by
    refine hs.invariant ?_ fun _ _ _ hinv hclean hstep => hinv.step rfl hclean hstep
    rintro s ⟨buffer, rfl⟩
    exact inv_start buffer
  exact ⟨hinv.accounted, hinv.lost⟩

-- Two events, each sent in a packet of its own.
def twoEvents : List Event :=
  List.flatten [
    [.switched ⟨.taskSwitchedIn, 7, 3⟩, .pushArray, .closePush, .accept, .beginIteration,
      .writeHeader 9 true],
    List.replicate 16 .writeByte,
    [.writeDone, .endIteration, .switched ⟨.taskSwitchedOut, 10, 3⟩, .pushArray, .closePush,
      .beginIteration, .writeHeader 11 true],
    List.replicate 16 .writeByte, [.writeDone, .endIteration]]

theorem twoEvents_runs : ((system atZero).runBy (Clean atZero) (start fun _ => 0) twoEvents).isSome := by
  decide +kernel

theorem removed_when_written_run :
    ∃ s, (system atZero).runBy (Clean atZero) (start fun _ => 0) twoEvents = some s ∧
      s.written.length = 32 ∧ s.removed.length = 32 ∧ Accounted s ∧ s.lost = 0 :=
  have hstart : (system atZero).ReachableBy (Clean atZero) (start fun _ => 0) := .start ⟨_, rfl⟩
  ⟨_, (Option.some_get twoEvents_runs).symm, by decide +kernel, by decide +kernel,
    removed_when_written (hstart.after twoEvents twoEvents_runs)⟩

-- The header of the first packet is not written: its event is gone, and the next
-- packet says that none was discarded.
theorem failed_write_uncounted :
    ¬∀ s : State, (system (geometry 0 (by decide))).Reachable s → Accounted s := by
  intro h
  have hreach := Transition.System.ReachableBy.get (system (geometry 0 (by decide)))
    (fun _ _ => True)
    [.switched ⟨.taskSwitchedIn, 7, 3⟩, .pushArray, .closePush, .accept, .beginIteration,
      .writeHeader 9 false, .accept, .switched ⟨.taskSwitchedOut, 10, 3⟩, .pushArray, .closePush,
      .beginIteration, .writeHeader 11 true]
    (s := start fun _ => 0) ⟨_, rfl⟩ (by decide +kernel)
  exact absurd (h _ hreach).counted (by decide +kernel)

end Failure

end Trace

end Carbon
