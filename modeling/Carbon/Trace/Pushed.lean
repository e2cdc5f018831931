import Carbon.Fifo.Array
import Carbon.Fifo.Single
import Carbon.Trace.Machine

namespace Carbon

namespace Trace

open Reservation (Log)

-- The committed entries are the bytes of these events.
structure Committed (log : Log UInt8) (events : List TraceEvent) : Prop where
  committed : ∀ i, log.committed i = true ↔ i < sizeofTraceEvent * events.length
  object : ∀ i < sizeofTraceEvent * events.length, log.object i = (eventBytes events)[i]?

-- The open context either was refused its range, or it holds the range of the
-- last accepted event.
def Reserved (fifo : Fifo.State UInt8) (accepted : List TraceEvent) (c : ContextPush) (entry : Nat)
    (event : TraceEvent) : Prop :=
  c.isOverflow = true ∧ Committed fifo.log accepted ∨
    c.isOverflow = false ∧ c.nObjects = sizeofTraceEvent ∧
      ∃ pushed, accepted = pushed ++ [event] ∧ entry = sizeofTraceEvent * pushed.length ∧
        Committed fifo.log pushed

-- The first piece of the range.
def firstPiece (g : Geometry) (entry : Nat) : Nat :=
  if entry % g.bufferSize + sizeofTraceEvent ≤ g.bufferSize then sizeofTraceEvent
  else g.bufferSize - entry % g.bufferSize

def CallInv (g : Geometry) (s : State) : Prop :=
  match s.call with
  | .idle => s.fifo.producer 0 = .idle ∧ Committed s.fifo.log s.accepted
  | .opened event => ∃ c entry, s.fifo.producer 0 = .context c entry 0 ∧
      Reserved s.fifo s.accepted c entry event ∧
      (c.isOverflow = false → c.index = entry % g.bufferSize ∧ c.dataLength1 = firstPiece g entry)
  | .filled event => ∃ c entry advanced, s.fifo.producer 0 = .context c entry advanced ∧
      Reserved s.fifo s.accepted c entry event ∧
      (c.isOverflow = false → ContextPush.Holds g entry event.bytes s.fifo.fifo)

variable {g : Geometry} {s t : State} {log : Log UInt8} {events : List TraceEvent}

theorem Committed.congr {log' : Log UInt8} (h : Committed log events)
    (hcommitted : log'.committed = log.committed) (hobject : log'.object = log.object) :
    Committed log' events where
  committed := by rw [hcommitted]; exact h.committed
  object := by rw [hobject]; exact h.object

theorem committed_empty : Committed Log.empty [] where
  committed i := ⟨fun h => (nomatch h), fun h => absurd h (Nat.not_lt_zero i)⟩
  object i h := absurd h (Nat.not_lt_zero i)

-- The commit of one more event behind the others.
theorem Committed.commit (h : Committed log events) (event : TraceEvent) {content : Nat → UInt8}
    (hcontent : ∀ k < sizeofTraceEvent,
      event.bytes[k]? = some (content (sizeofTraceEvent * events.length + k))) :
    Committed (log.commit (sizeofTraceEvent * events.length) sizeofTraceEvent content)
      (events ++ [event]) := by
  have hlen : (events ++ [event]).length = events.length + 1 := by simp
  have hbytes : eventBytes (events ++ [event]) = eventBytes events ++ event.bytes := by
    simp [eventBytes]
  refine ⟨fun i => ?_, fun i hi => ?_⟩
  · rw [hlen, Nat.mul_succ]
    by_cases hin : sizeofTraceEvent * events.length ≤ i ∧
        i < sizeofTraceEvent * events.length + sizeofTraceEvent
    · rw [(Log.commit_inside log content hin).2]
      exact iff_of_true rfl hin.2
    · rw [(Log.commit_outside log content hin).2, h.committed]
      omega
  · rw [hlen, Nat.mul_succ] at hi
    by_cases hold : i < sizeofTraceEvent * events.length
    · rw [(Log.commit_outside log content (by omega)).1, h.object i hold, hbytes,
        List.getElem?_append_left (by rw [length_eventBytes]; exact hold)]
    · obtain ⟨k, rfl⟩ := Nat.exists_eq_add_of_le (Nat.le_of_not_lt hold)
      have hk : k < sizeofTraceEvent := by omega
      rw [(Log.commit_inside log content ⟨Nat.le_add_right _ _, hi⟩).1, hbytes,
        List.getElem?_append_right (by rw [length_eventBytes]; omega), length_eventBytes,
        Nat.add_sub_cancel_left, hcontent k hk]

-- Without gaps in what is committed no batch steps over slot N.
theorem Committed.no_hole {fifo : Fifo.State UInt8} (h : Committed fifo.log events)
    (hinv : Fifo.Inv g fifo) : ¬Fifo.HoleBeforeWrap g fifo.fifo := by
  rintro ⟨hhead, _, hlast, hfirst⟩
  obtain ⟨i, hi, hcommitted, hslot⟩ := (hinv.ready 0).mp hfirst
  have hB : g.bufferSize = g.nElements + 1 := rfl
  have hne : i ≠ fifo.log.delivered.length := by
    rintro rfl
    rw [hinv.head, hslot] at hhead
    exact absurd hhead (Nat.lt_irrefl 0)
  have hprev : fifo.log.committed (i - 1) = true := by
    rw [h.committed] at hcommitted ⊢
    omega
  have hready := (hinv.ready g.nElements).mpr ⟨i - 1, by omega, hprev, by
    obtain ⟨k, hk⟩ := Nat.dvd_of_mod_eq_zero hslot
    have hpos : 0 < k := Nat.pos_of_ne_zero (by rintro rfl; omega)
    obtain ⟨j, rfl⟩ := Nat.exists_eq_succ_of_ne_zero hpos.ne'
    rw [hk, Nat.mul_succ, hB, Nat.add_sub_assoc (by omega), Nat.add_sub_cancel, Nat.mul_add_mod,
      Nat.mod_eq_of_lt (by omega)]⟩
  rw [hlast] at hready
  cases hready

theorem CallInv.pushed (h : CallInv g s) :
    ∃ pushed, pushed <+: s.accepted ∧ Committed s.fifo.log pushed ∧
      (s.call = .idle → pushed = s.accepted) := by
  have hreserved : ∀ {c entry event}, Reserved s.fifo s.accepted c entry event →
      ∃ pushed, pushed <+: s.accepted ∧ Committed s.fifo.log pushed := by
    rintro c entry event (⟨_, hcommitted⟩ | ⟨_, _, pushed, haccepted, _, hcommitted⟩)
    · exact ⟨_, List.prefix_rfl, hcommitted⟩
    · exact ⟨pushed, ⟨[event], haccepted.symm⟩, hcommitted⟩
  unfold CallInv at h
  cases hcall : s.call with
  | idle =>
      rw [hcall] at h
      exact ⟨_, List.prefix_rfl, h.2, fun _ => rfl⟩
  | opened event =>
      rw [hcall] at h
      obtain ⟨c, entry, _, hres, _⟩ := h
      obtain ⟨pushed, hle, hcommitted⟩ := hreserved hres
      exact ⟨pushed, hle, hcommitted, nofun⟩
  | filled event =>
      rw [hcall] at h
      obtain ⟨c, entry, advanced, _, hres, _⟩ := h
      obtain ⟨pushed, hle, hcommitted⟩ := hreserved hres
      exact ⟨pushed, hle, hcommitted, nofun⟩

theorem Reserved.congr {fifo fifo' : Fifo.State UInt8} {c : ContextPush} {entry : Nat} {event : TraceEvent}
    (h : Reserved fifo events c entry event) (hcommitted : fifo'.log.committed = fifo.log.committed)
    (hobject : fifo'.log.object = fifo.log.object) : Reserved fifo' events c entry event :=
  h.imp (fun ⟨hover, hc⟩ => ⟨hover, hc.congr hcommitted hobject⟩)
    fun ⟨hover, hn, pushed, haccepted, hentry, hc⟩ =>
      ⟨hover, hn, pushed, haccepted, hentry, hc.congr hcommitted hobject⟩

-- The steps of pullEvent and of the client do not touch the call.
theorem CallInv.frame (h : CallInv g s) (hcall : t.call = s.call) (haccepted : t.accepted = s.accepted)
    (hproducer : t.fifo.producer = s.fifo.producer) (hcommitted : t.fifo.log.committed = s.fifo.log.committed)
    (hobject : t.fifo.log.object = s.fifo.log.object) (hbuffer : t.fifo.fifo.buffer = s.fifo.fifo.buffer) :
    CallInv g t := by
  unfold CallInv at h ⊢
  rw [hcall, haccepted, hproducer]
  cases hphase : s.call with
  | idle =>
      rw [hphase] at h
      exact ⟨h.1, h.2.congr hcommitted hobject⟩
  | opened event =>
      rw [hphase] at h
      obtain ⟨c, entry, hp, hres, hpiece⟩ := h
      exact ⟨c, entry, hp, hres.congr hcommitted hobject, hpiece⟩
  | filled event =>
      rw [hphase] at h
      obtain ⟨c, entry, advanced, hp, hres, hholds⟩ := h
      refine ⟨c, entry, advanced, hp, hres.congr hcommitted hobject, fun hover => ?_⟩
      unfold ContextPush.Holds
      rw [hbuffer]
      exact hholds hover

-- What a step of a call may change.
structure Pushes (g : Geometry) (s t : State) : Prop where
  fifo : ∃ e, Fifo.Safe g s.fifo e ∧ Fifo.step g s.fifo e = some t.fifo
  reserved : t.fifo.log.reserved = sizeofTraceEvent * t.accepted.length
  call : CallInv g t
  accepted : s.accepted <+: t.accepted
  consumer : t.fifo.consumer = s.fifo.consumer
  delivered : t.fifo.log.delivered = s.fifo.log.delivered
  pull : t.pull = s.pull
  packets : t.packets = s.packets
  wire : t.wire = s.wire
  client : t.client = s.client

-- A refused call leaves the FIFO as it was and its event is not accepted.
theorem CallInv.refused (h : CallInv g s) (hcall : s.call = .idle)
    (hreserved : s.fifo.log.reserved = sizeofTraceEvent * s.accepted.length) (event : TraceEvent)
    {fifo : Fifo.State UInt8} (hsafe : Fifo.Safe g s.fifo (.openPush 0 sizeofTraceEvent))
    (hopen : Fifo.openPushStep g s.fifo 0 sizeofTraceEvent = some fifo)
    (hfull : s.fifo.fifo.isFullBy g sizeofTraceEvent = true) :
    overflowed fifo = true ∧ Pushes g s { s with fifo := fifo, call := .opened event } := by
  obtain ⟨_, _, hfifo⟩ := Fifo.openPushStep_cases hopen
  rw [Fifo.construct_full g s.fifo.fifo sizeofTraceEvent hfull] at hfifo
  have hproducer : fifo.producer 0 = .context ⟨sizeofTraceEvent, 0, 0, 0, 0, 0, true⟩
      s.fifo.log.reserved 0 := by
    rw [hfifo]
    exact Function.update_self (0 : Nat) _ s.fifo.producer
  have hlog : fifo.log = s.fifo.log := by rw [hfifo]; rfl
  unfold CallInv at h
  rw [hcall] at h
  refine ⟨by unfold overflowed; rw [hproducer], ?_⟩
  exact {
    fifo := ⟨_, hsafe, hopen⟩
    reserved := by rw [← hreserved, hlog]
    call := ⟨_, _, hproducer, .inl ⟨rfl, hlog ▸ h.2⟩, nofun⟩
    accepted := List.prefix_rfl
    consumer := by rw [hfifo]; rfl
    delivered := by rw [hlog]
    pull := rfl
    packets := rfl
    wire := rfl
    client := rfl }

-- Otherwise the call holds the range of its event.
theorem CallInv.reserves (h : CallInv g s) (hcall : s.call = .idle) (hinv : Fifo.Inv g s.fifo)
    (hreserved : s.fifo.log.reserved = sizeofTraceEvent * s.accepted.length) (hsize : g.nElements = 2048)
    (event : TraceEvent) {fifo : Fifo.State UInt8}
    (hsafe : Fifo.Safe g s.fifo (.openPush 0 sizeofTraceEvent))
    (hopen : Fifo.openPushStep g s.fifo 0 sizeofTraceEvent = some fifo)
    (hfull : s.fifo.fifo.isFullBy g sizeofTraceEvent = false) :
    overflowed fifo = false ∧
      Pushes g s { s with fifo := fifo, call := .opened event, accepted := s.accepted ++ [event] } := by
  have htail := hinv.tail_le
  obtain ⟨_, _, hfifo⟩ := Fifo.openPushStep_cases hopen
  obtain ⟨_, hover, hn, _, _⟩ := Fifo.construct_fits g s.fifo.fifo hfull hinv.tail (by decide)
    (by rw [hsize]; decide) (by unfold sizeofTraceEvent; omega)
  obtain ⟨hindex, hpiece⟩ := ContextPush.construct_lengths hfull
  have hproducer : fifo.producer 0 = .context
      (ContextPush.construct g s.fifo.fifo sizeofTraceEvent).2 s.fifo.log.reserved 0 := by
    rw [hfifo]
    exact Function.update_self (0 : Nat) _ s.fifo.producer
  have hlog : fifo.log = s.fifo.log.reserve sizeofTraceEvent := by
    rw [hfifo]
    exact if_neg (ne_true_of_eq_false hover)
  unfold CallInv at h
  rw [hcall] at h
  refine ⟨by unfold overflowed; rw [hproducer]; exact hover, ?_⟩
  exact {
    fifo := ⟨_, hsafe, hopen⟩
    reserved := by
      dsimp only
      rw [hlog, List.length_append, List.length_singleton, Nat.mul_succ, ← hreserved]
      rfl
    call := by
      refine ⟨_, _, hproducer, .inr ⟨hover, hn, s.accepted, rfl, hreserved, ?_⟩, fun _ => ⟨?_, ?_⟩⟩
      · exact h.2.congr (by rw [hlog]; rfl) (by rw [hlog]; rfl)
      · rw [hindex, hinv.tail]
      · have hlt := Nat.mod_lt s.fifo.log.reserved (show 0 < g.bufferSize from Nat.succ_pos _)
        have hB : g.bufferSize = g.nElements + 1 := rfl
        rw [hpiece, hinv.tail, uint32_of_lt (by unfold sizeofTraceEvent; omega)]
        rfl
    accepted := List.prefix_append _ _
    consumer := by rw [hfifo]; rfl
    delivered := by rw [hlog]; rfl
    pull := rfl
    packets := rfl
    wire := rfl
    client := rfl }

-- The hooks open their context with all of its slots below 2 ^ 32.
theorem safe_openPush {fifo : Fifo.State UInt8} (hinv : Fifo.Inv g fifo) (hsize : g.nElements = 2048) :
    Fifo.Safe g fifo (.openPush 0 sizeofTraceEvent) := by
  have htail := hinv.tail_le
  exact ⟨.inr ⟨by decide, by rw [hsize]; decide⟩, .inr (by unfold sizeofTraceEvent; omega)⟩

theorem CallInv.switched (h : CallInv g s) (hinv : Fifo.Inv g s.fifo)
    (hreserved : s.fifo.log.reserved = sizeofTraceEvent * s.accepted.length) (hsize : g.nElements = 2048)
    {event : TraceEvent} (hstep : switched g s event = some t) : Pushes g s t := by
  unfold Trace.switched at hstep
  cases hcall : s.call with
  | idle =>
      rw [hcall] at hstep
      obtain ⟨fifo, hopen, rfl⟩ := Option.map_eq_some_iff.mp hstep
      have hsafe := safe_openPush hinv hsize
      cases hfull : s.fifo.fifo.isFullBy g sizeofTraceEvent with
      | true =>
          obtain ⟨hover, hpushes⟩ := h.refused hcall hreserved _ hsafe hopen hfull
          rw [hover]
          exact hpushes
      | false =>
          obtain ⟨hover, hpushes⟩ := h.reserves hcall hinv hreserved hsize _ hsafe hopen hfull
          rw [hover]
          exact hpushes
  | opened event' | filled event' => rw [hcall] at hstep; cases hstep

-- The array of the event stays inside its range.
theorem Reserved.arrayWithin {fifo : Fifo.State UInt8} {c : ContextPush} {entry : Nat} {event : TraceEvent}
    (h : Reserved fifo events c entry event) (hsize : g.nElements = 2048)
    (hpiece : c.isOverflow = false → c.index = entry % g.bufferSize ∧ c.dataLength1 = firstPiece g entry) :
    ContextPush.ArrayWithin g c 0 sizeofTraceEvent := by
  have hlt := Nat.mod_lt entry (show 0 < g.bufferSize from Nat.succ_pos _)
  have hB : g.bufferSize = g.nElements + 1 := rfl
  unfold ContextPush.ArrayWithin
  dsimp only
  cases hover : c.isOverflow with
  | true => exact .inl rfl
  | false =>
      obtain ⟨hindex, hlength⟩ := hpiece hover
      have hn := (h.resolve_left (by simp [hover])).2.1
      rw [hindex, hlength, hn]
      unfold firstPiece sizeofTraceEvent
      split <;> omega

-- A range of 16 slots that wraps ends in an earlier byte than it starts, and as
-- slot 2048 is the first one of its byte, the commit marks no other slot.
theorem Reserved.commitExact {fifo : Fifo.State UInt8} {c : ContextPush} {entry : Nat} {event : TraceEvent}
    (h : Reserved fifo events c entry event) (hsize : g.nElements = 2048)
    (hcovers : Fifo.Covers g fifo.log c entry) :
    c.isOverflow = true ∨ ContextPush.CommitExact g fifo.fifo c.fifoPosStart c.fifoPosEnd := by
  have hB : g.bufferSize = g.nElements + 1 := rfl
  cases hover : c.isOverflow with
  | true => exact .inl rfl
  | false =>
      right
      obtain ⟨hstart, hend, _⟩ := hcovers hover
      rw [(h.resolve_left (by simp [hover])).2.1] at hend
      have hmod := Cyclic.add_mod_eq entry (sizeofTraceEvent - 1) g.bufferSize (by omega)
        (by unfold sizeofTraceEvent; omega)
      have hlt := Nat.mod_lt entry (show 0 < g.bufferSize from Nat.succ_pos _)
      unfold ContextPush.CommitExact
      rw [hstart, hend, hmod]
      unfold sizeofTraceEvent
      split
      · left
        omega
      · refine .inr ⟨by omega, fun slot hslot hbyte => ?_⟩
        omega

theorem CallInv.pushArray (h : CallInv g s)
    (hreserved : s.fifo.log.reserved = sizeofTraceEvent * s.accepted.length) (hsize : g.nElements = 2048)
    (hstep : pushArray g s = some t) : Pushes g s t := by
  unfold Trace.pushArray at hstep
  unfold CallInv at h
  cases hcall : s.call with
  | opened event =>
      rw [hcall] at h hstep
      obtain ⟨fifo, harray, rfl⟩ := Option.map_eq_some_iff.mp hstep
      obtain ⟨c, entry, hproducer, hres, hpiece⟩ := h
      have hsafe : Fifo.Safe g s.fifo (.contextArray 0 event.bytes) := by
        refine ⟨?_, trivial⟩
        change (s.fifo.producer 0).ArrayWithin g event.bytes.length
        rw [hproducer, event.length_bytes]
        exact hres.arrayWithin hsize hpiece
      obtain ⟨c', entry', advanced', hproducer', hfifo⟩ := Fifo.contextArrayStep_cases harray
      rw [hproducer] at hproducer'
      obtain ⟨rfl, rfl, rfl⟩ := Fifo.Producer.context.inj hproducer'
      have hlog : fifo.log = s.fifo.log := by rw [hfifo]; rfl
      obtain ⟨index, hcontext⟩ := ContextPush.pushArray_context (g := g) (c := c) event.bytes
      have hreserves : Reserved s.fifo s.accepted { c with index := index } entry event := hres
      have hres' : Reserved fifo s.accepted { c with index := index } entry event :=
        hreserves.congr (by rw [hlog]) (by rw [hlog])
      exact {
        fifo := ⟨_, hsafe, harray⟩
        reserved := by
          dsimp only
          rw [hlog]
          exact hreserved
        call := by
          refine ⟨{ c with index := index }, entry, 0 + (c.pushArray g event.bytes).moved, ?_, hres', ?_⟩
          · dsimp only
            rw [hfifo, ← hcontext]
            exact Function.update_self (0 : Nat) _ s.fifo.producer
          · intro hover
            obtain ⟨hindex, hlength⟩ := hpiece hover
            dsimp only
            rw [hfifo]
            refine ContextPush.pushArray_whole s.fifo.fifo hover hindex ?_ ?_
            · rw [event.length_bytes, hsize]
              decide
            · rw [event.length_bytes]
              exact hlength
        accepted := List.prefix_rfl
        consumer := by rw [hfifo]; rfl
        delivered := by rw [hlog]
        pull := rfl
        packets := rfl
        wire := rfl
        client := rfl }
  | idle | filled event => rw [hcall] at hstep; cases hstep

theorem CallInv.closePush (h : CallInv g s) (hinv : Fifo.Inv g s.fifo)
    (hreserved : s.fifo.log.reserved = sizeofTraceEvent * s.accepted.length) (hsize : g.nElements = 2048)
    (hstep : closePush g s = some t) : Pushes g s t := by
  unfold Trace.closePush at hstep
  unfold CallInv at h
  cases hcall : s.call with
  | filled event =>
      rw [hcall] at h hstep
      obtain ⟨fifo, hclose, rfl⟩ := Option.map_eq_some_iff.mp hstep
      obtain ⟨c, entry, advanced, hproducer, hres, hholds⟩ := h
      have hsafe : Fifo.Safe g s.fifo (.closePush 0) := by
        refine ⟨trivial, ?_⟩
        change (s.fifo.producer 0).CloseExact g s.fifo.fifo
        rw [hproducer]
        exact hres.commitExact hsize (hinv.covers hproducer)
      obtain ⟨c', entry', advanced', hproducer', hfifo⟩ := Fifo.closePushStep_cases hclose
      rw [hproducer] at hproducer'
      obtain ⟨rfl, rfl, rfl⟩ := Fifo.Producer.context.inj hproducer'
      have hidle : fifo.producer 0 = .idle := by
        rw [hfifo]
        exact Function.update_self (0 : Nat) _ s.fifo.producer
      have hdelivered : fifo.log.delivered = s.fifo.log.delivered := by
        rw [hfifo]
        dsimp only
        split <;> rfl
      have hsame : fifo.log.reserved = s.fifo.log.reserved := by
        rw [hfifo]
        dsimp only
        split <;> rfl
      exact {
        fifo := ⟨_, hsafe, hclose⟩
        reserved := hsame.trans hreserved
        call := by
          refine ⟨hidle, ?_⟩
          dsimp only
          rw [hfifo]
          rcases hres with ⟨hover, hcommitted⟩ | ⟨hover, hn, pushed, haccepted, hentry, hcommitted⟩
          · dsimp only
            rw [if_pos hover]
            exact hcommitted
          · dsimp only
            rw [if_neg (ne_true_of_eq_false hover), hn, haccepted, hentry]
            refine hcommitted.commit event fun k hk => ?_
            have hbyte : k < event.bytes.length := by rwa [event.length_bytes]
            unfold Fifo.contextContent
            rw [Nat.add_sub_cancel_left, (hinv.covers hproducer hover).1, Nat.mod_add_mod,
              hholds hover k hbyte]
            exact List.getElem?_eq_getElem hbyte
        accepted := List.prefix_rfl
        consumer := by rw [hfifo]; rfl
        delivered := hdelivered
        pull := rfl
        packets := rfl
        wire := rfl
        client := rfl }
  | idle | opened event => rw [hcall] at hstep; cases hstep

end Trace

end Carbon
