import Carbon.Library.Transition
import Mathlib.Algebra.Ring.Nat
import Mathlib.Data.List.Basic

namespace Carbon

namespace Console

-- A pbuf of a received netbuf: a non-empty run of bytes whose length fits the
-- u16_t of netbuf_data.
structure Segment where
  bytes : List UInt8
  nonempty : bytes ≠ []
  fits : bytes.length < 2 ^ 16

-- A netbuf is a chain of at least one pbuf.
structure Netbuf where
  first : Segment
  rest : List Segment

def Netbuf.bytes (netbuf : Netbuf) : List UInt8 :=
  netbuf.first.bytes ++ netbuf.rest.flatMap Segment.bytes

-- A byte together with its place in the received streams.
structure Byte where
  connection : Nat
  index : Nat
  value : UInt8
  deriving DecidableEq

def place (connection start : Nat) (bytes : List UInt8) : List Byte :=
  (bytes.zipIdx start).map fun p => ⟨connection, p.2, p.1⟩

-- What one connection has delivered to netconn_recv and what the console has
-- made of it.
structure Session where
  connection : Nat
  netbufs : List Netbuf
  returned : List Byte

def Session.received (session : Session) : List UInt8 := session.netbufs.flatMap Netbuf.bytes

def Session.stream (session : Session) : List Byte := place session.connection 0 session.received

-- TASK_MicroPython: running the script, accepting a connection, in
-- pyexec_friendly_repl, or in its last endless loop.
inductive Phase
  | script
  | accepting
  | repl
  | dead
  deriving DecidableEq

-- recvBuf is the memory from the read position to the end of the segment. The
-- sessions are for the proofs: the last accepted connection and those before.
structure State where
  phase : Phase
  newConnection : Option Nat
  recvNetbuf : Option Netbuf
  recvBuf : List Byte
  recvBufSize : Nat
  session : Session
  past : List Session

inductive Read
  | byte (b : Byte)
  | receiveError
  | noConnection
  deriving DecidableEq

-- The int that mp_carbon_stdint returns.
def Read.code : Read → Nat
  | .byte b => b.value.toNat
  | .receiveError => 4
  | .noConnection => 0

-- Reading the byte at the read position and advancing past it; the size is a
-- uint16_t.
def readNext (s : State) : Option (Read × State) :=
  match s.recvBuf with
  | [] => none
  | c :: rest =>
      some (.byte c, { s with
        recvBuf := rest
        recvBufSize := (s.recvBufSize + (2 ^ 16 - 1)) % 2 ^ 16
        session := { s.session with returned := s.session.returned ++ [c] } })

-- netconn_recv stores a netbuf or, with any error, NULL; netbuf_data then
-- yields the first segment.
def netconnRecv (s : State) (connection : Nat) : Option Netbuf → State
  | none => { s with recvNetbuf := none }
  | some netbuf =>
      { s with
        recvNetbuf := some netbuf
        recvBuf := place connection s.session.received.length netbuf.first.bytes
        recvBufSize := netbuf.first.bytes.length
        session := { s.session with netbufs := s.session.netbufs ++ [netbuf] } }

def mpCarbonStdint (s : State) (recv : Option Netbuf) : Option (Read × State) :=
  match s.newConnection with
  | none => some (.noConnection, s)
  | some connection =>
      if s.recvBufSize = 0 then
        match recv with
        | none => some (.receiveError, netconnRecv s connection none)
        | some netbuf => readNext (netconnRecv s connection (some netbuf))
      else readNext s

def closeConnection (s : State) : State :=
  { s with recvNetbuf := none, recvBufSize := 0, newConnection := none }

def mpCarbonStdout (s : State) (writeFails : Bool) : State :=
  match s.newConnection with
  | some _ => if writeFails then closeConnection s else s
  | none => s

-- The script or the REPL returns.
def finish (s : State) (ret : Int) : Option State :=
  match s.phase with
  | .script => some { s with phase := .accepting }
  | .repl =>
      if ret ≠ 0 then some { closeConnection s with phase := .accepting }
      else if s.newConnection = none then some { s with phase := .accepting }
      else some s
  | .accepting | .dead => none

def accept (s : State) (fails : Bool) : Option State :=
  match s.phase with
  | .accepting =>
      if fails then some { s with phase := .dead, newConnection := none }
      else
        let connection := s.session.connection + 1
        some { s with
          phase := .repl
          newConnection := some connection
          session := ⟨connection, [], []⟩
          past := s.session :: s.past }
  | .script | .repl | .dead => none

-- Both the script and the REPL read and write through the console.
def running (s : State) : Bool := s.phase = .script || s.phase = .repl

inductive Event
  | stdin (recv : Option Netbuf)
  | stdout (writeFails : Bool)
  | finish (ret : Int)
  | accept (fails : Bool)

def step (s : State) : Event → Option State
  | .stdin recv => if running s then (mpCarbonStdint s recv).map Prod.snd else none
  | .stdout writeFails => if running s then some (mpCarbonStdout s writeFails) else none
  | .finish ret => finish s ret
  | .accept fails => accept s fails

def start : State := ⟨.script, none, none, [], 0, ⟨0, [], []⟩, []⟩

def system : Transition.System State Event where
  initial s := s = start
  step := step

def sessions (s : State) : List Session := s.session :: s.past

-- Every connection is told apart from the others and has returned a prefix of
-- its own stream, in the order and at the places it was received.
structure Faithful (s : State) : Prop where
  returned : ∀ session ∈ sessions s, session.returned <+: session.stream
  connections : ((sessions s).map Session.connection).Pairwise (· > ·)

def Session.unchained (session : Session) : Bool := session.netbufs.all fun netbuf => netbuf.rest.isEmpty

-- A netbuf is taken on a connection only while all its earlier ones were
-- single segments.
def Unchained (s : State) : Event → Prop
  | .stdin (some _) => s.newConnection ≠ none → s.recvBufSize = 0 → s.session.unchained = true
  | .stdin none | .stdout _ | .finish _ | .accept _ => True

instance (s : State) : DecidablePred (Unchained s)
  | .stdin (some _) => inferInstanceAs
      (Decidable (s.newConnection ≠ none → s.recvBufSize = 0 → s.session.unchained = true))
  | .stdin none | .stdout _ | .finish _ | .accept _ => isTrue trivial

-- The bytes of the segment that are still to be returned.
def pending (s : State) : List Byte := s.recvBuf.take s.recvBufSize

-- What the segment does not show of the stream is lost; on an open connection
-- that is nothing exactly as long as no netbuf was a chain.
structure Inv (s : State) : Prop where
  size : s.recvBufSize ≤ s.recvBuf.length
  fits : s.recvBuf.length < 2 ^ 16
  idle : s.newConnection = none → s.recvBufSize = 0
  opened : s.newConnection ≠ none → s.phase = .repl
  connection : ∀ connection, s.newConnection = some connection → connection = s.session.connection
  stream : ∃ lost, s.session.stream = s.session.returned ++ pending s ++ lost ∧
    (s.newConnection ≠ none → (lost = [] ↔ s.session.unchained = true))
  past : ∀ session ∈ s.past, session.returned <+: session.stream
  connections : ((sessions s).map Session.connection).Pairwise (· > ·)

variable {s t : State}

theorem place_append (connection start : Nat) (front back : List UInt8) :
    place connection start (front ++ back) =
      place connection start front ++ place connection (start + front.length) back := by
  unfold place
  rw [List.zipIdx_append, List.map_append]

@[simp] theorem length_place (connection start : Nat) (bytes : List UInt8) :
    (place connection start bytes).length = bytes.length := by
  simp [place]

theorem place_eq_nil {connection start : Nat} {bytes : List UInt8} :
    place connection start bytes = [] ↔ bytes = [] := by
  rw [← List.length_eq_zero_iff, length_place, List.length_eq_zero_iff]

theorem index_place {connection start k : Nat} {bytes : List UInt8} {b : Byte}
    (h : (place connection start bytes)[k]? = some b) : b.index = start + k := by
  simp only [place, List.getElem?_map, List.getElem?_zipIdx, Option.map_eq_some_iff] at h
  obtain ⟨p, ⟨v, _, rfl⟩, rfl⟩ := h
  rfl

theorem flatMap_bytes_eq_nil {segments : List Segment} :
    segments.flatMap Segment.bytes = [] ↔ segments.isEmpty = true := by
  cases segments with
  | nil => simp
  | cons segment rest => simp [segment.nonempty]

theorem Session.received_append (session : Session) (netbuf : Netbuf) :
    { session with netbufs := session.netbufs ++ [netbuf] : Session }.received =
      session.received ++ (netbuf.first.bytes ++ netbuf.rest.flatMap Segment.bytes) := by
  simp [Session.received, Netbuf.bytes]

-- A netbuf extends the stream by the segment that becomes readable and by the
-- rest of its chain.
theorem Session.stream_append (session : Session) (netbuf : Netbuf) :
    { session with netbufs := session.netbufs ++ [netbuf] : Session }.stream =
      session.stream ++ place session.connection session.received.length netbuf.first.bytes ++
        place session.connection (session.received.length + netbuf.first.bytes.length)
          (netbuf.rest.flatMap Segment.bytes) := by
  unfold Session.stream
  rw [Session.received_append, place_append, place_append]
  simp [List.append_assoc]

theorem Session.unchained_append (session : Session) (netbuf : Netbuf) :
    { session with netbufs := session.netbufs ++ [netbuf] : Session }.unchained =
      (session.unchained && netbuf.rest.isEmpty) := by
  simp [Session.unchained]

-- Inside the segment a read returns its next byte.
theorem readNext_of_pos (hsize : 0 < s.recvBufSize) (hlen : s.recvBufSize ≤ s.recvBuf.length)
    (hfits : s.recvBuf.length < 2 ^ 16) :
    ∃ c rest, s.recvBuf = c :: rest ∧
      readNext s = some (.byte c, { s with
        recvBuf := rest
        recvBufSize := s.recvBufSize - 1
        session := { s.session with returned := s.session.returned ++ [c] } }) := by
  cases hbuf : s.recvBuf with
  | nil => rw [hbuf, List.length_nil] at hlen; omega
  | cons c rest =>
      have hwrap : (s.recvBufSize + (2 ^ 16 - 1)) % 2 ^ 16 = s.recvBufSize - 1 := by omega
      refine ⟨c, rest, rfl, ?_⟩
      unfold readNext
      rw [hbuf]
      dsimp only
      rw [hwrap]

-- A read moves one byte from the pending ones to the returned ones.
theorem Inv.readNext (h : Inv s) (hopen : s.newConnection ≠ none) (hsize : 0 < s.recvBufSize) :
    ∃ r t, Console.readNext s = some (r, t) ∧ Inv t := by
  obtain ⟨c, rest, hbuf, hread⟩ := readNext_of_pos hsize h.size h.fits
  obtain ⟨lost, hstream, hlost⟩ := h.stream
  have hlen : s.recvBufSize ≤ rest.length + 1 := by
    have := h.size
    rwa [hbuf, List.length_cons] at this
  have hpending : pending s = c :: rest.take (s.recvBufSize - 1) := by
    unfold pending
    rw [hbuf]
    obtain ⟨n, hn⟩ : ∃ n, s.recvBufSize = n + 1 := ⟨s.recvBufSize - 1, by omega⟩
    rw [hn, List.take_succ_cons, Nat.add_sub_cancel]
  refine ⟨_, _, hread, ?_⟩
  exact {
    size := by dsimp only; omega
    fits := by
      have := h.fits
      rw [hbuf, List.length_cons] at this
      dsimp only
      omega
    idle := fun hnone => absurd hnone hopen
    opened := h.opened
    connection := h.connection
    stream := by
      refine ⟨lost, ?_, hlost⟩
      change s.session.stream = s.session.returned ++ [c] ++ rest.take (s.recvBufSize - 1) ++ lost
      rw [hstream, hpending]
      simp [List.append_assoc]
    past := h.past
    connections := h.connections }

theorem Inv.netconnRecv (h : Inv s) {connection : Nat} (hconn : s.newConnection = some connection)
    (hsize : s.recvBufSize = 0) (hunchained : s.session.unchained = true) (netbuf : Netbuf) :
    Inv (netconnRecv s connection (some netbuf)) := by
  have hopen : s.newConnection ≠ none := by rw [hconn]; exact Option.some_ne_none _
  obtain rfl := h.connection _ hconn
  obtain ⟨lost, hstream, hlost⟩ := h.stream
  have hdone : s.session.stream = s.session.returned := by
    rw [hstream, (hlost hopen).mpr hunchained, pending, hsize]
    simp
  have hlen := length_place s.session.connection s.session.received.length netbuf.first.bytes
  exact {
    size := Nat.le_of_eq hlen.symm
    fits := hlen ▸ netbuf.first.fits
    idle := fun hnone => absurd hnone hopen
    opened := h.opened
    connection := h.connection
    stream := by
      refine ⟨place s.session.connection (s.session.received.length + netbuf.first.bytes.length)
        (netbuf.rest.flatMap Segment.bytes), ?_, fun _ => ?_⟩
      · unfold Console.netconnRecv pending
        dsimp only
        rw [Session.stream_append, hdone, List.take_of_length_le (Nat.le_of_eq hlen)]
      · unfold Console.netconnRecv
        dsimp only
        rw [place_eq_nil, flatMap_bytes_eq_nil, Session.unchained_append, hunchained, Bool.true_and]
    past := h.past
    connections := h.connections }

theorem Inv.stdin (h : Inv s) {recv : Option Netbuf} (hok : Unchained s (.stdin recv)) :
    ∃ r t, mpCarbonStdint s recv = some (r, t) ∧ Inv t := by
  unfold mpCarbonStdint
  cases hconn : s.newConnection with
  | none => exact ⟨_, _, rfl, h⟩
  | some connection =>
      have hopen : s.newConnection ≠ none := by rw [hconn]; exact Option.some_ne_none _
      dsimp only
      by_cases hsize : s.recvBufSize = 0
      · rw [if_pos hsize]
        cases recv with
        | none => exact ⟨_, _, rfl, { h with }⟩
        | some netbuf =>
            have hrecv := h.netconnRecv hconn hsize (hok hopen hsize) netbuf
            exact hrecv.readNext hopen (List.length_pos_iff.mpr netbuf.first.nonempty)
      · rw [if_neg hsize]
        exact h.readNext hopen (Nat.pos_of_ne_zero hsize)

theorem Inv.closeConnection (h : Inv s) : Inv (closeConnection s) := by
  obtain ⟨lost, hstream, _⟩ := h.stream
  exact {
    size := Nat.zero_le _
    fits := h.fits
    idle := fun _ => rfl
    opened := fun hopen => absurd rfl hopen
    connection := fun _ hsome => nomatch hsome
    stream := ⟨pending s ++ lost, by
      change s.session.stream = s.session.returned ++ [] ++ (pending s ++ lost)
      rw [hstream]
      simp, fun hopen => absurd rfl hopen⟩
    past := h.past
    connections := h.connections }

theorem Inv.returned (h : Inv s) : s.session.returned <+: s.session.stream := by
  obtain ⟨lost, hstream, _⟩ := h.stream
  rw [hstream, List.append_assoc]
  exact List.prefix_append _ _

theorem Inv.stdout (h : Inv s) (writeFails : Bool) : Inv (mpCarbonStdout s writeFails) := by
  unfold mpCarbonStdout
  cases hconn : s.newConnection with
  | none => exact h
  | some connection =>
      cases writeFails with
      | false => exact h
      | true => exact h.closeConnection

theorem Inv.finish (h : Inv s) {ret : Int} (hstep : Console.finish s ret = some t) : Inv t := by
  unfold Console.finish at hstep
  cases hphase : s.phase with
  | script =>
      rw [hphase] at hstep
      cases hstep
      exact { h with opened := fun hopen => nomatch hphase.symm.trans (h.opened hopen) }
  | repl =>
      rw [hphase] at hstep
      dsimp only at hstep
      split at hstep
      · cases hstep
        exact { h.closeConnection with opened := fun hopen => absurd rfl hopen }
      · split at hstep
        · rename_i hnone
          cases hstep
          exact { h with opened := fun hopen => absurd hnone hopen }
        · cases hstep
          exact h
  | accepting | dead => rw [hphase] at hstep; cases hstep

theorem Inv.accept (h : Inv s) {fails : Bool} (hstep : Console.accept s fails = some t) : Inv t := by
  unfold Console.accept at hstep
  cases hphase : s.phase with
  | accepting =>
      have hnone : s.newConnection = none := by
        by_contra hopen
        exact nomatch hphase.symm.trans (h.opened hopen)
      have hzero := h.idle hnone
      rw [hphase] at hstep
      cases fails with
      | true =>
          cases hstep
          obtain ⟨lost, hstream, _⟩ := h.stream
          exact {
            h with
            idle := fun _ => hzero
            opened := fun hopen => absurd rfl hopen
            connection := fun _ hsome => nomatch hsome
            stream := ⟨lost, hstream, fun hopen => absurd rfl hopen⟩ }
      | false =>
          cases hstep
          exact {
            size := h.size
            fits := h.fits
            idle := fun hsome => nomatch hsome
            opened := fun _ => rfl
            connection := fun _ hsome => (Option.some.inj hsome).symm
            stream := by
              refine ⟨[], ?_, fun _ => iff_of_true rfl rfl⟩
              simp [pending, hzero, Session.stream, Session.received, place]
            past := by
              intro session hmem
              rcases List.mem_cons.mp hmem with rfl | hmem
              · exact h.returned
              · exact h.past session hmem
            connections := by
              refine List.pairwise_cons.mpr ⟨?_, h.connections⟩
              intro old hold
              have hle : old ≤ s.session.connection := by
                rcases List.mem_cons.mp hold with rfl | hold
                · exact Nat.le_refl _
                · exact Nat.le_of_lt ((List.pairwise_cons.mp h.connections).1 old hold)
              exact Nat.lt_succ_of_le hle }
  | script | repl | dead => rw [hphase] at hstep; cases hstep

theorem Inv.step (h : Inv s) {e : Event} (hok : Unchained s e) (hstep : Console.step s e = some t) :
    Inv t := by
  cases e with
  | stdin recv =>
      obtain ⟨r, u, hstdin, hu⟩ := h.stdin hok
      simp only [Console.step, hstdin, Option.map_some, Option.ite_none_right_eq_some,
        Option.some.injEq] at hstep
      obtain ⟨_, rfl⟩ := hstep
      exact hu
  | stdout writeFails =>
      simp only [Console.step, Option.ite_none_right_eq_some, Option.some.injEq] at hstep
      obtain ⟨_, rfl⟩ := hstep
      exact h.stdout writeFails
  | finish ret => exact h.finish hstep
  | accept fails => exact h.accept hstep

theorem inv_start : Inv start where
  size := Nat.le_refl _
  fits := by decide
  idle _ := rfl
  opened hopen := absurd rfl hopen
  connection _ hsome := nomatch hsome
  stream := ⟨[], rfl, fun hopen => absurd rfl hopen⟩
  past _ hmem := nomatch hmem
  connections := List.pairwise_singleton _ _

theorem Inv.of_reachable (hs : system.ReachableBy Unchained s) : Inv s :=
  hs.invariant (fun _ hi => hi ▸ inv_start) fun _ _ _ h hok hstep => h.step hok hstep

theorem Inv.faithful (h : Inv s) : Faithful s where
  returned := by
    intro session hmem
    rcases List.mem_cons.mp hmem with rfl | hmem
    · exact h.returned
    · exact h.past session hmem
  connections := h.connections

-- The first byte of a netbuf taken behind a chain is returned in the place of
-- one the chain has lost.
theorem Inv.not_faithful (h : Inv s) {e : Event} (hbad : ¬Unchained s e)
    (hstep : Console.step s e = some t) : ¬Faithful t := by
  cases e with
  | stdout _ | finish _ | accept _ => exact absurd trivial hbad
  | stdin recv =>
      cases recv with
      | none => exact absurd trivial hbad
      | some netbuf =>
          obtain ⟨hopen, hrest⟩ := Classical.not_imp.mp hbad
          obtain ⟨hsize, hchained⟩ := Classical.not_imp.mp hrest
          obtain ⟨connection, hconn⟩ := Option.ne_none_iff_exists'.mp hopen
          obtain ⟨lost, hstream, hlost⟩ := h.stream
          have hsome : lost ≠ [] := fun hnil => hchained ((hlost hopen).mp hnil)
          have hlen : s.session.returned.length < s.session.received.length := by
            have hcount := congrArg List.length hstream
            rw [Session.stream, length_place, pending, hsize, List.take_zero, List.append_nil,
              List.length_append] at hcount
            have := List.length_pos_iff.mpr hsome
            omega
          obtain ⟨b, rest, hfirst⟩ := List.exists_cons_of_ne_nil netbuf.first.nonempty
          have hread : ∃ r, mpCarbonStdint s (some netbuf) = some (r, t) := by
            simp only [Console.step, Option.ite_none_right_eq_some, Option.map_eq_some_iff,
              Prod.exists, exists_eq_right] at hstep
            exact hstep.2
          obtain ⟨r, hread⟩ := hread
          have ht : t.session.returned =
              s.session.returned ++ [⟨connection, s.session.received.length, b⟩] := by
            unfold mpCarbonStdint at hread
            rw [hconn] at hread
            dsimp only at hread
            rw [if_pos hsize] at hread
            unfold Console.netconnRecv Console.readNext at hread
            dsimp only at hread
            rw [hfirst] at hread
            cases hread
            rfl
          intro hfaithful
          obtain ⟨tail, htail⟩ := hfaithful.returned t.session List.mem_cons_self
          have hplace : t.session.stream[s.session.returned.length]? =
              some ⟨connection, s.session.received.length, b⟩ := by
            rw [← htail, ht]
            simp
          have hindex := index_place hplace
          dsimp only at hindex
          omega

-- In a run whose connections take no netbuf behind a chain of several segments
-- every connection returns a prefix of its own stream. The first netbuf taken
-- behind a chain breaks it.
theorem console_faithful (hs : system.ReachableBy Unchained s) :
    Faithful s ∧ ∀ e t, ¬Unchained s e → system.step s e = some t → ¬Faithful t :=
  have h := Inv.of_reachable hs
  ⟨h.faithful, fun _ _ hbad hstep => h.not_faithful hbad hstep⟩

def segment (value : UInt8) : Segment := ⟨[value], by simp, by simp⟩

-- A netbuf of two segments followed by another one: the second byte is lost.
theorem chain_loses_segment : ¬∀ s, system.Reachable s → Faithful s := by
  intro h
  have hlast := h _ (.get system (fun _ _ => True)
    [.finish 0, .accept false, .stdin (some ⟨segment 97, [segment 98]⟩),
      .stdin (some ⟨segment 99, []⟩)] (s := start) rfl (by decide))
  have hreturned := hlast.returned _ List.mem_cons_self
  revert hreturned
  decide

-- Two connections, the first closed by a failed write in the middle of a
-- segment, with a receive error in the second one.
theorem console_faithful_run :
    ∃ s : State, (sessions s).map (fun session => session.returned.map Byte.value) = [[99, 100], [97], []] ∧
      Faithful s := by
  have hreach := Transition.System.ReachableBy.get system Unchained
    [.finish 0, .accept false, .stdin (some ⟨⟨[97, 98], by simp, by simp⟩, []⟩), .stdout true, .finish 0,
      .accept false, .stdin (some ⟨segment 99, []⟩), .stdin none, .stdin (some ⟨segment 100, [segment 101]⟩)]
    (s := start) rfl (by decide)
  refine ⟨_, ?_, (console_faithful hreach).1⟩
  decide

end Console

end Carbon
