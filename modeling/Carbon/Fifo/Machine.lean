import Carbon.Library.Transition
import Carbon.Library.Reservation
import Carbon.Fifo.Pull

namespace Carbon

namespace Fifo

open Reservation

variable {α : Type}

-- Where a producer stands. `entry` numbers its first reserved slot in
-- reservation order and `advanced` counts the slots index_ has moved; both are
-- for the proofs only.
inductive Producer (α : Type)
  | idle
  | pushing (object : α) (fifoPos entry : Nat)
  | pushed (fifoPos entry : Nat)
  | context (c : ContextPush) (entry advanced : Nat)
  | filling (c : ContextPush) (entry advanced i length : Nat)

inductive Consumer (α : Type)
  | idle
  | looked (currentHead : Nat)
  | removed (currentHead : Nat) (object : α)
  | pulling (c : ContextPull) (values : List α)

-- The FIFO, its users, and the history of reservations, commits and
-- deliveries, which no step reads.
structure State (α : Type) where
  fifo : Fifo α
  producer : Nat → Producer α
  consumer : Consumer α
  log : Log α

-- The atomic parts of the operations: whatever a lock guards is one part, and
-- so is every access made without it.
inductive Event (α : Type)
  | pushReserve (p : Nat) (object : α)
  | pushInsert (p : Nat)
  | pushCommit (p : Nat)
  | openPush (p nObjects : Nat)
  | contextPush (p : Nat) (object : α)
  | contextArray (p : Nat) (objects : List α)
  | arrayEnter (p length : Nat)
  | arrayRound (p : Nat) (object : α)
  | closePush (p : Nat)
  | popLook
  | popRemove (object : α)
  | popAdvance
  | openPull
  | pullRead
  | closePull

def State.setProducer (s : State α) (p : Nat) (producer : Producer α) : State α :=
  { s with producer := Function.update s.producer p producer }

variable (g : Geometry)

-- What the reserved slots hold when the context commits them.
def contextContent (f : Fifo α) (c : ContextPush) (entry : Nat) : Nat → α := fun i =>
  f.buffer ((c.fifoPosStart + (i - entry)) % g.bufferSize)

-- The producers' parts. A refused push and an overflowed context leave
-- everything as it is.
def pushReserveStep (s : State α) (p : Nat) (object : α) : Option (State α) :=
  match s.producer p with
  | .idle =>
      match s.fifo.pushReserve g with
      | (none, _) => some s
      | (some fifoPos, fifo) =>
          some { s.setProducer p (.pushing object fifoPos s.log.reserved) with
            fifo := fifo, log := s.log.promise object }
  | _ => none

def pushInsertStep (s : State α) (p : Nat) : Option (State α) :=
  match s.producer p with
  | .pushing object fifoPos entry =>
      some { s.setProducer p (.pushed fifoPos entry) with
        fifo := s.fifo.pushInsert g object fifoPos }
  | _ => none

def pushCommitStep (s : State α) (p : Nat) : Option (State α) :=
  match s.producer p with
  | .pushed fifoPos entry =>
      some { s.setProducer p .idle with
        fifo := s.fifo.pushCommit fifoPos
        log := s.log.commit entry 1 fun _ => s.fifo.buffer fifoPos }
  | _ => none

def openPushStep (s : State α) (p nObjects : Nat) : Option (State α) :=
  match s.producer p with
  | .idle =>
      if nObjects < 2 ^ 32 then
        let (fifo, c) := ContextPush.construct g s.fifo nObjects
        some { s.setProducer p (.context c s.log.reserved 0) with
          fifo := fifo, log := if c.isOverflow then s.log else s.log.reserve nObjects }
      else none
  | _ => none

def contextPushStep (s : State α) (p : Nat) (object : α) : Option (State α) :=
  match s.producer p with
  | .context c entry advanced =>
      let out := c.push g s.fifo.tailReserved object
      some { s.setProducer p (.context out.context entry (advanced + out.moved)) with
        fifo := s.fifo.write out.inserts }
  | _ => none

def contextArrayStep (s : State α) (p : Nat) (objects : List α) : Option (State α) :=
  match s.producer p with
  | .context c entry advanced =>
      if g.packed ∧ objects.length < 2 ^ 32 then
        let out := c.pushArray g objects
        some { s.setProducer p (.context out.context entry (advanced + out.moved)) with
          fifo := s.fifo.write out.inserts }
      else none
  | _ => none

def arrayEnterStep (s : State α) (p length : Nat) : Option (State α) :=
  match s.producer p with
  | .context c entry advanced =>
      if ¬g.packed ∧ length < 2 ^ 32 then
        if c.isOverflow then some s
        else some (s.setProducer p (.filling c entry advanced 0 length))
      else none
  | _ => none

def arrayRoundStep (s : State α) (p : Nat) (object : α) : Option (State α) :=
  match s.producer p with
  | .filling c entry advanced i length =>
      if c.arrayContinues s.fifo.tailReserved i length then
        let out := c.insertOne g object
        let producer :=
          if out.success then .filling out.context entry (advanced + out.moved) (uint32 (i + 1)) length
          else .context c entry advanced
        some { s.setProducer p producer with fifo := s.fifo.write out.inserts }
      else some (s.setProducer p (.context c entry advanced))
  | _ => none

def closePushStep (s : State α) (p : Nat) : Option (State α) :=
  match s.producer p with
  | .context c entry _ =>
      some { s.setProducer p .idle with
        fifo := c.destruct g s.fifo
        log := if c.isOverflow then s.log
          else s.log.commit entry c.nObjects (contextContent g s.fifo c entry) }
  | _ => none

-- The consumer's parts. A reader of a ContextPull copies the exposed elements
-- one by one, at moments of its own, and closes it when it has them all.
def popLookStep (s : State α) : Option (State α) :=
  match s.consumer with
  | .idle =>
      match s.fifo.popLook with
      | none => some s
      | some currentHead => some { s with consumer := .looked currentHead }
  | _ => none

def popRemoveStep (s : State α) (object : α) : Option (State α) :=
  match s.consumer with
  | .looked currentHead =>
      (s.fifo.popRemove g object currentHead).map fun value =>
        { s with consumer := .removed currentHead value }
  | _ => none

def popAdvanceStep (s : State α) : Option (State α) :=
  match s.consumer with
  | .removed currentHead object =>
      some { s with
        fifo := s.fifo.popAdvance g currentHead
        consumer := .idle
        log := s.log.deliver [object] }
  | _ => none

def openPullStep (s : State α) : Option (State α) :=
  match s.consumer with
  | .idle => (ContextPull.construct g s.fifo).map fun c => { s with consumer := .pulling c [] }
  | _ => none

def pullReadStep (s : State α) : Option (State α) :=
  match s.consumer with
  | .pulling c values =>
      if values.length < c.dataLength1 + c.dataLength2 then
        some { s with consumer := .pulling c (values ++ [s.fifo.buffer (c.slot values.length)]) }
      else none
  | _ => none

def closePullStep (s : State α) : Option (State α) :=
  match s.consumer with
  | .pulling c values =>
      if values.length = c.dataLength1 + c.dataLength2 then
        some { s with
          fifo := ContextPull.destruct g s.fifo c
          consumer := .idle
          log := s.log.deliver values }
      else none
  | _ => none

def step (s : State α) : Event α → Option (State α)
  | .pushReserve p object => pushReserveStep g s p object
  | .pushInsert p => pushInsertStep g s p
  | .pushCommit p => pushCommitStep s p
  | .openPush p nObjects => openPushStep g s p nObjects
  | .contextPush p object => contextPushStep g s p object
  | .contextArray p objects => contextArrayStep g s p objects
  | .arrayEnter p length => arrayEnterStep g s p length
  | .arrayRound p object => arrayRoundStep g s p object
  | .closePush p => closePushStep g s p
  | .popLook => popLookStep s
  | .popRemove object => popRemoveStep g s object
  | .popAdvance => popAdvanceStep g s
  | .openPull => openPullStep g s
  | .pullRead => pullReadStep s
  | .closePull => closePullStep g s

-- An initialised FIFO: empty, with any contents in its buffer.
def start (buffer : Nat → α) : State α :=
  ⟨⟨0, 0, fun _ => 0#8, buffer⟩, fun _ => .idle, .idle, Log.empty⟩

def system : Transition.System (State α) (Event α) where
  initial s := ∃ buffer, s = start buffer
  step := step g

end Fifo

end Carbon
