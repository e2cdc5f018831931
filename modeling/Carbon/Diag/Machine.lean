import Carbon.Fifo.Machine

namespace Carbon

namespace Diag

-- FIFO_DECLARATION_8BIT_ALIG(diag, uint8_t, NELEMENTS, Diag): an array of
-- NELEMENTS + 1 bytes, no longer than an array can be on this target
-- (PTRDIFF_MAX bytes), somewhere in its address space.
structure Declaration where
  nElements : Nat
  diagBufferPtr : Nat
  array : nElements + 1 < 2 ^ 31
  placed : diagBufferPtr + (nElements + 1) < 2 ^ 32

def Declaration.fifo (d : Declaration) : Geometry :=
  .ofBytes d.nElements d.diagBufferPtr d.placed

-- The callers of carbon_diag_push, each with the characters vfctprintf has
-- still to emit if it is inside the call, and the one caller of carbon_diag_pull.
-- `accepted` lists the messages in the order in which they got a reservation;
-- no step reads it.
structure State where
  diagFifo : Fifo.State UInt8
  rest : Nat → Option (List UInt8)
  accepted : List (List UInt8)

inductive Event
  | push (p : Nat) (message : List UInt8)
  | output (p : Nat)
  | close (p : Nat)
  | popLook
  | popRemove (ch : UInt8)
  | popAdvance

variable (d : Declaration)

-- The ContextPush constructor with the length vsnprintf_ returned. A call that
-- overflows writes nothing and returns.
def pushStep (s : State) (p : Nat) (message : List UInt8) : Option State :=
  match s.rest p with
  | some _ => none
  | none =>
      (Fifo.step d.fifo s.diagFifo (.openPush p message.length)).map fun diagFifo =>
        if (ContextPush.construct d.fifo s.diagFifo.fifo message.length).2.isOverflow then
          { s with diagFifo := diagFifo, rest := Function.update s.rest p (some []) }
        else
          { diagFifo := diagFifo, rest := Function.update s.rest p (some message)
            accepted := s.accepted ++ [message] }

-- fifo_output, called by vfctprintf for one character.
def outputStep (s : State) (p : Nat) : Option State :=
  match s.rest p with
  | some (character :: rest) =>
      (Fifo.step d.fifo s.diagFifo (.contextPush p character)).map fun diagFifo =>
        { s with diagFifo := diagFifo, rest := Function.update s.rest p (some rest) }
  | _ => none

-- The ContextPush destructor when the call returns.
def closeStep (s : State) (p : Nat) : Option State :=
  match s.rest p with
  | some [] =>
      (Fifo.step d.fifo s.diagFifo (.closePush p)).map fun diagFifo =>
        { s with diagFifo := diagFifo, rest := Function.update s.rest p none }
  | _ => none

-- The parts of diagFifo.pop in the loop of carbon_diag_pull.
def popStep (s : State) (e : Fifo.Event UInt8) : Option State :=
  (Fifo.step d.fifo s.diagFifo e).map fun diagFifo => { s with diagFifo := diagFifo }

def step (s : State) : Event → Option State
  | .push p message => pushStep d s p message
  | .output p => outputStep d s p
  | .close p => closeStep d s p
  | .popLook => popStep d s .popLook
  | .popRemove ch => popStep d s (.popRemove ch)
  | .popAdvance => popStep d s .popAdvance

def start (buffer : Nat → UInt8) : State := ⟨Fifo.start buffer, fun _ => none, []⟩

def system : Transition.System State Event where
  initial s := ∃ buffer, s = start buffer
  step := step d

end Diag

end Carbon
